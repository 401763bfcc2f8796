import Enigma.PoolStep
import Enigma.Indexed

namespace Enigma.PoolStartup

open Transition ThreadPool PoolStep Indexed

/-- A pool that is not started and has no workers, with no call under way. -/
structure Stopped (s : State) : Prop where
  start : s.pool.start = false
  workers : s.pool.workers = []
  calls : ∀ (c : Nat) pc, s.calls[c]? = some pc → ∃ r, pc = .done r

/-- What is seen of a run: a call of Startup is made, and it finds the pool stopped, while
another one that found it so has not yet started it or not. -/
inductive Entry
  | requested (c : Nat) (a : Args)
  | entered (c : Nat) (overlap : Bool)
  deriving DecidableEq

def between : CallPc → Bool
  | .startupMax _ | .startupExpand _ | .startupLock _ | .startupCreate _ _ | .startupStart => true
  | _ => false

def checkObs (s : State) (c : Nat) : CallPc → List Entry
  | .startupCheck _ => if s.pool.start then [] else [.entered c (s.calls.any between)]
  | _ => []

def obs (s : State) : Action → List Entry
  | .call (.startup a) => [.requested s.calls.length a]
  | .step c _ _ => (s.calls[c]?).elim [] (checkObs s c)
  | _ => []

def Starting : Action → Prop
  | .call (.startup _) | .step _ _ _ | .worker _ _ => True
  | .call _ => False

/-- Of the calls made since, one has gone through, and the pool is as it asked. -/
def StartedOnce (s₀ s : State) (log : List Entry) : Prop := ∃ c a, .requested c a ∈ log ∧
  (∀ d, s₀.calls.length ≤ d → (s.calls[d]? = some (.done .started) ↔ d = c)) ∧
  s.pool.workers.length = a.createCount ∧ s.pool.maxTaskCount = a.limit ∧ s.pool.allowExpand = a.allowExpand

def inside : CallPc → Bool
  | .startupMax _ | .startupExpand _ | .startupLock _ | .startupCreate _ _ | .startupStart | .startupUnlock
  | .done .started => true
  | _ => false

def Progress (s : Pool) (a : Args) : CallPc → Prop
  | .startupMax b => b = a ∧ s.start = false ∧ s.workers = []
  | .startupExpand b => b = a ∧ s.start = false ∧ s.workers = [] ∧ s.maxTaskCount = a.limit
  | .startupLock b => b = a ∧ s.start = false ∧ s.workers = [] ∧ s.maxTaskCount = a.limit ∧ s.allowExpand = a.allowExpand
  | .startupCreate b i => b = a ∧ s.start = false ∧ s.workers.length = i ∧ i ≤ a.createCount ∧
      s.maxTaskCount = a.limit ∧ s.allowExpand = a.allowExpand
  | .startupStart => s.start = false ∧ s.workers.length = a.createCount ∧ s.maxTaskCount = a.limit ∧
      s.allowExpand = a.allowExpand
  | .startupUnlock | .done .started => s.start = true ∧ s.workers.length = a.createCount ∧
      s.maxTaskCount = a.limit ∧ s.allowExpand = a.allowExpand
  | _ => False

variable {hw c : Nat} {s s' : Pool} {pc pc' : CallPc} {a : Args}

theorem callStep_progress (hs : CallStep hw c s pc s' pc') (hp : Progress s a pc) : Progress s' a pc' := by
  cases hs with
  | startupMax b =>
      obtain ⟨rfl, hstart, hworkers⟩ := hp
      exact ⟨rfl, hstart, hworkers, rfl⟩
  | startupExpand b =>
      obtain ⟨rfl, hstart, hworkers, hmax⟩ := hp
      exact ⟨rfl, hstart, hworkers, hmax, rfl⟩
  | startupLock b h =>
      obtain ⟨rfl, hstart, hworkers, hmax, hallow⟩ := hp
      exact ⟨rfl, hstart, by rw [hworkers]; rfl, Nat.zero_le _, hmax, hallow⟩
  | startupCreate b i h =>
      obtain ⟨rfl, hstart, hworkers, -, hmax, hallow⟩ := hp
      exact ⟨rfl, hstart, by simp [hworkers], h, hmax, hallow⟩
  | startupCreated b i h =>
      obtain ⟨rfl, hstart, hworkers, hle, hmax, hallow⟩ := hp
      exact ⟨hstart, by omega, hmax, hallow⟩
  | startupStart =>
      obtain ⟨-, hworkers, hmax, hallow⟩ := hp
      exact ⟨rfl, hworkers, hmax, hallow⟩
  | startupUnlock => exact hp
  | dangling pc w wk ht => cases pc <;> first | exact hp.elim | cases ht
  | _ => exact hp.elim

theorem progress_inside (hp : Progress s a pc) : inside pc = true := by
  unfold Progress at hp
  split at hp <;> first | rfl | exact hp.elim

theorem progress_started (hp : Progress s a pc) (hb : between pc = false) : s.start = true := by
  unfold Progress at hp
  split at hp <;> first | exact hp.1 | exact hp.elim | cases hb

theorem between_inside (hb : between pc = true) : inside pc = true := by
  cases pc <;> first | rfl | cases hb

theorem callStep_inside (hs : CallStep hw c s pc s' pc') (hi : inside pc = true) : inside pc' = true := by
  cases hs with
  | startupMax | startupExpand | startupLock | startupCreate | startupCreated | startupStart | startupUnlock => rfl
  | dangling => exact hi
  | _ => cases hi

structure SameSettings (s s' : Pool) : Prop where
  start : s'.start = s.start
  workers : s'.workers = s.workers
  maxTaskCount : s'.maxTaskCount = s.maxTaskCount
  allowExpand : s'.allowExpand = s.allowExpand

theorem workerStep_settings {w : Nat} {wk : Worker} (hs : WorkerStep s w wk s') : SameSettings s s' := by
  cases hs <;> exact ⟨rfl, rfl, rfl, rfl⟩

theorem SameSettings.progress (hs : SameSettings s s') (hp : Progress s a pc) : Progress s' a pc := by
  unfold Progress at hp ⊢
  simp only [hs.start, hs.workers, hs.maxTaskCount, hs.allowExpand]
  exact hp

structure Placed (s₀ s : State) (log : List Entry) : Prop where
  old : ∀ (c : Nat) pc, s.calls[c]? = some pc → s₀.calls.length ≤ c ∨ ∃ r, pc = .done r
  length : s₀.calls.length ≤ s.calls.length
  kind : ∀ (c : Nat) pc, s.calls[c]? = some pc → s₀.calls.length ≤ c →
    (∃ a, pc = .startupCheck a) ∨ pc = .done .alreadyStarted ∨ inside pc = true
  check : ∀ (c : Nat) a, s.calls[c]? = some (.startupCheck a) → .requested c a ∈ log
  requested : ∀ c a, .requested c a ∈ log → s₀.calls.length ≤ c ∧ c < s.calls.length

inductive Move (hw n : Nat) (s : State) : State → List Entry → Prop
  | request (a : Args) : Move hw n s ⟨s.pool, s.calls ++ [.startupCheck a]⟩ [.requested s.calls.length a]
  | refused (c : Nat) (a : Args) (hn : n ≤ c) (hc : s.calls[c]? = some (.startupCheck a)) (h : s.pool.start = true) :
      Move hw n s ⟨s.pool, s.calls.set c (.done .alreadyStarted)⟩ []
  | checked (c : Nat) (a : Args) (hn : n ≤ c) (hc : s.calls[c]? = some (.startupCheck a)) (h : s.pool.start = false) :
      Move hw n s ⟨s.pool, s.calls.set c (.startupMax a)⟩ [.entered c (s.calls.any between)]
  | inside (c : Nat) (pc : CallPc) (p : Pool) (pc' : CallPc) (hn : n ≤ c) (hc : s.calls[c]? = some pc)
      (hi : inside pc = true) (hs : CallStep hw c s.pool pc p pc') : Move hw n s ⟨p, s.calls.set c pc'⟩ []
  | worker (p : Pool) (hs : SameSettings s.pool p) : Move hw n s ⟨p, s.calls⟩ []

theorem checkObs_inside (s : State) (c : Nat) {pc : CallPc} (hi : inside pc = true) : checkObs s c pc = [] := by
  cases pc <;> first | rfl | cases hi

variable {s₀ : State} {log es : List Entry}

theorem next_move {s s' : State} {x : Action} (hp : Placed s₀ s log) (hx : Starting x)
    (hn : next hw s x = some s') : Move hw s₀.calls.length s s' (obs s x) := by
  rcases (next_cases hn).2 with ⟨r, rfl, rfl⟩ | ⟨c, ch, j, pc, p, pc', rfl, hpc, hs, rfl⟩ |
    ⟨w, ch, wk, p, rfl, hk, hs, rfl⟩
  · cases r with
    | startup a => exact .request a
    | shutdown | submit => exact hx.elim
  · rw [obs, hpc, Option.elim_some]
    rcases hp.old c pc hpc with hc | ⟨r, rfl⟩
    · rcases hp.kind c pc hpc hc with ⟨a, rfl⟩ | rfl | hi
      · cases hs with
        | startupRefused a h =>
            rw [checkObs, if_pos h]
            exact .refused c a hc hpc h
        | startupChecked a h =>
            rw [checkObs, if_neg (by rw [h]; exact Bool.false_ne_true)]
            exact .checked c a hc hpc h
        | dangling _ _ _ ht => cases ht
      · cases hs with
        | dangling _ _ _ ht => cases ht
      · rw [checkObs_inside s c hi]
        exact .inside c pc p pc' hc hpc hi hs
    · cases hs with
      | dangling _ _ _ ht => cases ht
  · exact .worker p (workerStep_settings hs)

theorem Placed.set {s : State} {pc : CallPc} (hp : Placed s₀ s log) (p : Pool) (hn : s₀.calls.length ≤ c)
    (hk : pc = .done .alreadyStarted ∨ inside pc = true) (hes : ∀ d a, .requested d a ∉ es) :
    Placed s₀ ⟨p, s.calls.set c pc⟩ (log ++ es) where
  old := forall_set hp.old (.inl hn)
  length := by simpa using hp.length
  kind := forall_set hp.kind fun _ => .inr hk
  check d a hd := by
    rcases set_cases hd with ⟨rfl, rfl, -⟩ | ⟨-, hd⟩
    · rcases hk with hk | hk <;> cases hk
    · exact List.mem_append_left _ (hp.check d a hd)
  requested d a hm := by
    rcases List.mem_append.mp hm with hm | hm
    · simpa using hp.requested d a hm
    · exact absurd hm (hes d a)

theorem Placed.append {s : State} (hp : Placed s₀ s log) (a : Args) :
    Placed s₀ ⟨s.pool, s.calls ++ [.startupCheck a]⟩ (log ++ [.requested s.calls.length a]) where
  old := forall_append hp.old (.inl hp.length)
  length := by simpa using Nat.le_succ_of_le hp.length
  kind := forall_append hp.kind fun _ => .inl ⟨a, rfl⟩
  check d b hd := by
    rcases append_cases hd with ⟨rfl, he⟩ | hd
    · cases he
      exact List.mem_append_right _ (List.mem_singleton.mpr rfl)
    · exact List.mem_append_left _ (hp.check d b hd)
  requested d b hm := by
    rw [List.length_append]
    rcases List.mem_append.mp hm with hm | hm
    · exact ⟨(hp.requested d b hm).1, Nat.lt_succ_of_lt (hp.requested d b hm).2⟩
    · cases List.mem_singleton.mp hm
      exact ⟨hp.length, Nat.lt_succ_self _⟩

theorem move_placed {s s' : State} (hm : Move hw s₀.calls.length s s' es) (hp : Placed s₀ s log) :
    Placed s₀ s' (log ++ es) := by
  cases hm with
  | request a => exact hp.append a
  | refused c a hn hc h => exact hp.set s.pool hn (.inl rfl) fun d b => List.not_mem_nil
  | checked c a hn hc h => exact hp.set s.pool hn (.inr rfl) fun d b hm => by cases List.mem_singleton.mp hm
  | inside c pc p pc' hn hc hi hs => exact hp.set p hn (.inr (callStep_inside hs hi)) fun d b => List.not_mem_nil
  | worker p hs =>
      rw [List.append_nil]
      exact ⟨hp.old, hp.length, hp.kind, hp.check, hp.requested⟩

/-! ### Two calls inside -/

def Inside (n : Nat) (s : State) (d : Nat) : Prop := n ≤ d ∧ ∃ pc, s.calls[d]? = some pc ∧ inside pc = true

theorem inside_set {n d : Nat} {s : State} {p : Pool} (hc : s.calls[c]? = some pc)
    (hi : inside pc = true → inside pc' = true) (hd : Inside n s d) : Inside n ⟨p, s.calls.set c pc'⟩ d := by
  obtain ⟨hn, pd, hpd, hin⟩ := hd
  by_cases he : d = c
  · subst he
    obtain rfl : pc = pd := Option.some.inj (hc.symm.trans hpd)
    exact ⟨hn, pc', by rw [List.getElem?_set_self (List.getElem?_eq_some_iff.mp hc).1], hi hin⟩
  · exact ⟨hn, pd, by rw [List.getElem?_set_ne (Ne.symm he)]; exact hpd, hin⟩

theorem move_inside {n d : Nat} {s s' : State} (hm : Move hw n s s' es) (hd : Inside n s d) : Inside n s' d := by
  cases hm with
  | request a =>
      obtain ⟨hn, pd, hpd, hin⟩ := hd
      exact ⟨hn, pd, by rw [List.getElem?_append_left (List.getElem?_eq_some_iff.mp hpd).1]; exact hpd, hin⟩
  | refused c a hn hc h => exact inside_set hc (fun hi => by cases hi) hd
  | checked c a hn hc h => exact inside_set hc (fun hi => by cases hi) hd
  | inside c pc p pc' hn hc hi hs => exact inside_set hc (callStep_inside hs) hd
  | worker p hs => exact hd

def Overlapped (n : Nat) (s : State) (log : List Entry) : Prop :=
  ∀ c, .entered c true ∈ log → ∃ d e, d ≠ e ∧ Inside n s d ∧ Inside n s e

theorem move_overlapped {s s' : State} (hm : Move hw s₀.calls.length s s' es) (hp : Placed s₀ s log)
    (ho : Overlapped s₀.calls.length s log) : Overlapped s₀.calls.length s' (log ++ es) := by
  have hold (c : Nat) (hc : .entered c true ∈ log) :
      ∃ d e, d ≠ e ∧ Inside s₀.calls.length s' d ∧ Inside s₀.calls.length s' e := by
    obtain ⟨d, e, hne, hd, he⟩ := ho c hc
    exact ⟨d, e, hne, move_inside hm hd, move_inside hm he⟩
  intro c hc
  rcases List.mem_append.mp hc with hc | hc
  · exact hold c hc
  · cases hm with
    | request a => cases List.mem_singleton.mp hc
    | refused | inside | worker => cases hc
    | checked c' a hn hc' h =>
        have hany : true = s.calls.any between := (Entry.entered.inj (List.mem_singleton.mp hc)).2
        obtain ⟨pe, hpe, hbe⟩ := List.any_eq_true.mp hany.symm
        obtain ⟨e, he⟩ := List.mem_iff_getElem?.mp hpe
        have hne : c' ≠ e := by
          rintro rfl
          obtain rfl := Option.some.inj (hc'.symm.trans he)
          cases hbe
        have hen : s₀.calls.length ≤ e := by
          rcases hp.old e pe he with hen | ⟨r, rfl⟩
          · exact hen
          · cases hbe
        refine ⟨c', e, hne, ⟨hn, .startupMax a, ?_, rfl⟩, ⟨hen, pe, ?_, between_inside hbe⟩⟩
        · rw [List.getElem?_set_self (List.getElem?_eq_some_iff.mp hc').1]
        · rw [List.getElem?_set_ne hne]
          exact he

/-! ### One call inside -/

structure Waiting (n : Nat) (s : State) : Prop where
  start : s.pool.start = false
  workers : s.pool.workers = []
  calls : ∀ (d : Nat) pc, s.calls[d]? = some pc → n ≤ d → ∃ a, pc = .startupCheck a

def Alone (n : Nat) (s : State) (log : List Entry) : Prop := ∃ c a pc, n ≤ c ∧ .requested c a ∈ log ∧
  s.calls[c]? = some pc ∧ Progress s.pool a pc ∧ ∀ d, Inside n s d → d = c

theorem inside_append {n d : Nat} {s : State} {a : Args} (hd : Inside n ⟨s.pool, s.calls ++ [.startupCheck a]⟩ d) :
    Inside n s d := by
  obtain ⟨hn, pd, hpd, hin⟩ := hd
  rcases append_cases hpd with ⟨-, rfl⟩ | hpd
  · cases hin
  · exact ⟨hn, pd, hpd, hin⟩

theorem inside_of_set {n d : Nat} {s : State} {p : Pool} (hd : Inside n ⟨p, s.calls.set c pc⟩ d) :
    (d = c ∧ inside pc = true) ∨ Inside n s d := by
  obtain ⟨hn, pd, hpd, hin⟩ := hd
  rcases set_cases hpd with ⟨rfl, rfl, -⟩ | ⟨-, hpd⟩
  · exact .inl ⟨rfl, hin⟩
  · exact .inr ⟨hn, pd, hpd, hin⟩

theorem move_waiting {s s' : State} (hm : Move hw s₀.calls.length s s' es) (hp : Placed s₀ s log)
    (hs : Waiting s₀.calls.length s) :
    Waiting s₀.calls.length s' ∨ Alone s₀.calls.length s' (log ++ es) := by
  cases hm with
  | request a => exact .inl ⟨hs.start, hs.workers, forall_append hs.calls fun _ => ⟨a, rfl⟩⟩
  | refused c a hn hc h =>
      rw [hs.start] at h
      cases h
  | checked c a hn hc h =>
      refine .inr ⟨c, a, .startupMax a, hn, List.mem_append_left _ (hp.check c a hc), ?_, ⟨rfl, hs.start, hs.workers⟩,
        fun d hd => ?_⟩
      · rw [List.getElem?_set_self (List.getElem?_eq_some_iff.mp hc).1]
      · rcases inside_of_set hd with ⟨he, -⟩ | ⟨hdn, pd, hpd, hin⟩
        · exact he
        · obtain ⟨b, rfl⟩ := hs.calls d pd hpd hdn
          cases hin
  | inside c pc p pc' hn hc hi hst =>
      obtain ⟨a, rfl⟩ := hs.calls c pc hc hn
      cases hi
  | worker p hset => exact .inl ⟨hset.start.trans hs.start, hset.workers.trans hs.workers, hs.calls⟩

/-- A call that enters while another one is inside either overlaps with it, or finds the
pool started. -/
theorem move_alone {s s' : State} (hm : Move hw s₀.calls.length s s' es) (ha : Alone s₀.calls.length s log)
    (ho : ∀ c, .entered c true ∉ es) : Alone s₀.calls.length s' (log ++ es) := by
  obtain ⟨c, a, pc, hn, hreq, hc, hprog, honly⟩ := ha
  have hreq' := List.mem_append_left es hreq
  have hlt := (List.getElem?_eq_some_iff.mp hc).1
  have hin := progress_inside hprog
  cases hm with
  | request b =>
      refine ⟨c, a, pc, hn, hreq', ?_, hprog, fun d hd => honly d (inside_append hd)⟩
      rw [List.getElem?_append_left hlt]
      exact hc
  | refused c' b hn' hc' h =>
      have hne : c' ≠ c := by
        rintro rfl
        obtain rfl := Option.some.inj (hc'.symm.trans hc)
        cases hin
      refine ⟨c, a, pc, hn, hreq', ?_, hprog, fun d hd => ?_⟩
      · rw [List.getElem?_set_ne hne]
        exact hc
      · rcases inside_of_set hd with ⟨-, hi⟩ | hd
        · cases hi
        · exact honly d hd
  | checked c' b hn' hc' h =>
      have hfree : between pc = false := by
        by_contra hb
        have hany : s.calls.any between = true :=
          List.any_eq_true.mpr ⟨pc, List.mem_of_getElem? hc, by simpa using hb⟩
        rw [hany] at ho
        exact ho c' (List.mem_singleton.mpr rfl)
      rw [progress_started hprog hfree] at h
      cases h
  | inside c' pc₁ p pc' hn' hc' hi hs =>
      obtain rfl : c' = c := honly c' ⟨hn', pc₁, hc', hi⟩
      obtain rfl : pc₁ = pc := Option.some.inj (hc'.symm.trans hc)
      refine ⟨c', a, pc', hn, hreq', ?_, callStep_progress hs hprog, fun d hd => ?_⟩
      · rw [List.getElem?_set_self hlt]
      · rcases inside_of_set hd with ⟨he, -⟩ | hd
        · exact he
        · exact honly d hd
  | worker p hs => exact ⟨c, a, pc, hn, hreq', hc, hs.progress hprog, honly⟩

/-! ### Runs -/

structure Watched (s₀ s : State) (log : List Entry) : Prop where
  placed : Placed s₀ s log
  overlapped : Overlapped s₀.calls.length s log
  single : (∀ c, .entered c true ∉ log) → Waiting s₀.calls.length s ∨ Alone s₀.calls.length s log

theorem Stopped.watched (h₀ : Stopped s₀) : Watched s₀ s₀ [] where
  placed := {
    old := fun c pc hc => .inr (h₀.calls c pc hc)
    length := Nat.le_refl _
    kind := fun c pc hc hn => absurd (List.getElem?_eq_some_iff.mp hc).1 (Nat.not_lt.mpr hn)
    check := fun c a hc => by
      obtain ⟨r, hr⟩ := h₀.calls c _ hc
      cases hr
    requested := fun c a hm => by cases hm }
  overlapped := fun c hm => by cases hm
  single := fun _ => .inl ⟨h₀.start, h₀.workers, fun d pc hd hn =>
    absurd (List.getElem?_eq_some_iff.mp hd).1 (Nat.not_lt.mpr hn)⟩

theorem move_watched {s s' : State} (hm : Move hw s₀.calls.length s s' es) (h : Watched s₀ s log) :
    Watched s₀ s' (log ++ es) where
  placed := move_placed hm h.placed
  overlapped := move_overlapped hm h.placed h.overlapped
  single ho := by
    have hlog (c : Nat) : .entered c true ∉ log := fun hc => ho c (List.mem_append_left _ hc)
    have hes (c : Nat) : .entered c true ∉ es := fun hc => ho c (List.mem_append_right _ hc)
    rcases h.single hlog with hw | ha
    · exact move_waiting hm h.placed hw
    · exact .inr (move_alone hm ha hes)

theorem reachable_watched {s : State} (h₀ : Stopped s₀)
    (hr : Reachable (logged (startingAt (system hw) s₀) obs) (fun _ x => Starting x) (s, log)) : Watched s₀ s log := by
  refine hr.logged_invariant (P := fun s log => Watched s₀ s log) ?_ ?_
  · rintro s rfl
    exact h₀.watched
  · intro s log x s' _ h hx hn
    exact move_watched (next_move h.placed hx hn) h

/-- When all calls of Startup on a stopped pool have returned, one of them has taken effect exactly
when none found it stopped while another was between its check of _start and the assignment. -/
theorem startup_once {s : State} (h₀ : Stopped s₀)
    (hr : Reachable (logged (startingAt (system hw) s₀) obs) (fun _ x => Starting x) (s, log))
    (hdone : ∀ (c : Nat) pc, s.calls[c]? = some pc → ∃ r, pc = .done r) (hsome : ∃ c a, .requested c a ∈ log) :
    StartedOnce s₀ s log ↔ ∀ c, .entered c true ∉ log := by
  have h := reachable_watched h₀ hr
  have hstarted (d : Nat) (hd : Inside s₀.calls.length s d) : s.calls[d]? = some (.done .started) := by
    obtain ⟨-, pc, hpc, hin⟩ := hd
    obtain ⟨r, rfl⟩ := hdone d pc hpc
    cases r <;> first | exact hpc | cases hin
  constructor
  · rintro ⟨c, a, -, honly, -⟩ c' hc'
    obtain ⟨d, e, hne, hd, he⟩ := h.overlapped c' hc'
    have hdc := (honly d hd.1).mp (hstarted d hd)
    have hec := (honly e he.1).mp (hstarted e he)
    exact hne (hdc.trans hec.symm)
  · intro ho
    rcases h.single ho with hw | ⟨c, a, pc, hn, hreq, hc, hprog, honly⟩
    · -- a call that was made has not returned
      obtain ⟨c, a, hreq⟩ := hsome
      obtain ⟨hn, hlt⟩ := h.placed.requested c a hreq
      have hc := List.getElem?_eq_getElem hlt
      obtain ⟨b, hb⟩ := hw.calls c _ hc hn
      obtain ⟨r, hr⟩ := hdone c _ hc
      rw [hb] at hr
      cases hr
    · have hself := hstarted c ⟨hn, pc, hc, progress_inside hprog⟩
      obtain rfl : pc = .done .started := Option.some.inj (hc.symm.trans hself)
      refine ⟨c, a, hreq, fun d hd => ⟨fun hds => honly d ⟨hd, _, hds, rfl⟩, fun he => he ▸ hself⟩, hprog.2⟩

section Runs

def oneByOne : List Action :=
  List.flatten [[.call (.startup ⟨2, 100, true⟩)], walk 0 9, [.call (.startup ⟨4, 200, true⟩)], walk 1 1]

/-- Both look at _start before the first goes on. -/
def together : List Action := List.flatten [[.call (.startup ⟨2, 100, true⟩), .call (.startup ⟨4, 200, false⟩)],
  walk 0 1, walk 1 1, walk 0 8, walk 1 10]

def starts : Action → Bool
  | .call (.startup _) | .step _ _ _ | .worker _ _ => true
  | .call _ => false

theorem starting_of_starts (x : Action) (hx : starts x = true) : Starting x := by
  cases x with
  | call r => cases r <;> trivial
  | step | worker => trivial

theorem stopped_empty : Stopped {} := ⟨rfl, rfl, fun c pc hc => by simp at hc⟩

theorem done_of_all {s : State} {rs : List Result} (h : s.calls = rs.map .done) (c : Nat) (pc : CallPc)
    (hc : s.calls[c]? = some pc) : ∃ r, pc = .done r := by
  rw [h, List.getElem?_map, Option.map_eq_some_iff] at hc
  obtain ⟨r, -, rfl⟩ := hc
  exact ⟨r, rfl⟩

theorem startup_once_in_turn : ∃ s log, s.calls = [CallPc.done .started, .done .alreadyStarted] ∧
    (StartedOnce {} s log ↔ ∀ c, Entry.entered c true ∉ log) := by
  obtain ⟨⟨s, log⟩, hr, hp⟩ := exists_of_run (logged (startingAt (system 1) {}) obs) (fun _ x => Starting x)
    (fun _ x => starts x) ({}, []) oneByOne
    (fun p => decide (p.1.calls = [.started, .alreadyStarted].map CallPc.done ∧ .requested 0 ⟨2, 100, true⟩ ∈ p.2))
    (fun _ x hx => starting_of_starts x hx) ⟨rfl, rfl⟩ (by decide)
  obtain ⟨hc, hreq⟩ := of_decide_eq_true hp
  exact ⟨s, log, hc, startup_once stopped_empty hr (done_of_all hc) ⟨0, _, hreq⟩⟩

/-- Two calls together both take effect, so that the pool has the workers of both. -/
theorem startups_add_up : ∃ s log,
    Reachable (logged (startingAt (system 1) {}) obs) (fun _ x => Starting x) (s, log) ∧
      s.calls = [CallPc.done .started, .done .started] ∧ s.pool.workers.length = 2 + 4 ∧ ¬StartedOnce {} s log := by
  obtain ⟨⟨s, log⟩, hr, hp⟩ := exists_of_run (logged (startingAt (system 1) {}) obs) (fun _ x => Starting x)
    (fun _ x => starts x) ({}, []) together
    (fun p => decide (p.1.calls = [.done .started, .done .started] ∧ p.1.pool.workers.length = 2 + 4))
    (fun _ x hx => starting_of_starts x hx) ⟨rfl, rfl⟩ (by decide)
  obtain ⟨hc, hw⟩ := of_decide_eq_true hp
  refine ⟨s, log, hr, hc, hw, ?_⟩
  rintro ⟨c, a, -, honly, -⟩
  have h0 := (honly 0 (Nat.zero_le _)).mp (by rw [hc]; rfl)
  have h1 := (honly 1 (Nat.zero_le _)).mp (by rw [hc]; rfl)
  exact absurd (h0.trans h1.symm) (by decide)

end Runs

end Enigma.PoolStartup
