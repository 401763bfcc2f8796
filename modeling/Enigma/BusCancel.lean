import Enigma.BusCalls
import Enigma.BusLocks

namespace Enigma.BusCancel

open Transition SyncQueue EventBus BusThreads BusStep BusCalls BusLocks

variable {M P K A : Type}

inductive Entry (M K : Type)
  | registered (type : String) (f : Callback M K)
  | cancelled (type : String)

def changes (ρ : Runtime M P) (t : Handles M K) : TableCall M K → List (Entry M K)
  | .on m k => if contains t (ρ.name m) then [] else [.registered (ρ.name m) (.on m k)]
  | .onType type k => if type.isEmpty || contains t type then [] else [.registered type (.onType k)]
  | .cancel m => [.cancelled (ρ.name m)]

def opChanges (ρ : Runtime M P) (h : Nat) (s : Shared M P K A) : OpPc M P K A → List (Entry M K)
  | .table h' x => if h' = h then changes ρ (s.cell h).handles x else []
  | _ => []

def seen (ρ : Runtime M P) (h : Nat) (s : State M P K A) : Action M P K A → List (Entry M K)
  | .step a _ => (inCall s a).elim [] (opChanges ρ h s.shared)
  | _ => []

def Entry.apply (type : String) (f : Option (Callback M K)) : Entry M K → Option (Callback M K)
  | .registered type' g => if type' = type then some g else f
  | .cancelled type' => if type' = type then none else f

def current (type : String) (f : Option (Callback M K)) (log : List (Entry M K)) : Option (Callback M K) :=
  log.foldl (Entry.apply type) f

theorem registered_of_current {type : String} {f : Callback M K} {log : List (Entry M K)}
    (hc : current type none log = some f) : Entry.registered type f ∈ log := by
  induction log using List.reverseRecOn with
  | nil => cases hc
  | append_singleton log e ih =>
      rw [current, List.foldl_append, List.foldl_cons, List.foldl_nil] at hc
      cases e with
      | registered type' g =>
          simp only [Entry.apply] at hc
          split at hc
          case isTrue ht =>
              cases hc
              simp [ht]
          case isFalse => exact List.mem_append_left _ (ih hc)
      | cancelled type' =>
          simp only [Entry.apply] at hc
          split at hc
          case isTrue => cases hc
          case isFalse => exact List.mem_append_left _ (ih hc)

theorem find_emplace (t : Handles M K) (type type' : String) (c : Callback M K) :
    find (emplace t type c).1 type' =
      if contains t type then find t type' else if type = type' then some c else find t type' := by
  unfold emplace
  split
  case isTrue => rfl
  case isFalse =>
      by_cases he : type = type'
      · subst he
        simp [find]
      · have hb : (type' == type) = false := beq_eq_false_iff_ne.mpr (Ne.symm he)
        simp [find, List.lookup_cons, hb, he]

theorem find_erase (t : Handles M K) (type type' : String) :
    find (erase t type) type' = if type = type' then none else find t type' := by
  induction t with
  | nil => simp [erase, find]
  | cons x t ih =>
      obtain ⟨y, c⟩ := x
      simp only [find, erase] at ih ⊢
      by_cases hy : y = type
      · subst hy
        by_cases he : y = type'
        · simpa [he] using ih
        · have hb : (type' == y) = false := beq_eq_false_iff_ne.mpr (Ne.symm he)
          simpa [he, List.lookup_cons, hb] using ih
      · by_cases hy' : type' = y
        · subst hy'
          simp [hy, Ne.symm hy]
        · have hb : (type' == y) = false := beq_eq_false_iff_ne.mpr hy'
          simpa [hy, List.lookup_cons, hb] using ih

theorem find_apply (ρ : Runtime M P) (t : Handles M K) (x : TableCall M K) (type : String) :
    find (x.apply ρ t).1 type = current type (find t type) (changes ρ t x) := by
  cases x with
  | on m k =>
      simp only [TableCall.apply, EventBus.on, find_emplace, changes]
      split
      · rfl
      · rfl
  | onType type' k =>
      simp only [TableCall.apply, EventBus.onType, changes]
      by_cases ht : type'.isEmpty
      · simp [ht, current]
      · simp only [ht, Bool.false_eq_true, if_false, Bool.false_or, find_emplace]
        split
        · rfl
        · rfl
  | cancel m => exact find_erase t (ρ.name m) type

variable {ρ : Runtime M P} {h : Nat}

theorem opStep_find {a : Agent} {s s' : Shared M P K A} {pc pc' : OpPc M P K A} (hs : OpStep ρ a s pc s' pc')
    (type : String) :
    find (s'.cell h).handles type = current type (find (s.cell h).handles type) (opChanges ρ h s pc) := by
  cases hs with
  | table h' x =>
      by_cases he : h' = h
      · subst he
        simpa [setCell, opChanges] using find_apply ρ (s.cell h').handles x type
      · simp [setCell, opChanges, he, Ne.symm he, current]
  | lockType h' v | found h' v | notFound h' v | lockTable h' x | unlockTable h' r =>
      rw [(setMutex_cell s h' _).2]
      rfl
  | deliver h' p p' q v hs | clear h' p p' q hs =>
      rw [(setEvents_cell s h' q).2]
      rfl
  | lockBus | visited | visit | readType | delivered | insert | erase | unlockBus | cleared => rfl

theorem loopStep_handles [DecidableEq M] {h' : Nat} {s s' : Shared M P K A} {b : Bool} {pc pc' : LoopPc M P K A}
    (hs : LoopStep ρ h' s b pc s' pc') (hi : innerCall pc = none) : (s'.cell h).handles = (s.cell h).handles := by
  obtain ⟨-, -, hother, hown, -⟩ := loopStep_frame hs hi
  by_cases he : h = h'
  · rw [he, hown]
  · rw [hother h he]

theorem controlStep_handles {h' : Nat} {s s' : State M P K A} {pc : ControlPc M P A}
    {pc' : Option (ControlPc M P A)} (hs : ControlStep h' s pc s' pc') :
    (s'.shared.cell h).handles = (s.shared.cell h).handles := by
  cases hs with
  | stopQueue p p' q hs | stopClear p p' q hs => exact (setEvents_cell s.shared h' q).2
  | _ => rfl

def Callback.function : Callback M K → K
  | .on _ k | .onType k => k

/-- The callback that the thread of a handler is about to enter or runs, with the
type of its message. -/
def called : LoopPc M P K A → Option (String × K)
  | .call ev f => some (ev.type, Callback.function f)
  | .user ev (.on k _) _ | .user ev (.onType k) _ => some (ev.type, k)
  | _ => none

theorem loopHolds_of_called {pc : LoopPc M P K A} {x : String × K} (hc : called pc = some x) :
    Lock.handler h ∈ loopHolds h pc := by
  cases pc with
  | call ev f => simp [loopHolds]
  | user ev y pc => cases pc <;> simp [loopHolds]
  | _ => cases hc

theorem loopStep_called [DecidableEq M] {s s' : Shared M P K A} {b : Bool} {pc pc' : LoopPc M P K A}
    {type : String} {k : K} (hs : LoopStep ρ h s b pc s' pc') (hc : called pc' = some (type, k)) :
    called pc = some (type, k) ∨ ∃ f, find (s.cell h).handles type = some f ∧ Callback.function f = k := by
  cases hs with
  | found ev f hf =>
      cases hc
      exact .inr ⟨f, hf, rfl⟩
  | cast ev m k x | callType ev k => exact .inl hc
  | innerReturned ev x r =>
      cases x <;> exact .inl hc
  | inner ev x pc pc' s' hs =>
      cases x <;> exact .inl hc
  | _ => cases hc

def calledBy (s : State M P K A) : Agent → Option (String × K) := standing (fun _ => none) (fun _ pc => called pc) none s

/-- Since some moment the table of handler `h` has the history `log`; it had the
callbacks `t`, and a callback of the given type that is running was registered
after it. -/
structure Renewed (h : Nat) (t : Handles M K) (type : String) (s : State M P K A) (log : List (Entry M K)) : Prop where
  table : ∀ type', find (s.shared.cell h).handles type' = current type' (find t type') log
  called : ∀ k, calledBy s (.thread h) = some (type, k) →
    ∃ f, Callback.function f = k ∧ Entry.registered type f ∈ log

/-- The thread of a handler runs no callback while another thread is at its table. -/
theorem not_called_of_table {s : State M P K A} {a : Agent} {x : TableCall M K} (ho : Owned s)
    (hc : inCall s a = some (.table h x)) : a ≠ .thread h ∧ calledBy s (.thread h) = none := by
  have hmem : Lock.handler h ∈ holdsOf s a := by
    cases a with
    | client c =>
        have hc : s.client c = some (.table h x) := hc
        simp [holdsOf, standing, hc, holds]
    | thread h' =>
        obtain ⟨⟨pc, b⟩, ht, hi⟩ := Option.bind_eq_some_iff.mp hc
        cases pc with
        | user ev y pc =>
            have hi : pc = some (.table h x) := hi
            simp [holdsOf, standing, ht, hi, loopHolds, holds]
        | _ => cases hi
    | control h' => cases hc
  have hown := (ho.iff a _).mp hmem
  have hne : a ≠ .thread h := by
    rintro rfl
    have hnodup := ho.nodup (.thread h)
    obtain ⟨⟨pc, b⟩, ht, hi⟩ := Option.bind_eq_some_iff.mp hc
    cases pc with
    | user ev y pc =>
        have hi : pc = some (.table h x) := hi
        simp [holdsOf, standing, ht, hi, loopHolds, holds] at hnodup
    | _ => cases hi
  refine ⟨hne, ?_⟩
  cases hcalled : calledBy s (.thread h) with
  | none => rfl
  | some y =>
      obtain ⟨l, ht⟩ : ∃ l, s.thread h = some l := by
        cases ht : s.thread h with
        | none => simp [calledBy, standing, ht] at hcalled
        | some l => exact ⟨l, rfl⟩
      have hl : called l.pc = some y := by simpa [calledBy, standing, ht] using hcalled
      have hheld : Lock.handler h ∈ holdsOf s (.thread h) := by
        simpa [holdsOf, standing, ht] using loopHolds_of_called hl
      have he := hown.symm.trans ((ho.iff _ _).mp hheld)
      exact absurd (Option.some.inj he) hne

section System

variable [DecidableEq M] {n m : Nat} {t : Handles M K} {type : String}

theorem move_find {s s' : State M P K A} {a : Action M P K A} (hn : Move ρ n m s a s') (type : String) :
    find (s'.shared.cell h).handles type = current type (find (s.shared.cell h).handles type) (seen ρ h s a) := by
  cases hn with
  | call | control | inner | finish | terminate => rfl
  | leave c ch r hc => simp [seen, inCall, hc, opChanges, current, setClient]
  | client c ch pc pc' x hc hstep => simpa [seen, inCall, hc, setClient, setShared] using opStep_find hstep type
  | thread h' ch pc pc' b x ht hstep =>
      cases hi : innerCall pc with
      | none =>
          have hsame := loopStep_handles (h := h) hstep hi
          simp [seen, inCall, ht, hi, current, setThread, setShared, hsame]
      | some op =>
          obtain ⟨ev, y, rfl, ⟨r, rfl, rfl, -⟩ | ⟨op', hop, -⟩⟩ := loopStep_inner hstep hi
          · simp [seen, inCall, ht, innerCall, opChanges, current, setThread, setShared]
          · simpa [seen, inCall, ht, innerCall, setThread, setShared] using opStep_find hop type
  | controlStep h' ch pc pc' s' hc hstep =>
      have hsame := controlStep_handles (h := h) hstep
      simp [seen, inCall, current, setControl, hsame]

theorem move_called {s s' : State M P K A} {a : Action M P K A} {k : K} (hn : Move ρ n m s a s')
    (hc : calledBy s' (.thread h) = some (type, k)) :
    calledBy s (.thread h) = some (type, k) ∨
      ∃ f, find (s.shared.cell h).handles type = some f ∧ Callback.function f = k := by
  have hset {s₀ : State M P K A} {h' : Nat} {l : Loop M P K A} (hs₀ : calledBy s₀ = calledBy s)
      (hc : calledBy (setThread s₀ h' (some l)) (.thread h) = some (type, k)) :
      calledBy s (.thread h) = some (type, k) ∨ (h' = h ∧ called l.pc = some (type, k)) := by
    rw [calledBy, standing_setThread, ← calledBy, hs₀] at hc
    by_cases he : h' = h
    · subst he
      exact .inr ⟨rfl, by simpa using hc⟩
    · exact .inl (by simpa [Ne.symm he] using hc)
  cases hn with
  | call | control | terminate | leave | client => exact .inl hc
  | inner h' x ev y b ht =>
      rcases hset rfl hc with hold | ⟨rfl, hnew⟩
      · exact .inl hold
      · refine .inl ?_
        simp only [calledBy, standing, ht, Option.elim_some]
        cases y <;> exact hnew
  | finish h' throws ev y b pc ht hf =>
      rcases hset rfl hc with hold | ⟨-, hnew⟩
      · exact .inl hold
      · rcases finish_cases hf with rfl | rfl <;> cases hnew
  | thread h' ch pc pc' b x ht hstep =>
      rcases hset (standing_setShared _ _ _ s x) hc with hold | ⟨rfl, hnew⟩
      · exact .inl hold
      · rcases loopStep_called hstep hnew with hcalled | hfound
        · exact .inl (by simpa [calledBy, standing, ht] using hcalled)
        · exact .inr hfound
  | controlStep h' ch pc pc' s' hc' hstep =>
      have hsame := controlStep_standing (fun _ => none) (fun _ pc => called pc) none hstep rfl rfl
      rw [calledBy, standing_setControl, hsame] at hc
      exact .inl hc

theorem move_renewed {s s' : State M P K A} {a : Action M P K A} {log : List (Entry M K)}
    (hs : Renewed h t type s log) (ht : find t type = none) (hn : Move ρ n m s a s') :
    Renewed h t type s' (log ++ seen ρ h s a) where
  table type' := by
    rw [move_find hn, hs.table, current, current, current, List.foldl_append]
  called k hk := by
    have hmem {f : Callback M K} (hf : Entry.registered type f ∈ log) :
        Entry.registered type f ∈ log ++ seen ρ h s a := List.mem_append_left _ hf
    rcases move_called hn hk with hk | ⟨f, hf, hfk⟩
    · obtain ⟨f, hfk, hf⟩ := hs.called k hk
      exact ⟨f, hfk, hmem hf⟩
    · rw [hs.table, ht] at hf
      exact ⟨f, hfk, hmem (registered_of_current hf)⟩

theorem move_table {s s' : State M P K A} {a : Agent} {ch : Choice Agent} {x : TableCall M K}
    (hc : inCall s a = some (.table h x)) (hne : a ≠ .thread h) (hn : Move ρ n m s (.step a ch) s') :
    s'.thread h = s.thread h ∧ (s'.shared.cell h).events = (s.shared.cell h).events := by
  cases hn with
  | leave c ch r hr => exact absurd (hc.symm.trans hr) (by simp)
  | client c ch pc pc' x' hpc hstep =>
      cases Option.some.inj (hpc.symm.trans hc)
      cases hstep with
      | table => exact ⟨rfl, setHandles_events s.shared h _⟩
  | thread h' ch pc pc' b x' ht hstep =>
      have hi : innerCall pc = some (.table h x) := by simpa [inCall, ht] using hc
      have hh : h ≠ h' := fun he => hne (he ▸ rfl)
      obtain ⟨ev, y, rfl, ⟨r, hr, -⟩ | ⟨op', hop, -⟩⟩ := loopStep_inner hstep hi
      · cases hr
      · cases hop with
        | table => exact ⟨by simp [setThread, setShared, hh], setHandles_events s.shared h _⟩
  | controlStep => cases hc

/-- What the thread of a handler is about to call, or runs, for an event is the
callback that the table has for its type. -/
def Found (t : Handles M K) : LoopPc M P K A → Prop
  | .call ev f => find t ev.type = some f
  | .user ev y _ => y.isCallback = true → (find t ev.type).bind (Callback.code ev) = some y
  | _ => True

theorem found_congr {t t' : Handles M K} {pc : LoopPc M P K A} (hf : Found t pc)
    (ht : ∀ type, find t' type = find t type) : Found t' pc := by
  cases pc with
  | call ev f => exact (ht _).trans hf
  | user ev y pc => exact fun hy => by rw [ht, hf hy]
  | _ => trivial

theorem found_of_not_called {pc : LoopPc M P K A} (hc : called pc = none) : Found t pc := by
  cases pc with
  | call ev f => cases hc
  | user ev y pc =>
      cases y with
      | on k x | onType k => cases hc
      | ack => exact fun hy => by cases hy
  | _ => trivial

theorem loopStep_found {s s' : Shared M P K A} {b : Bool} {pc pc' : LoopPc M P K A}
    (hs : LoopStep ρ h s b pc s' pc') (hf : Found (s.cell h).handles pc) : Found (s.cell h).handles pc' := by
  cases hs with
  | found ev f hf' => exact hf'
  | cast ev m k x hc =>
      have hstored : find (s.cell h).handles ev.type = some (.on m k) := hf
      exact fun _ => by simp [hstored, Callback.code, hc]
  | callType ev k =>
      have hstored : find (s.cell h).handles ev.type = some (.onType k) := hf
      exact fun _ => by simp [hstored, Callback.code]
  | innerReturned | inner => exact hf
  | exit | enter | got | nothing | pop | lock | notFound | castFails | unlock => trivial

/-- Unless another thread is at the table of the handler, no callback of it changes. -/
theorem move_find_same {s s' : State M P K A} {a : Action M P K A} (hn : Move ρ n m s a s')
    (ha : ∀ b ch, a = .step b ch → ∀ x, inCall s b ≠ some (.table h x)) (type : String) :
    find (s'.shared.cell h).handles type = find (s.shared.cell h).handles type := by
  have hseen : seen ρ h s a = [] := by
    cases a with
    | step b ch =>
        cases hc : inCall s b with
        | none => simp [seen, hc]
        | some pc =>
            cases pc with
            | table h' x =>
                have hne : h' ≠ h := by
                  rintro rfl
                  exact ha b ch rfl x hc
                simp [seen, hc, opChanges, hne]
            | _ => simp [seen, hc, opChanges]
    | _ => rfl
  rw [move_find hn, hseen]
  rfl

theorem move_found {s s' : State M P K A} {a : Action M P K A} (ho : Owned s)
    (hs : ∀ l, s.thread h = some l → Found (s.shared.cell h).handles l.pc) (hn : Move ρ n m s a s') :
    ∀ l, s'.thread h = some l → Found (s'.shared.cell h).handles l.pc := by
  by_cases htable : ∃ b ch x, a = .step b ch ∧ inCall s b = some (.table h x)
  · -- while another thread is at the table no callback runs
    obtain ⟨b, ch, x, rfl, hc⟩ := htable
    obtain ⟨hne, hnone⟩ := not_called_of_table ho hc
    intro l hl
    rw [(move_table hc hne hn).1] at hl
    exact found_of_not_called (by simpa [calledBy, standing, hl] using hnone)
  · have hfind := move_find_same hn fun b ch ha x hc => htable ⟨b, ch, x, ha, hc⟩
    intro l hl
    refine found_congr ?_ hfind
    have hset {h' : Nat} {l₀ l' : Loop M P K A} (ht : s.thread h' = some l₀)
        (hl : (setThread s h' (some l')).thread h = some l)
        (hf : h' = h → Found (s.shared.cell h).handles l₀.pc → Found (s.shared.cell h).handles l'.pc) :
        Found (s.shared.cell h).handles l.pc := by
      by_cases he : h' = h
      · subst he
        obtain rfl : l' = l := by simpa [setThread] using hl
        exact hf rfl (hs l₀ ht)
      · exact hs l (by simpa [setThread, Ne.symm he] using hl)
    cases hn with
    | call | control | terminate | leave | client => exact hs l hl
    | inner h' x ev y b ht => exact hset ht hl fun _ hf => hf
    | finish h' throws ev y b pc ht hfin =>
        refine hset ht hl fun _ _ => ?_
        rcases finish_cases hfin with rfl | rfl
        · trivial
        · exact fun hy => by cases hy
    | thread h' ch pc pc' b x ht hstep =>
        refine hset ht hl fun he hf => ?_
        subst he
        exact loopStep_found hstep hf
    | controlStep h' ch pc pc' s₁ hc hstep =>
        by_cases he : h' = h
        · subst he
          cases hstep with
          | spawn =>
              obtain rfl : ({} : Loop M P K A) = l := by simpa [setControl, setThread] using hl
              trivial
          | stopRequest | destroyRequest =>
              obtain ⟨l₀, hl₀, rfl⟩ := requestStop_thread hl
              exact hs l₀ hl₀
          | stopJoined | destroyJoined => simp [setControl, setThread] at hl
          | _ => exact hs l hl
        · rw [show (setControl s₁ h' pc').thread h = s₁.thread h from rfl,
            ((controlStep_frame hstep).2.2 h (Ne.symm he)).2] at hl
          exact hs l hl

theorem reachable_found {ok : State M P K A → Action M P K A → Prop} {s : State M P K A}
    (hr : Reachable (system ρ n m) ok s) (h : Nat) (l : Loop M P K A) (hl : s.thread h = some l) :
    Found (s.shared.cell h).handles l.pc := by
  refine hr.invariant (P := fun s => ∀ l, s.thread h = some l → Found (s.shared.cell h).handles l.pc) ?_ ?_ l hl
  · rintro s rfl l hl
    cases hl
  · intro s a s' hr hs _ hn
    exact move_found (reachable_owned hr) hs (next_sound hn).2

def Named (ρ : Runtime M P) (t : Handles M K) : Prop := ∀ type m k, find t type = some (.on m k) → type = ρ.name m

omit [DecidableEq M] in
theorem current_named {f : Option (Callback M K)} {log : List (Entry M K)}
    (hf : ∀ x k, f = some (.on x k) → type = ρ.name x)
    (hlog : ∀ type' x k, Entry.registered type' (.on x k) ∈ log → type' = ρ.name x) :
    ∀ x k, current type f log = some (.on x k) → type = ρ.name x := by
  induction log generalizing f with
  | nil => exact hf
  | cons e log ih =>
      refine ih (f := e.apply type f) (fun x k hx => ?_) fun type' x k hm => hlog type' x k (List.mem_cons_of_mem _ hm)
      cases e with
      | registered type' g =>
          simp only [Entry.apply] at hx
          split at hx
          case isTrue he =>
              cases hx
              exact he.symm.trans (hlog type' x k (List.mem_cons_self ..))
          case isFalse => exact hf x k hx
      | cancelled type' =>
          simp only [Entry.apply] at hx
          split at hx
          case isTrue => cases hx
          case isFalse => exact hf x k hx

omit [DecidableEq M] in
theorem seen_named {s : State M P K A} {a : Action M P K A} {x : M} {k : K}
    (hm : Entry.registered type (.on x k) ∈ seen ρ h s a) : type = ρ.name x := by
  have hchanges (t : Handles M K) (y : TableCall M K) (hm : Entry.registered type (.on x k) ∈ changes ρ t y) :
      type = ρ.name x := by
    cases y with
    | on x' k' =>
        simp only [changes] at hm
        split at hm
        · cases hm
        · cases List.mem_singleton.mp hm
          rfl
    | onType type' k' =>
        simp only [changes] at hm
        split at hm
        · cases hm
        · cases List.mem_singleton.mp hm
    | cancel x' => cases List.mem_singleton.mp hm
  cases a with
  | step b ch =>
      cases hc : inCall s b with
      | none => simp [seen, hc] at hm
      | some pc =>
          cases pc with
          | table h' y =>
              simp only [seen, hc, Option.elim_some, opChanges] at hm
              split at hm
              · exact hchanges _ y hm
              · cases hm
          | _ => simp [seen, hc, opChanges] at hm
  | _ => cases hm

theorem reachable_named {ok : State M P K A → Action M P K A → Prop} {s : State M P K A}
    (hr : Reachable (system ρ n m) ok s) (h : Nat) : Named ρ (s.shared.cell h).handles := by
  refine hr.invariant (P := fun s => Named ρ (s.shared.cell h).handles) ?_ ?_
  · rintro s rfl type x k hf
    cases hf
  · intro s a s' _ hs _ hn type x k hf
    rw [move_find (next_sound hn).2] at hf
    exact current_named (hs type) (fun _ _ _ hm => seen_named hm) x k hf

/-- From the moment Cancel has erased the entry, a callback of the type that runs, or that the
thread can find, was registered after it; the other callbacks are not touched. -/
theorem cancelled_for_good {s₁ s₂ s : State M P K A} {a : Agent} {ch : Choice Agent} {x : M} {log : List (Entry M K)}
    (hr : Reachable (system ρ n m) Any s₁) (hc : inCall s₁ a = some (.table h (.cancel x)))
    (hn : next ρ n m s₁ (.step a ch) = some s₂)
    (hrun : Reachable (logged (startingAt (system ρ n m) s₂) (seen ρ h)) Any (s, log)) :
    (∀ k, calledBy s (.thread h) = some (ρ.name x, k) →
      ∃ f, Callback.function f = k ∧ Entry.registered (ρ.name x) f ∈ log) ∧
    (∀ f, find (s.shared.cell h).handles (ρ.name x) = some f → Entry.registered (ρ.name x) f ∈ log) ∧
    (s₂.thread h = s₁.thread h ∧ (s₂.shared.cell h).events = (s₁.shared.cell h).events) ∧
    ∀ type, type ≠ ρ.name x →
      find (s.shared.cell h).handles type = current type (find (s₁.shared.cell h).handles type) log := by
  have hmove := (next_sound hn).2
  obtain ⟨hne, hnone⟩ := not_called_of_table (reachable_owned hr) hc
  have hsame := move_table hc hne hmove
  have hseen : seen ρ h s₁ (.step a ch) = [.cancelled (ρ.name x)] := by simp [seen, hc, opChanges, changes]
  have hfind (type : String) : find (s₂.shared.cell h).handles type =
      if ρ.name x = type then none else find (s₁.shared.cell h).handles type := by
    rw [move_find hmove, hseen]
    rfl
  have hgone : find (s₂.shared.cell h).handles (ρ.name x) = none := by simp [hfind]
  have hidle : calledBy s₂ (.thread h) = none := by
    rw [← hnone]
    simp only [calledBy, standing, hsame.1]
  have hrenewed : Renewed h (s₂.shared.cell h).handles (ρ.name x) s log := by
    refine hrun.logged_invariant (P := Renewed h (s₂.shared.cell h).handles (ρ.name x)) ?_ ?_
    · rintro s rfl
      refine ⟨fun type => rfl, fun k hk => ?_⟩
      rw [hidle] at hk
      cases hk
    · intro s log a s' _ hs _ hn
      exact move_renewed hs hgone (next_sound hn).2
  refine ⟨hrenewed.called, fun f hf => ?_, hsame, fun type htype => ?_⟩
  · rw [hrenewed.table, hgone] at hf
    exact registered_of_current hf
  · rw [hrenewed.table, hfind, if_neg (Ne.symm htype)]

end System

section Runs

def upToCancel : List (Action Unit Nat Nat Nat) :=
  List.flatten [[.call 0 (.on 0 () (some 7))], steps (.client 0) 4, [.call 0 (.subscribe (some 0))],
    steps (.client 0) 4, [.control 0 .start], steps (.control 0) 3, [.call 0 (.publish () 42 none)],
    steps (.client 0) 12, [.call 1 (.cancel 0 ())], steps (.client 1) 1]

def cancelling : State Unit Nat Nat Nat := (run (system oneType 2 1) {} upToCancel).getD {}

theorem cancelling_reachable : Reachable (system oneType 2 1) Any cancelling := by
  have hrun : run (system oneType 2 1) {} upToCancel = some cancelling := rfl
  exact run_reachable (.init rfl) hrun

def cancelled : State Unit Nat Nat Nat := (next oneType 2 1 cancelling (.step (.client 1) .run)).getD {}

theorem cancelled_for_good_queued : ∃ (s : State Unit Nat Nat Nat) (log : List (Entry Unit Nat)),
    ((cancelling.shared.cell 0).events.queue.length = 1 ∧ (s.shared.cell 0).events.queue = []) ∧
      log.length = 0 ∧ ∀ k, calledBy s (.thread 0) = some ("T", k) →
        ∃ f, Callback.function f = k ∧ Entry.registered "T" f ∈ log := by
  obtain ⟨⟨s, log⟩, hr, hp⟩ := exists_of_run (logged (startingAt (system oneType 2 1) cancelled) (seen oneType 0))
    Any (fun _ _ => true) (cancelled, []) (List.flatten [steps (.client 1) 2, steps (.thread 0) 8])
    (fun p => decide ((p.1.shared.cell 0).events.queue = [] ∧ p.2.length = 0)) (fun _ _ _ => trivial)
    ⟨rfl, rfl⟩ rfl
  obtain ⟨hq, hlog⟩ := of_decide_eq_true hp
  have hn : next oneType 2 1 cancelling (.step (.client 1) .run) = some cancelled := rfl
  exact ⟨s, log, ⟨rfl, hq⟩, hlog, (cancelled_for_good cancelling_reachable rfl hn hr).1⟩

end Runs

end Enigma.BusCancel
