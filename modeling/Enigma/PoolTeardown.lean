import Enigma.PoolView

namespace Enigma.PoolTeardown

open Transition SyncQueue ThreadPool PoolStep PoolCalls PoolView Indexed

variable {hw c w : Nat} {s s' : Pool} {wk : Worker} {pc pc' : CallPc}

def isDone : CallPc → Bool
  | .done _ => true
  | _ => false

def shuttingDown : CallPc → Bool
  | .shutdownCheck | .shutdownRequest => true
  | pc => tearingDown pc

/-- The pool is used in cycles: Shutdown is called when every other call has
returned, and no call is made before it has returned. -/
def ShutdownAlone (s : State) (a : Action) : Prop := ∀ r, a = .call r →
  (∀ pc ∈ s.calls, shuttingDown pc = false) ∧ (r = .shutdown → ∀ pc ∈ s.calls, isDone pc = true)

theorem callStep_not_done (h : CallStep hw c s pc s' pc') : isDone pc = false := by
  cases h with
  | dangling pc w wk ht =>
      cases pc with
      | done => cases ht
      | _ => rfl
  | _ => rfl

theorem not_shuttingDown_of_isDone (h : isDone pc = true) : shuttingDown pc = false := by
  cases pc with
  | done => rfl
  | _ => cases h

theorem callStep_shuttingDown (h : CallStep hw c s pc s' pc') (hs : shuttingDown pc' = true) :
    shuttingDown pc = true := by
  cases h with
  | dangling => exact hs
  | shutdownChecked | shutdownRequest | destroy | shutdownCleared | clearStep | cleared | stopStep
  | stopped | joined => rfl
  | _ => cases hs

/-- A Shutdown in progress is the last call, and all others have returned. -/
def Lone (s : State) : Prop := ∀ (c : Nat) pc, s.calls[c]? = some pc → shuttingDown pc = true →
  c + 1 = s.calls.length ∧ ∀ (d : Nat) pd, d ≠ c → s.calls[d]? = some pd → isDone pd = true

theorem reachable_lone {s : State} (hr : Reachable (system hw) ShutdownAlone s) : Lone s := by
  refine hr.invariant (P := Lone) ?_ ?_
  · rintro s rfl c pc hc
    simp at hc
  · intro s a s' _ hl hok hn
    rcases (next_cases hn).2 with ⟨r, rfl, rfl⟩ | ⟨e, ch, j, pe, p, pe', rfl, hpe, hs, rfl⟩ |
      ⟨w, ch, wk, p, rfl, hk, hs, rfl⟩
    · obtain ⟨hnone, hdone⟩ := hok r rfl
      intro c pc hc hsd
      rcases append_cases hc with ⟨rfl, rfl⟩ | hc
      · refine ⟨by simp, fun d pd hne hd => ?_⟩
        rcases append_cases hd with ⟨rfl, -⟩ | hd
        · exact (hne rfl).elim
        · have hr : r = .shutdown := by
            cases r with
            | shutdown => rfl
            | startup | submit => cases hsd
          exact hdone hr pd (List.mem_of_getElem? hd)
      · rw [hnone pc (List.mem_of_getElem? hc)] at hsd
        cases hsd
    · intro c pc hc hsd
      rw [List.length_set]
      rcases set_cases hc with ⟨rfl, rfl, -⟩ | ⟨hne, hc⟩
      · obtain ⟨hlast, hothers⟩ := hl c pe hpe (callStep_shuttingDown hs hsd)
        refine ⟨hlast, fun d pd hne hd => ?_⟩
        rw [List.getElem?_set_ne (Ne.symm hne)] at hd
        exact hothers d pd hne hd
      · -- the call that moved would have returned already
        have hde := (hl c pc hc hsd).2 e pe (Ne.symm hne) hpe
        rw [callStep_not_done hs] at hde
        cases hde
    · exact hl

theorem reachable_destroyed {ok : State → Action → Prop} {s : State}
    (hr : Reachable (system hw) ok s) : ∀ (w : Nat) wk, s.pool.heap[w]? = some wk →
      wk.destroyed = true → wk.pc = .exited ∧ wk.tasks.queue = [] := by
  refine hr.invariant (P := fun s => ∀ (w : Nat) wk, s.pool.heap[w]? = some wk →
    wk.destroyed = true → wk.pc = .exited ∧ wk.tasks.queue = []) ?_ ?_
  · rintro s rfl w wk hk
    simp at hk
  · intro s a s' _ hp _ hn
    rcases (next_cases hn).2 with ⟨r, rfl, rfl⟩ | ⟨c, ch, j, pc, p, pc', rfl, hpc, hs, rfl⟩ |
      ⟨v, ch, vk, p, rfl, hv, hs, rfl⟩
    · exact hp
    · intro w wk' hk' hd
      rcases callStep_destroyed hs hk' hd with he | hk
      · exact he
      · exact hp w wk' hk hd
    · intro w wk' hk' hd
      obtain ⟨vk', hh, hdead, -⟩ := workerStep_turn hs
      simp only [hh] at hk'
      rcases set_cases hk' with ⟨rfl, rfl, -⟩ | ⟨-, hk'⟩
      · have he := (hp w vk hv (hdead ▸ hd)).1
        cases hs with
        | exit h | enter h | idle h | nothing h | got x h | pop p p' q h | start x h | finish x h
        | decrement x h =>
            rw [h] at he
            cases he
      · exact hp w wk' hk' hd

def Gone (s : Pool) (w : Nat) : Prop := ∀ wk, s.heap[w]? = some wk → wk.destroyed = true

def Torn (s : Pool) : CallPc → Prop
  | .shutdownClear i => ∀ j < i, ∀ w, s.workers[j]? = some w → Gone s w
  | .destroyClear i w _ | .destroyStop i w _ | .destroyJoin i w =>
      s.workers[i]? = some w ∧ ∀ j < i, ∀ v, s.workers[j]? = some v → Gone s v
  | .shutdownEnd => s.workers = [] ∧ ∀ w, Gone s w
  | _ => True

def freshFor : CallPc → Option Nat
  | .pushCount w true | .pushTask w true _ | .submitEmplace w => some w
  | _ => none

/-- No worker is forgotten: it is in _workers, on its way there, or destroyed. -/
def Kept (s : State) : Prop := ∀ (w : Nat) wk, s.pool.heap[w]? = some wk →
  wk.destroyed = true ∨ w ∈ s.pool.workers ∨ ∃ (c : Nat) (pc : CallPc), s.calls[c]? = some pc ∧ freshFor pc = some w

theorem torn_of_not_tearingDown (h : tearingDown pc = false) : Torn s pc := by
  cases pc with
  | shutdownClear | destroyClear | destroyStop | destroyJoin | shutdownEnd => cases h
  | _ => trivial

theorem freshFor_of_isDone (h : isDone pc = true) : freshFor pc = none := by
  cases pc with
  | done => rfl
  | _ => cases h

theorem callStep_gone (h : CallStep hw c s pc s' pc') (ht : tearingDown pc = true) (hg : Gone s w) :
    Gone s' w := by
  cases h with
  | clearStep i v p p' wk q hk | stopStep i v p p' wk q hk =>
      intro wk' hk'
      rcases set_cases hk' with ⟨rfl, rfl, -⟩ | ⟨-, hk'⟩
      · exact hg wk hk
      · exact hg wk' hk'
  | joined i v wk hk =>
      intro wk' hk'
      rcases set_cases hk' with ⟨rfl, rfl, -⟩ | ⟨-, hk'⟩
      · rfl
      · exact hg wk' hk'
  | destroy | shutdownCleared | cleared | stopped | shutdownEnd | dangling => exact hg
  | _ => cases ht

theorem callStep_ages (h : CallStep hw c s pc s' pc') {wk' : Worker} (hk' : s'.heap[w]? = some wk') :
    (w = s.heap.length ∧ wk' = newWorker ∧ (w ∈ s'.workers ∨ freshFor pc' = some w)) ∨
    ∃ wk, s.heap[w]? = some wk ∧ wk'.pc = wk.pc ∧ (wk.destroyed = true → wk'.destroyed = true) := by
  cases h with
  | startupCreate =>
      rcases append_cases hk' with ⟨rfl, rfl⟩ | hk'
      · exact .inl ⟨rfl, rfl, .inl (by simp)⟩
      · exact .inr ⟨wk', hk', rfl, id⟩
  | expand =>
      rcases append_cases hk' with ⟨rfl, rfl⟩ | hk'
      · exact .inl ⟨rfl, rfl, .inr rfl⟩
      · exact .inr ⟨wk', hk', rfl, id⟩
  | clearStep i v p p' wk q hk | stopStep i v p p' wk q hk | pushStep v fresh p p' wk q hk
  | joined i v wk hk =>
      rcases set_cases hk' with ⟨rfl, rfl, -⟩ | ⟨-, hk'⟩
      · exact .inr ⟨wk, hk, rfl, fun h => (by first | exact h | rfl)⟩
      · exact .inr ⟨wk', hk', rfl, id⟩
  | _ => exact .inr ⟨wk', hk', rfl, id⟩

theorem callStep_workers (h : CallStep hw c s pc s' pc') (hw : w ∈ s.workers) :
    w ∈ s'.workers ∨ ∃ i, pc = .shutdownClear i ∧ s.workers[i]? = none := by
  cases h with
  | startupCreate | emplace => exact .inl (List.mem_append_left _ hw)
  | shutdownCleared i h => exact .inr ⟨i, rfl, h⟩
  | _ => exact .inl hw

theorem callStep_freshFor (h : CallStep hw c s pc s' pc') (hf : freshFor pc = some w) :
    w ∈ s'.workers ∨ freshFor pc' = some w := by
  cases h with
  | count v fresh | pushStep v fresh =>
      cases fresh with
      | true => exact .inr hf
      | false => cases hf
  | pushedFresh => exact .inr hf
  | dangling => exact .inr hf
  | emplace v =>
      cases hf
      exact .inl (by simp)
  | _ => cases hf

theorem gone_of_cleared {i : Nat} (ht : Torn s (.shutdownClear i)) (hi : s.workers[i]? = none)
    (hw : w ∈ s.workers) : Gone s w := by
  obtain ⟨j, hj⟩ := List.mem_iff_getElem?.mp hw
  have hlt := (List.getElem?_eq_some_iff.mp hj).1
  have hle := List.getElem?_eq_none_iff.mp hi
  exact ht j (by omega) w hj

theorem callStep_torn (h : CallStep hw c s pc s' pc') (ht : Torn s pc)
    (hall : ∀ i, pc = .shutdownClear i → s.workers[i]? = none → ∀ w, Gone s w) : Torn s' pc' := by
  have hkeep (htear : tearingDown pc = true) {i : Nat}
      (hp : ∀ j < i, ∀ v, s.workers[j]? = some v → Gone s v) :
      ∀ j < i, ∀ v, s.workers[j]? = some v → Gone s' v :=
    fun j hj v hv => callStep_gone h htear (hp j hj v hv)
  cases h with
  | shutdownRequest => exact fun j hj => absurd hj (Nat.not_lt_zero j)
  | destroy i v hi => exact ⟨hi, ht⟩
  | shutdownCleared i hi => exact ⟨rfl, hall i rfl hi⟩
  | clearStep | stopStep => exact ⟨ht.1, hkeep rfl ht.2⟩
  | cleared | stopped => exact ht
  | joined i v wk hk =>
      intro j hj u hu
      rcases Nat.lt_succ_iff_lt_or_eq.mp hj with hj | rfl
      · exact hkeep rfl ht.2 j hj u hu
      · obtain rfl : v = u := Option.some.inj (ht.1.symm.trans hu)
        intro wk' hk'
        rcases set_cases hk' with ⟨-, rfl, -⟩ | ⟨hne, -⟩
        · rfl
        · exact (hne rfl).elim
  | dangling pc v wk htarget =>
      cases pc with
      | destroyClear | destroyStop | destroyJoin => exact ht
      | _ => trivial
  | _ => trivial

theorem workerStep_gone (h : WorkerStep s w wk s') (hk : s.heap[w]? = some wk) {v : Nat}
    (hg : Gone s v) : Gone s' v := by
  obtain ⟨wk', hh, hd, -⟩ := workerStep_turn h
  intro vk hv
  rw [hh] at hv
  rcases set_cases hv with ⟨rfl, rfl, -⟩ | ⟨-, hv⟩
  · rw [hd]
    exact hg wk hk
  · exact hg vk hv

theorem workerStep_torn (h : WorkerStep s w wk s') (hk : s.heap[w]? = some wk) (ht : Torn s pc) :
    Torn s' pc := by
  have hw := workerStep_workers h
  have hg {v : Nat} (hv : Gone s v) : Gone s' v := workerStep_gone h hk hv
  cases pc with
  | shutdownClear i => exact fun j hj v hv => hg (ht j hj v (hw ▸ hv))
  | destroyClear i v p | destroyStop i v p | destroyJoin i v =>
      exact ⟨hw ▸ ht.1, fun j hj u hu => hg (ht.2 j hj u (hw ▸ hu))⟩
  | shutdownEnd => exact ⟨hw ▸ ht.1, fun v => hg (ht.2 v)⟩
  | _ => trivial

theorem callStep_kept {s : State} {p : Pool} (hs : CallStep hw c s.pool pc p pc')
    (hpc : s.calls[c]? = some pc) (hk : Kept s) (ht : Torn s.pool pc) :
    Kept ⟨p, s.calls.set c pc'⟩ := by
  have hlt := (List.getElem?_eq_some_iff.mp hpc).1
  have hself : (s.calls.set c pc')[c]? = some pc' := List.getElem?_set_self hlt
  intro w wk' hk'
  rcases callStep_ages hs hk' with ⟨-, -, hnew | hnew⟩ | ⟨wk, hold, -, hdead⟩
  · exact .inr (.inl hnew)
  · exact .inr (.inr ⟨c, pc', hself, hnew⟩)
  · rcases hk w wk hold with hd | hm | ⟨d, pd, hd, hf⟩
    · exact .inl (hdead hd)
    · rcases callStep_workers hs hm with hm | ⟨i, rfl, hi⟩
      · exact .inr (.inl hm)
      · exact .inl (hdead (gone_of_cleared ht hi hm wk hold))
    · by_cases hne : d = c
      · subst hne
        obtain rfl : pc = pd := Option.some.inj (hpc.symm.trans hd)
        rcases callStep_freshFor hs hf with hm | hf
        · exact .inr (.inl hm)
        · exact .inr (.inr ⟨d, pc', hself, hf⟩)
      · refine .inr (.inr ⟨d, pd, ?_, hf⟩)
        rw [List.getElem?_set_ne (Ne.symm hne)]
        exact hd

theorem gone_at_end {s : State} {i : Nat} (hl : Lone s) (hk : Kept s)
    (hc : s.calls[c]? = some (.shutdownClear i)) (ht : Torn s.pool (.shutdownClear i))
    (hi : s.pool.workers[i]? = none) (w : Nat) : Gone s.pool w := by
  intro wk hwk
  rcases hk w wk hwk with hd | hm | ⟨d, pd, hd, hf⟩
  · exact hd
  · exact gone_of_cleared ht hi hm wk hwk
  · by_cases hne : d = c
    · subst hne
      rw [hc] at hd
      cases hd
      cases hf
    · rw [freshFor_of_isDone ((hl c _ hc rfl).2 d pd hne hd)] at hf
      cases hf

theorem reachable_teardown {s : State} (hr : Reachable (system hw) ShutdownAlone s) :
    Kept s ∧ ∀ (c : Nat) pc, s.calls[c]? = some pc → Torn s.pool pc := by
  refine hr.invariant
    (P := fun s => Kept s ∧ ∀ (c : Nat) pc, s.calls[c]? = some pc → Torn s.pool pc) ?_ ?_
  · rintro s rfl
    exact ⟨fun w wk hk => by simp at hk, fun c pc hc => by simp at hc⟩
  · rintro s a s' hr ⟨hk, ht⟩ - hn
    have hl := reachable_lone hr
    rcases (next_cases hn).2 with ⟨r, rfl, rfl⟩ | ⟨c, ch, j, pc, p, pc', rfl, hpc, hs, rfl⟩ |
      ⟨v, ch, vk, p, rfl, hv, hs, rfl⟩
    · refine ⟨fun w wk hwk => ?_, forall_append ht (by cases r <;> trivial)⟩
      rcases hk w wk hwk with hd | hm | ⟨d, pd, hd, hf⟩
      · exact .inl hd
      · exact .inr (.inl hm)
      · refine .inr (.inr ⟨d, pd, ?_, hf⟩)
        rw [List.getElem?_append_left (List.getElem?_eq_some_iff.mp hd).1]
        exact hd
    · refine ⟨callStep_kept hs hpc hk (ht c pc hpc), fun d pd hd => ?_⟩
      rcases set_cases hd with ⟨rfl, rfl, -⟩ | ⟨hne, hd⟩
      · apply callStep_torn hs (ht d pc hpc)
        rintro i rfl hi w
        exact gone_at_end hl hk hpc (ht d _ hpc) hi w
      · apply torn_of_not_tearingDown
        by_contra htear
        have hsd : shuttingDown pd = true := by
          cases pd <;> first | rfl | exact (htear rfl).elim
        have hdone := (hl d pd hd hsd).2 c pc (Ne.symm hne) hpc
        rw [callStep_not_done hs] at hdone
        cases hdone
    · refine ⟨fun w wk hwk => ?_, fun d pd hd => workerStep_torn hs hv (ht d pd hd)⟩
      obtain ⟨vk', hh, hdead, -⟩ := workerStep_turn hs
      rw [workerStep_workers hs]
      simp only [hh] at hwk
      rcases set_cases hwk with ⟨rfl, rfl, -⟩ | ⟨-, hwk⟩
      · rw [hdead]
        exact hk w vk hv
      · exact hk w wk hwk

end Enigma.PoolTeardown
