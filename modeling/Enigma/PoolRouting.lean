import Enigma.PoolCalls

namespace Enigma.PoolRouting

open Transition ThreadPool PoolStep PoolCalls Indexed

variable {hw c w : Nat} {s s' : Pool} {wk : Worker} {pc pc' : CallPc}

def Staffed (s : Pool) : Prop := s.stopRequested = true ∨ s.workers ≠ []

/-- The positions of a call that has seen a pool with a worker in it: Startup
after its first worker, Submit after its look at _start. -/
def relies : CallPc → Bool
  | .startupCreate _ i => decide (0 < i)
  | .startupStart | .startupUnlock | .submitLock | .submitLimit | .submitScan _ | .submitRoute
  | .submitRandom | .pushCount _ _ | .pushTask _ _ _ | .submitEmplace _ | .submitReturn _ => true
  | _ => false

theorem createCount_pos (a : Args) : 0 < a.createCount := by
  unfold Args.createCount
  split <;> omega

theorem callStep_staffed (h : CallStep hw c s pc s' pc')
    (hp : tearingDown pc = true → s.stopRequested = true) (hs : Staffed s) : Staffed s' := by
  cases h with
  | shutdownCleared => exact .inl (hp rfl)
  | shutdownRequest => exact .inl rfl
  | startupCreate | emplace => exact .inr (by simp)
  | startupRefused | startupChecked | startupMax | startupExpand | startupLock | startupCreated
  | startupStart | startupUnlock | shutdownRefused | shutdownChecked | destroy | clearStep | cleared
  | stopStep | stopped | joined | shutdownEnd | submitRefused | submitChecked | submitLock | overLimit
  | withinLimit | scanBusy | scanIdle | scanned | routeRandom | expand | picked | outOfRange | count
  | pushStep | pushedFresh | pushed | submitReturn | submitThrow | dangling => exact hs

theorem callStep_relies (h : CallStep hw c s pc s' pc') (hstart : s.start = true → Staffed s)
    (hp : tearingDown pc = true → s.stopRequested = true) (hs : relies pc = true → Staffed s) :
    (s'.start = true → Staffed s') ∧ (relies pc' = true → Staffed s') := by
  have hkeep := callStep_staffed h hp
  refine ⟨fun hs' => ?_, fun hr => ?_⟩
  · cases h with
    | startupStart => exact hkeep (hs rfl)
    | shutdownEnd => cases hs'
    | _ => exact hkeep (hstart hs')
  · cases h with
    | startupCreate => exact .inr (by simp)
    | startupCreated a i hi =>
        apply hs
        have := createCount_pos a
        simp only [relies, decide_eq_true_eq]
        omega
    | submitChecked h => exact hstart h
    | dangling => exact hkeep (hs hr)
    | startupLock => cases hr
    | startupStart | submitLock | overLimit | withinLimit | scanBusy | scanIdle | scanned
    | routeRandom | expand | picked | count | pushStep | pushedFresh | pushed | emplace =>
        exact hkeep (hs rfl)
    | startupRefused | startupChecked | startupMax | startupExpand | startupUnlock | shutdownRefused
    | shutdownChecked | shutdownRequest | destroy | shutdownCleared | clearStep | cleared | stopStep
    | stopped | joined | shutdownEnd | submitRefused | outOfRange | submitReturn | submitThrow =>
        cases hr

theorem workerStep_staffed (h : WorkerStep s w wk s') :
    s'.start = s.start ∧ s'.workers = s.workers ∧ s'.stopRequested = s.stopRequested := by
  cases h <;> exact ⟨rfl, rfl, rfl⟩

theorem reachable_staffed {ok : State → Action → Prop} {s : State} (hr : Reachable (system hw) ok s)
    {c : Nat} {pc : CallPc} (hc : s.calls[c]? = some pc) (hp : relies pc = true) : Staffed s.pool := by
  have hinv := pool_invariant (Q := fun s => s.start = true → Staffed s)
    (P := fun s _ pc => (tearingDown pc = true → s.stopRequested = true) ∧ (relies pc = true → Staffed s))
    ?_ ?_ ?_ ?_ ?_ hr
  · exact (hinv.2 c pc hc).2 hp
  · intro h
    cases h
  · intro s c r _
    cases r <;> exact ⟨fun h => (by cases h), fun h => (by cases h)⟩
  · rintro c s pc s' pc' h hq ⟨ht, hp⟩
    obtain ⟨hq', hp'⟩ := callStep_relies h hq ht hp
    refine ⟨hq', fun ht' => ?_, hp'⟩
    rcases callStep_tearingDown h ht' with ht' | ht'
    · exact callStep_stopRequested h (ht ht')
    · exact ht'
  · rintro c s pc s' pc' d pd h _ ⟨ht, -⟩ _ ⟨hd, hpd⟩
    exact ⟨fun h' => callStep_stopRequested h (hd h'), fun h' => callStep_staffed h ht (hpd h')⟩
  · intro s w wk s' h hq
    obtain ⟨hstart, hworkers, hstop⟩ := workerStep_staffed h
    unfold Staffed
    rw [hstart, hworkers, hstop]
    exact ⟨hq, fun _ _ hp => hp⟩

def routing : CallPc → Bool
  | .submitScan _ | .submitRoute | .submitRandom | .pushCount _ _ | .pushTask _ _ _ | .submitEmplace _
  | .submitReturn true | .submitThrow => true
  | _ => false

/-- No Submit passes the limit check once the stop has been requested, and no
Shutdown requests the stop while a Submit is placing its task. -/
def ShutdownApart (s : State) (a : Action) : Prop := ∀ c ch j, a = .step c ch j →
  (s.calls[c]? = some .submitLimit → s.pool.currTaskCount ≤ s.pool.maxTaskCount →
    s.pool.stopRequested = false) ∧
  (s.calls[c]? = some .shutdownRequest → ∀ pc ∈ s.calls, routing pc = false)

theorem callStep_routing (h : CallStep hw c s pc s' pc') (hr : routing pc' = true) :
    s'.stopRequested = s.stopRequested ∧
      (routing pc = true ∨ (pc = .submitLimit ∧ s.currTaskCount ≤ s.maxTaskCount)) := by
  cases h with
  | withinLimit h => exact ⟨rfl, .inr ⟨rfl, h⟩⟩
  | dangling => exact ⟨rfl, .inl hr⟩
  | scanBusy | scanIdle | scanned | routeRandom | expand | picked | outOfRange | count | pushStep
  | pushedFresh | pushed | emplace => exact ⟨rfl, .inl rfl⟩
  | startupRefused | startupChecked | startupMax | startupExpand | startupLock | startupCreate
  | startupCreated | startupStart | startupUnlock | shutdownRefused | shutdownChecked
  | shutdownRequest | destroy | shutdownCleared | clearStep | cleared | stopStep | stopped | joined
  | shutdownEnd | submitRefused | submitChecked | submitLock | overLimit | submitReturn
  | submitThrow => cases hr

theorem callStep_stop_unchanged (h : CallStep hw c s pc s' pc') (hne : pc ≠ .shutdownRequest) :
    s'.stopRequested = s.stopRequested := by
  cases h <;> first | rfl | exact (hne rfl).elim

/-- at() throws only for an index past the end, and random() draws none unless
_workers is empty. -/
theorem workers_eq_nil_of_outOfRange {j : Nat} (hj : j ≤ lastIndex s) (h : s.workers[j]? = none) :
    s.workers = [] := by
  rw [List.getElem?_eq_none_iff] at h
  by_contra hne
  have hpos := List.length_pos_iff.mpr hne
  have hlast : lastIndex s ≤ s.workers.length - 1 := by
    have he : s.workers.length + (2 ^ 64 - 1) = s.workers.length - 1 + 2 ^ 64 := by omega
    rw [lastIndex, he, Nat.add_mod_right]
    exact Nat.mod_le _ _
  omega

def Undisturbed (s : Pool) (pc : CallPc) : Prop :=
  (routing pc = true → s.stopRequested = false) ∧ pc ≠ .submitThrow ∧ pc ≠ .done .threw

theorem callStep_threw (h : CallStep hw c s pc s' pc') (hp : pc ≠ .submitThrow ∧ pc ≠ .done .threw)
    (hw : pc = .submitRandom → s.workers ≠ []) : pc' ≠ .submitThrow ∧ pc' ≠ .done .threw := by
  cases h with
  | outOfRange j hj h => exact (hw rfl (workers_eq_nil_of_outOfRange hj h)).elim
  | submitThrow => exact (hp.1 rfl).elim
  | dangling => exact hp
  | _ => exact ⟨by simp, by simp⟩

theorem reachable_undisturbed {s : State} (hr : Reachable (system hw) ShutdownApart s) :
    ∀ (c : Nat) pc, s.calls[c]? = some pc → Undisturbed s.pool pc := by
  refine hr.invariant (P := fun s => ∀ (c : Nat) pc, s.calls[c]? = some pc → Undisturbed s.pool pc) ?_ ?_
  · rintro s rfl c pc hc
    simp at hc
  · intro s a s' hr hu hok hn
    rcases (next_cases hn).2 with ⟨r, rfl, rfl⟩ | ⟨c, ch, j, pc, p, pc', rfl, hpc, hs, rfl⟩ |
      ⟨w, ch, wk, p, rfl, hk, hs, rfl⟩
    · apply forall_append (P := fun _ => Undisturbed s.pool) hu
      cases r <;> exact ⟨fun h => (by cases h), by simp [Request.entry], by simp [Request.entry]⟩
    · obtain ⟨hlimit, hrequest⟩ := hok c ch j rfl
      apply forall_set (P := fun _ => Undisturbed p)
      · intro d pd hd
        obtain ⟨hstop, hthrow⟩ := hu d pd hd
        refine ⟨fun hrout => ?_, hthrow⟩
        rw [callStep_stop_unchanged hs, hstop hrout]
        rintro rfl
        rw [hrequest hpc pd (List.mem_of_getElem? hd)] at hrout
        cases hrout
      · obtain ⟨hstop, hthrow⟩ := hu c pc hpc
        refine ⟨fun hrout => ?_, callStep_threw hs hthrow ?_⟩
        · obtain ⟨hsame, hrout | ⟨rfl, hle⟩⟩ := callStep_routing hs hrout
          · rw [hsame, hstop hrout]
          · rw [hsame, hlimit hpc hle]
        · rintro rfl
          rcases reachable_staffed hr hpc rfl with ht | hne
          · rw [hstop rfl] at ht
            cases ht
          · exact hne
    · intro d pd hd
      obtain ⟨hstop, hthrow⟩ := hu d pd hd
      exact ⟨fun hrout => (workerStep_stopRequested hs).trans (hstop hrout), hthrow⟩

/-- Where no Shutdown overlaps the placement of a task, a Submit at the random branch finds a
worker, and until it has returned true the token of that worker has not been asked to stop. -/
theorem submit_finds_worker {s : State} (hr : Reachable (system hw) ShutdownApart s) (c : Nat) :
    (s.calls[c]? = some .submitRandom → s.pool.workers ≠ [] ∧ lastIndex s.pool < s.pool.workers.length) ∧
    s.calls[c]? ≠ some (.done .threw) ∧
    (∀ w fresh p, s.calls[c]? = some (.pushTask w fresh p) → s.pool.stopRequested = false) ∧
    (s.calls[c]? = some (.submitReturn true) → s.pool.stopRequested = false) := by
  have hu := reachable_undisturbed hr c
  refine ⟨fun hc => ?_, fun hc => (hu _ hc).2.2 rfl, fun w fresh p hc => (hu _ hc).1 rfl,
    fun hc => (hu _ hc).1 rfl⟩
  have hne : s.pool.workers ≠ [] := by
    rcases reachable_staffed hr hc rfl with ht | hne
    · rw [(hu _ hc).1 rfl] at ht
      cases ht
    · exact hne
  refine ⟨hne, ?_⟩
  by_contra hlt
  exact hne (workers_eq_nil_of_outOfRange (Nat.le_refl _) (List.getElem?_eq_none (by omega)))

theorem submit_finds_worker_busy : ∃ s : State, s.calls[2]? = some .submitRandom ∧
    s.pool.workers ≠ [] ∧ lastIndex s.pool < s.pool.workers.length := by
  obtain ⟨s, hr, hp⟩ := exists_of_run (system 1) ShutdownApart
    (fun s a => decide ((mover s a = some .submitLimit → s.pool.stopRequested = false) ∧
      (mover s a = some .shutdownRequest → ∀ pc ∈ s.calls, routing pc = false)))
    {} (List.flatten [[.call (.startup ⟨1, 5, false⟩)], walk 0 8, [.call .submit], walk 1 11, work 0 9,
      [.call .submit], walk 2 6])
    (fun s => decide (s.calls[2]? = some CallPc.submitRandom))
    (by
      rintro s a ha c ch j rfl
      obtain ⟨hlimit, hrequest⟩ := of_decide_eq_true ha
      exact ⟨fun hc _ => hlimit hc, hrequest⟩)
    rfl (by decide)
  have hc := of_decide_eq_true hp
  exact ⟨s, hc, (submit_finds_worker hr 2).1 hc⟩

/-- The schedule of a Submit that has seen _start set and is overtaken by a
whole Shutdown. -/
def overtaken (allowExpand : Bool) : List Action :=
  [.call (.startup ⟨1, 5, allowExpand⟩)] ++ walk 0 8 ++ [.call .submit] ++ walk 1 1 ++
    [.call .shutdown] ++ walk 2 10 ++ work 0 1 ++ walk 2 3

/-- In a pool without expansion the overtaken Submit picks from an empty list;
in one with expansion its task goes to a new worker already told to stop. -/
theorem submit_after_shutdown :
    (¬ ∀ (s : State) (c : Nat), Reachable (system 1) Any s →
      s.calls[c]? = some .submitRandom → s.pool.workers ≠ []) ∧
    (¬ ∀ (s : State) (c : Nat), Reachable (system 1) Any s →
      s.calls[c]? = some (.submitReturn true) → s.pool.stopRequested = false) := by
  refine ⟨fun hall => ?_, fun hall => ?_⟩
  · obtain ⟨s, hr, hp⟩ := exists_of_run (system 1) Any (fun _ _ => true) {}
      (overtaken false ++ walk 1 4)
      (fun s => decide (s.calls[1]? = some CallPc.submitRandom ∧ s.pool.workers = []))
      (fun _ _ _ => trivial) rfl (by decide)
    obtain ⟨hc, hw⟩ := of_decide_eq_true hp
    exact hall s 1 hr hc hw
  · obtain ⟨s, hr, hp⟩ := exists_of_run (system 1) Any (fun _ _ => true) {}
      (overtaken true ++ walk 1 11)
      (fun s => decide (s.calls[1]? = some (CallPc.submitReturn true) ∧ s.pool.stopRequested = true))
      (fun _ _ _ => trivial) rfl (by decide)
    obtain ⟨hc, hs⟩ := of_decide_eq_true hp
    have hf := hall s 1 hr hc
    rw [hs] at hf
    cases hf

end Enigma.PoolRouting
