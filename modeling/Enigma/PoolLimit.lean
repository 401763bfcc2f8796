import Enigma.PoolCount

namespace Enigma.PoolLimit

open Transition ThreadPool PoolStep PoolLog PoolTasks PoolCalls PoolCount Indexed

/-- A Submit that has passed the limit check and not yet counted its task. -/
def pledge : CallPc → Nat
  | .submitScan _ | .submitRoute | .submitRandom | .pushCount _ _ => 1
  | _ => 0

variable {hw c w : Nat} {s s' : Pool} {wk : Worker} {pc pc' : CallPc}

theorem locked_of_pledge (h : pledge pc ≠ 0) : locked pc = true := by
  cases pc <;> first | rfl | exact (h rfl).elim

theorem callStep_pledge (h : CallStep hw c s pc s' pc') :
    (pc = .submitLimit ∧ s.currTaskCount ≤ s.maxTaskCount ∧ s' = s ∧ pledge pc' = 1) ∨
    (∃ a, pc = .startupMax a ∧ s'.currTaskCount = s.currTaskCount ∧ pledge pc' = 0 ∧
      s'.maxTaskCount = a.limit) ∨
    (s'.currTaskCount + pledge pc' ≤ s.currTaskCount + pledge pc ∧ s'.maxTaskCount = s.maxTaskCount) := by
  cases h with
  | withinLimit h => exact .inl ⟨rfl, h, rfl, rfl⟩
  | startupMax a => exact .inr (.inl ⟨a, rfl, rfl, rfl, rfl⟩)
  | overLimit | submitReturn | submitThrow => exact .inr (.inr ⟨Nat.le_refl _, rfl⟩)
  | outOfRange => exact .inr (.inr ⟨Nat.le_succ _, rfl⟩)
  | startupRefused | startupChecked | startupExpand | startupLock | startupCreate | startupCreated
  | startupStart | startupUnlock | shutdownRefused | shutdownChecked | shutdownRequest | destroy
  | shutdownCleared | clearStep | cleared | stopStep | stopped | joined | shutdownEnd
  | submitRefused | submitChecked | submitLock | scanBusy | scanIdle | scanned | routeRandom | expand
  | picked | count | pushStep | pushedFresh | pushed | emplace | dangling =>
      exact .inr (.inr ⟨Nat.le_refl _, rfl⟩)

theorem workerStep_currTaskCount (h : WorkerStep s w wk s') (hle : load wk ≤ s.currTaskCount) :
    s'.currTaskCount ≤ s.currTaskCount ∧ s'.maxTaskCount = s.maxTaskCount := by
  cases h with
  | decrement x hp =>
      simp only [load, inProgress, hp, List.length_singleton] at hle
      refine ⟨?_, rfl⟩
      show ThreadPool.decrement s.currTaskCount ≤ s.currTaskCount
      rw [ThreadPool.decrement, if_neg (by omega)]
      omega
  | exit | enter | idle | nothing | got | pop | start | finish => exact ⟨Nat.le_refl _, rfl⟩

/-- No Submit makes its limit check while the counter stands at the limit
itself, and no Startup lowers the limit. -/
def LimitRespected (s : State) (a : Action) : Prop := ∀ c ch j, a = .step c ch j →
  (s.calls[c]? = some .submitLimit → s.pool.currTaskCount ≠ s.pool.maxTaskCount) ∧
  ∀ args, s.calls[c]? = some (.startupMax args) → s.pool.maxTaskCount ≤ args.limit

def Within (s : State) : Prop :=
  s.pool.currTaskCount + (s.calls.map pledge).sum ≤ s.pool.maxTaskCount

theorem sum_pledge_eq_zero {ok : State → Action → Prop} {s : State} (hr : Reachable (system hw) ok s)
    (hc : s.calls[c]? = some .submitLimit) : (s.calls.map pledge).sum = 0 := by
  apply List.sum_eq_zero_iff_forall_eq_nat.mpr
  intro n hn
  obtain ⟨pd, hm, rfl⟩ := List.mem_map.mp hn
  obtain ⟨d, hd⟩ := List.mem_iff_getElem?.mp hm
  by_contra hne
  obtain rfl := locked_unique hr hc hd rfl (locked_of_pledge hne)
  rw [hc] at hd
  cases hd
  exact hne rfl

theorem reachable_within {s : State} {h : List Event}
    (hr : Reachable (logged (system hw) obs) (fun p a => LimitRespected p.1 a) (s, h)) : Within s := by
  refine hr.logged_invariant (P := fun s _ => Within s) ?_ ?_
  · rintro s rfl
    exact Nat.le_refl 0
  · intro s h a s' hr hw hok hn
    unfold Within at hw ⊢
    rcases (next_cases hn).2 with ⟨r, rfl, rfl⟩ | ⟨c, ch, j, pc, p, pc', rfl, hpc, hs, rfl⟩ |
      ⟨w, ch, wk, p, rfl, hk, hs, rfl⟩
    · have hpledge : pledge r.entry = 0 := by cases r <;> rfl
      simpa [hpledge] using hw
    · have hsum := sum_map_set hpc pc' pledge
      obtain ⟨hlimit, hmax⟩ := hok c ch j rfl
      rcases callStep_pledge hs with ⟨rfl, hle, rfl, hpledge⟩ | ⟨a, rfl, hcount, hpledge, hnew⟩ | ⟨hcount, hsame⟩
      · -- the mutex leaves this call alone with its pledge
        have hzero := sum_pledge_eq_zero hr.forget_any hpc
        have hne : s.pool.currTaskCount ≠ s.pool.maxTaskCount := hlimit hpc
        simp only [hpledge] at hsum ⊢
        have hold : pledge .submitLimit = 0 := rfl
        omega
      · have hle : s.pool.maxTaskCount ≤ a.limit := hmax a hpc
        have hold : pledge (.startupMax a) = 0 := rfl
        simp only [hcount, hnew]
        omega
      · simp only [hsame]
        omega
    · have hle : load wk ≤ s.pool.currTaskCount := by
        rw [reachable_counted hr]
        have := le_sum_map hk load
        omega
      obtain ⟨hcount, hsame⟩ := workerStep_currTaskCount hs hle
      simp only [hsame]
      omega

/-- The tasks queued or running never exceed the limit in a run in which no
Submit makes its check with the counter at the limit. -/
theorem unfinished_le_limit {s : State} {h : List Event}
    (hr : Reachable (logged (system hw) obs) (fun p a => LimitRespected p.1 a) (s, h)) :
    queuedCount s.pool + poppedCount s.pool ≤ s.pool.maxTaskCount := by
  have hc := reachable_counted hr
  have hw := reachable_within hr
  have hsum : (s.pool.heap.map load).sum = queuedCount s.pool + poppedCount s.pool :=
    List.sum_map_add
  unfold Counted at hc
  unfold Within at hw
  omega

theorem unfinished_le_limit_one : ∃ s : State, s.pool.start = true ∧ s.pool.maxTaskCount = 1 ∧
    poppedCount s.pool = 1 ∧ queuedCount s.pool + poppedCount s.pool ≤ s.pool.maxTaskCount := by
  obtain ⟨⟨s, h⟩, hr, hp⟩ := exists_of_run (logged (system 1) obs)
    (fun p a => LimitRespected p.1 a)
    (fun p a => decide (p.1.pool.maxTaskCount ≤ 1 ∧
      (mover p.1 a = some .submitLimit → p.1.pool.currTaskCount ≠ p.1.pool.maxTaskCount)))
    ({}, []) (List.flatten [[.call (.startup ⟨1, 1, false⟩)], walk 0 8, [.call .submit], walk 1 11, work 0 9])
    (fun p => decide (p.1.pool.start = true ∧ p.1.pool.maxTaskCount = 1 ∧ poppedCount p.1.pool = 1))
    (by
      rintro p a ha c ch j rfl
      obtain ⟨hle, hlimit⟩ := of_decide_eq_true ha
      refine ⟨hlimit, fun args _ => ?_⟩
      unfold Args.limit
      split <;> omega)
    ⟨rfl, rfl⟩ (by decide)
  obtain ⟨hs, hm, hpop⟩ := of_decide_eq_true hp
  exact ⟨s, hs, hm, hpop, unfinished_le_limit hr⟩

def StartedOnce (s : State) (a : Action) : Prop :=
  a ≠ .call .shutdown ∧ ∀ args, a = .call (.startup args) → s.calls = []

/-- With a limit of one, the second Submit finds the counter at one, which is
not over the limit, and is accepted. -/
theorem limit_exceeded_by_one : ¬ ∀ s : State, Reachable (system 1) StartedOnce s →
    s.pool.start = true → queuedCount s.pool + poppedCount s.pool ≤ s.pool.maxTaskCount := by
  intro hall
  obtain ⟨s, hr, hp⟩ := exists_of_run (system 1) StartedOnce
    (fun s a => a != .call .shutdown && (s.calls.isEmpty || !isCall a || a == .call .submit))
    {} (List.flatten [[.call (.startup ⟨1, 1, false⟩)], walk 0 8, [.call .submit], walk 1 11, work 0 9,
      [.call .submit], walk 2 14])
    (fun s => decide (s.pool.start = true ∧ s.pool.maxTaskCount = 1 ∧
      queuedCount s.pool + poppedCount s.pool = 2))
    (by
      rintro s a ha
      refine ⟨?_, ?_⟩
      · rintro rfl
        cases ha
      · rintro args rfl
        simpa [isCall] using ha)
    rfl (by decide)
  obtain ⟨hs, hm, hcount⟩ := of_decide_eq_true hp
  have hle := hall s hr hs
  omega

end Enigma.PoolLimit
