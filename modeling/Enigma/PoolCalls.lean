import Enigma.PoolStep
import Enigma.Indexed

namespace Enigma.PoolCalls

open Transition ThreadPool PoolStep Indexed

variable {hw c w : Nat} {s s' : Pool} {wk : Worker} {pc pc' : CallPc}

/-- Invariants of the pool and of where its calls stand: a step has to keep
its own call in place and must not pull the ground from under the others. -/
theorem pool_invariant {ok : State → Action → Prop} {Q : Pool → Prop} {P : Pool → Nat → CallPc → Prop}
    (hinit : Q {}) (hentry : ∀ s c (r : Request), Q s → P s c r.entry)
    (hself : ∀ {c s pc s' pc'}, CallStep hw c s pc s' pc' → Q s → P s c pc → Q s' ∧ P s' c pc')
    (hother : ∀ {c s pc s' pc' d pd}, CallStep hw c s pc s' pc' → Q s → P s c pc → d ≠ c →
      P s d pd → P s' d pd)
    (hwork : ∀ {s w wk s'}, WorkerStep s w wk s' → Q s → Q s' ∧ ∀ c pc, P s c pc → P s' c pc)
    {s : State} (hr : Reachable (system hw) ok s) :
    Q s.pool ∧ ∀ (c : Nat) pc, s.calls[c]? = some pc → P s.pool c pc := by
  refine hr.invariant
    (P := fun s => Q s.pool ∧ ∀ (c : Nat) pc, s.calls[c]? = some pc → P s.pool c pc) ?_ ?_
  · rintro s rfl
    exact ⟨hinit, fun c pc hc => by simp at hc⟩
  · rintro s a s' _ ⟨hq, hp⟩ _ hn
    rcases (next_cases hn).2 with ⟨r, rfl, rfl⟩ | ⟨c, ch, j, pc, p, pc', rfl, hpc, hs, rfl⟩ |
      ⟨w, ch, wk, p, rfl, hk, hs, rfl⟩
    · exact ⟨hq, forall_append hp (hentry _ _ r hq)⟩
    · obtain ⟨hq', hc⟩ := hself hs hq (hp c pc hpc)
      refine ⟨hq', fun d pd hd => ?_⟩
      rcases set_cases hd with ⟨rfl, rfl, -⟩ | ⟨hne, hd⟩
      · exact hc
      · exact hother hs hq (hp c pc hpc) hne (hp d pd hd)
    · obtain ⟨hq', hc⟩ := hwork hs hq
      exact ⟨hq', fun d pd hd => hc d pd (hp d pd hd)⟩

theorem calls_invariant {ok : State → Action → Prop} {P : Pool → Nat → CallPc → Prop}
    (hentry : ∀ s c (r : Request), P s c r.entry)
    (hself : ∀ {c s pc s' pc'}, CallStep hw c s pc s' pc' → P s c pc → P s' c pc')
    (hother : ∀ {c s pc s' pc' d pd}, CallStep hw c s pc s' pc' → P s c pc → d ≠ c → P s d pd → P s' d pd)
    (hwork : ∀ {s w wk s' c pc}, WorkerStep s w wk s' → P s c pc → P s' c pc)
    {s : State} (hr : Reachable (system hw) ok s) :
    ∀ (c : Nat) pc, s.calls[c]? = some pc → P s.pool c pc := by
  refine (pool_invariant (Q := fun _ => True) trivial (fun s c r _ => hentry s c r) ?_ ?_ ?_ hr).2
  · exact fun h _ hp => ⟨trivial, hself h hp⟩
  · exact fun h _ hp hne hd => hother h hp hne hd
  · exact fun h _ => ⟨trivial, fun _ _ hp => hwork h hp⟩

/-- The instructions executed under _worker_mtx. Shutdown has none. -/
def locked : CallPc → Bool
  | .startupCreate _ _ | .startupStart | .startupUnlock | .submitLimit | .submitScan _ | .submitRoute
  | .submitRandom | .pushCount _ _ | .pushTask _ _ _ | .submitEmplace _ | .submitReturn _
  | .submitThrow => true
  | _ => false

theorem callStep_locked (h : CallStep hw c s pc s' pc') (hm : locked pc = true → s.workerMtx = some c)
    (hl : locked pc' = true) : s'.workerMtx = some c := by
  cases h with
  | startupLock | submitLock => rfl
  | dangling => exact hm hl
  | startupCreate | startupCreated | startupStart | overLimit | withinLimit | scanBusy | scanIdle
  | scanned | routeRandom | expand | picked | outOfRange | count | pushStep | pushedFresh | pushed
  | emplace => exact hm rfl
  | startupRefused | startupChecked | startupMax | startupExpand | startupUnlock | shutdownRefused
  | shutdownChecked | shutdownRequest | destroy | shutdownCleared | clearStep | cleared | stopStep
  | stopped | joined | shutdownEnd | submitRefused | submitChecked | submitReturn | submitThrow =>
      cases hl

theorem callStep_mutex_other {d : Nat} (h : CallStep hw c s pc s' pc')
    (hm : locked pc = true → s.workerMtx = some c) (hne : d ≠ c) (hd : s.workerMtx = some d) :
    s'.workerMtx = some d := by
  have hfree (hl : locked pc = true) : False := hne (Option.some.inj (hd.symm.trans (hm hl)))
  cases h with
  | startupLock a h | submitLock h => rw [h] at hd; cases hd
  | startupUnlock | submitReturn | submitThrow => exact (hfree rfl).elim
  | startupRefused | startupChecked | startupMax | startupExpand | startupCreate | startupCreated
  | startupStart | shutdownRefused | shutdownChecked | shutdownRequest | destroy | shutdownCleared
  | clearStep | cleared | stopStep | stopped | joined | shutdownEnd | submitRefused | submitChecked
  | overLimit | withinLimit | scanBusy | scanIdle | scanned | routeRandom | expand | picked
  | outOfRange | count | pushStep | pushedFresh | pushed | emplace | dangling => exact hd

theorem workerStep_workerMtx (h : WorkerStep s w wk s') : s'.workerMtx = s.workerMtx := by
  cases h <;> rfl

theorem reachable_locked {ok : State → Action → Prop} {s : State} (hr : Reachable (system hw) ok s) :
    ∀ (c : Nat) pc, s.calls[c]? = some pc → locked pc = true → s.pool.workerMtx = some c := by
  apply calls_invariant (P := fun s c pc => locked pc = true → s.workerMtx = some c) ?_ ?_ ?_ ?_ hr
  · intro s c r hl
    cases r <;> cases hl
  · intro c s pc s' pc' h hp hl
    exact callStep_locked h hp hl
  · intro c s pc s' pc' d pd h hp hne hd hl
    exact callStep_mutex_other h hp hne (hd hl)
  · intro s w wk s' c pc h hp hl
    rw [workerStep_workerMtx h]
    exact hp hl

theorem locked_unique {ok : State → Action → Prop} {s : State} (hr : Reachable (system hw) ok s)
    {c d : Nat} {pc pd : CallPc} (hc : s.calls[c]? = some pc) (hd : s.calls[d]? = some pd)
    (hlc : locked pc = true) (hld : locked pd = true) : d = c := by
  have hm := reachable_locked hr
  exact Option.some.inj ((hm d pd hd hld).symm.trans (hm c pc hc hlc))

def tearingDown : CallPc → Bool
  | .shutdownClear _ | .destroyClear _ _ _ | .destroyStop _ _ _ | .destroyJoin _ _ | .shutdownEnd => true
  | _ => false

theorem callStep_stopRequested (h : CallStep hw c s pc s' pc') (hs : s.stopRequested = true) :
    s'.stopRequested = true := by
  cases h <;> first | exact hs | rfl

theorem callStep_tearingDown (h : CallStep hw c s pc s' pc') (ht : tearingDown pc' = true) :
    tearingDown pc = true ∨ s'.stopRequested = true := by
  cases h <;> first | exact .inl ht | exact .inr rfl | exact .inl rfl

theorem workerStep_stopRequested (h : WorkerStep s w wk s') : s'.stopRequested = s.stopRequested := by
  cases h <;> rfl

theorem reachable_tearingDown {ok : State → Action → Prop} {s : State}
    (hr : Reachable (system hw) ok s) : ∀ (c : Nat) pc, s.calls[c]? = some pc →
      tearingDown pc = true → s.pool.stopRequested = true := by
  apply calls_invariant (P := fun s _ pc => tearingDown pc = true → s.stopRequested = true) ?_ ?_ ?_ ?_ hr
  · intro s c r ht
    cases r <;> cases ht
  · intro c s pc s' pc' h hp ht
    rcases callStep_tearingDown h ht with ht | ht
    · exact callStep_stopRequested h (hp ht)
    · exact ht
  · intro c s pc s' pc' d pd h _ _ hd ht
    exact callStep_stopRequested h (hd ht)
  · intro s w wk s' c pc h hp ht
    rw [workerStep_stopRequested h]
    exact hp ht

def submitting : CallPc → Bool
  | .submitCheck | .submitLock | .submitLimit | .submitScan _ | .submitRoute | .submitRandom
  | .pushCount _ _ | .pushTask _ _ _ | .submitEmplace _ | .submitReturn _ | .submitThrow => true
  | _ => false

end Enigma.PoolCalls
