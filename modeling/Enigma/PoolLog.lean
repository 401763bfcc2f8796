import Enigma.PoolStep

namespace Enigma.PoolLog

open Transition SyncQueue QueueStep ThreadPool PoolStep

/-- What a run of the pool leaves behind: the traffic of the queue of each worker, and the start,
the return and the end of each task, which is the decrement after its return. -/
inductive Event
  | queue (w : Nat) (e : Fifo.Event Nat)
  | started (w x : Nat)
  | returned (w x : Nat)
  | finished (w x : Nat)
  deriving DecidableEq, Repr

def queueEvents (s : Pool) (w : Nat) (p : Pc Nat) : List Event :=
  match s.heap[w]? with
  | some wk => if wk.destroyed then [] else (emits wk.tasks p).map (.queue w)
  | none => []

/-- The destructor of a worker destroys what its queue still holds. -/
def leftovers (s : Pool) (w : Nat) : List Event :=
  match s.heap[w]? with
  | some wk => if wk.destroyed then [] else wk.tasks.queue.map fun x => .queue w (.drop x)
  | none => []

def callEvents (s : Pool) : CallPc → List Event
  | .pushTask w _ p | .destroyClear _ w p | .destroyStop _ w p => queueEvents s w p
  | .destroyJoin _ w => leftovers s w
  | _ => []

def workerEvents (w : Nat) (wk : Worker) : List Event :=
  match wk.pc with
  | .pop p => (emits wk.tasks p).map (.queue w)
  | .ready x => [.started w x]
  | .running x => [.returned w x]
  | .decrement x => [.finished w x]
  | _ => []

def obs (s : State) : Action → List Event
  | .call _ => []
  | .step c _ _ => match s.calls[c]? with
    | some pc => callEvents s.pool pc
    | none => []
  | .worker w _ => match s.pool.heap[w]? with
    | some wk => workerEvents w wk
    | none => []

def Shaped (c : Nat) : CallPc → Prop
  | .pushTask _ _ p => Within (.push c) p
  | .destroyClear _ _ p => Within .clear p
  | .destroyStop _ _ p => Within .stop p
  | _ => True

def WorkerShaped (wk : Worker) : Prop := ∀ p, wk.pc = .pop p → Within (.pop true) p

variable {hw c : Nat} {s s' : Pool} {pc pc' : CallPc}

theorem callStep_shaped (h : CallStep hw c s pc s' pc') (hs : Shaped c pc) : Shaped c pc' := by
  cases h with
  | destroy | count => exact .lock (by simp)
  | cleared => exact .requestStop
  | clearStep i w p p' wk q _ _ hq => exact step_within hq hs
  | stopStep i w p p' wk q _ _ hq => exact step_within hq hs
  | pushStep w fresh p p' wk q _ _ hq => exact step_within hq hs
  | dangling => exact hs
  | startupRefused | startupChecked | startupMax | startupExpand | startupLock | startupCreate
  | startupCreated | startupStart | startupUnlock | shutdownRefused | shutdownChecked
  | shutdownRequest | shutdownCleared | stopped | joined | shutdownEnd | submitRefused
  | submitChecked | submitLock | overLimit | withinLimit | scanBusy | scanIdle | scanned
  | routeRandom | expand | picked | outOfRange | pushedFresh | pushed | emplace | submitReturn
  | submitThrow => trivial

theorem queueEvents_returned (s : Pool) (w : Nat) (r : Ret Nat) : queueEvents s w (.returned r) = [] := by
  unfold queueEvents
  split
  · split <;> rfl
  · rfl

theorem queueEvents_of_live {w : Nat} {wk : Worker} (p : Pc Nat) (hk : s.heap[w]? = some wk)
    (hd : wk.destroyed = false) : queueEvents s w p = (emits wk.tasks p).map (.queue w) := by
  simp [queueEvents, hk, hd]

theorem callEvents_of_destroyed {w : Nat} {wk : Worker} (ht : target s pc = some w)
    (hk : s.heap[w]? = some wk) (hd : wk.destroyed = true) : callEvents s pc = [] := by
  cases pc <;> simp only [target, Option.some.injEq, reduceCtorEq] at ht <;>
    first
    | rfl
    | (subst ht; simp [callEvents, queueEvents, leftovers, hk, hd])

theorem callStep_heap (h : CallStep hw c s pc s' pc') :
    (s'.heap = s.heap ∧ callEvents s pc = []) ∨
    (s'.heap = s.heap ++ [newWorker] ∧ callEvents s pc = []) ∨
    (∃ w wk q p p', s.heap[w]? = some wk ∧ Step s.stopRequested (.call c) wk.tasks p q p' ∧
      s'.heap = s.heap.set w { wk with tasks := q } ∧
      callEvents s pc = (emits wk.tasks p).map (.queue w) ∧
      (Shaped c pc → Within (.push c) p ∨ Within .clear p ∨ Within .stop p)) ∨
    (∃ w wk, s.heap[w]? = some wk ∧ wk.pc = .exited ∧
      s'.heap = s.heap.set w { wk with destroyed := true, tasks := { wk.tasks with queue := [] } } ∧
      callEvents s pc = wk.tasks.queue.map fun x => .queue w (.drop x)) := by
  cases h with
  | startupCreate | expand => exact .inr (.inl ⟨rfl, rfl⟩)
  | clearStep i w p p' wk q hk hd hs =>
      exact .inr (.inr (.inl ⟨w, wk, q, p, p', hk, hs, rfl, queueEvents_of_live p hk hd, fun h => .inr (.inl h)⟩))
  | stopStep i w p p' wk q hk hd hs =>
      exact .inr (.inr (.inl ⟨w, wk, q, p, p', hk, hs, rfl, queueEvents_of_live p hk hd, fun h => .inr (.inr h)⟩))
  | pushStep w fresh p p' wk q hk hd hs =>
      exact .inr (.inr (.inl ⟨w, wk, q, p, p', hk, hs, rfl, queueEvents_of_live p hk hd, .inl⟩))
  | joined i w wk hk hd he =>
      exact .inr (.inr (.inr ⟨w, wk, hk, he, rfl, by simp [callEvents, leftovers, hk, hd]⟩))
  | cleared | stopped | pushedFresh | pushed => exact .inl ⟨rfl, queueEvents_returned s _ _⟩
  | dangling pc w wk ht hk hd => exact .inl ⟨rfl, callEvents_of_destroyed ht hk hd⟩
  | startupRefused | startupChecked | startupMax | startupExpand | startupLock
  | startupCreated | startupStart | startupUnlock | shutdownRefused | shutdownChecked
  | shutdownRequest | destroy | shutdownCleared | shutdownEnd | submitRefused | submitChecked
  | submitLock | overLimit | withinLimit | scanBusy | scanIdle | scanned | routeRandom | picked
  | outOfRange | count | emplace | submitReturn | submitThrow => exact .inl ⟨rfl, rfl⟩

end Enigma.PoolLog
