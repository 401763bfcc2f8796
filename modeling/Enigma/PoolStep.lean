import Enigma.ThreadPool

namespace Enigma.PoolStep

open Transition SyncQueue QueueStep ThreadPool

def target (s : Pool) : CallPc → Option Nat
  | .destroyClear _ w _ | .destroyStop _ w _ | .destroyJoin _ w | .pushCount w _ | .pushTask w _ _ => some w
  | .submitScan i => s.workers[i]?
  | _ => none

/-- Everything one instruction of a call can do, with its guards. -/
inductive CallStep (hw c : Nat) (s : Pool) : CallPc → Pool → CallPc → Prop
  | startupRefused (a : Args) (h : s.start = true) :
      CallStep hw c s (.startupCheck a) s (.done .alreadyStarted)
  | startupChecked (a : Args) (h : s.start = false) : CallStep hw c s (.startupCheck a) s (.startupMax a)
  | startupMax (a : Args) :
      CallStep hw c s (.startupMax a) { s with maxTaskCount := a.limit } (.startupExpand a)
  | startupExpand (a : Args) :
      CallStep hw c s (.startupExpand a) { s with allowExpand := a.allowExpand } (.startupLock a)
  | startupLock (a : Args) (h : s.workerMtx = none) :
      CallStep hw c s (.startupLock a) { s with workerMtx := some c } (.startupCreate a 0)
  | startupCreate (a : Args) (i : Nat) (h : i < a.createCount) :
      CallStep hw c s (.startupCreate a i)
        { s with heap := s.heap ++ [newWorker], workers := s.workers ++ [s.heap.length] } (.startupCreate a (i + 1))
  | startupCreated (a : Args) (i : Nat) (h : ¬ i < a.createCount) :
      CallStep hw c s (.startupCreate a i) s .startupStart
  | startupStart : CallStep hw c s .startupStart { s with start := true } .startupUnlock
  | startupUnlock : CallStep hw c s .startupUnlock { s with workerMtx := none } (.done .started)
  | shutdownRefused (h : s.start = false) : CallStep hw c s .shutdownCheck s (.done .notStarted)
  | shutdownChecked (h : s.start = true) : CallStep hw c s .shutdownCheck s .shutdownRequest
  | shutdownRequest : CallStep hw c s .shutdownRequest { s with stopRequested := true } (.shutdownClear 0)
  | destroy (i w : Nat) (h : s.workers[i]? = some w) :
      CallStep hw c s (.shutdownClear i) s (.destroyClear i w (.lock .clear))
  | shutdownCleared (i : Nat) (h : s.workers[i]? = none) :
      CallStep hw c s (.shutdownClear i) { s with workers := [] } .shutdownEnd
  | clearStep (i w : Nat) (p p' : Pc Nat) (wk : Worker) (q : Queue Agent Nat)
      (hk : s.heap[w]? = some wk) (hd : wk.destroyed = false)
      (hs : Step s.stopRequested (.call c) wk.tasks p q p') :
      CallStep hw c s (.destroyClear i w p) (put s w { wk with tasks := q }) (.destroyClear i w p')
  | cleared (i w : Nat) (r : Ret Nat) :
      CallStep hw c s (.destroyClear i w (.returned r)) s (.destroyStop i w .requestStop)
  | stopStep (i w : Nat) (p p' : Pc Nat) (wk : Worker) (q : Queue Agent Nat)
      (hk : s.heap[w]? = some wk) (hd : wk.destroyed = false)
      (hs : Step s.stopRequested (.call c) wk.tasks p q p') :
      CallStep hw c s (.destroyStop i w p) (put s w { wk with tasks := q }) (.destroyStop i w p')
  | stopped (i w : Nat) (r : Ret Nat) :
      CallStep hw c s (.destroyStop i w (.returned r)) s (.destroyJoin i w)
  | joined (i w : Nat) (wk : Worker) (hk : s.heap[w]? = some wk) (hd : wk.destroyed = false)
      (he : wk.pc = .exited) :
      CallStep hw c s (.destroyJoin i w)
        (put s w { wk with destroyed := true, tasks := { wk.tasks with queue := [] } })
        (.shutdownClear (i + 1))
  | shutdownEnd : CallStep hw c s .shutdownEnd { s with start := false } (.done .shutDown)
  | submitRefused (h : s.start = false) : CallStep hw c s .submitCheck s (.done (.submitted false))
  | submitChecked (h : s.start = true) : CallStep hw c s .submitCheck s .submitLock
  | submitLock (h : s.workerMtx = none) :
      CallStep hw c s .submitLock { s with workerMtx := some c } .submitLimit
  | overLimit (h : s.currTaskCount > s.maxTaskCount) :
      CallStep hw c s .submitLimit s (.submitReturn false)
  | withinLimit (h : s.currTaskCount ≤ s.maxTaskCount) : CallStep hw c s .submitLimit s (.submitScan 0)
  | scanBusy (i w : Nat) (wk : Worker) (h : s.workers[i]? = some w) (hk : s.heap[w]? = some wk)
      (hd : wk.destroyed = false) (hb : wk.busy = true) :
      CallStep hw c s (.submitScan i) s (.submitScan (i + 1))
  | scanIdle (i w : Nat) (wk : Worker) (h : s.workers[i]? = some w) (hk : s.heap[w]? = some wk)
      (hd : wk.destroyed = false) (hb : wk.busy = false) :
      CallStep hw c s (.submitScan i) s (.pushCount w false)
  | scanned (i : Nat) (h : s.workers[i]? = none) : CallStep hw c s (.submitScan i) s .submitRoute
  | routeRandom (h : s.allowExpand = false ∨ s.workers.length + 1 > hw * 2) :
      CallStep hw c s .submitRoute s .submitRandom
  | expand (h : ¬ (s.allowExpand = false ∨ s.workers.length + 1 > hw * 2)) :
      CallStep hw c s .submitRoute { s with heap := s.heap ++ [newWorker] } (.pushCount s.heap.length true)
  | picked (j w : Nat) (hj : j ≤ lastIndex s) (h : s.workers[j]? = some w) :
      CallStep hw c s .submitRandom s (.pushCount w false)
  | outOfRange (j : Nat) (hj : j ≤ lastIndex s) (h : s.workers[j]? = none) :
      CallStep hw c s .submitRandom s .submitThrow
  | count (w : Nat) (fresh : Bool) (wk : Worker) (hk : s.heap[w]? = some wk)
      (hd : wk.destroyed = false) :
      CallStep hw c s (.pushCount w fresh) { s with currTaskCount := s.currTaskCount + 1 }
        (.pushTask w fresh (.lock (.push c)))
  | pushStep (w : Nat) (fresh : Bool) (p p' : Pc Nat) (wk : Worker) (q : Queue Agent Nat)
      (hk : s.heap[w]? = some wk) (hd : wk.destroyed = false)
      (hs : Step s.stopRequested (.call c) wk.tasks p q p') :
      CallStep hw c s (.pushTask w fresh p) (put s w { wk with tasks := q }) (.pushTask w fresh p')
  | pushedFresh (w : Nat) (r : Ret Nat) :
      CallStep hw c s (.pushTask w true (.returned r)) s (.submitEmplace w)
  | pushed (w : Nat) (r : Ret Nat) :
      CallStep hw c s (.pushTask w false (.returned r)) s (.submitReturn true)
  | emplace (w : Nat) :
      CallStep hw c s (.submitEmplace w) { s with workers := s.workers ++ [w] } (.submitReturn true)
  | submitReturn (b : Bool) :
      CallStep hw c s (.submitReturn b) { s with workerMtx := none } (.done (.submitted b))
  | submitThrow : CallStep hw c s .submitThrow { s with workerMtx := none } (.done .threw)
  | dangling (pc : CallPc) (w : Nat) (wk : Worker) (ht : target s pc = some w)
      (hk : s.heap[w]? = some wk) (hd : wk.destroyed = true) :
      CallStep hw c s pc { s with fault := true } pc

theorem onWorker_eq_some {s : Pool} {w : Nat} {pc : CallPc} {f : Worker → Option (Pool × CallPc)}
    {r : Pool × CallPc} (h : onWorker s w pc f = some r) :
    ∃ wk, s.heap[w]? = some wk ∧
      ((wk.destroyed = true ∧ r = ({ s with fault := true }, pc)) ∨
        (wk.destroyed = false ∧ f wk = some r)) := by
  unfold onWorker at h
  split at h
  · cases h
  · rename_i wk hk
    refine ⟨wk, hk, ?_⟩
    split at h
    · exact .inl ⟨‹_›, (Option.some.inj h).symm⟩
    · exact .inr ⟨by simpa using ‹¬ wk.destroyed = true›, h⟩

theorem inQueue_eq_some {c w : Nat} {s s' : Pool} {p : Pc Nat} {ch : Choice Agent}
    {f : Pc Nat → CallPc} {pc' : CallPc} (h : inQueue c s w p ch f = some (s', pc')) :
    ∃ wk, s.heap[w]? = some wk ∧
      ((wk.destroyed = true ∧ s' = { s with fault := true } ∧ pc' = f p) ∨
        (wk.destroyed = false ∧ ∃ q p', Step s.stopRequested (.call c) wk.tasks p q p' ∧
          s' = put s w { wk with tasks := q } ∧ pc' = f p')) := by
  obtain ⟨wk, hk, ⟨hd, hr⟩ | ⟨hd, hr⟩⟩ := onWorker_eq_some h
  · exact ⟨wk, hk, .inl ⟨hd, congrArg Prod.fst hr, congrArg Prod.snd hr⟩⟩
  · obtain ⟨⟨q, p'⟩, hs, he⟩ := Option.map_eq_some_iff.mp hr
    exact ⟨wk, hk, .inr ⟨hd, q, p', step_sound hs, (congrArg Prod.fst he).symm, (congrArg Prod.snd he).symm⟩⟩

theorem callStep_sound {hw c j : Nat} {s s' : Pool} {ch : Choice Agent} {pc pc' : CallPc}
    (h : callStep hw c s ch j pc = some (s', pc')) : CallStep hw c s pc s' pc' := by
  cases pc with
  | startupCheck a =>
      simp only [callStep] at h
      split at h <;> cases h
      · exact .startupRefused a ‹_›
      · exact .startupChecked a (by simpa using ‹¬ s.start = true›)
  | startupMax a => cases h; exact .startupMax a
  | startupExpand a => cases h; exact .startupExpand a
  | startupLock a =>
      simp only [callStep] at h
      split at h <;> cases h
      exact .startupLock a ‹_›
  | startupCreate a i =>
      simp only [callStep] at h
      split at h <;> cases h
      · exact .startupCreate a i ‹_›
      · exact .startupCreated a i ‹_›
  | startupStart => cases h; exact .startupStart
  | startupUnlock => cases h; exact .startupUnlock
  | shutdownCheck =>
      simp only [callStep] at h
      split at h <;> cases h
      · exact .shutdownChecked ‹_›
      · exact .shutdownRefused (by simpa using ‹¬ s.start = true›)
  | shutdownRequest => cases h; exact .shutdownRequest
  | shutdownClear i =>
      simp only [callStep] at h
      split at h <;> cases h
      · exact .destroy i _ ‹_›
      · exact .shutdownCleared i ‹_›
  | destroyClear i w p =>
      by_cases hp : ∃ r, p = .returned r
      · obtain ⟨r, rfl⟩ := hp
        cases h
        exact .cleared i w r
      · have hq : inQueue c s w p ch (.destroyClear i w) = some (s', pc') := by
          cases p <;> first | exact h | exact (hp ⟨_, rfl⟩).elim
        obtain ⟨wk, hk, ⟨hd, rfl, rfl⟩ | ⟨hd, q, p', hs, rfl, rfl⟩⟩ := inQueue_eq_some hq
        · exact .dangling _ w wk rfl hk hd
        · exact .clearStep i w p p' wk q hk hd hs
  | destroyStop i w p =>
      by_cases hp : ∃ r, p = .returned r
      · obtain ⟨r, rfl⟩ := hp
        cases h
        exact .stopped i w r
      · have hq : inQueue c s w p ch (.destroyStop i w) = some (s', pc') := by
          cases p <;> first | exact h | exact (hp ⟨_, rfl⟩).elim
        obtain ⟨wk, hk, ⟨hd, rfl, rfl⟩ | ⟨hd, q, p', hs, rfl, rfl⟩⟩ := inQueue_eq_some hq
        · exact .dangling _ w wk rfl hk hd
        · exact .stopStep i w p p' wk q hk hd hs
  | destroyJoin i w =>
      obtain ⟨wk, hk, ⟨hd, hr⟩ | ⟨hd, hr⟩⟩ := onWorker_eq_some h
      · cases hr
        exact .dangling _ w wk rfl hk hd
      · split at hr <;> cases hr
        exact .joined i w wk hk hd ‹_›
  | shutdownEnd => cases h; exact .shutdownEnd
  | submitCheck =>
      simp only [callStep] at h
      split at h <;> cases h
      · exact .submitChecked ‹_›
      · exact .submitRefused (by simpa using ‹¬ s.start = true›)
  | submitLock =>
      simp only [callStep] at h
      split at h <;> cases h
      exact .submitLock ‹_›
  | submitLimit =>
      simp only [callStep] at h
      split at h <;> cases h
      · exact .overLimit ‹_›
      · exact .withinLimit (by omega)
  | submitScan i =>
      simp only [callStep] at h
      split at h
      · rename_i w hi
        obtain ⟨wk, hk, ⟨hd, hr⟩ | ⟨hd, hr⟩⟩ := onWorker_eq_some h
        · cases hr
          exact .dangling _ w wk hi hk hd
        · split at hr <;> cases hr
          · exact .scanBusy i w wk hi hk hd ‹_›
          · exact .scanIdle i w wk hi hk hd (by simpa using ‹¬ wk.busy = true›)
      · cases h
        exact .scanned i ‹_›
  | submitRoute =>
      simp only [callStep] at h
      split at h <;> cases h
      · exact .routeRandom ‹_›
      · exact .expand ‹_›
  | submitRandom =>
      simp only [callStep] at h
      split at h
      · split at h <;> cases h
        · exact .picked j _ ‹_› ‹_›
        · exact .outOfRange j ‹_› ‹_›
      · cases h
  | pushCount w fresh =>
      obtain ⟨wk, hk, ⟨hd, hr⟩ | ⟨hd, hr⟩⟩ := onWorker_eq_some h
      · cases hr
        exact .dangling _ w wk rfl hk hd
      · cases hr
        exact .count w fresh wk hk hd
  | pushTask w fresh p =>
      by_cases hp : ∃ r, p = .returned r
      · obtain ⟨r, rfl⟩ := hp
        cases fresh <;> cases h
        · exact .pushed w r
        · exact .pushedFresh w r
      · have hq : inQueue c s w p ch (.pushTask w fresh) = some (s', pc') := by
          cases p <;> first | exact h | exact (hp ⟨_, rfl⟩).elim
        obtain ⟨wk, hk, ⟨hd, rfl, rfl⟩ | ⟨hd, q, p', hs, rfl, rfl⟩⟩ := inQueue_eq_some hq
        · exact .dangling _ w wk rfl hk hd
        · exact .pushStep w fresh p p' wk q hk hd hs
  | submitEmplace w => cases h; exact .emplace w
  | submitReturn b => cases h; exact .submitReturn b
  | submitThrow => cases h; exact .submitThrow
  | done r => cases h

inductive WorkerStep (s : Pool) (w : Nat) (wk : Worker) : Pool → Prop
  | exit (hp : wk.pc = .loop) (h : s.stopRequested = true) :
      WorkerStep s w wk (put s w { wk with pc := .exited })
  | enter (hp : wk.pc = .loop) (h : s.stopRequested = false) :
      WorkerStep s w wk (put s w { wk with pc := .idle })
  | idle (hp : wk.pc = .idle) :
      WorkerStep s w wk (put s w { wk with busy := false, pc := .pop (.lock (.pop true)) })
  | nothing (hp : wk.pc = .pop (.returned (.value none))) :
      WorkerStep s w wk (put s w { wk with busy := true, pc := .loop })
  | got (x : Nat) (hp : wk.pc = .pop (.returned (.value (some x)))) :
      WorkerStep s w wk (put s w { wk with busy := true, pc := .ready x })
  | pop (p p' : Pc Nat) (q : Queue Agent Nat) (hp : wk.pc = .pop p)
      (hs : Step s.stopRequested .worker wk.tasks p q p') :
      WorkerStep s w wk { put s w { wk with tasks := q, pc := .pop p' } with fault := p' = .fault }
  | start (x : Nat) (hp : wk.pc = .ready x) : WorkerStep s w wk (put s w { wk with pc := .running x })
  | finish (x : Nat) (hp : wk.pc = .running x) :
      WorkerStep s w wk (put s w { wk with pc := .decrement x })
  | decrement (x : Nat) (hp : wk.pc = .decrement x) :
      WorkerStep s w wk
        { put s w { wk with pc := .loop } with currTaskCount := ThreadPool.decrement s.currTaskCount }

theorem workerStep_sound {s s' : Pool} {w : Nat} {wk : Worker} {ch : Choice Agent}
    (h : workerStep s w wk ch = some s') : WorkerStep s w wk s' := by
  unfold workerStep at h
  split at h
  case h_1 hp =>
    cases h
    cases hr : s.stopRequested with
    | true => exact .exit hp hr
    | false => exact .enter hp hr
  case h_2 hp => cases h; exact .idle hp
  case h_3 hp => cases h; exact .nothing hp
  case h_4 x hp => cases h; exact .got x hp
  case h_5 p _ _ hp =>
    obtain ⟨⟨q, p'⟩, hs, rfl⟩ := Option.map_eq_some_iff.mp h
    exact .pop p p' q hp (step_sound hs)
  case h_6 x hp => cases h; exact .start x hp
  case h_7 x hp => cases h; exact .finish x hp
  case h_8 x hp => cases h; exact .decrement x hp
  case h_9 => cases h

theorem next_cases {hw : Nat} {s s' : State} {a : Action} (h : next hw s a = some s') :
    s.pool.fault = false ∧
    ((∃ r, a = .call r ∧ s' = ⟨s.pool, s.calls ++ [r.entry]⟩) ∨
      (∃ c ch j pc p pc', a = .step c ch j ∧ s.calls[c]? = some pc ∧
        CallStep hw c s.pool pc p pc' ∧ s' = ⟨p, s.calls.set c pc'⟩) ∨
      (∃ w ch wk p, a = .worker w ch ∧ s.pool.heap[w]? = some wk ∧ WorkerStep s.pool w wk p ∧
        s' = ⟨p, s.calls⟩)) := by
  unfold next at h
  split at h
  · cases h
  · refine ⟨by simpa using ‹¬ s.pool.fault = true›, ?_⟩
    split at h
    · exact .inl ⟨_, rfl, (Option.some.inj h).symm⟩
    · rename_i c ch j
      split at h
      · cases h
      · obtain ⟨⟨p, pc'⟩, hs, rfl⟩ := Option.map_eq_some_iff.mp h
        exact .inr (.inl ⟨c, ch, j, _, p, pc', rfl, ‹_›, callStep_sound hs, rfl⟩)
    · rename_i w ch
      split at h
      · cases h
      · obtain ⟨p, hs, rfl⟩ := Option.map_eq_some_iff.mp h
        exact .inr (.inr ⟨w, ch, _, p, rfl, ‹_›, workerStep_sound hs, rfl⟩)

end Enigma.PoolStep
