import Enigma.PoolScan
import Mathlib.Data.Nat.Find

namespace Enigma.PoolWindow

open Transition SyncQueue QueueStep ThreadPool PoolStep PoolCalls PoolView PoolFront PoolIdle PoolScan

variable {hw c w : Nat} {s s' : State} {wk wk' : Worker} {p : Pool}

/-- The scan would stop at this worker, whose queue is free, and the worker is
not idle. -/
def Mistaken (s : Pool) (w : Nat) : Prop :=
  ∃ wk, s.heap[w]? = some wk ∧ wk.busy = false ∧ wk.tasks.mutex = none ∧ ¬ Idle wk

def Misleads (hw : Nat) (s : State) (w : Nat) : Prop := ∃ s', Reachable (startingAt (system hw) s) StaysStarted s' ∧
  s'.calls = s.calls ∧ s'.pool.workers = s.pool.workers ∧ Mistaken s'.pool w

theorem Mistaken.misleads (h : Mistaken s.pool w) : Misleads hw s w := ⟨s, .init rfl, rfl, rfl, h⟩

theorem Misleads.step (h : Misleads hw ⟨p, s.calls⟩ w) (hf : s.pool.fault = false)
    (hk : s.pool.heap[w]? = some wk) (hs : workerStep s.pool w wk .run = some p) : Misleads hw s w := by
  obtain ⟨s', hr, hcalls, hworkers, hm⟩ := h
  have hn : next hw s (.worker w .run) = some ⟨p, s.calls⟩ := by simp [next, hf, hk, hs]
  have hstep : Reachable (startingAt (system hw) s) StaysStarted ⟨p, s.calls⟩ :=
    .step (a := .worker w .run) (.init rfl) (fun c ch j ha => by cases ha) hn
  exact ⟨s', hstep.trans hr, hcalls, hworkers.trans (workerStep_workers (workerStep_sound hs)), hm⟩

theorem heap_set_self (hk : s.pool.heap[w]? = some wk) (hh : p.heap = s.pool.heap.set w wk') :
    p.heap[w]? = some wk' := by
  rw [hh]
  exact List.getElem?_set_self (List.getElem?_eq_some_iff.mp hk).1

structure Loaded (s : State) (w : Nat) (wk : Worker) : Prop where
  fault : s.pool.fault = false
  unstopped : s.pool.stopRequested = false
  here : s.pool.heap[w]? = some wk
  queue : wk.tasks.queue ≠ []
  free : wk.tasks.mutex = none

theorem Loaded.step (h : Loaded s w wk) (hs : workerStep s.pool w wk .run = some p)
    (hh : p.heap = s.pool.heap.set w wk') (hf : p.fault = s.pool.fault) (ht : wk'.tasks = wk.tasks)
    (hm : Loaded ⟨p, s.calls⟩ w wk' → Misleads hw ⟨p, s.calls⟩ w) : Misleads hw s w :=
  (hm ⟨hf.trans h.fault, (workerStep_stopRequested (workerStep_sound hs)).trans h.unstopped,
    heap_set_self h.here hh, by rw [ht]; exact h.queue, by rw [ht]; exact h.free⟩).step h.fault h.here hs

theorem Loaded.idle (h : Loaded s w wk) (hp : wk.pc = .idle) : Misleads hw s w := by
  refine h.step (p := put s.pool w { wk with busy := false, pc := .pop (.lock (.pop true)) })
    (by simp only [workerStep, hp]) rfl rfl rfl fun h' => ?_
  exact Mistaken.misleads ⟨_, h'.here, rfl, h'.free, fun hi => h'.queue hi.2⟩

theorem Loaded.loop (h : Loaded s w wk) (hp : wk.pc = .loop) : Misleads hw s w :=
  h.step (p := put s.pool w { wk with pc := .idle }) (by simp [workerStep, hp, h.unstopped]) rfl rfl rfl
    fun h' => h'.idle rfl

theorem Loaded.decrement {x : Nat} (h : Loaded s w wk) (hp : wk.pc = .decrement x) : Misleads hw s w :=
  h.step (p := { put s.pool w { wk with pc := .loop } with
      currTaskCount := ThreadPool.decrement s.pool.currTaskCount })
    (by simp only [workerStep, hp]) rfl rfl rfl fun h' => h'.loop rfl

theorem Loaded.running {x : Nat} (h : Loaded s w wk) (hp : wk.pc = .running x) : Misleads hw s w :=
  h.step (p := put s.pool w { wk with pc := .decrement x }) (by simp only [workerStep, hp]) rfl rfl rfl
    fun h' => h'.decrement rfl

theorem Loaded.ready {x : Nat} (h : Loaded s w wk) (hp : wk.pc = .ready x) : Misleads hw s w :=
  h.step (p := put s.pool w { wk with pc := .running x }) (by simp only [workerStep, hp]) rfl rfl rfl
    fun h' => h'.running rfl

theorem Loaded.misleads (h : Loaded s w wk) (hp : ∀ p, wk.pc ≠ .pop p) (he : wk.pc ≠ .exited) :
    Misleads hw s w := by
  cases hpc : wk.pc with
  | loop => exact h.loop hpc
  | idle => exact h.idle hpc
  | pop p => exact absurd hpc (hp p)
  | ready x => exact h.ready hpc
  | running x => exact h.running hpc
  | decrement x => exact h.decrement hpc
  | exited => exact absurd hpc he

structure Popping (s : State) (w : Nat) (wk : Worker) (q : Pc Nat) : Prop where
  fault : s.pool.fault = false
  here : s.pool.heap[w]? = some wk
  at_pc : wk.pc = .pop q
  lowered : wk.busy = false
  unstopped : wk.tasks.stopRequested = false

theorem Popping.step {q : Pc Nat} (h : Popping s w wk q) (t : Queue Agent Nat) (q' : Pc Nat)
    (hq : ∀ v, q ≠ .returned (.value v))
    (hs : SyncQueue.step s.pool.stopRequested .worker wk.tasks q .run = some (t, q'))
    (hf : q' ≠ .fault) (ht : t.stopRequested = wk.tasks.stopRequested)
    (hm : ∀ s', Popping s' w { wk with tasks := t, pc := .pop q' } q' → Misleads hw s' w) : Misleads hw s w := by
  have hw : workerStep s.pool w wk .run =
      some { put s.pool w { wk with tasks := t, pc := .pop q' } with fault := q' = .fault } := by
    simp only [workerStep, h.at_pc]
    split
    case h_3 hp => cases hp; exact absurd rfl (hq none)
    case h_4 x hp => cases hp; exact absurd rfl (hq (some x))
    case h_5 hp => cases hp; rw [hs]; rfl
    all_goals rename_i hp; cases hp
  refine (hm _ ⟨by simp [hf], heap_set_self h.here rfl, rfl, h.lowered, ht.trans h.unstopped⟩).step h.fault h.here hw

theorem Popping.unlock {r : Ret Nat} (h : Popping s w wk (.unlock r)) : Misleads hw s w := by
  refine h.step _ _ (by simp) rfl (by simp) rfl fun s' h' => ?_
  refine Mistaken.misleads ⟨_, h'.here, h'.lowered, rfl, ?_⟩
  rintro ⟨⟨q, hq, hwait⟩, -⟩
  cases hq
  cases hwait

theorem Popping.take {b : Bool} (h : Popping s w wk (.take b)) (hq : wk.tasks.queue ≠ []) : Misleads hw s w := by
  obtain ⟨v, rest, hv⟩ := List.exists_cons_of_ne_nil hq
  refine h.step { wk.tasks with queue := rest } (.unlock (.value (some v))) (by simp) ?_ (by simp) rfl
    fun s' h' => h'.unlock
  simp [SyncQueue.step, hv]

theorem Popping.check {b : Bool} (h : Popping s w wk (.check b)) (hq : wk.tasks.queue ≠ []) : Misleads hw s w := by
  refine h.step wk.tasks (.take b) (by simp) ?_ (by simp) rfl fun s' h' => h'.take hq
  simp [SyncQueue.step, h.unstopped]

theorem Popping.test {b : Bool} (h : Popping s w wk (.test b)) (hq : wk.tasks.queue ≠ []) : Misleads hw s w := by
  refine h.step wk.tasks (.check b) (by simp) ?_ (by simp) rfl fun s' h' => h'.check hq
  simp [SyncQueue.step, hq]

theorem Popping.block {b : Bool} (h : Popping s w wk (.block b)) (hq : wk.tasks.queue ≠ []) : Misleads hw s w := by
  refine h.step _ _ (by simp) rfl (by simp) rfl fun s' h' => ?_
  exact Mistaken.misleads ⟨_, h'.here, h'.lowered, rfl, fun hi => hq hi.2⟩

theorem Popping.misleads {q : Pc Nat} (h : Popping s w wk q) (hin : Within (.pop true) q)
    (hst : Stocked s.pool wk) (hs : s.pool.stopRequested = false)
    (hm : wk.tasks.mutex ≠ none → critical q = true) (hi : ¬ Idle wk) : Misleads hw s w := by
  -- outside the critical section there is nothing to wait for
  have hfree (hc : critical q = false) : Misleads hw s w := by
    refine Mistaken.misleads ⟨wk, h.here, h.lowered, ?_, hi⟩
    by_contra hne
    rw [hm hne] at hc
    cases hc
  have hqueue (hwait : waiting q = true) : wk.tasks.queue ≠ [] := fun hnil => hi ⟨⟨q, h.at_pc, hwait⟩, hnil⟩
  simp only [Stocked, h.at_pc] at hst
  cases hin with
  | lock | wait | returnedPop => exact hfree rfl
  | test => exact h.test (hqueue rfl)
  | block => exact h.block (hqueue rfl)
  | check =>
      rcases hst with hne | hstop | hstop
      · exact h.check hne
      · rw [h.unstopped] at hstop
        cases hstop
      · rw [hs] at hstop
        cases hstop
  | take => exact h.take hst
  | unlockPop => exact h.unlock
  | fault => exact hst.elim

/-- A worker that is not idle, and whose flag is down or whose queue is not
empty, can mislead a Submit that is about to look at its flag. -/
theorem misleads_of_not_idle {i : Nat} (hr : Reachable (system hw) Any s) (hs : s.pool.stopRequested = false)
    (hc : s.calls[c]? = some (.submitScan i)) (hk : s.pool.heap[w]? = some wk) (hi : ¬ Idle wk)
    (hb : wk.busy = true → wk.tasks.queue ≠ []) : Misleads hw s w := by
  have hreg := reachable_regular hr hs w wk hk
  have hfault := reachable_no_fault hr hs
  have howner (hm : wk.tasks.mutex ≠ none) : critical (within wk) = true := (mutex_owner hr hs hc rfl rfl hk hm).2
  -- outside Pop the worker has not the mutex of its queue
  have hfree (hp : ∀ p, wk.pc ≠ .pop p) : wk.tasks.mutex = none := by
    by_contra hm
    have hcrit := howner hm
    rw [within] at hcrit
    split at hcrit
    · exact hp _ ‹_›
    · cases hcrit
  cases hbusy : wk.busy with
  | true =>
      have hp : ∀ p, wk.pc ≠ .pop p := by
        intro p hpc
        rw [(hreg.lowered p hpc).1] at hbusy
        cases hbusy
      exact Loaded.misleads ⟨hfault, hs, hk, hb hbusy, hfree hp⟩ hp hreg.staying
  | false =>
      rcases hreg.raised hbusy with hp | hp | ⟨p, hp⟩
      · exact Mistaken.misleads ⟨wk, hk, hbusy, hfree (by simp [hp]), hi⟩
      · exact Mistaken.misleads ⟨wk, hk, hbusy, hfree (by simp [hp]), hi⟩
      · have hpop : Popping s w wk p := ⟨hfault, hk, hp, hbusy, hreg.unstopped⟩
        refine hpop.misleads (hreg.lowered p hp).2 (reachable_stocked_unstopped hr hs w wk hk) hs ?_ hi
        simpa only [within, hp] using howner

section Submitting

variable {s₀ : State} {pc pc' : CallPc}

theorem call_moves (p : Pool) (pc' : CallPc) (hr : Reachable (startingAt (system hw) s₀) StaysStarted s)
    (hf : s.pool.fault = false) (hc : s.calls[c]? = some pc) (hne : pc ≠ .shutdownRequest)
    (hs : callStep hw c s.pool .run 0 pc = some (p, pc')) :
    Reachable (startingAt (system hw) s₀) StaysStarted ⟨p, s.calls.set c pc'⟩ := by
  have hn : next hw s (.step c .run 0) = some ⟨p, s.calls.set c pc'⟩ := by simp [next, hf, hc, hs]
  refine .step (a := .step c .run 0) hr (fun d ch j ha => ?_) hn
  cases ha
  rw [hc]
  exact fun he => hne (Option.some.inj he)

theorem set_self (hc : s.calls[c]? = some pc) (pc' : CallPc) : (s.calls.set c pc')[c]? = some pc' :=
  List.getElem?_set_self (List.getElem?_eq_some_iff.mp hc).1

def RaisedBefore (s : Pool) (i : Nat) : Prop := ∀ k, k < i → ∃ v vk, s.workers[k]? = some v ∧
  s.heap[v]? = some vk ∧ vk.destroyed = false ∧ vk.busy = true

theorem scan_reaches {i : Nat} (hf : s.pool.fault = false) (hc : s.calls[c]? = some (.submitScan 0))
    (hup : RaisedBefore s.pool i) :
    Reachable (startingAt (system hw) s) StaysStarted ⟨s.pool, s.calls.set c (.submitScan i)⟩ := by
  induction i with
  | zero =>
      obtain ⟨hlt, he⟩ := List.getElem?_eq_some_iff.mp hc
      rw [← he, List.set_getElem_self]
      exact .init rfl
  | succ i ih =>
      obtain ⟨v, vk, hv, hvk, hd, hb⟩ := hup i (Nat.lt_succ_self i)
      have hi := ih fun k hk => hup k (Nat.lt_succ_of_lt hk)
      have hstep := call_moves s.pool (.submitScan (i + 1)) hi hf (set_self hc _) (by simp)
        (by simp [callStep, onWorker, hv, hvk, hd, hb])
      rwa [List.set_set] at hstep

theorem mistaken_placed {i : Nat} (hf : s.pool.fault = false) (hc : s.calls[c]? = some (.submitScan i))
    (hw' : s.pool.workers[i]? = some w) (hreg : ∀ wk, s.pool.heap[w]? = some wk → wk.destroyed = false)
    (hm : Mistaken s.pool w) : ∃ s', Reachable (startingAt (system hw) s) StaysStarted s' ∧
      s'.calls[c]? = some (.pushTask w false (.push c)) ∧ ¬ IdleAt s'.pool w := by
  obtain ⟨wk, hk, hb, hfree, hi⟩ := hm
  have hd := hreg wk hk
  have hinit : Reachable (startingAt (system hw) s) StaysStarted s := .init rfl
  have hscan := call_moves s.pool (.pushCount w false) hinit hf hc (by simp)
    (by simp [callStep, onWorker, hw', hk, hd, hb])
  have hcount := call_moves { s.pool with currTaskCount := s.pool.currTaskCount + 1 }
    (.pushTask w false (.lock (.push c))) hscan hf (set_self hc _) (by simp)
    (by simp [callStep, onWorker, hk, hd])
  rw [List.set_set] at hcount
  have hlock := call_moves
    (put { s.pool with currTaskCount := s.pool.currTaskCount + 1 } w
      { wk with tasks := { wk.tasks with mutex := some (.call c) } })
    (.pushTask w false (.push c)) hcount hf (set_self hc _) (by simp)
    (by simp [callStep, inQueue, onWorker, hk, hd, SyncQueue.step, hfree, Op.body])
  rw [List.set_set] at hlock
  refine ⟨_, hlock, set_self hc _, ?_⟩
  rintro ⟨wk', hk', hi'⟩
  cases (heap_set_self hk rfl).symm.trans hk'
  exact hi hi'

end Submitting

/-- A worker that the scan does not pass, or passes though a task waits in its
queue. -/
def Obstructs (s : Pool) (i : Nat) : Prop := ∃ w wk, s.workers[i]? = some w ∧ s.heap[w]? = some wk ∧
  (wk.busy = true → wk.tasks.queue ≠ [])

theorem not_obstructs {i : Nat} (hr : Reachable (system hw) Any s) (hi : s.pool.workers[i]? = some w)
    (hn : ¬ Obstructs s.pool i) : ∃ wk, s.pool.heap[w]? = some wk ∧ wk.busy = true ∧ wk.tasks.queue = [] := by
  have hlt := (reachable_addresses hr).1 w (List.mem_of_getElem? hi)
  refine ⟨s.pool.heap[w], List.getElem?_eq_getElem hlt, ?_⟩
  by_contra hne
  exact hn ⟨w, _, hi, List.getElem?_eq_getElem hlt, fun hb hq => hne ⟨hb, hq⟩⟩

/-- If the flags do not lead to an idle worker, there is a first worker that
can mislead the scan. -/
theorem finds_or_obstructed (hr : Reachable (system hw) Any s) (hs : s.pool.stopRequested = false)
    (hidle : ∃ w ∈ s.pool.workers, IdleAt s.pool w) : Finds s.pool 0 ∨ ∃ i w wk, RaisedBefore s.pool i ∧
      s.pool.workers[i]? = some w ∧ s.pool.heap[w]? = some wk ∧ ¬ Idle wk ∧
      (wk.busy = true → wk.tasks.queue ≠ []) := by
  classical
  have hreg := reachable_regular hr hs
  have hex : ∃ i, Obstructs s.pool i := by
    obtain ⟨v, hv, vk, hvk, hvi⟩ := hidle
    obtain ⟨j, hj⟩ := List.mem_iff_getElem?.mp hv
    refine ⟨j, v, vk, hj, hvk, fun hb => ?_⟩
    rw [hvi.lowered (hreg v vk hvk)] at hb
    cases hb
  obtain ⟨w, wk, hi, hk, hb⟩ := Nat.find_spec hex
  have hbefore {k u : Nat} (hlt : k < Nat.find hex) (hu : s.pool.workers[k]? = some u) :=
    not_obstructs hr hu (Nat.find_min hex hlt)
  by_cases hidle : Idle wk
  · refine .inl ⟨_, w, Nat.zero_le _, hi, ⟨wk, hk, hidle⟩, fun k u _ hlt hu => ?_⟩
    obtain ⟨uk, huk, hup, hq⟩ := hbefore hlt hu
    exact ⟨uk, huk, hq, fun hlow => by rw [hup] at hlow; cases hlow⟩
  · refine .inr ⟨_, w, wk, fun k hlt => ?_, hi, hk, hidle, hb⟩
    have hlen := (List.getElem?_eq_some_iff.mp hi).1
    have hu : s.pool.workers[k]? = some s.pool.workers[k] := List.getElem?_eq_getElem (by omega)
    obtain ⟨uk, huk, hup, -⟩ := hbefore hlt hu
    exact ⟨_, uk, hu, huk, (hreg _ uk huk).alive, hup⟩

theorem places_finds (hr : Reachable (system hw) Any s) (hs : s.pool.stopRequested = false)
    (hc : s.calls[c]? = some (.submitScan 0)) (hidle : ∃ w ∈ s.pool.workers, IdleAt s.pool w)
    (hp : PlacesIdle hw s c) : Finds s.pool 0 := by
  rcases finds_or_obstructed hr hs hidle with hf | ⟨i, w, wk, hup, hat, hk, hi, hb⟩
  · exact hf
  -- the scan reaches the worker, the worker goes on, and the scan ends there
  have hscan : Reachable (startingAt (system hw) s) StaysStarted ⟨s.pool, s.calls.set c (.submitScan i)⟩ :=
    scan_reaches (reachable_no_fault hr hs) hc hup
  have hs₁ := run_unstopped hs hscan
  obtain ⟨s₂, hmove, hcalls, hworkers, hm⟩ :=
    misleads_of_not_idle (hr.trans hscan.any) hs₁ (set_self hc _) hk hi hb
  have hrun := hscan.trans hmove
  have hr₂ : Reachable (system hw) Any s₂ := hr.trans hrun.any
  have hs₂ := run_unstopped hs hrun
  obtain ⟨s₃, hpush, hc₃, hnot⟩ := mistaken_placed (reachable_no_fault hr₂ hs₂)
    (by rw [hcalls]; exact set_self hc _) (by rw [hworkers]; exact hat)
    (fun wk hk => (reachable_regular hr₂ hs₂ w wk hk).alive) hm
  exact absurd (hp s₃ w false c (hrun.trans hpush) hc₃) hnot

/-- With an idle worker in the pool, Submit pushes its task to an idle worker exactly if up to the
first one no queue holds a task and each flag that is down tells the truth. -/
theorem submit_finds_idle_iff (hw : Nat) (s : State) (c : Nat) (hr : Reachable (system hw) Any s)
    (hs : s.pool.stopRequested = false) (hc : s.calls[c]? = some (.submitScan 0))
    (hidle : ∃ w ∈ s.pool.workers, IdleAt s.pool w) : PlacesIdle hw s c ↔ Finds s.pool 0 :=
  ⟨places_finds hr hs hc hidle, finds_places hr hs hc⟩

section Runs

def secondWaits : List Action := [.call (.startup ⟨2, 100, true⟩)] ++ walk 0 9 ++ work 1 5

/-- The first worker executes a task when a Submit begins its scan. -/
def toServing : List Action :=
  secondWaits ++ [.call .submit] ++ walk 1 11 ++ work 0 9 ++ [.call .submit] ++ walk 2 3

def serving : State := (run (system 1) {} toServing).getD {}

theorem submit_finds_idle_second : serving.pool.heap.map Worker.pc = [.running 1, .pop (.wait true)] ∧
    PlacesIdle 1 serving 2 := by
  have hrun : run (system 1) {} toServing = some serving := rfl
  have hr : Reachable (system 1) Any serving := run_reachable (.init rfl) hrun
  have hidle : IdleAt serving.pool 1 := ⟨_, rfl, ⟨.wait true, rfl, rfl⟩, rfl⟩
  refine ⟨rfl, (submit_finds_idle_iff 1 serving 2 hr rfl rfl ⟨1, by decide, hidle⟩).mpr ?_⟩
  refine ⟨1, 1, Nat.zero_le 1, rfl, hidle, fun k v _ hk hv => ?_⟩
  obtain rfl : k = 0 := by omega
  cases hv
  exact ⟨_, rfl, rfl, fun hb => by cases hb⟩

/-- Both workers wait, a task has been pushed to the first one, which has not
yet woken up, and another Submit begins its scan. -/
def toNotWoken : List Action := secondWaits ++ work 0 5 ++ [.call .submit] ++ walk 1 7 ++
  [.step 1 (.notify .worker) 0] ++ walk 1 3 ++ [.call .submit] ++ walk 2 3

def notWoken : State := (run (system 1) {} toNotWoken).getD {}

/-- The flag of the first worker is still down: the second task is pushed
behind the first one, though the second worker is idle. -/
theorem pushed_behind : ¬ ∀ (s : State) (c : Nat), Reachable (system 1) Any s → s.pool.start = true →
    s.pool.stopRequested = false → s.calls[c]? = some (.submitScan 0) →
    (∃ w ∈ s.pool.workers, IdleAt s.pool w) → PlacesIdle 1 s c := by
  intro hall
  have hpre : run (system 1) {} toNotWoken = some notWoken := rfl
  have hr : Reachable (system 1) Any notWoken := run_reachable (.init rfl) hpre
  have hidle : IdleAt notWoken.pool 1 := ⟨_, rfl, ⟨.wait true, rfl, rfl⟩, rfl⟩
  have hplaces := hall notWoken 2 hr rfl rfl rfl ⟨1, by decide, hidle⟩
  obtain ⟨s, hrun, hp⟩ := exists_of_run (startingAt (system 1) notWoken) StaysStarted
    (fun s a => decide (mover s a ≠ some .shutdownRequest)) notWoken (walk 2 3)
    (fun s => decide (s.calls[2]? = some (CallPc.pushTask 0 false (.push 2)) ∧
      s.pool.heap.map (fun wk => wk.tasks.queue) = [[1], []]))
    (by
      rintro s a ha c ch j rfl
      exact of_decide_eq_true ha)
    rfl (by decide)
  obtain ⟨hc, hq⟩ := of_decide_eq_true hp
  obtain ⟨wk, hk, -, hnil⟩ := hplaces s 0 false 2 hrun hc
  have hhead := congrArg (·[0]?) hq
  rw [List.getElem?_map, hk] at hhead
  rw [show wk.tasks.queue = [1] from Option.some.inj hhead] at hnil
  cases hnil

end Runs

end Enigma.PoolWindow
