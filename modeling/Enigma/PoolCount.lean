import Enigma.PoolPlaces
import Enigma.PoolCalls

namespace Enigma.PoolCount

open Transition SyncQueue QueueStep ThreadPool PoolStep PoolLog PoolTasks PoolPlaces PoolCalls Indexed

def load (wk : Worker) : Nat :=
  wk.tasks.queue.length + ((unstarted wk).length + (inProgress wk).length)

def transit : CallPc → Nat
  | .pushTask _ _ (.lock _) | .pushTask _ _ (.push _) => 1
  | _ => 0

def queuedCount (s : Pool) : Nat := (s.heap.map fun wk => wk.tasks.queue.length).sum

def poppedCount (s : Pool) : Nat :=
  (s.heap.map fun wk => (unstarted wk).length + (inProgress wk).length).sum

def transitCount (s : State) : Nat := (s.calls.map transit).sum

def dropCount (h : List Event) : Nat := (Fifo.drops (traffic h)).length

theorem dropCount_append (h h' : List Event) : dropCount (h ++ h') = dropCount h + dropCount h' := by
  simp [dropCount, traffic, Fifo.drops]

theorem dropCount_queue (w : Nat) (es : List (Fifo.Event Nat)) :
    dropCount (es.map (.queue w)) = (Fifo.drops es).length := by
  rw [dropCount, traffic_queue]

theorem drops_of_pop {c : Bool} {q : Queue Agent Nat} {p : Pc Nat} (hw : Within (.pop c) p) :
    Fifo.drops (emits q p) = [] := by
  cases hw with
  | take => cases hq : q.queue <;> simp [emits, Fifo.drops, hq]
  | lock | test | block | wait | check | fault | unlockPop | returnedPop => rfl

theorem transit_pushTask {c w : Nat} {fresh : Bool} {p : Pc Nat} (hw : Within (.push c) p) :
    transit (.pushTask w fresh p) = (held p).length := by
  cases hw <;> rfl

theorem held_of_clear {p : Pc Nat} (hw : Within .clear p) : held p = [] := by
  cases hw <;> rfl

theorem held_of_stop {p : Pc Nat} (hw : Within .stop p) : held p = [] := by
  cases hw with
  | lock h => exact (h rfl).elim
  | requestStop | notifyAll | returnedStop => rfl

theorem workerEvents_drops {w : Nat} {wk : Worker} (hs : WorkerShaped wk) :
    dropCount (workerEvents w wk) = 0 := by
  unfold workerEvents
  split
  · rename_i p hp
    rw [dropCount_queue, drops_of_pop (hs p hp), List.length_nil]
  all_goals rfl

theorem workerStep_count {s s' : Pool} {w : Nat} {wk : Worker} (h : WorkerStep s w wk s')
    (hs : WorkerShaped wk) (hle : load wk ≤ s.currTaskCount) :
    ∃ wk', s'.heap = s.heap.set w wk' ∧ s'.currTaskCount + load wk = s.currTaskCount + load wk' := by
  cases h with
  | exit hp | enter hp | idle hp | nothing hp =>
      exact ⟨_, rfl, by simp [load, unstarted, inProgress, hp, held]; rfl⟩
  | got x hp => exact ⟨_, rfl, by simp [load, unstarted, inProgress, hp, held]; rfl⟩
  | pop p p' q hp hq =>
      refine ⟨_, rfl, ?_⟩
      have hlen := step_conserves hq
      rw [drops_of_pop (hs p hp), List.length_nil] at hlen
      simp only [load, unstarted, inProgress, hp, put, List.length_nil]
      omega
  | start x hp | finish x hp => exact ⟨_, rfl, by simp [load, unstarted, inProgress, hp]; rfl⟩
  | decrement x hp =>
      refine ⟨_, rfl, ?_⟩
      simp only [load, unstarted, inProgress, hp, List.length_nil, List.length_singleton] at hle ⊢
      rw [ThreadPool.decrement, if_neg (by omega)]
      omega

theorem callStep_count {hw c : Nat} {s s' : Pool} {pc pc' : CallPc}
    (h : CallStep hw c s pc s' pc') (hs : Shaped c pc) :
    s'.currTaskCount + (s.heap.map load).sum + transit pc =
      s.currTaskCount + (s'.heap.map load).sum + transit pc' + dropCount (callEvents s pc) := by
  cases h with
  | startupCreate | expand =>
      simp only [List.map_append, List.sum_append]
      rfl
  | count w fresh wk hk hd =>
      exact Nat.add_right_comm _ 1 _
  | pushStep w fresh p p' wk q hk hd hq =>
      have hlen := step_conserves hq
      have hsum := sum_map_set hk { wk with tasks := q } load
      rw [callEvents, queueEvents_of_live p hk hd, dropCount_queue, transit_pushTask hs,
        transit_pushTask (step_within hq hs)]
      simp only [load, put, unstarted, inProgress] at hsum ⊢
      omega
  | clearStep i w p p' wk q hk hd hq =>
      have hlen := step_conserves hq
      have hsum := sum_map_set hk { wk with tasks := q } load
      rw [held_of_clear hs, held_of_clear (step_within hq hs)] at hlen
      rw [callEvents, queueEvents_of_live p hk hd, dropCount_queue]
      simp only [load, transit, put, unstarted, inProgress] at hsum ⊢
      omega
  | stopStep i w p p' wk q hk hd hq =>
      have hlen := step_conserves hq
      have hsum := sum_map_set hk { wk with tasks := q } load
      rw [held_of_stop hs, held_of_stop (step_within hq hs)] at hlen
      rw [callEvents, queueEvents_of_live p hk hd, dropCount_queue]
      simp only [load, transit, put, unstarted, inProgress] at hsum ⊢
      omega
  | joined i w wk hk hd he =>
      have hsum := sum_map_set hk
        { wk with destroyed := true, tasks := { wk.tasks with queue := [] } } load
      have hdrop : dropCount (callEvents s (.destroyJoin i w)) = wk.tasks.queue.length := by
        simp [callEvents, leftovers, hk, hd, dropCount, traffic, Fifo.drops, List.filterMap_map]
      rw [hdrop]
      simp only [load, transit, put, unstarted, inProgress, List.length_nil] at hsum ⊢
      omega
  | cleared i w r | stopped i w r | pushedFresh w r | pushed w r =>
      rw [callEvents, queueEvents_returned]
      cases hs
      rfl
  | dangling pc w wk ht hk hd =>
      rw [callEvents_of_destroyed ht hk hd]
      rfl
  | startupRefused | startupChecked | startupMax | startupExpand | startupLock
  | startupCreated | startupStart | startupUnlock | shutdownRefused | shutdownChecked
  | shutdownRequest | destroy | shutdownCleared | shutdownEnd | submitRefused | submitChecked
  | submitLock | overLimit | withinLimit | scanBusy | scanIdle | scanned | routeRandom | picked
  | outOfRange | emplace | submitReturn | submitThrow => rfl

/-- The shared counter counts every accepted task that has not finished, and
those that were destroyed with a worker. -/
def Counted (s : State) (h : List Event) : Prop :=
  s.pool.currTaskCount = (s.pool.heap.map load).sum + transitCount s + dropCount h

theorem next_counted {hw : Nat} {s s' : State} {a : Action} {h : List Event} (hb : Books s h)
    (hc : Counted s h) (hn : next hw s a = some s') : Counted s' (h ++ obs s a) := by
  unfold Counted at hc ⊢
  rcases (next_cases hn).2 with ⟨r, rfl, rfl⟩ | ⟨c, ch, j, pc, p, pc', rfl, hpc, hs, rfl⟩ |
    ⟨w, ch, wk, p, rfl, hk, hs, rfl⟩
  · have hr : transit r.entry = 0 := by cases r <;> rfl
    rw [obs, List.append_nil, hc, transitCount, transitCount, List.map_append, List.sum_append,
      List.map_singleton, List.sum_singleton, hr]
    rfl
  · have hstep := callStep_count hs (hb.shaped c pc hpc)
    have hsum := sum_map_set hpc pc' transit
    simp only [obs, hpc, dropCount_append, transitCount] at hc ⊢
    omega
  · have hle : load wk ≤ s.pool.currTaskCount := by
      rw [hc]
      have := le_sum_map hk load
      omega
    have hshape := hb.ledger.shaped w wk hk
    obtain ⟨wk', hh, hstep⟩ := workerStep_count hs hshape hle
    have hsum := sum_map_set hk wk' load
    simp only [obs, hk, dropCount_append, workerEvents_drops hshape, transitCount, hh] at hc ⊢
    omega

theorem reachable_counted {hw : Nat} {ok : State × List Event → Action → Prop} {s : State}
    {h : List Event} (hr : Reachable (logged (system hw) obs) ok (s, h)) : Counted s h := by
  refine hr.logged_invariant (P := Counted) ?_
    (fun s h a s' hr hc _ hn => next_counted (reachable_books hr) hc hn)
  rintro s rfl
  rfl

theorem tearingDown_of_drops {c : Nat} {s : Pool} {pc : CallPc} (hs : Shaped c pc)
    (hd : dropCount (callEvents s pc) ≠ 0) : tearingDown pc = true := by
  cases pc with
  | pushTask w fresh p =>
      refine (hd ?_).elim
      have hdrops (q : Queue Agent Nat) : Fifo.drops (emits q p) = [] := by cases hs <;> rfl
      simp only [callEvents, queueEvents]
      split
      · split
        · rfl
        · rw [dropCount_queue, hdrops, List.length_nil]
      · rfl
  | shutdownClear | destroyClear | destroyStop | destroyJoin | shutdownEnd => rfl
  | startupCheck | startupMax | startupExpand | startupLock | startupCreate | startupStart
  | startupUnlock | shutdownCheck | shutdownRequest | submitCheck | submitLock | submitLimit
  | submitScan | submitRoute | submitRandom | pushCount | submitEmplace | submitReturn
  | submitThrow | done => exact (hd rfl).elim

theorem stopRequested_of_drops {hw : Nat} {ok : State × List Event → Action → Prop} {s : State}
    {h : List Event} (hr : Reachable (logged (system hw) obs) ok (s, h)) (hd : dropCount h ≠ 0) :
    s.pool.stopRequested = true := by
  revert hd
  refine hr.logged_invariant (P := fun s h => dropCount h ≠ 0 → s.pool.stopRequested = true) ?_ ?_
  · rintro s - hd
    exact (hd rfl).elim
  · intro s h a s' hr hf _ hn hd
    have hb := reachable_books hr
    rcases (next_cases hn).2 with ⟨r, rfl, rfl⟩ | ⟨c, ch, j, pc, p, pc', rfl, hpc, hs, rfl⟩ |
      ⟨w, ch, wk, p, rfl, hk, hs, rfl⟩
    · rw [obs, List.append_nil] at hd
      exact hf hd
    · apply callStep_stopRequested hs
      simp only [obs, hpc, dropCount_append] at hd
      by_cases hz : dropCount h = 0
      · have ht := tearingDown_of_drops (s := s.pool) (hb.shaped c pc hpc) (by omega)
        exact reachable_tearingDown hr.forget_any c pc hpc ht
      · exact hf hz
    · rw [workerStep_stopRequested hs]
      apply hf
      simpa only [obs, hk, dropCount_append, workerEvents_drops (hb.ledger.shaped w wk hk),
        Nat.add_zero] using hd

theorem transit_of_not_submitting {pc : CallPc} (h : submitting pc = false) : transit pc = 0 := by
  cases pc <;> first | rfl | cases h

theorem accepted_of_placed {pc : CallPc} (h : placed pc ≠ 0) (hs : submitting pc = false) :
    pc = .done (.submitted true) := by
  unfold placed at h
  split at h
  · cases hs
  · cases hs
  · cases hs
  · rfl
  · exact (h rfl).elim

theorem copies_queued_add_held {s : State} {h : List Event} {w x : Nat} {wk : Worker}
    (hk : s.pool.heap[w]? = some wk) : copies s h x (.queued w) + copies s h x (.held w) =
      (wk.tasks.queue ++ (inProgress wk ++ unstarted wk)).count x := by
  simp only [copies, queueOf, handsOf, hk, Option.map_some, Option.getD_some, List.count_append]

theorem pushed_of_mem {s : State} {h : List Event} (hb : Books s h) {w x : Nat} {wk : Worker}
    (hk : s.pool.heap[w]? = some wk) (hx : x ∈ wk.tasks.queue ++ (inProgress wk ++ unstarted wk)) :
    (Fifo.pushes (traffic h)).count x = 1 := by
  have hpos := List.count_pos_iff.mpr hx
  have hsum := copies_worker hb w x
  have hle : (Fifo.pushes (traffic (ofWorker w h))).count x ≤ (Fifo.pushes (traffic h)).count x := by
    rw [pushes_traffic, pushes_traffic]
    exact count_ofWorker_le pushOf h w x
  have hone := count_pushes_le_one hb x
  rw [← copies_queued_add_held (h := h) hk] at hpos
  omega

theorem not_mem_of_finished {s : State} {h : List Event} (hb : Books s h) {w x : Nat} {wk : Worker}
    (hk : s.pool.heap[w]? = some wk) (hx : x ∈ wk.tasks.queue ++ (inProgress wk ++ unstarted wk)) :
    x ∉ ends h := by
  intro he
  obtain ⟨v, hv⟩ := mem_ofWorker he
  obtain ⟨p, hp, hother⟩ := exists_place hb (pushed_of_mem hb hk hx)
  have hfin : copies s h x (.finished v) ≠ 0 := Nat.pos_iff_ne_zero.mp (List.count_pos_iff.mpr hv)
  have hheld := List.count_pos_iff.mpr hx
  rw [← copies_queued_add_held (h := h) hk] at hheld
  have hpv : p = .finished v := by
    by_contra hne
    exact hfin (hother _ (Ne.symm hne))
  have hq := hother (.queued w) (by simp [hpv])
  have hh := hother (.held w) (by simp [hpv])
  omega

theorem load_eq_zero {s : State} {h : List Event} (hb : Books s h)
    (hidle : ∀ pc ∈ s.calls, submitting pc = false)
    (hdone : ∀ x, s.calls[x]? = some (.done (.submitted true)) → x ∈ ends h) {w : Nat} {wk : Worker}
    (hk : s.pool.heap[w]? = some wk) : load wk = 0 := by
  have hnil : wk.tasks.queue ++ (inProgress wk ++ unstarted wk) = [] := by
    apply List.eq_nil_iff_forall_not_mem.mpr
    intro x hx
    have hone := pushed_of_mem hb hk hx
    rw [hb.placed x, placedAt] at hone
    cases hc : s.calls[x]? with
    | none => rw [hc] at hone; cases hone
    | some pc =>
        rw [hc, Option.map_some, Option.getD_some] at hone
        have hpc := accepted_of_placed (by omega) (hidle pc (List.mem_of_getElem? hc))
        exact not_mem_of_finished hb hk hx (hdone x (hpc ▸ hc))
  have hlen := congrArg List.length hnil
  simp only [List.length_append, List.length_nil] at hlen
  rw [load]
  omega

/-- Until a Shutdown requests the stop, the counter is the number of queued tasks, of popped tasks
still to be counted down and of Submits between their increment and their push. -/
theorem task_count_exact {hw : Nat} {s : State} {h : List Event}
    (hr : Reachable (logged (system hw) obs) Any (s, h)) (hs : s.pool.stopRequested = false) :
    s.pool.currTaskCount = queuedCount s.pool + poppedCount s.pool + transitCount s ∧
    (∀ (w : Nat) (wk : Worker) x, s.pool.heap[w]? = some wk → wk.pc = .decrement x → 0 < s.pool.currTaskCount) ∧
    ((∀ pc ∈ s.calls, submitting pc = false) →
      (∀ x, s.calls[x]? = some (.done (.submitted true)) → x ∈ ends h) →
      s.pool.currTaskCount = 0) := by
  have hc := reachable_counted hr
  have hdrop : dropCount h = 0 := by
    by_contra hd
    rw [stopRequested_of_drops hr hd] at hs
    cases hs
  rw [Counted, hdrop, Nat.add_zero] at hc
  have hsum : (s.pool.heap.map load).sum = queuedCount s.pool + poppedCount s.pool :=
    List.sum_map_add
  refine ⟨by omega, fun w wk x hk hp => ?_, fun hidle hdone => ?_⟩
  · have hle := le_sum_map hk load
    simp only [load, inProgress, hp, List.length_singleton] at hle
    omega
  · have hload : (s.pool.heap.map load).sum = 0 := by
      apply List.sum_eq_zero_iff_forall_eq_nat.mpr
      intro n hn
      obtain ⟨wk, hm, rfl⟩ := List.mem_map.mp hn
      obtain ⟨w, hk⟩ := List.mem_iff_getElem?.mp hm
      exact load_eq_zero (reachable_books hr) hidle hdone hk
    have htransit : transitCount s = 0 := by
      apply List.sum_eq_zero_iff_forall_eq_nat.mpr
      intro n hn
      obtain ⟨pc, hm, rfl⟩ := List.mem_map.mp hn
      exact transit_of_not_submitting (hidle pc hm)
    omega

theorem task_count_exact_three : ∃ s : State, s.pool.currTaskCount = 3 ∧ queuedCount s.pool = 1 ∧
    poppedCount s.pool = 1 ∧ transitCount s = 1 ∧
    s.pool.currTaskCount = queuedCount s.pool + poppedCount s.pool + transitCount s := by
  obtain ⟨⟨s, h⟩, hr, hp⟩ := exists_of_run (logged (system 1) obs) Any (fun _ _ => true) ({}, [])
    (List.flatten [[.call (.startup ⟨1, 5, false⟩)], walk 0 8, [.call .submit], walk 1 11, work 0 9,
      [.call .submit], walk 2 14, [.call .submit], walk 3 8])
    (fun p => decide (p.1.pool.stopRequested = false ∧ p.1.pool.currTaskCount = 3 ∧
      queuedCount p.1.pool = 1 ∧ poppedCount p.1.pool = 1 ∧ transitCount p.1 = 1))
    (fun _ _ _ => trivial) ⟨rfl, rfl⟩ (by decide)
  obtain ⟨hs, hc, hq, hpop, ht⟩ := of_decide_eq_true hp
  exact ⟨s, hc, hq, hpop, ht, (task_count_exact hr hs).1⟩

end Enigma.PoolCount
