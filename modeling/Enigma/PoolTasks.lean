import Enigma.PoolLog
import Enigma.Indexed

namespace Enigma.PoolTasks

open Transition SyncQueue QueueStep ThreadPool PoolStep PoolLog Indexed

def Event.worker : Event → Nat
  | .queue w _ | .started w _ | .returned w _ | .finished w _ => w

def ofWorker (w : Nat) (h : List Event) : List Event := h.filter fun e => Event.worker e == w

def traffic (h : List Event) : List (Fifo.Event Nat) := h.filterMap fun
  | .queue _ e => some e
  | _ => none

def pushOf : Event → Option Nat
  | .queue _ (.push x) => some x
  | _ => none

def dropOf : Event → Option Nat
  | .queue _ (.drop x) => some x
  | _ => none

def startOf : Event → Option Nat
  | .started _ x => some x
  | _ => none

def retOf : Event → Option Nat
  | .returned _ x => some x
  | _ => none

def endOf : Event → Option Nat
  | .finished _ x => some x
  | _ => none

def starts (h : List Event) : List Nat := h.filterMap startOf

def rets (h : List Event) : List Nat := h.filterMap retOf

def ends (h : List Event) : List Nat := h.filterMap endOf

theorem pushes_traffic (h : List Event) : Fifo.pushes (traffic h) = h.filterMap pushOf := by
  rw [traffic, Fifo.pushes, List.filterMap_filterMap]
  refine congrArg (h.filterMap ·) (funext fun e => ?_)
  cases e with
  | queue w e => cases e <;> rfl
  | started | returned | finished => rfl

theorem drops_traffic (h : List Event) : Fifo.drops (traffic h) = h.filterMap dropOf := by
  rw [traffic, Fifo.drops, List.filterMap_filterMap]
  refine congrArg (h.filterMap ·) (funext fun e => ?_)
  cases e with
  | queue w e => cases e <;> rfl
  | started | returned | finished => rfl

def unstarted (wk : Worker) : List Nat :=
  match wk.pc with
  | .pop p => held p
  | .ready x => [x]
  | _ => []

def inProgress (wk : Worker) : List Nat :=
  match wk.pc with
  | .running x | .decrement x => [x]
  | _ => []

def returning (wk : Worker) : List Nat :=
  match wk.pc with
  | .decrement x => [x]
  | _ => []

/-- The history of a worker accounts for what it has in its queue and hands. -/
structure Accounted (wk : Worker) (l : List Event) : Prop where
  replays : Fifo.Replays [] (traffic l) wk.tasks.queue
  popped : Fifo.pops (traffic l) = starts l ++ unstarted wk
  started : starts l = ends l ++ inProgress wk
  returned : rets l = ends l ++ returning wk

theorem traffic_append (l l' : List Event) : traffic (l ++ l') = traffic l ++ traffic l' :=
  List.filterMap_append

theorem starts_append (l l' : List Event) : starts (l ++ l') = starts l ++ starts l' :=
  List.filterMap_append

theorem rets_append (l l' : List Event) : rets (l ++ l') = rets l ++ rets l' :=
  List.filterMap_append

theorem ends_append (l l' : List Event) : ends (l ++ l') = ends l ++ ends l' :=
  List.filterMap_append

theorem traffic_queue (w : Nat) (es : List (Fifo.Event Nat)) : traffic (es.map (.queue w)) = es := by
  induction es with
  | nil => rfl
  | cons e es ih => exact congrArg (e :: ·) ih

theorem starts_queue (w : Nat) (es : List (Fifo.Event Nat)) : starts (es.map (.queue w)) = [] := by
  induction es with
  | nil => rfl
  | cons e es ih => exact ih

theorem rets_queue (w : Nat) (es : List (Fifo.Event Nat)) : rets (es.map (.queue w)) = [] := by
  induction es with
  | nil => rfl
  | cons e es ih => exact ih

theorem ends_queue (w : Nat) (es : List (Fifo.Event Nat)) : ends (es.map (.queue w)) = [] := by
  induction es with
  | nil => rfl
  | cons e es ih => exact ih

theorem Accounted.queue {wk wk' : Worker} {l : List Event} {es : List (Fifo.Event Nat)} (w : Nat)
    (ha : Accounted wk l) (hq : Fifo.Replays wk.tasks.queue es wk'.tasks.queue)
    (hu : unstarted wk' = unstarted wk ++ Fifo.pops es) (hp : inProgress wk' = inProgress wk)
    (hr : returning wk' = returning wk) : Accounted wk' (l ++ es.map (.queue w)) := by
  refine ⟨?_, ?_, ?_, ?_⟩
  · rw [traffic_append, traffic_queue]
    exact ha.replays.append hq
  · rw [traffic_append, traffic_queue, starts_append, starts_queue, List.append_nil, hu,
      ← List.append_assoc, ← ha.popped]
    exact List.filterMap_append
  · rw [starts_append, starts_queue, ends_append, ends_queue, hp]
    simpa using ha.started
  · rw [rets_append, rets_queue, ends_append, ends_queue, hr]
    simpa using ha.returned

theorem Accounted.same {wk wk' : Worker} {l : List Event} (ha : Accounted wk l)
    (hq : wk'.tasks.queue = wk.tasks.queue) (hu : unstarted wk' = unstarted wk)
    (hp : inProgress wk' = inProgress wk) (hr : returning wk' = returning wk) : Accounted wk' l :=
  ⟨hq ▸ ha.replays, hu ▸ ha.popped, hp ▸ ha.started, hr ▸ ha.returned⟩

theorem Accounted.record {wk wk' : Worker} {l : List Event} {e : Event} (ha : Accounted wk l)
    (ht : traffic [e] = []) (hq : wk'.tasks.queue = wk.tasks.queue)
    (hu : unstarted wk = starts [e] ++ unstarted wk')
    (hp : inProgress wk ++ starts [e] = ends [e] ++ inProgress wk')
    (hr : returning wk ++ rets [e] = ends [e] ++ returning wk') : Accounted wk' (l ++ [e]) := by
  refine ⟨?_, ?_, ?_, ?_⟩
  · rw [traffic_append, ht, List.append_nil, hq]
    exact ha.replays
  · rw [traffic_append, ht, List.append_nil, starts_append, List.append_assoc, ← hu]
    exact ha.popped
  · rw [starts_append, ends_append, List.append_assoc, ← hp, ← List.append_assoc, ← ha.started]
  · rw [rets_append, ends_append, List.append_assoc, ← hr, ← List.append_assoc, ← ha.returned]

theorem workerStep_accounted {s s' : Pool} {w : Nat} {wk : Worker} {l : List Event}
    (h : WorkerStep s w wk s') (hs : WorkerShaped wk) (ha : Accounted wk l) :
    ∃ wk', s'.heap = s.heap.set w wk' ∧ WorkerShaped wk' ∧
      Accounted wk' (l ++ workerEvents w wk) := by
  have hnone (he : workerEvents w wk = []) {wk' : Worker} (ha' : Accounted wk' l) :
      Accounted wk' (l ++ workerEvents w wk) := by rwa [he, List.append_nil]
  cases h with
  | exit hp | enter hp =>
      refine ⟨_, rfl, fun _ he => (by cases he), hnone (by simp [workerEvents, hp]) ?_⟩
      exact ha.same rfl (by simp [unstarted, hp]) (by simp [inProgress, hp])
        (by simp [returning, hp])
  | idle hp =>
      refine ⟨_, rfl, ?_, hnone (by simp [workerEvents, hp]) ?_⟩
      · rintro p he
        cases he
        exact .lock (by simp)
      · exact ha.same rfl (by simp [unstarted, hp, held]) (by simp [inProgress, hp])
          (by simp [returning, hp])
  | nothing hp =>
      refine ⟨_, rfl, fun _ he => (by cases he), hnone (by simp [workerEvents, hp, emits]) ?_⟩
      exact ha.same rfl (by simp [unstarted, hp, held]) (by simp [inProgress, hp])
        (by simp [returning, hp])
  | got x hp =>
      refine ⟨_, rfl, fun _ he => (by cases he), hnone (by simp [workerEvents, hp, emits]) ?_⟩
      exact ha.same rfl (by simp [unstarted, hp, held]) (by simp [inProgress, hp])
        (by simp [returning, hp])
  | pop p p' q hp hq =>
      refine ⟨_, rfl, ?_, ?_⟩
      · rintro p'' he
        cases he
        exact step_within hq (hs p hp)
      · have he : workerEvents w wk = (emits wk.tasks p).map (.queue w) := by simp [workerEvents, hp]
        rw [he]
        apply ha.queue w (step_replays hq)
        · simpa [unstarted, hp] using step_pops hq (hs p hp)
        · simp [inProgress, hp]
        · simp [returning, hp]
  | start x hp =>
      refine ⟨_, rfl, fun _ he => (by cases he), ?_⟩
      have he : workerEvents w wk = [.started w x] := by simp [workerEvents, hp]
      rw [he]
      exact ha.record rfl rfl (by simp only [unstarted, hp]; rfl) (by simp only [inProgress, hp]; rfl)
        (by simp only [returning, hp]; rfl)
  | finish x hp =>
      refine ⟨_, rfl, fun _ he => (by cases he), ?_⟩
      have he : workerEvents w wk = [.returned w x] := by simp [workerEvents, hp]
      rw [he]
      exact ha.record rfl rfl (by simp only [unstarted, hp]; rfl) (by simp only [inProgress, hp]; rfl)
        (by simp only [returning, hp]; rfl)
  | decrement x hp =>
      refine ⟨_, rfl, fun _ he => (by cases he), ?_⟩
      have he : workerEvents w wk = [.finished w x] := by simp [workerEvents, hp]
      rw [he]
      exact ha.record rfl rfl (by simp only [unstarted, hp]; rfl) (by simp only [inProgress, hp]; rfl)
        (by simp only [returning, hp]; rfl)

theorem callStep_accounted {hw c : Nat} {s s' : Pool} {pc pc' : CallPc}
    (h : CallStep hw c s pc s' pc') (hs : Shaped c pc) :
    (s'.heap = s.heap ∧ callEvents s pc = []) ∨
    (s'.heap = s.heap ++ [newWorker] ∧ callEvents s pc = []) ∨
    ∃ (w : Nat) (wk wk' : Worker) (es : List (Fifo.Event Nat)), s.heap[w]? = some wk ∧
      s'.heap = s.heap.set w wk' ∧ wk'.pc = wk.pc ∧ callEvents s pc = es.map (.queue w) ∧
      ∀ l, Accounted wk l → Accounted wk' (l ++ callEvents s pc) := by
  rcases callStep_heap h with he | he | ⟨w, wk, q, p, p', hk, hq, hh, he, hw⟩ | ⟨w, wk, hk, -, hh, he⟩
  · exact .inl he
  · exact .inr (.inl he)
  · refine .inr (.inr ⟨w, wk, _, _, hk, hh, rfl, he, fun l ha => ?_⟩)
    have hpops : Fifo.pops (emits wk.tasks p) = [] := by
      rcases hw hs with hw | hw | hw <;> exact pops_emits hw (by simp)
    rw [he]
    exact ha.queue w (step_replays hq) (by rw [hpops, List.append_nil]; rfl) rfl rfl
  · have hm : callEvents s pc = (wk.tasks.queue.map Fifo.Event.drop).map (.queue w) := by
      rw [he, List.map_map]
      rfl
    refine .inr (.inr ⟨w, wk, _, _, hk, hh, rfl, hm, fun l ha => ?_⟩)
    have hpops (q : List Nat) : Fifo.pops (q.map Fifo.Event.drop) = [] := by
      simp [Fifo.pops]
    rw [hm]
    exact ha.queue w (Fifo.Replays.drop_all _) (by rw [hpops, List.append_nil]; rfl) rfl rfl

theorem worker_callEvents {s : Pool} {pc : CallPc} {w : Nat} {es : List (Fifo.Event Nat)}
    (he : callEvents s pc = es.map (.queue w)) {e : Event} (hm : e ∈ callEvents s pc) :
    Event.worker e = w := by
  rw [he] at hm
  obtain ⟨e', -, rfl⟩ := List.mem_map.mp hm
  rfl

theorem worker_workerEvents {w : Nat} {wk : Worker} {e : Event} (hm : e ∈ workerEvents w wk) :
    Event.worker e = w := by
  unfold workerEvents at hm
  split at hm
  · obtain ⟨e', -, rfl⟩ := List.mem_map.mp hm
    rfl
  all_goals simp only [List.mem_singleton, List.not_mem_nil] at hm
  all_goals subst hm; rfl

theorem ofWorker_append_self {w : Nat} {es : List Event} (hes : ∀ e ∈ es, Event.worker e = w)
    (h : List Event) : ofWorker w (h ++ es) = ofWorker w h ++ es := by
  rw [ofWorker, List.filter_append, List.filter_eq_self.mpr fun e he => beq_iff_eq.mpr (hes e he)]
  rfl

theorem ofWorker_append_ne {w w' : Nat} {es : List Event} (hes : ∀ e ∈ es, Event.worker e = w)
    (hne : w' ≠ w) (h : List Event) : ofWorker w' (h ++ es) = ofWorker w' h := by
  have hnil : es.filter (fun e => Event.worker e == w') = [] := by
    apply List.filter_eq_nil_iff.mpr
    intro e he
    rw [hes e he]
    simpa using hne.symm
  rw [ofWorker, List.filter_append, hnil, List.append_nil]
  rfl

structure Ledger (heap : List Worker) (h : List Event) : Prop where
  shaped : ∀ (w : Nat) wk, heap[w]? = some wk → WorkerShaped wk
  accounted : ∀ (w : Nat) wk, heap[w]? = some wk → Accounted wk (ofWorker w h)
  unborn : ∀ w, heap.length ≤ w → ofWorker w h = []

theorem Ledger.set {heap : List Worker} {h es : List Event} {w : Nat} {wk wk' : Worker}
    (hl : Ledger heap h) (hk : heap[w]? = some wk) (hes : ∀ e ∈ es, Event.worker e = w)
    (hs : WorkerShaped wk') (ha : Accounted wk' (ofWorker w h ++ es)) :
    Ledger (heap.set w wk') (h ++ es) := by
  refine ⟨?_, ?_, ?_⟩
  · exact forall_set (P := fun _ => WorkerShaped) hl.shaped hs
  · intro v vk hv
    rcases set_cases hv with ⟨rfl, rfl, -⟩ | ⟨hne, hv⟩
    · rwa [ofWorker_append_self hes]
    · rw [ofWorker_append_ne hes hne]
      exact hl.accounted v vk hv
  · intro v hv
    rw [List.length_set] at hv
    have hlt := (List.getElem?_eq_some_iff.mp hk).1
    rw [ofWorker_append_ne hes (by omega)]
    exact hl.unborn v hv

theorem Ledger.grow {heap : List Worker} {h : List Event} (hl : Ledger heap h) :
    Ledger (heap ++ [newWorker]) h := by
  refine ⟨?_, ?_, ?_⟩
  · apply forall_append (P := fun _ => WorkerShaped) hl.shaped
    rintro p hp
    cases hp
  · apply forall_append (P := fun w wk => Accounted wk (ofWorker w h)) hl.accounted
    rw [hl.unborn _ (Nat.le_refl _)]
    exact ⟨.nil _, rfl, rfl, rfl⟩
  · intro v hv
    rw [List.length_append] at hv
    exact hl.unborn v (by omega)

theorem workerStep_ledger {s s' : Pool} {w : Nat} {wk : Worker} {h : List Event}
    (hl : Ledger s.heap h) (hk : s.heap[w]? = some wk) (hstep : WorkerStep s w wk s') :
    Ledger s'.heap (h ++ workerEvents w wk) := by
  obtain ⟨wk', hh, hs, ha⟩ := workerStep_accounted hstep (hl.shaped w wk hk) (hl.accounted w wk hk)
  rw [hh]
  exact hl.set hk (fun _ => worker_workerEvents) hs ha

theorem callStep_ledger {hw c : Nat} {s s' : Pool} {pc pc' : CallPc} {h : List Event}
    (hl : Ledger s.heap h) (hstep : CallStep hw c s pc s' pc') (hc : Shaped c pc) :
    Ledger s'.heap (h ++ callEvents s pc) := by
  rcases callStep_accounted hstep hc with ⟨hh, he⟩ | ⟨hh, he⟩ | ⟨w, wk, wk', es, hk, hh, hp, he, ha⟩
  · rw [hh, he, List.append_nil]
    exact hl
  · rw [hh, he, List.append_nil]
    exact hl.grow
  · rw [hh]
    refine hl.set hk (fun _ => worker_callEvents he) ?_ (ha _ (hl.accounted w wk hk))
    intro p hp'
    exact hl.shaped w wk hk p (hp ▸ hp')

def placed : CallPc → Nat
  | .pushTask _ _ p => 1 - (held p).length
  | .submitEmplace _ | .submitReturn true | .done (.submitted true) => 1
  | _ => 0

def placedAt (calls : List CallPc) (x : Nat) : Nat := ((calls[x]?).map placed).getD 0

theorem callStep_placed {hw c : Nat} {s s' : Pool} {pc pc' : CallPc}
    (h : CallStep hw c s pc s' pc') (hs : Shaped c pc) :
    ∃ n, placed pc' = placed pc + n ∧ Fifo.pushes (traffic (callEvents s pc)) = List.replicate n c := by
  cases h with
  | pushStep w fresh p p' wk q hk hd hq =>
      have hpush := step_pushes hq hs
      have hheld : held p = [] ∨ held p = [c] := by cases hs <;> simp [held]
      refine ⟨(Fifo.pushes (emits wk.tasks p)).length, ?_, ?_⟩
      · have hlen := congrArg List.length hpush
        rw [List.length_append] at hlen
        rcases hheld with hh | hh
        · rw [hh, List.length_nil] at hlen
          simp only [placed, hh, List.length_nil]
          omega
        · rw [hh, List.length_singleton] at hlen
          simp only [placed, hh, List.length_singleton]
          omega
      · rw [callEvents, queueEvents_of_live p hk hd, traffic_queue]
        apply List.eq_replicate_iff.mpr
        refine ⟨rfl, fun x hx => ?_⟩
        have hm : x ∈ held p := hpush ▸ List.mem_append_left _ hx
        rcases hheld with hh | hh
        · rw [hh] at hm
          cases hm
        · rw [hh] at hm
          exact List.mem_singleton.mp hm
  | clearStep i w p p' wk q hk hd hq =>
      refine ⟨0, rfl, ?_⟩
      rw [callEvents, queueEvents_of_live p hk hd, traffic_queue, pushes_emits hs (by simp)]
      rfl
  | stopStep i w p p' wk q hk hd hq =>
      refine ⟨0, rfl, ?_⟩
      rw [callEvents, queueEvents_of_live p hk hd, traffic_queue, pushes_emits hs (by simp)]
      rfl
  | joined i w wk hk hd he =>
      refine ⟨0, rfl, ?_⟩
      simp [callEvents, leftovers, hk, hd, traffic, Fifo.pushes, List.filterMap_map]
  | cleared | stopped => exact ⟨0, rfl, by rw [callEvents, queueEvents_returned]; rfl⟩
  | pushedFresh | pushed => exact ⟨0, by cases hs; rfl, by rw [callEvents, queueEvents_returned]; rfl⟩
  | dangling pc w wk ht hk hd => exact ⟨0, rfl, by rw [callEvents_of_destroyed ht hk hd]; rfl⟩
  | submitReturn b => exact ⟨0, by cases b <;> rfl, rfl⟩
  | overLimit | count => exact ⟨0, rfl, rfl⟩
  | startupRefused | startupChecked | startupMax | startupExpand | startupLock | startupCreate
  | startupCreated | startupStart | startupUnlock | shutdownRefused | shutdownChecked
  | shutdownRequest | destroy | shutdownCleared | shutdownEnd | submitRefused | submitChecked
  | submitLock | withinLimit | scanBusy | scanIdle | scanned | routeRandom | expand | picked
  | outOfRange | emplace | submitThrow => exact ⟨0, rfl, rfl⟩

theorem workerEvents_pushes {w : Nat} {wk : Worker} (hs : WorkerShaped wk) :
    Fifo.pushes (traffic (workerEvents w wk)) = [] := by
  unfold workerEvents
  split
  · rename_i p hp
    rw [traffic_queue]
    exact pushes_emits (hs p hp) (by simp)
  all_goals rfl

/-- What holds between a state of the pool and the history that led to it. -/
structure Books (s : State) (h : List Event) : Prop where
  shaped : ∀ c pc, s.calls[c]? = some pc → Shaped c pc
  ledger : Ledger s.pool.heap h
  placed : ∀ x, (Fifo.pushes (traffic h)).count x = placedAt s.calls x

theorem placedAt_append (calls : List CallPc) (r : Request) (x : Nat) :
    placedAt (calls ++ [r.entry]) x = placedAt calls x := by
  have hr : PoolTasks.placed r.entry = 0 := by cases r <;> rfl
  rcases Nat.lt_trichotomy x calls.length with hx | rfl | hx
  · rw [placedAt, List.getElem?_append_left hx]
    rfl
  · rw [placedAt, List.getElem?_concat_length, placedAt, List.getElem?_eq_none (Nat.le_refl _)]
    exact hr
  · rw [placedAt, List.getElem?_eq_none (by simp; omega), placedAt, List.getElem?_eq_none (by omega)]

theorem placedAt_set {calls : List CallPc} {c : Nat} {pc : CallPc} (hc : calls[c]? = some pc)
    (pc' : CallPc) (x : Nat) :
    placedAt (calls.set c pc') x = if x = c then PoolTasks.placed pc' else placedAt calls x := by
  split
  · subst x
    rw [placedAt, List.getElem?_set_self', hc]
    rfl
  · rw [placedAt, List.getElem?_set_ne (Ne.symm ‹_›)]
    rfl

theorem pushes_append (h h' : List Event) (x : Nat) : (Fifo.pushes (traffic (h ++ h'))).count x =
    (Fifo.pushes (traffic h)).count x + (Fifo.pushes (traffic h')).count x := by
  rw [traffic_append, Fifo.pushes, List.filterMap_append, List.count_append]
  rfl

theorem Books.call {hw c : Nat} {s : State} {p : Pool} {pc pc' : CallPc} {h : List Event}
    (hb : Books s h) (hc : s.calls[c]? = some pc) (hs : CallStep hw c s.pool pc p pc') :
    Books ⟨p, s.calls.set c pc'⟩ (h ++ callEvents s.pool pc) := by
  have hshape := hb.shaped c pc hc
  refine ⟨?_, callStep_ledger hb.ledger hs hshape, ?_⟩
  · exact forall_set (P := Shaped) hb.shaped (callStep_shaped hs hshape)
  · intro x
    obtain ⟨n, hn, hpush⟩ := callStep_placed hs hshape
    rw [pushes_append, hpush, hb.placed x, placedAt_set hc, List.count_replicate]
    by_cases hx : x = c
    · subst hx
      rw [if_pos rfl, hn, placedAt, hc]
      simp
    · rw [if_neg hx, if_neg (by simpa using Ne.symm hx), Nat.add_zero]

theorem Books.work {s : State} {p : Pool} {w : Nat} {wk : Worker} {h : List Event} (hb : Books s h)
    (hk : s.pool.heap[w]? = some wk) (hs : WorkerStep s.pool w wk p) :
    Books ⟨p, s.calls⟩ (h ++ workerEvents w wk) := by
  refine ⟨hb.shaped, workerStep_ledger hb.ledger hk hs, fun x => ?_⟩
  rw [pushes_append, workerEvents_pushes (hb.ledger.shaped w wk hk), List.count_nil, Nat.add_zero]
  exact hb.placed x

theorem next_books {hw : Nat} {s s' : State} {a : Action} {h : List Event} (hb : Books s h)
    (hn : next hw s a = some s') : Books s' (h ++ obs s a) := by
  rcases (next_cases hn).2 with ⟨r, rfl, rfl⟩ | ⟨c, ch, j, pc, p, pc', rfl, hc, hs, rfl⟩ |
    ⟨w, ch, wk, p, rfl, hk, hs, rfl⟩
  · rw [obs, List.append_nil]
    refine ⟨?_, hb.ledger, fun x => ?_⟩
    · exact forall_append (P := Shaped) hb.shaped (by cases r <;> trivial)
    · rw [placedAt_append]
      exact hb.placed x
  · simp only [obs, hc]
    exact hb.call hc hs
  · simp only [obs, hk]
    exact hb.work hk hs

theorem initial_books : Books {} [] := by
  refine ⟨?_, ⟨?_, ?_, ?_⟩, ?_⟩
  · rintro c pc hc
    simp at hc
  · rintro w wk hk
    simp at hk
  · rintro w wk hk
    simp at hk
  · intro w _
    rfl
  · intro x
    rfl

theorem reachable_books {hw : Nat} {ok : State × List Event → Action → Prop} {s : State}
    {h : List Event} (hr : Reachable (logged (system hw) obs) ok (s, h)) : Books s h := by
  refine hr.logged_invariant (P := Books) ?_ (fun s h a s' _ hb _ hn => next_books hb hn)
  rintro s rfl
  exact initial_books

end Enigma.PoolTasks
