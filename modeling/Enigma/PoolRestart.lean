import Enigma.PoolTeardown
import Enigma.PoolCount

namespace Enigma.PoolRestart

open Transition SyncQueue QueueStep ThreadPool PoolStep PoolLog PoolTasks PoolPlaces PoolCalls PoolCount
open PoolTeardown Indexed

variable {hw c w : Nat} {s s' : Pool} {wk : Worker} {pc pc' : CallPc}

/-- A worker constructed after the stop request: it leaves its loop at the
first check and never takes a task. -/
def Inert (wk : Worker) (l : List Event) : Prop := (wk.pc = .loop ∨ wk.pc = .exited) ∧ starts l = []

theorem workerStep_inert (h : WorkerStep s w wk s') (hs : s.stopRequested = true)
    (hp : wk.pc = .loop ∨ wk.pc = .exited) :
    s'.heap = s.heap.set w { wk with pc := .exited } ∧ workerEvents w wk = [] := by
  cases h with
  | exit h => exact ⟨rfl, by simp [workerEvents, h]⟩
  | enter _ h => rw [hs] at h; cases h
  | idle h | nothing h | got x h | pop p p' q h | start x h | finish x h | decrement x h =>
      rcases hp with hp | hp <;> rw [h] at hp <;> cases hp

theorem callEvents_queue {e : Event} (he : e ∈ callEvents s pc) :
    ∃ w e', e = .queue w e' ∧ ∀ x, e' = .push x → ∃ wk, s.heap[w]? = some wk ∧ wk.destroyed = false := by
  have hqueue {v : Nat} {p : Pc Nat} (he : e ∈ queueEvents s v p) : ∃ w e', e = .queue w e' ∧
      ∀ x, e' = .push x → ∃ wk, s.heap[w]? = some wk ∧ wk.destroyed = false := by
    unfold queueEvents at he
    split at he
    · rename_i wk hk
      split at he
      · cases he
      · obtain ⟨e', -, rfl⟩ := List.mem_map.mp he
        exact ⟨v, e', rfl, fun _ _ => ⟨wk, hk, by simpa using ‹¬ wk.destroyed = true›⟩⟩
    · cases he
  cases pc with
  | pushTask v fresh p => exact hqueue he
  | destroyClear i v p => exact hqueue he
  | destroyStop i v p => exact hqueue he
  | destroyJoin i v =>
      simp only [callEvents, leftovers] at he
      split at he
      · split at he
        · cases he
        · obtain ⟨x, -, rfl⟩ := List.mem_map.mp he
          exact ⟨v, _, rfl, fun y hy => by cases hy⟩
      · cases he
  | _ => cases he

theorem starts_ofWorker_callEvents (h : List Event) :
    starts (ofWorker w (h ++ callEvents s pc)) = starts (ofWorker w h) := by
  have hnil : starts ((callEvents s pc).filter fun e => Event.worker e == w) = [] := by
    apply List.filterMap_eq_nil_iff.mpr
    intro e he
    obtain ⟨v, e', rfl, -⟩ := callEvents_queue (List.mem_filter.mp he).1
    rfl
  rw [ofWorker, List.filter_append, starts_append, hnil, List.append_nil]
  rfl

theorem mem_pushes {l : List Event} {x : Nat} :
    x ∈ Fifo.pushes (traffic l) ↔ ∃ w, Event.queue w (.push x) ∈ l := by
  rw [pushes_traffic, List.mem_filterMap]
  constructor
  · rintro ⟨e, he, hx⟩
    unfold pushOf at hx
    split at hx <;> cases hx
    exact ⟨_, he⟩
  · rintro ⟨w, he⟩
    exact ⟨_, he, rfl⟩

theorem mem_pushes_ofWorker {l : List Event} {x : Nat} :
    x ∈ Fifo.pushes (traffic (ofWorker w l)) ↔ Event.queue w (.push x) ∈ l := by
  rw [mem_pushes]
  constructor
  · rintro ⟨v, hv⟩
    obtain ⟨hm, he⟩ := List.mem_filter.mp hv
    obtain rfl : v = w := beq_iff_eq.mp he
    exact hm
  · exact fun hm => ⟨w, List.mem_filter.mpr ⟨hm, beq_self_eq_true w⟩⟩

theorem push_of_callStep {x : Nat} (hs : CallStep hw c s pc s' pc') (hc : Shaped c pc)
    (hx : Event.queue w (.push x) ∈ callEvents s pc) :
    x = c ∧ ∃ wk, s.heap[w]? = some wk ∧ wk.destroyed = false := by
  obtain ⟨n, -, hpush⟩ := callStep_placed hs hc
  have hm : x ∈ Fifo.pushes (traffic (callEvents s pc)) := mem_pushes.mpr ⟨w, hx⟩
  rw [hpush] at hm
  obtain ⟨v, e', he, hlive⟩ := callEvents_queue hx
  cases he
  exact ⟨List.eq_of_mem_replicate hm, hlive x rfl⟩

/-- What is left of a pool after Shutdown call `d`: the workers of before are
destroyed, and those constructed since never take a task. -/
structure Afterlife (s : State) (h : List Event) (d : Nat) : Prop where
  stopped : s.pool.stopRequested = true
  workers : ∀ (w : Nat) wk, s.pool.heap[w]? = some wk → wk.destroyed = true ∨ Inert wk (ofWorker w h)
  tasks : ∀ x, d < x → ∀ (w : Nat) wk, s.pool.heap[w]? = some wk → .queue w (.push x) ∈ h →
    Inert wk (ofWorker w h)

theorem Afterlife.work {s : State} {p : Pool} {h : List Event} {d : Nat} (ha : Afterlife s h d)
    (hb : Books s h) (hk : s.pool.heap[w]? = some wk) (hs : WorkerStep s.pool w wk p) :
    Afterlife ⟨p, s.calls⟩ (h ++ workerEvents w wk) d := by
  obtain ⟨wk', hh, hdead, -⟩ := PoolView.workerStep_turn hs
  have hinert (hi : Inert wk (ofWorker w h)) : Inert wk' (ofWorker w (h ++ workerEvents w wk)) := by
    obtain ⟨hheap, hnone⟩ := workerStep_inert hs ha.stopped hi.1
    have hlt := (List.getElem?_eq_some_iff.mp hk).1
    have he : wk' = { wk with pc := .exited } := by
      have := congrArg (·[w]?) (hh.symm.trans hheap)
      simpa [hlt] using this
    rw [hnone, List.append_nil, he]
    exact ⟨.inr rfl, hi.2⟩
  have hother {v : Nat} (hne : v ≠ w) : ofWorker v (h ++ workerEvents w wk) = ofWorker v h :=
    ofWorker_append_ne (fun _ => worker_workerEvents) hne h
  have hnopush {v x : Nat} (hm : Event.queue v (.push x) ∈ h ++ workerEvents w wk) :
      Event.queue v (.push x) ∈ h := by
    rcases List.mem_append.mp hm with hm | hm
    · exact hm
    · have hx : x ∈ Fifo.pushes (traffic (workerEvents w wk)) := mem_pushes.mpr ⟨v, hm⟩
      rw [workerEvents_pushes (hb.ledger.shaped w wk hk)] at hx
      cases hx
  refine ⟨(workerStep_stopRequested hs).trans ha.stopped, fun v vk hv => ?_, fun x hx v vk hv hm => ?_⟩
  · simp only [hh] at hv
    rcases set_cases hv with ⟨rfl, rfl, -⟩ | ⟨hne, hv⟩
    · rw [hdead]
      exact (ha.workers v wk hk).imp_right hinert
    · rw [hother hne]
      exact ha.workers v vk hv
  · simp only [hh] at hv
    rcases set_cases hv with ⟨rfl, rfl, -⟩ | ⟨hne, hv⟩
    · exact hinert (ha.tasks x hx v wk hk (hnopush hm))
    · rw [hother hne]
      exact ha.tasks x hx v vk hv (hnopush hm)

theorem Afterlife.call {s : State} {p : Pool} {h : List Event} {d : Nat} (ha : Afterlife s h d)
    (hb : Books s h) (hc : s.calls[c]? = some pc) (hs : CallStep hw c s.pool pc p pc') :
    Afterlife ⟨p, s.calls.set c pc'⟩ (h ++ callEvents s.pool pc) d := by
  have hinert {w : Nat} {wk wk' : Worker} (hp : wk'.pc = wk.pc) (hi : Inert wk (ofWorker w h)) :
      Inert wk' (ofWorker w (h ++ callEvents s.pool pc)) :=
    ⟨hp ▸ hi.1, (starts_ofWorker_callEvents h).trans hi.2⟩
  have hnew : Inert newWorker (ofWorker s.pool.heap.length (h ++ callEvents s.pool pc)) := by
    refine ⟨.inl rfl, (starts_ofWorker_callEvents h).trans ?_⟩
    rw [hb.ledger.unborn _ (Nat.le_refl _)]
    rfl
  refine ⟨callStep_stopRequested hs ha.stopped, fun w wk' hk' => ?_, fun x hx w wk' hk' hm => ?_⟩
  · rcases callStep_ages hs hk' with ⟨rfl, rfl, -⟩ | ⟨wk, hk, hp, hdead⟩
    · exact .inr hnew
    · exact (ha.workers w wk hk).imp hdead (hinert hp)
  · rcases callStep_ages hs hk' with ⟨rfl, rfl, -⟩ | ⟨wk, hk, hp, -⟩
    · exact hnew
    · apply hinert hp
      rcases List.mem_append.mp hm with hm | hm
      · exact ha.tasks x hx w wk hk hm
      · obtain ⟨-, wk₀, hk₀, hlive⟩ := push_of_callStep hs (hb.shaped c pc hc) hm
        obtain rfl : wk = wk₀ := Option.some.inj (hk.symm.trans hk₀)
        rcases ha.workers w wk hk with hd | hi
        · rw [hlive] at hd
          cases hd
        · exact hi

theorem afterlife_begins {s : State} {h : List Event} {d : Nat}
    (hr : Reachable (system hw) ShutdownAlone s) (hb : Books s h)
    (hc : s.calls[d]? = some .shutdownEnd) :
    Afterlife ⟨{ s.pool with start := false }, s.calls.set d (.done .shutDown)⟩ h d := by
  obtain ⟨-, hgone⟩ := (reachable_teardown hr).2 d _ hc
  have hlast := (reachable_lone hr d _ hc rfl).1
  have hstop := reachable_tearingDown hr d _ hc rfl
  refine ⟨hstop, fun w wk hk => .inl (hgone w wk hk), fun x hx w wk _ hm => ?_⟩
  -- no call has been made after Shutdown, so no task of such a call is anywhere
  have hpos := List.count_pos_iff.mpr (mem_pushes.mpr ⟨w, hm⟩)
  have hnone : s.calls[x]? = none := List.getElem?_eq_none (by omega)
  rw [hb.placed x, placedAt, hnone] at hpos
  exact absurd hpos (Nat.lt_irrefl 0)

theorem reachable_afterlife {s : State} {h : List Event} {d : Nat}
    (hr : Reachable (logged (system hw) obs) (fun p a => ShutdownAlone p.1 a) (s, h))
    (hd : s.calls[d]? = some (.done .shutDown)) : Afterlife s h d := by
  revert hd
  refine hr.logged_invariant
    (P := fun s h => s.calls[d]? = some (.done .shutDown) → Afterlife s h d) ?_ ?_
  · rintro s rfl hd
    simp at hd
  · intro s h a s' hr ha _ hn hd
    have hb := reachable_books hr
    rcases (next_cases hn).2 with ⟨r, rfl, rfl⟩ | ⟨c, ch, j, pc, p, pc', rfl, hpc, hs, rfl⟩ |
      ⟨w, ch, wk, p, rfl, hk, hs, rfl⟩
    · rw [obs, List.append_nil]
      rcases append_cases hd with ⟨-, he⟩ | hd
      · cases r <;> cases he
      · obtain ⟨hstop, hworkers, htasks⟩ := ha hd
        exact ⟨hstop, hworkers, htasks⟩
    · simp only [obs, hpc]
      rcases set_cases hd with ⟨rfl, rfl, -⟩ | ⟨-, hd⟩
      · cases hs with
        | shutdownEnd =>
            simp only [callEvents, List.append_nil]
            exact afterlife_begins hr.forget hb hpc
        | dangling _ _ _ ht => cases ht
      · exact (ha hd).call hb hpc hs
    · simp only [obs, hk]
      exact (ha hd).work hb hk hs

theorem Afterlife.not_started {s : State} {h : List Event} {d x : Nat} (ha : Afterlife s h d)
    (hb : Books s h) (hx : d < x) : x ∉ starts h := by
  intro hm
  obtain ⟨w, hstart⟩ : ∃ w, x ∈ starts (ofWorker w h) := mem_ofWorker hm
  have hpush := mem_pushes_ofWorker.mp ((starts_sublist hb w).subset hstart)
  cases hk : s.pool.heap[w]? with
  | none =>
      rw [hb.ledger.unborn w (List.getElem?_eq_none_iff.mp hk)] at hstart
      cases hstart
  | some wk =>
      rw [(ha.tasks x hx w wk hk hpush).2] at hstart
      cases hstart

def CanStart (hw : Nat) (p : State × List Event) (x : Nat) : Prop := ∃ q,
  Reachable (startingAt (logged (system hw) obs) p) (fun p a => ShutdownAlone p.1 a) q ∧ x ∈ starts q.2

/-- What a pool started again after Shutdown call `d` owes its user. -/
structure BehavesFresh (hw : Nat) (p : State × List Event) (d : Nat) : Prop where
  count : p.1.calls.getLast? = some (.done .started) → p.1.pool.currTaskCount = 0
  token : p.1.pool.stopRequested = false
  tasks : ∀ x, d < x → p.1.calls[x]? = some (.done (.submitted true)) → CanStart hw p x

/-- Shutdown call `d` has ended a cycle, and a Startup has begun another. -/
def Restarted (s : State) (d : Nat) : Prop :=
  s.calls[d]? = some (.done .shutDown) ∧ ∃ c, d < c ∧ s.calls[c]? = some (.done .started)

theorem next_done {s s' : State} {a : Action} {d : Nat} {r : Result} (hn : next hw s a = some s')
    (hd : s.calls[d]? = some (.done r)) : s'.calls[d]? = some (.done r) := by
  rcases (next_cases hn).2 with ⟨r, rfl, rfl⟩ | ⟨c, ch, j, pc, p, pc', rfl, hpc, hs, rfl⟩ |
    ⟨w, ch, wk, p, rfl, hk, hs, rfl⟩
  · rw [List.getElem?_append_left (List.getElem?_eq_some_iff.mp hd).1]
    exact hd
  · have hne : c ≠ d := by
      rintro rfl
      rw [hpc] at hd
      cases hd
      cases callStep_not_done hs
    rw [List.getElem?_set_ne hne]
    exact hd
  · exact hd

/-- After one cycle the token of the workers is already asked to stop, the counter keeps every task
that was discarded, and no task submitted since can be started. -/
theorem restarted_never_fresh {s : State} {h : List Event} {d : Nat}
    (hr : Reachable (logged (system hw) obs) (fun p a => ShutdownAlone p.1 a) (s, h))
    (hd : Restarted s d) :
    ¬ BehavesFresh hw (s, h) d ∧ s.pool.stopRequested = true ∧ dropCount h ≤ s.pool.currTaskCount ∧
      ∀ x, d < x → ¬ CanStart hw (s, h) x := by
  have ha := reachable_afterlife hr hd.1
  refine ⟨fun hf => ?_, ha.stopped, ?_, ?_⟩
  · have htoken := hf.token
    rw [ha.stopped] at htoken
    cases htoken
  · rw [reachable_counted hr]
    exact Nat.le_add_left _ _
  · rintro x hx ⟨⟨s', h'⟩, hq, hm⟩
    have hd' : s'.calls[d]? = some (.done .shutDown) := by
      refine hq.invariant (P := fun q => q.1.calls[d]? = some (.done .shutDown)) ?_ ?_
      · rintro q rfl
        exact hd.1
      · intro p a q _ hp _ hn
        exact next_done (logged_next hn).1 hp
    have hr' := hr.trans hq
    exact (reachable_afterlife hr' hd').not_started (reachable_books hr') hx hm

/-- A cycle that leaves one task behind, and the beginning of a second one. -/
theorem second_cycle : ∃ s h,
    Reachable (logged (system 1) obs) (fun p a => ShutdownAlone p.1 a) (s, h) ∧ Restarted s 2 ∧
    s.calls[4]? = some (.done (.submitted true)) ∧ s.pool.stopRequested = true := by
  obtain ⟨⟨s, h⟩, hr, hp⟩ := exists_of_run (logged (system 1) obs) (fun p a => ShutdownAlone p.1 a)
    (fun p a => !isCall a || p.1.calls.all isDone)
    ({}, []) (List.flatten [[.call (.startup ⟨1, 5, false⟩)], walk 0 8, [.call .submit], walk 1 11,
      [.call .shutdown], walk 2 11, work 0 1, walk 2 3, [.call (.startup ⟨1, 5, false⟩)], walk 3 8,
      [.call .submit], walk 4 11])
    (fun p => decide (p.1.calls[2]? = some (CallPc.done .shutDown) ∧
      p.1.calls[3]? = some (CallPc.done .started) ∧
      p.1.calls[4]? = some (CallPc.done (.submitted true)) ∧ p.1.pool.stopRequested = true))
    (by
      rintro p a ha r rfl
      have hdone := List.all_eq_true.mp ha
      exact ⟨fun pc hm => not_shuttingDown_of_isDone (hdone pc hm), fun _ => hdone⟩)
    ⟨rfl, rfl⟩ (by decide)
  obtain ⟨hd, hc, hx, hs⟩ := of_decide_eq_true hp
  exact ⟨s, h, hr, ⟨hd, 3, by decide, hc⟩, hx, hs⟩

theorem restarted_never_fresh_second_cycle : ∃ s h, Restarted s 2 ∧
    s.calls[4]? = some (.done (.submitted true)) ∧ ¬ BehavesFresh 1 (s, h) 2 ∧ ¬ CanStart 1 (s, h) 4 := by
  obtain ⟨s, h, hr, hd, hx, -⟩ := second_cycle
  obtain ⟨hfresh, -, -, hstart⟩ := restarted_never_fresh hr hd
  exact ⟨s, h, hd, hx, hfresh, hstart 4 (by decide)⟩

theorem second_cycle_not_fresh : ¬ ∀ s h d,
    Reachable (logged (system 1) obs) (fun p a => ShutdownAlone p.1 a) (s, h) → Restarted s d →
      BehavesFresh 1 (s, h) d := by
  intro hall
  obtain ⟨s, h, hr, hd, -, hs⟩ := second_cycle
  have htoken := (hall s h 2 hr hd).token
  rw [hs] at htoken
  cases htoken

end Enigma.PoolRestart
