import Enigma.PoolRest
import Enigma.PoolRestart
import Enigma.PoolCycles

namespace Enigma.PoolHalt

open Transition SyncQueue QueueStep ThreadPool PoolStep PoolCalls PoolView PoolIdle PoolTeardown PoolRest Indexed Rest
open PoolLog (Shaped WorkerShaped)
open QueueRest (haltRank clearRank stopRank)

variable {hw c w : Nat} {s s' : Pool} {wk : Worker} {pc pc' : CallPc}

section Measure

def haltPc : WorkerPc → Nat
  | .idle => 11
  | .pop p => haltRank p + 4
  | .ready _ => 4
  | .running _ => 3
  | .decrement _ => 2
  | .loop => 1
  | .exited => 0

/-- The steps of a worker until it blocks or ends, with those that a stop still to come will
set going. -/
def load (stopped : Bool) (wk : Worker) : Nat :=
  if stopped then wk.tasks.queue.length + haltPc wk.pc else workerLoad wk + 12

def creations : CallPc → Nat
  | .startupCheck a | .startupMax a | .startupExpand a | .startupLock a => a.createCount
  | .startupCreate a i => a.createCount - i
  | .submitCheck | .submitLock | .submitLimit | .submitScan _ | .submitRoute => 1
  | _ => 0

def downRank (b : Nat) : CallPc → Nat
  | .shutdownCheck => 14 * b + 5
  | .shutdownRequest => 14 * b + 4
  | .shutdownClear i => 14 * (b - i) + 3
  | .destroyClear i _ p => 14 * (b - (i + 1)) + clearRank p + 11
  | .destroyStop i _ p => 14 * (b - (i + 1)) + stopRank p + 6
  | .destroyJoin i _ => 14 * (b - (i + 1)) + 5
  | .shutdownEnd => 2
  | _ => 0

def rank (b : Nat) (pc : CallPc) : Nat := callRank b pc + 12 * creations pc + downRank b pc

def faultRank (s : Pool) : Nat := if s.fault then 0 else 1

def measure (t : State) : Nat :=
  (t.calls.map (rank (bound t))).sum + (t.pool.heap.map (load t.pool.stopRequested)).sum + faultRank t.pool

theorem rank_mono {b b' : Nat} (h : b' ≤ b) (pc : CallPc) : rank b' pc ≤ rank b pc := by
  have hcall := callRank_mono h pc
  have hdown : downRank b' pc ≤ downRank b pc := by
    cases pc <;> simp only [downRank] <;> omega
  simp only [rank]
  omega

theorem load_le (hr : Regular wk) : load true wk ≤ load false wk := by
  simp only [load, if_true, Bool.false_eq_true, if_false]
  cases hp : wk.pc with
  | pop p =>
      have hle : haltRank p ≤ 7 := by cases p <;> simp [haltRank]
      simp only [haltPc, workerLoad, hp, QueueRest.load]
      omega
  | exited => exact absurd hp hr.staying
  | loop | idle | ready | running | decrement =>
      simp only [haltPc, workerLoad, hp]
      omega

theorem load_push {stopped : Bool} {p p' : Pc Nat} {q : Queue Agent Nat}
    (h : Step stopped (.call c) wk.tasks p q p') (hin : Within (.push c) p) (hr : stopped = false → Regular wk) :
    load stopped { wk with tasks := q } + QueueRest.pushRank 5 p' < load stopped wk + QueueRest.pushRank 5 p := by
  cases stopped with
  | false =>
      have hlt := push_load (s := { stopRequested := false }) h hin (hr rfl)
      simp only [load, Bool.false_eq_true, if_false]
      omega
  | true =>
      have hlt := QueueRest.step_push_length (n := 5) h hin
      simp only [load, if_true]
      omega

theorem load_newWorker (stopped : Bool) : load stopped newWorker ≤ 18 := by
  cases stopped <;> decide

theorem callStep_measure (h : CallStep hw c s pc s' pc') (hsh : Shaped c pc)
    (ht : tearingDown pc = true → s.stopRequested = true) (hf : s.fault = false)
    (hr : s.stopRequested = false → ∀ (w : Nat) wk, s.heap[w]? = some wk → Regular wk) {b : Nat}
    (hb : s.workers.length ≤ b) :
    (s'.heap.map (load s'.stopRequested)).sum + rank b pc' + faultRank s' <
      (s.heap.map (load s.stopRequested)).sum + rank b pc + faultRank s := by
  have hchange (hs : s'.stopRequested = s.stopRequested) (hf' : s'.fault = s.fault)
      (hlt : (s'.heap.map (load s.stopRequested)).sum + rank b pc' <
        (s.heap.map (load s.stopRequested)).sum + rank b pc) :
      (s'.heap.map (load s'.stopRequested)).sum + rank b pc' + faultRank s' <
        (s.heap.map (load s.stopRequested)).sum + rank b pc + faultRank s := by
    rw [hs, faultRank, hf', ← faultRank]
    exact Nat.add_lt_add_right hlt _
  have hless (hh : s'.heap = s.heap) (hs : s'.stopRequested = s.stopRequested) (hf' : s'.fault = s.fault)
      (hlt : rank b pc' < rank b pc) : (s'.heap.map (load s'.stopRequested)).sum + rank b pc' + faultRank s' <
        (s.heap.map (load s.stopRequested)).sum + rank b pc + faultRank s := by
    refine hchange hs hf' ?_
    rw [hh]
    exact Nat.add_lt_add_left hlt _
  have hnew := load_newWorker s.stopRequested
  cases h with
  | startupCreate a i hi =>
      refine hchange rfl rfl ?_
      simp only [List.map_append, List.sum_append, List.map_singleton, List.sum_singleton, rank, callRank, creations,
        downRank]
      omega
  | expand =>
      refine hchange rfl rfl ?_
      simp only [List.map_append, List.sum_append, List.map_singleton, List.sum_singleton, rank, callRank, creations,
        downRank]
      omega
  | scanBusy i w wk hi | destroy i w hi =>
      have hlt := (List.getElem?_eq_some_iff.mp hi).1
      refine hless rfl rfl rfl ?_
      simp only [rank, callRank, creations, downRank, clearRank]
      omega
  | pushStep w fresh p p' wk q hk hd hq =>
      have hlt := load_push hq hsh fun hs => hr hs w wk hk
      have hsum := sum_map_set hk { wk with tasks := q } (load s.stopRequested)
      refine hchange rfl rfl ?_
      simp only [put, rank, callRank, creations, downRank]
      omega
  | clearStep i w p p' wk q hk hd hq =>
      have hlt := QueueRest.step_clear_length hq hsh
      have hsum := sum_map_set hk { wk with tasks := q } (load s.stopRequested)
      refine hchange rfl rfl ?_
      rw [ht rfl] at hsum ⊢
      simp only [put, rank, callRank, creations, downRank]
      simp only [load, if_true] at hsum ⊢
      omega
  | stopStep i w p p' wk q hk hd hq =>
      have hlt := QueueRest.step_stop_length hq hsh
      have hsum := sum_map_set hk { wk with tasks := q } (load s.stopRequested)
      refine hchange rfl rfl ?_
      rw [ht rfl] at hsum ⊢
      simp only [put, rank, callRank, creations, downRank]
      simp only [load, if_true] at hsum ⊢
      omega
  | joined i w wk hk hd he =>
      have hsum := sum_map_set hk { wk with destroyed := true, tasks := { wk.tasks with queue := [] } }
        (load s.stopRequested)
      refine hchange rfl rfl ?_
      rw [ht rfl] at hsum ⊢
      simp only [put, rank, callRank, creations, downRank]
      simp only [load, if_true, List.length_nil] at hsum ⊢
      omega
  | shutdownRequest =>
      have hle : (s.heap.map (load true)).sum ≤ (s.heap.map (load s.stopRequested)).sum := by
        refine List.sum_le_sum fun wk hwk => ?_
        cases hs : s.stopRequested with
        | true => exact Nat.le_refl _
        | false =>
            obtain ⟨w, hk⟩ := List.mem_iff_getElem?.mp hwk
            exact load_le (hr hs w wk hk)
      have hrank : rank b (.shutdownClear 0) < rank b .shutdownRequest := by
        simp only [rank, callRank, creations, downRank]
        omega
      exact Nat.add_lt_add_right (Nat.add_lt_add_of_le_of_lt hle hrank) _
  | dangling => simp [faultRank, hf]
  | cleared | stopped =>
      refine hless rfl rfl rfl ?_
      simp only [rank, callRank, creations, downRank, clearRank, stopRank]
      omega
  | _ =>
      refine hless rfl rfl rfl ?_
      simp only [rank, callRank, creations, downRank, QueueRest.pushRank]
      omega

theorem workerStep_halt {ch : Choice Agent} (h : workerStep s w wk ch = some s') (hch : ch ≠ .spurious)
    (hsh : WorkerShaped wk) (hs : s.stopRequested = true) :
    ∃ wk', s'.heap = s.heap.set w wk' ∧ load true wk' < load true wk := by
  unfold workerStep at h
  split at h
  case h_1 hp =>
      cases h
      exact ⟨_, rfl, by simp [load, haltPc, hp, hs]⟩
  case h_5 p _ _ hp =>
      obtain ⟨r, hstep, rfl⟩ := Option.map_eq_some_iff.mp h
      have hin := hsh p hp
      rw [hs] at hstep
      have hlt := QueueRest.step_haltRank (step_sound hstep) hin (QueueRest.step_ne hstep hch hin)
      refine ⟨_, rfl, ?_⟩
      simp only [load, haltPc, hp, if_true]
      omega
  case h_9 => cases h
  all_goals
    rename_i hp
    cases h
    exact ⟨_, rfl, by simp [load, haltPc, hp, haltRank]⟩

theorem workerStep_less {t : State} {ok : State → Action → Prop} {p : Pool} {ch : Choice Agent}
    (hr : Reachable (system hw) ok t) (hk : t.pool.heap[w]? = some wk) (h : workerStep t.pool w wk ch = some p)
    (hch : ch ≠ .spurious) :
    ∃ wk', p.heap = t.pool.heap.set w wk' ∧ load t.pool.stopRequested wk' < load t.pool.stopRequested wk := by
  cases hs : t.pool.stopRequested with
  | true => exact workerStep_halt h hch (reachable_workerShaped hr w wk hk) hs
  | false =>
      have hreg := reachable_regular hr hs w wk hk
      have htr := QueueWaiters.reachable_tracked (reachable_view hr w wk hk hreg.alive)
      obtain ⟨wk', hh, hlt⟩ := workerStep_load h hch hreg hs fun hawake hin => htr.not_awake hin hawake
      exact ⟨wk', hh, by simpa [load] using hlt⟩

/-- Every move uses up some of what the pool can still do by itself, Shutdown included. -/
theorem move_measure {t t' : State} {a : Action} (hr : Reachable (system hw) Any t) (ha : Moves a)
    (hn : (system hw).next t a = some t') : measure t' < measure t := by
  have hnext : next hw t a = some t' := hn
  have hf : t.pool.fault = false := (next_cases hnext).1
  cases a with
  | call r => exact ha.elim
  | step c ch j =>
      rcases (next_cases hnext).2 with ⟨r, he, -⟩ | ⟨d, ch, j, pc, p, pc', he, hpc, h, rfl⟩ | ⟨w, ch, wk, p, he, -⟩
      · cases he
      · cases he
        have hbound : bound ⟨p, t.calls.set c pc'⟩ ≤ bound t := by
          have hadd := callStep_additions h
          have hsum := sum_map_set hpc pc' additions
          simp only [bound]
          omega
        have hroom : t.pool.workers.length ≤ bound t := Nat.le_add_right _ _
        have hlt := callStep_measure h (reachable_shaped hr c pc hpc) (reachable_tearingDown hr c pc hpc) hf
          (reachable_regular hr) hroom
        have hsum := sum_map_set hpc pc' (rank (bound t))
        have hmono : ((t.calls.set c pc').map (rank (bound ⟨p, t.calls.set c pc'⟩))).sum ≤
            ((t.calls.set c pc').map (rank (bound t))).sum := List.sum_le_sum fun pc _ => rank_mono hbound pc
        simp only [measure]
        omega
      · cases he
  | worker w ch =>
      simp only [system, next] at hn
      split at hn
      case isTrue => cases hn
      case isFalse =>
          split at hn
          case h_1 => cases hn
          case h_2 wk hk =>
              obtain ⟨p, hstep, rfl⟩ := Option.map_eq_some_iff.mp hn
              obtain ⟨wk', hh, hlt⟩ := workerStep_less hr hk hstep ha
              have hsum := sum_map_set hk wk' (load t.pool.stopRequested)
              have hworkers := workerStep_workers (workerStep_sound hstep)
              have hstop := workerStep_stopRequested (workerStep_sound hstep)
              have hle : faultRank p ≤ faultRank t.pool := by
                simp only [faultRank, hf, Bool.false_eq_true, if_false]
                split <;> omega
              simp only [measure, bound, hh, hworkers, hstop]
              omega

theorem settles (hw : Nat) : Settles (system hw) Moves (Reachable (system hw) Any) measure where
  keeps _ _ _ hr _ hn := hr.step trivial hn
  drops _ _ _ hr ha hn := move_measure hr ha hn

end Measure

section Silence

variable {t t' : State} {a : Action} {ok : State → Action → Prop}

def Past (s : Pool) (w : Nat) : Prop := ∀ wk, s.heap[w]? = some wk → ∀ b, within wk ≠ .block b

def Flagged (s : Pool) (w : Nat) : Prop :=
  ∀ wk, s.heap[w]? = some wk → wk.destroyed = false → wk.tasks.stopRequested = true

def Silent (t : State) (w : Nat) : Prop :=
  ∀ wk, t.pool.heap[w]? = some wk → wk.destroyed = false → QueueConsumer.Hushed (view t w wk)

/-- What the destructor of a worker has done for it. Clear takes the mutex, which a thread about to
block still holds, and none that tests its predicate later blocks: nobody misses the notification.
-/
def Silenced (t : State) : CallPc → Prop
  | .destroyClear _ _ (.lock _) => True
  | .destroyClear _ w _ | .destroyStop _ w .requestStop => Past t.pool w
  | .destroyStop _ w .notifyAll => Past t.pool w ∧ Flagged t.pool w
  | .destroyStop _ w _ | .destroyJoin _ w => Silent t w
  | _ => True

theorem workerStep_past (h : WorkerStep s w wk s') (hsh : WorkerShaped wk) (hs : s.stopRequested = true) {wk' : Worker}
    (hk : s.heap[w]? = some wk) (hk' : s'.heap[w]? = some wk') (b : Bool) : within wk' ≠ .block b := by
  have hlt := (List.getElem?_eq_some_iff.mp hk).1
  cases h with
  | pop p p' q hp hq =>
      have hk' : (s.heap.set w _)[w]? = some wk' := hk'
      rw [List.getElem?_set_self hlt] at hk'
      cases hk'
      intro hb
      have hb : p' = .block b := hb
      have hin := hsh p hp
      rw [hs] at hq
      cases hq with
      | testFalse _ _ _ hc =>
          cases hin
          cases hc
      | lock op => cases op <;> cases hb
      | _ => cases hb
  | exit hp | enter hp | idle hp | nothing hp | got x hp | start x hp | finish x hp | decrement x hp =>
      have hk' : (s.heap.set w _)[w]? = some wk' := hk'
      rw [List.getElem?_set_self hlt] at hk'
      cases hk'
      simp [within]

theorem Past.next (hp : Past t.pool w) (hr : Reachable (system hw) ok t) (hn : next hw t a = some t')
    (hs : t.pool.stopRequested = true) (hlt : w < t.pool.heap.length) : Past t'.pool w := by
  intro wk' hk' b
  rcases (next_cases hn).2 with ⟨r, rfl, rfl⟩ | ⟨c, ch, j, pc, p, pc', rfl, hpc, h, rfl⟩ |
    ⟨v, ch, vk, p, rfl, hk, h, rfl⟩
  · exact hp wk' hk' b
  · rcases callStep_ages h hk' with ⟨rfl, -⟩ | ⟨wk, hk, hpcs, -⟩
    · exact absurd hlt (Nat.lt_irrefl _)
    · have hwithin : within wk' = within wk := by simp only [within, hpcs]
      rw [hwithin]
      exact hp wk hk b
  · obtain ⟨vk', hh, -, -⟩ := workerStep_turn h
    have hk₁ : p.heap[w]? = some wk' := hk'
    rw [hh] at hk₁
    rcases set_cases hk₁ with ⟨rfl, -, -⟩ | ⟨-, hk₁⟩
    · exact workerStep_past h (reachable_workerShaped hr w vk hk) hs hk hk' b
    · exact hp wk' hk₁ b

theorem Flagged.next (hp : Flagged t.pool w) (hr : Reachable (system hw) ok t) (hn : next hw t a = some t')
    (hlt : w < t.pool.heap.length) : Flagged t'.pool w := by
  intro wk' hk' hd'
  rcases next_turn hr hn hk' hd' with ⟨rfl, -⟩ | ⟨wk, u, q, p, hk, hd, hturn, hv⟩
  · exact absurd hlt (Nat.lt_irrefl _)
  · have hq : wk'.tasks = q := congrArg QueueThreads.State.queue hv
    rw [hq]
    exact hturn.stopRequested (hp wk hk hd)

theorem Silent.next (hp : Silent t w) (hr : Reachable (system hw) ok t) (hn : next hw t a = some t')
    (hlt : w < t.pool.heap.length) : Silent t' w := by
  intro wk' hk' hd'
  rcases next_turn hr hn hk' hd' with ⟨rfl, -⟩ | ⟨wk, u, q, p, hk, hd, hturn, hv⟩
  · exact absurd hlt (Nat.lt_irrefl _)
  · rw [hv]
    exact QueueConsumer.turn_hushed (hp wk hk hd) hturn

theorem Silenced.next (hp : Silenced t pc) (hr : Reachable (system hw) ok t) (hn : next hw t a = some t')
    (hs : tearingDown pc = true → t.pool.stopRequested = true)
    (hlt : ∀ w, holds pc = some w → w < t.pool.heap.length) : Silenced t' pc := by
  cases pc with
  | destroyClear i w p =>
      cases p with
      | lock => trivial
      | _ => exact Past.next hp hr hn (hs rfl) (hlt w rfl)
  | destroyStop i w p =>
      cases p with
      | requestStop => exact Past.next hp hr hn (hs rfl) (hlt w rfl)
      | notifyAll => exact ⟨Past.next hp.1 hr hn (hs rfl) (hlt w rfl), Flagged.next hp.2 hr hn (hlt w rfl)⟩
      | _ => exact Silent.next hp hr hn (hlt w rfl)
  | destroyJoin i w => exact Silent.next hp hr hn (hlt w rfl)
  | _ => trivial

/-- A thread that has got the mutex of a queue finds nobody about to block. -/
theorem past_of_free (hr : Reachable (system hw) ok t) (hk : t.pool.heap[w]? = some wk) (hd : wk.destroyed = false)
    (hm : wk.tasks.mutex = none) : Past t.pool w := by
  intro wk' hk' b hb
  obtain rfl : wk = wk' := Option.some.inj (hk.symm.trans hk')
  have hx := QueueThreads.reachable_exclusive (reachable_view hr w wk hk hd)
  have hcrit : critical ((view t w wk).pc .worker) = true := by
    rw [show (view t w wk).pc .worker = within wk from rfl, hb]
    rfl
  have ho : wk.tasks.mutex = some .worker := hx .worker hcrit
  rw [hm] at ho
  cases ho

/-- So the notification of the destructor reaches whoever is blocked. -/
theorem hushed_of_past (hr : Reachable (system hw) ok t) (hk : t.pool.heap[w]? = some wk) (hp : Past t.pool w)
    (hs : wk.tasks.stopRequested = true) :
    QueueConsumer.Hushed ⟨{ wk.tasks with cv := CondVar.notifyAll wk.tasks.cv },
      Function.update (view t w wk).pc (.call c) (.returned .unit)⟩ := by
  refine ⟨hs, rfl, fun u b hu => ?_⟩
  rcases QueueThreads.update_cases hu with ⟨-, he⟩ | ⟨-, hu⟩
  · cases he
  · obtain rfl := popping_worker hr u (by rw [hu]; rfl)
    exact hp wk hk b hu

theorem callStep_silenced {p : Pool} (h : CallStep hw c t.pool pc p pc') (hr : Reachable (system hw) ok t)
    (hpc : t.calls[c]? = some pc) (hn : next hw t a = some ⟨p, t.calls.set c pc'⟩) (hbefore : Silenced t pc)
    (hself : Silenced ⟨p, t.calls.set c pc'⟩ pc) : Silenced ⟨p, t.calls.set c pc'⟩ pc' := by
  cases h with
  | clearStep i w q q' wk r hk hd hq =>
      have hpast : Past (put t.pool w { wk with tasks := r }) w := by
        cases q with
        | lock op =>
            cases hq with
            | lock _ hm =>
                have hlt := (List.getElem?_eq_some_iff.mp hk).1
                exact (past_of_free hr hk hd hm).next hr hn (reachable_tearingDown hr c _ hpc rfl) hlt
        | _ => exact hself
      cases q' with
      | lock => trivial
      | _ => exact hpast
  | stopStep i w q q' wk r hk hd hq =>
      have hin : Within .stop q := reachable_shaped hr c _ hpc
      have hlt := (List.getElem?_eq_some_iff.mp hk).1
      cases hq with
      | requestStop =>
          refine ⟨hself, fun wk' hk' _ => ?_⟩
          rcases set_cases hk' with ⟨-, rfl, -⟩ | ⟨hne, -⟩
          · rfl
          · exact absurd rfl hne
      | notifyAll =>
          obtain ⟨hpast, hflag⟩ : Silenced t (.destroyStop i w .notifyAll) := hbefore
          intro wk' hk' hd'
          rcases set_cases hk' with ⟨-, rfl, -⟩ | ⟨hne, -⟩
          · have hsame (q : Queue Agent Nat) : ({ wk with tasks := q } : Worker).pc = wk.pc := rfl
            have hinside : inside w (.destroyStop i w (.returned .unit)) = .returned .unit := by simp [inside]
            rw [view_set hpc _ w (hsame _), hinside]
            exact hushed_of_past hr hk hpast (hflag wk hk hd)
          · exact absurd rfl hne
      | lock op => cases hin with
        | lock hne => exact absurd rfl hne
      | push | notifyNone | notifyOne | testTrue | testFalse | block | spurious | resume | stopped | checked | take
      | fault | clearOne | cleared | size | unlock => cases hin
  | cleared | stopped | dangling => exact hself
  | _ => trivial

theorem reachable_silenced (hr : Reachable (system hw) ok t) :
    ∀ (c : Nat) pc, t.calls[c]? = some pc → Silenced t pc := by
  refine hr.invariant (P := fun t => ∀ (c : Nat) pc, t.calls[c]? = some pc → Silenced t pc) ?_ ?_
  · rintro t rfl c pc hc
    simp at hc
  · intro t a t' hr hp _ hn
    have hkeep (d : Nat) (pd : CallPc) (hd : t.calls[d]? = some pd) : Silenced t' pd :=
      (hp d pd hd).next hr hn (reachable_tearingDown hr d pd hd) ((reachable_addresses hr).2 d pd hd)
    have hn : next hw t a = some t' := hn
    rcases (next_cases hn).2 with ⟨r, rfl, rfl⟩ | ⟨c, ch, j, pc, p, pc', rfl, hpc, h, rfl⟩ |
      ⟨v, ch, vk, p, rfl, hk, h, rfl⟩
    · intro d pd hd
      rcases append_cases hd with ⟨-, rfl⟩ | hd
      · cases r <;> trivial
      · exact hkeep d pd hd
    · intro d pd hd
      rcases set_cases hd with ⟨rfl, rfl, -⟩ | ⟨-, hd⟩
      · exact callStep_silenced h hr hpc hn (hp d pc hpc) (hkeep d pc hpc)
      · exact hkeep d pd hd
    · exact hkeep

end Silence

section AtRest

variable {t : State} {ok : State → Action → Prop}

/-- Shutdown does not hang: the thread it joins has ended or can still go on. -/
theorem rest_shutdown (hr : Reachable (system hw) ok t) (hf : t.pool.fault = false)
    (hrest : AtRest (system hw) Moves t) (hc : t.calls[c]? = some pc) : shuttingDown pc = false := by
  have hrun := call_stuck hf hrest hc .run 0
  have hholds := (reachable_addresses hr).2 c pc hc
  cases pc with
  | shutdownCheck | shutdownRequest | shutdownEnd => cases hrun
  | shutdownClear i =>
      simp only [callStep] at hrun
      split at hrun <;> cases hrun
  | destroyClear i w p =>
      cases p with
      | returned r => cases hrun
      | _ =>
          obtain ⟨wk, hk, hd, -⟩ := alive_of_stuck (hholds w rfl) hrun
          have hin : Within .clear _ := reachable_shaped hr c _ hc
          obtain ⟨r, hret⟩ := rest_returned hr hf hrest hk hd hc (by simpa [inside] using hin) (by simp)
          simp [inside] at hret
  | destroyStop i w p =>
      cases p with
      | returned r => cases hrun
      | _ =>
          obtain ⟨wk, hk, hd, -⟩ := alive_of_stuck (hholds w rfl) hrun
          have hin : Within .stop _ := reachable_shaped hr c _ hc
          obtain ⟨r, hret⟩ := rest_returned hr hf hrest hk hd hc (by simpa [inside] using hin) (by simp)
          simp [inside] at hret
  | destroyJoin i w =>
      obtain ⟨wk, hk, hd, hnone⟩ := alive_of_stuck (hholds w rfl) hrun
      rcases rest_worker hr hf hrest hk hd with hp | ⟨-, hin⟩
      · simp [hp] at hnone
      · have hsilent : Silent t w := reachable_silenced hr c _ hc
        have hwaiting : wk.tasks.cv.waiting = [] := (hsilent wk hk hd).unblocked
        rw [hwaiting] at hin
        cases hin
  | _ => rfl

theorem rest_all_done (hr : Reachable (system hw) ok t) (hf : t.pool.fault = false)
    (hrest : AtRest (system hw) Moves t) (hc : t.calls[c]? = some pc) : isDone pc = true :=
  rest_done hr hf hrest hc (rest_shutdown hr hf hrest hc)

/-- Where a Shutdown overlaps no other call, the workers it leaves behind are destroyed, and
those created later leave their loop at once. -/
theorem reachable_ending (hr : Reachable (system hw) ShutdownAlone t) : t.pool.stopRequested = true →
    (∀ (c : Nat) pc, t.calls[c]? = some pc → tearingDown pc = false) → ∀ (w : Nat) wk, t.pool.heap[w]? = some wk →
      wk.destroyed = true ∨ wk.pc = .loop ∨ wk.pc = .exited := by
  refine hr.invariant (P := fun t => t.pool.stopRequested = true →
    (∀ (c : Nat) pc, t.calls[c]? = some pc → tearingDown pc = false) → ∀ (w : Nat) wk, t.pool.heap[w]? = some wk →
      wk.destroyed = true ∨ wk.pc = .loop ∨ wk.pc = .exited) ?_ ?_
  · rintro t rfl hs
    cases hs
  · intro t a t' hr hp _ hn hs' htear
    rcases (next_cases hn).2 with ⟨r, rfl, rfl⟩ | ⟨c, ch, j, pc, p, pc', rfl, hpc, h, rfl⟩ |
      ⟨v, ch, vk, p, rfl, hk, h, rfl⟩
    · refine hp hs' fun c pc hc => htear c pc ?_
      rw [List.getElem?_append_left (List.getElem?_eq_some_iff.mp hc).1]
      exact hc
    · have hlt := (List.getElem?_eq_some_iff.mp hpc).1
      have hpc' := htear c pc' (List.getElem?_set_self hlt)
      intro w wk' hk'
      cases htd : tearingDown pc with
      | true =>
          have htorn := (reachable_teardown hr).2 c pc hpc
          cases h with
          | shutdownEnd => exact .inl (htorn.2 w wk' hk')
          | dangling =>
              rw [htd] at hpc'
              cases hpc'
          | destroy | shutdownCleared | clearStep | cleared | stopStep | stopped | joined => cases hpc'
          | _ => cases htd
      | false =>
          have hne : pc ≠ .shutdownRequest := by
            rintro rfl
            cases h with
            | shutdownRequest => cases hpc'
            | dangling pc w wk ht => cases ht
          have hs : t.pool.stopRequested = true := (PoolScan.callStep_unstopped h hne).symm.trans hs'
          have hcalm : ∀ (d : Nat) pd, t.calls[d]? = some pd → tearingDown pd = false := by
            intro d pd hd
            by_cases he : d = c
            · subst he
              cases hpc.symm.trans hd
              exact htd
            · exact htear d pd (by rw [List.getElem?_set_ne (Ne.symm he)]; exact hd)
          rcases callStep_ages h hk' with ⟨-, rfl, -⟩ | ⟨wk, hk, hpcs, hdead⟩
          · exact .inr (.inl rfl)
          · rw [hpcs]
            exact (hp hs hcalm w wk hk).imp_left hdead
    · have hs : t.pool.stopRequested = true := (workerStep_stopRequested h).symm.trans hs'
      intro w wk' hk'
      obtain ⟨vk', hh, hdead, -⟩ := workerStep_turn h
      have hk₁ : p.heap[w]? = some wk' := hk'
      rw [hh] at hk₁
      rcases set_cases hk₁ with ⟨rfl, rfl, -⟩ | ⟨-, hk₁⟩
      · have hpc : vk.pc = .loop ∨ vk.pc = .exited := by
          rcases hp hs htear w vk hk with hd | hpc
          · exact .inr (reachable_destroyed hr w vk hk hd).1
          · exact hpc
        have hheap := (PoolRestart.workerStep_inert h hs hpc).1
        have hlt := (List.getElem?_eq_some_iff.mp hk).1
        have hk' : p.heap[w]? = some wk' := hk'
        rw [hheap, List.getElem?_set_self hlt] at hk'
        cases hk'
        exact .inr (.inr rfl)
      · exact hp hs htear w wk' hk₁

theorem rest_exited (hr : Reachable (system hw) ShutdownAlone t) (hf : t.pool.fault = false)
    (hrest : AtRest (system hw) Moves t) (hs : t.pool.stopRequested = true) (hk : t.pool.heap[w]? = some wk) :
    wk.pc = .exited := by
  have hcalm (c : Nat) (pc : CallPc) (hc : t.calls[c]? = some pc) : tearingDown pc = false := by
    have hsd := not_shuttingDown_of_isDone (rest_all_done hr hf hrest hc)
    cases pc <;> first | rfl | cases hsd
  rcases reachable_ending hr hs hcalm w wk hk with hd | hp | hp
  · exact (reachable_destroyed hr w wk hk hd).1
  · have hstuck : workerStep t.pool w wk .run = none := worker_stuck hf hrest hk nofun
    simp [workerStep, hp] at hstuck
  · exact hp

end AtRest

/-- However the calls overlap: only so many steps, spurious wakeups apart, and at rest, but for
undefined behaviour on the way, every call has returned, Shutdown included. -/
theorem calls_return {t : State} (hr : Reachable (system hw) Any t) :
    (∃ n, ∀ as t', (∀ a ∈ as, Moves a) → run (system hw) t as = some t' → as.length ≤ n) ∧
      (∃ as t', (∀ a ∈ as, Moves a) ∧ run (system hw) t as = some t' ∧ AtRest (system hw) Moves t') ∧
      (AtRest (system hw) Moves t → t.pool.fault = false →
        (∀ pc ∈ t.calls, isDone pc = true) ∧
          (Reachable (system hw) ShutdownAlone t → t.pool.stopRequested = true →
            ∀ wk ∈ t.pool.heap, wk.pc = .exited)) ∧
      (Reachable (system hw) (fun s a => ShutdownAlone s a ∧ PoolFront.RecheckCovered s a) t →
        t.pool.fault = false) := by
  refine ⟨⟨measure t, fun as t' hm hrun => ?_⟩, (settles hw).exists_rest hr, fun hrest hf => ⟨?_, ?_⟩,
    PoolCycles.reachable_no_fault⟩
  · exact Nat.le_of_add_right_le ((settles hw).length_add_le hr hm hrun)
  · intro pc hpc
    obtain ⟨c, hc⟩ := List.mem_iff_getElem?.mp hpc
    exact rest_all_done hr hf hrest hc
  · intro halone hs wk hwk
    obtain ⟨w, hk⟩ := List.mem_iff_getElem?.mp hwk
    exact rest_exited halone hf hrest hs hk

theorem atRest_of_ended {t : State} (hc : ∀ pc ∈ t.calls, isDone pc = true)
    (hk : ∀ wk ∈ t.pool.heap, wk.pc = .exited) : AtRest (system hw) Moves t := by
  intro a ha
  cases hn : (system hw).next t a with
  | none => rfl
  | some t' =>
      have hn : next hw t a = some t' := hn
      rcases (next_cases hn).2 with ⟨r, rfl, -⟩ | ⟨c, ch, j, pc, p, pc', rfl, hpc, h, -⟩ |
        ⟨w, ch, wk, p, rfl, hw, h, -⟩
      · exact ha.elim
      · have hdone := hc pc (List.mem_of_getElem? hpc)
        rw [callStep_not_done h] at hdone
        cases hdone
      · have hp := hk wk (List.mem_of_getElem? hw)
        cases h with
        | exit h | enter h | idle h | nothing h | got x h | pop p p' q h | start x h | finish x h | decrement x h =>
            rw [h] at hp
            cases hp

theorem calls_return_joined : ∃ (t t' : State) (as : List Action), t.calls[3]? = some (.destroyJoin 0 0) ∧
    run (system 1) t as = some t' ∧ AtRest (system 1) Moves t' ∧ ∀ pc ∈ t'.calls, isDone pc = true := by
  obtain ⟨t, hr, hp⟩ := exists_of_run (system 1) Any (fun _ _ => true) {}
    (twoTasks ++ [.call .shutdown] ++ walk 3 11)
    (fun t : State => t.calls[3]? == some (CallPc.destroyJoin 0 0) &&
      (run (system 1) t (work 0 3 ++ walk 3 3)).any fun t' : State => !t'.pool.fault &&
        (t'.calls.all isDone && t'.pool.heap.all fun wk => wk.pc == .exited))
    (fun _ _ _ => trivial) rfl (by decide)
  simp only [Bool.and_eq_true, Option.any_eq_true, Bool.not_eq_true', List.all_eq_true,
    beq_iff_eq] at hp
  obtain ⟨hjoin, t', hrun, hf, hdone, hended⟩ := hp
  have hrest : AtRest (system 1) Moves t' := atRest_of_ended hdone hended
  exact ⟨t, t', _, hjoin, hrun, hrest, ((calls_return (run_reachable hr hrun)).2.2.1 hrest hf).1⟩

end Enigma.PoolHalt
