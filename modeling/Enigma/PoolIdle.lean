import Enigma.PoolFront
import Enigma.PoolLog
import Enigma.QueueConsumer

namespace Enigma.PoolIdle

open Transition SyncQueue QueueStep ThreadPool PoolStep PoolCalls PoolView PoolFront Indexed
open PoolLog (Shaped callStep_shaped)

variable {hw c w : Nat} {s s' : Pool} {wk : Worker} {pc pc' : CallPc}

/-- What is true of every worker until the stop of the pool is requested. The
flag is down from before Pop until Pop has returned. -/
structure Regular (wk : Worker) : Prop where
  alive : wk.destroyed = false
  unstopped : wk.tasks.stopRequested = false
  staying : wk.pc ≠ .exited
  lowered : ∀ p, wk.pc = .pop p → wk.busy = false ∧ Within (.pop true) p
  raised : wk.busy = false → wk.pc = .loop ∨ wk.pc = .idle ∨ ∃ p, wk.pc = .pop p

theorem regular_newWorker : Regular newWorker :=
  ⟨rfl, rfl, by simp [newWorker], fun p hp => (by cases hp), fun _ => .inl rfl⟩

theorem step_unstopped {cond : Bool} {t : Agent} {q q' : Queue Agent Nat} {p p' : Pc Nat} {op : Op Nat}
    (h : Step cond t q p q' p') (hw : Within op p) (hop : op ≠ .stop) : q'.stopRequested = q.stopRequested := by
  cases h with
  | requestStop =>
      cases hw
      exact absurd rfl hop
  | _ => rfl

theorem Regular.push (hr : Regular wk) {q : Queue Agent Nat} (hq : q.stopRequested = wk.tasks.stopRequested) :
    Regular { wk with tasks := q } :=
  ⟨hr.alive, hq.trans hr.unstopped, hr.staying, hr.lowered, hr.raised⟩

theorem workerStep_regular (h : WorkerStep s w wk s') (hr : Regular wk) (hs : s.stopRequested = false) :
    ∃ wk', s'.heap = s.heap.set w wk' ∧ Regular wk' := by
  -- a step outside Pop, with the flag up
  have hup {pc' : WorkerPc} (hb : wk.busy = true) (he : pc' ≠ .exited) (hp : ∀ p, pc' ≠ .pop p) :
      Regular { wk with pc := pc' } := by
    refine ⟨hr.alive, hr.unstopped, he, fun p hpc => absurd hpc (hp p), fun hb' => ?_⟩
    rw [show wk.busy = false from hb'] at hb
    cases hb
  have hbusy (h₁ : wk.pc ≠ .loop) (h₂ : wk.pc ≠ .idle) (h₃ : ∀ p, wk.pc ≠ .pop p) : wk.busy = true := by
    cases hb : wk.busy with
    | true => rfl
    | false =>
        rcases hr.raised hb with hp | hp | ⟨p, hp⟩
        · exact absurd hp h₁
        · exact absurd hp h₂
        · exact absurd hp (h₃ p)
  cases h with
  | exit hp h =>
      rw [hs] at h
      cases h
  | enter hp h => exact ⟨_, rfl, hr.alive, hr.unstopped, by simp, fun p hp => (by cases hp), fun _ => .inr (.inl rfl)⟩
  | idle hp =>
      refine ⟨_, rfl, hr.alive, hr.unstopped, by simp, fun p hp => ?_, fun _ => .inr (.inr ⟨_, rfl⟩)⟩
      cases hp
      exact ⟨rfl, .lock (by simp)⟩
  | nothing hp | got x hp =>
      exact ⟨_, rfl, hr.alive, hr.unstopped, by simp, fun p hp => (by cases hp), fun hb => by cases hb⟩
  | pop p p' q hp hq =>
      obtain ⟨hb, hw⟩ := hr.lowered p hp
      refine ⟨_, rfl, hr.alive, (step_unstopped hq hw (by simp)).trans hr.unstopped, by simp, fun p'' hp'' => ?_,
        fun _ => .inr (.inr ⟨_, rfl⟩)⟩
      cases hp''
      exact ⟨hb, step_within hq hw⟩
  | start x hp | finish x hp | decrement x hp =>
      have hb := hbusy (by simp [hp]) (by simp [hp]) (by simp [hp])
      exact ⟨_, rfl, hup hb (by simp) (by simp)⟩

theorem reachable_shaped {ok : State → Action → Prop} {s : State} (hr : Reachable (system hw) ok s) :
    ∀ (c : Nat) pc, s.calls[c]? = some pc → Shaped c pc := by
  apply calls_invariant (P := fun _ c pc => Shaped c pc) ?_ ?_ ?_ ?_ hr
  · intro s c r
    cases r <;> trivial
  · exact fun h hp => callStep_shaped h hp
  · exact fun _ _ _ hd => hd
  · exact fun _ hp => hp

theorem callStep_regular (h : CallStep hw c s pc s' pc') (hsh : Shaped c pc)
    (ht : tearingDown pc = true → s.stopRequested = true) (hs : s.stopRequested = false)
    (hr : ∀ (w : Nat) wk, s.heap[w]? = some wk → Regular wk) :
    ∀ (w : Nat) wk, s'.heap[w]? = some wk → Regular wk := by
  have hstop (htd : tearingDown pc = true) : False := by
    rw [ht htd] at hs
    cases hs
  cases h with
  | startupCreate | expand => exact forall_append (P := fun _ => Regular) hr regular_newWorker
  | pushStep w fresh p p' wk q hk hd hq =>
      exact forall_set (P := fun _ => Regular) hr ((hr w wk hk).push (step_unstopped hq hsh (by simp)))
  | clearStep | stopStep | joined => exact (hstop rfl).elim
  | _ => exact hr

theorem next_stopRequested {s s' : State} {a : Action} (hn : next hw s a = some s')
    (hs : s.pool.stopRequested = true) : s'.pool.stopRequested = true := by
  rcases (next_cases hn).2 with ⟨r, rfl, rfl⟩ | ⟨c, ch, j, pc, p, pc', rfl, hpc, h, rfl⟩ |
    ⟨w, ch, wk, p, rfl, hk, h, rfl⟩
  · exact hs
  · exact callStep_stopRequested h hs
  · exact (workerStep_stopRequested h).trans hs

theorem unstopped_before {s s' : State} {a : Action} (hn : next hw s a = some s')
    (hs : s'.pool.stopRequested = false) : s.pool.stopRequested = false := by
  cases hs₀ : s.pool.stopRequested with
  | false => rfl
  | true =>
      rw [next_stopRequested hn hs₀] at hs
      cases hs

theorem reachable_regular {ok : State → Action → Prop} {s : State} (hr : Reachable (system hw) ok s)
    (hs : s.pool.stopRequested = false) : ∀ (w : Nat) wk, s.pool.heap[w]? = some wk → Regular wk := by
  revert hs
  refine hr.invariant (P := fun s => s.pool.stopRequested = false →
    ∀ (w : Nat) wk, s.pool.heap[w]? = some wk → Regular wk) ?_ ?_
  · rintro s rfl _ w wk hk
    simp at hk
  · intro s a s' hr hp _ hn hs'
    have hs := unstopped_before hn hs'
    rcases (next_cases hn).2 with ⟨r, rfl, rfl⟩ | ⟨c, ch, j, pc, p, pc', rfl, hpc, h, rfl⟩ |
      ⟨w, ch, wk, p, rfl, hk, h, rfl⟩
    · exact hp hs
    · exact callStep_regular h (reachable_shaped hr c pc hpc) (reachable_tearingDown hr c pc hpc) hs (hp hs)
    · obtain ⟨wk', hh, hwk'⟩ := workerStep_regular h (hp hs w wk hk) hs
      rw [show (⟨p, s.calls⟩ : State).pool.heap = s.pool.heap.set w wk' from hh]
      exact forall_set (P := fun _ => Regular) (hp hs) hwk'

theorem reachable_covered {s : State} (hr : Reachable (system hw) Any s) (hs : s.pool.stopRequested = false) :
    Reachable (system hw) RecheckCovered s := by
  revert hs
  refine hr.invariant
    (P := fun s => s.pool.stopRequested = false → Reachable (system hw) RecheckCovered s) ?_ ?_
  · exact fun s hs _ => .init hs
  · intro s a s' _ hp _ hn hs'
    have hs := unstopped_before hn hs'
    refine .step (hp hs) ?_ hn
    intro w ch wk c _ _ _ _ hstop
    rw [hs] at hstop
    cases hstop

theorem reachable_stocked_unstopped {s : State} (hr : Reachable (system hw) Any s)
    (hs : s.pool.stopRequested = false) : ∀ (w : Nat) wk, s.pool.heap[w]? = some wk → Stocked s.pool wk :=
  reachable_stocked (reachable_covered hr hs)

theorem reachable_no_fault {s : State} (hr : Reachable (system hw) Any s) (hs : s.pool.stopRequested = false) :
    s.pool.fault = false := by
  revert hs
  refine hr.invariant (P := fun s => s.pool.stopRequested = false → s.pool.fault = false) ?_ ?_
  · rintro s rfl _
    rfl
  · intro s a s' hr _ _ hn hs'
    have hs := unstopped_before hn hs'
    obtain ⟨hf, hn⟩ := next_cases hn
    rcases hn with ⟨r, rfl, rfl⟩ | ⟨c, ch, j, pc, p, pc', rfl, hpc, h, rfl⟩ | ⟨w, ch, wk, p, rfl, hk, h, rfl⟩
    · exact hf
    · cases h with
      | dangling pc w wk ht hk hd =>
          rw [(reachable_regular hr hs w wk hk).alive] at hd
          cases hd
      | _ => exact hf
    · cases h with
      | pop p p' q hp hq =>
          have hstock := reachable_stocked_unstopped hr hs w wk hk
          simp only [Stocked, hp] at hstock
          show decide (p' = .fault) = false
          cases hq with
          | fault c hnil => exact absurd hnil hstock
          | lock op => cases op <;> rfl
          | _ => simp
      | _ => exact hf

/-- Only the thread of a worker can own the mutex of its queue, but for a call
that is inside it. -/
theorem mutex_owner {s : State} (hr : Reachable (system hw) Any s) (hs : s.pool.stopRequested = false)
    (hc : s.calls[c]? = some pc) (hl : locked pc = true) (hin : inside w pc = .idle)
    (hk : s.pool.heap[w]? = some wk) (hm : wk.tasks.mutex ≠ none) :
    wk.tasks.mutex = some .worker ∧ critical (within wk) = true := by
  obtain ⟨t, ht⟩ := Option.ne_none_iff_exists'.mp hm
  have halive := (reachable_regular hr hs w wk hk).alive
  have hcrit := (QueueConsumer.reachable_inSection (reachable_view hr w wk hk halive)).owner t ht
  cases t with
  | worker => exact ⟨ht, hcrit⟩
  | call d =>
      have hcrit : critical (((s.calls[d]?).map (inside w)).getD .idle) = true := hcrit
      cases hd : s.calls[d]? with
      | none => simp [hd, critical] at hcrit
      | some pd =>
          have hcrit : critical (inside w pd) = true := by simpa [hd] using hcrit
          have hstop (htd : tearingDown pd = true) : False := by
            rw [reachable_tearingDown hr d pd hd htd] at hs
            cases hs
          cases pd with
          | pushTask v fresh p =>
              obtain rfl := locked_unique hr hc hd hl rfl
              rw [hc] at hd
              cases hd
              rw [hin] at hcrit
              cases hcrit
          | destroyClear | destroyStop => exact (hstop rfl).elim
          | _ => cases hcrit

end Enigma.PoolIdle
