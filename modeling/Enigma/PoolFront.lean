import Enigma.PoolView

namespace Enigma.PoolFront

open Transition SyncQueue QueueStep ThreadPool PoolStep PoolCalls PoolView Indexed

variable {hw c w : Nat} {s s' : Pool} {wk : Worker} {pc pc' : CallPc}

/-- What a worker on its way to front() can count on. After the wait it knows
that one of the three disjuncts of the predicate held, after the second check
that there is a task. -/
def Stocked (s : Pool) (wk : Worker) : Prop :=
  match wk.pc with
  | .pop (.check _) => wk.tasks.queue ≠ [] ∨ wk.tasks.stopRequested = true ∨ s.stopRequested = true
  | .pop (.take _) => wk.tasks.queue ≠ []
  | .pop .fault => False
  | _ => True

/-- No worker makes the second check of Pop(cond) with an empty queue between the stop request of
the pool and the Stop() of its queue, which may come after the wait predicate. -/
def RecheckCovered (s : State) (a : Action) : Prop := ∀ w ch wk c, a = .worker w ch →
  s.pool.heap[w]? = some wk → wk.pc = .pop (.check c) → wk.tasks.queue = [] →
  s.pool.stopRequested = true → wk.tasks.stopRequested = true

theorem Stocked.mono {wk' : Worker} (h : Stocked s wk) (hp : wk'.pc = wk.pc)
    (hq : critical (within wk) = true → wk'.tasks.queue = wk.tasks.queue)
    (hs : wk.tasks.stopRequested = true → wk'.tasks.stopRequested = true)
    (hstop : s.stopRequested = true → s'.stopRequested = true) : Stocked s' wk' := by
  unfold Stocked at h ⊢
  rw [hp]
  split at h
  case h_1 c hpc =>
    rw [hq (by simp [within, hpc, critical])]
    exact h.imp_right fun h => h.imp hs hstop
  case h_2 c hpc =>
    rw [hq (by simp [within, hpc, critical])]
    exact h
  case h_3 => exact h
  case h_4 => trivial

theorem workerStep_stocked (h : WorkerStep s w wk s') (hs : Stocked s wk)
    (hok : ∀ c, wk.pc = .pop (.check c) → wk.tasks.queue = [] → s.stopRequested = true →
      wk.tasks.stopRequested = true) :
    ∃ wk', s'.heap = s.heap.set w wk' ∧ Stocked s' wk' := by
  cases h with
  | pop p p' q hp hq =>
      refine ⟨_, rfl, ?_⟩
      simp only [Stocked, hp] at hs
      cases hq with
      | testTrue c h => exact h.imp_right fun h => h.imp_right And.right
      | checked c h =>
          show wk.tasks.queue ≠ []
          rcases hs with hne | hflag | hstop
          · exact hne
          · rw [h] at hflag
            cases hflag
          · intro hnil
            have hflag := hok c hp hnil hstop
            rw [h] at hflag
            cases hflag
      | fault c h => exact (hs h).elim
      | lock op => cases op <;> trivial
      | push | notifyNone | notifyOne | testFalse | block | spurious | resume | stopped | take
      | clearOne | cleared | size | unlock | requestStop | notifyAll => trivial
  | exit hp | enter hp | idle hp | nothing hp | got x hp | start x hp | finish x hp | decrement x hp =>
      exact ⟨_, rfl, trivial⟩

theorem callStep_stocked {ok : State → Action → Prop} {s : State} {p : Pool}
    (hr : Reachable (system hw) ok s) (hpc : s.calls[c]? = some pc)
    (hs : CallStep hw c s.pool pc p pc')
    (hst : ∀ (w : Nat) wk, s.pool.heap[w]? = some wk → Stocked s.pool wk) :
    ∀ (w : Nat) wk, p.heap[w]? = some wk → Stocked p wk := by
  intro w wk' hk'
  have hstop := callStep_stopRequested hs
  cases hd : wk'.destroyed with
  | true =>
      rcases callStep_destroyed hs hk' hd with ⟨he, -⟩ | hk
      · simp [Stocked, he]
      · exact (hst w wk' hk).mono rfl (fun _ => rfl) id hstop
  | false =>
      rcases callStep_turn hs hk' hd with ⟨-, rfl, -⟩ | ⟨wk, hk, hlive, hsame, hturn⟩
      · trivial
      · have hx := QueueThreads.reachable_exclusive (reachable_view hr w wk hk hlive)
        have hin : (view s w wk).pc (.call c) = inside w pc := by simp [view, hpc]
        rw [← hin] at hturn
        apply (hst w wk hk).mono hsame ?_ hturn.stopRequested hstop
        exact fun hcrit => hturn.queue_of_other (u := Agent.worker) hx (by simp) hcrit

theorem reachable_stocked {s : State} (hr : Reachable (system hw) RecheckCovered s) :
    ∀ (w : Nat) wk, s.pool.heap[w]? = some wk → Stocked s.pool wk := by
  refine hr.invariant
    (P := fun s => ∀ (w : Nat) wk, s.pool.heap[w]? = some wk → Stocked s.pool wk) ?_ ?_
  · rintro s rfl w wk hk
    simp at hk
  · intro s a s' hr hst hok hn
    rcases (next_cases hn).2 with ⟨r, rfl, rfl⟩ | ⟨c, ch, j, pc, p, pc', rfl, hpc, hs, rfl⟩ |
      ⟨v, ch, vk, p, rfl, hk, hs, rfl⟩
    · exact hst
    · exact callStep_stocked hr hpc hs hst
    · obtain ⟨vk', hh, hvk'⟩ := workerStep_stocked hs (hst v vk hk)
        (fun c hp hq hstop => hok v ch vk c rfl hk hp hq hstop)
      show ∀ (w : Nat) wk, p.heap[w]? = some wk → Stocked p wk
      rw [hh]
      apply forall_set (P := fun _ => Stocked p) ?_ hvk'
      intro w wk hk
      apply (hst w wk hk).mono rfl (fun _ => rfl) id
      rw [workerStep_stopRequested hs]
      exact id

theorem take_faults {s : State} {c : Bool} (hr : Reachable (system hw) Any s)
    (hf : s.pool.fault = false) (hk : s.pool.heap[w]? = some wk) (hp : wk.pc = .pop (.take c))
    (hq : wk.tasks.queue = []) : ∃ (s' : State) (wk' : Worker), Reachable (system hw) Any s' ∧
      s'.pool.heap[w]? = some wk' ∧ wk'.pc = .pop .fault := by
  have hlt := (List.getElem?_eq_some_iff.mp hk).1
  have hn : (system hw).next s (.worker w .run) =
      some ⟨{ put s.pool w { wk with pc := .pop .fault } with fault := true }, s.calls⟩ := by
    simp [system, next, hf, hk, workerStep, hp, step, hq]
  refine ⟨_, { wk with pc := .pop .fault }, .step hr trivial hn, ?_, rfl⟩
  simp only [put, List.getElem?_set_self hlt]

theorem uncovered_faults {s s' : State} {a : Action} (hr : Reachable (system hw) Any s)
    (hn : next hw s a = some s') (ha : ¬ RecheckCovered s a) :
    ∃ (s' : State) (w : Nat) (wk : Worker), Reachable (system hw) Any s' ∧
      s'.pool.heap[w]? = some wk ∧ wk.pc = .pop .fault := by
  have hr' : Reachable (system hw) Any s' := .step (S := system hw) hr trivial hn
  simp only [RecheckCovered, not_forall] at ha
  obtain ⟨w, ch, wk, c, rfl, hk, hp, hq, -, hflag⟩ := ha
  rcases (next_cases hn).2 with ⟨r, ha, -⟩ | ⟨d, _, _, _, _, _, ha, -⟩ | ⟨v, _, vk, p, ha, hv, hs, rfl⟩
  · cases ha
  · cases ha
  · cases ha
    obtain rfl : wk = vk := Option.some.inj (hk.symm.trans hv)
    have hlt := (List.getElem?_eq_some_iff.mp hk).1
    cases hs with
    | pop p₀ p' q hp' hq' =>
        obtain rfl : p₀ = .check c := by simpa [hp] using hp'.symm
        cases hq' with
        | stopped _ h => exact (hflag h).elim
        | checked _ h =>
            let wk₁ : Worker := { wk with pc := .pop (.take c) }
            have hk₁ : (s.pool.heap.set w wk₁)[w]? = some wk₁ := List.getElem?_set_self hlt
            obtain ⟨s'', wk', hr'', hk'', hp''⟩ := take_faults hr' (by simp) hk₁ rfl hq
            exact ⟨s'', w, wk', hr'', hk'', hp''⟩
    | exit h | enter h | idle h | nothing h | got x h | start x h | finish x h | decrement x h =>
        rw [hp] at h
        cases h

/-- In a run in which every second check is covered, no worker ever reads the
front of an empty queue. Every other run can go on to one that does. -/
theorem front_of_nonempty :
    (∀ s, Reachable (system hw) RecheckCovered s → ∀ (w : Nat) (wk : Worker), s.pool.heap[w]? = some wk →
      wk.pc ≠ .pop .fault ∧ ∀ c, wk.pc = .pop (.take c) → wk.tasks.queue ≠ []) ∧
    ∀ s a s', Reachable (system hw) Any s → next hw s a = some s' → ¬ RecheckCovered s a →
      ∃ (s' : State) (w : Nat) (wk : Worker), Reachable (system hw) Any s' ∧
        s'.pool.heap[w]? = some wk ∧ wk.pc = .pop .fault := by
  refine ⟨fun s hr w wk hk => ?_, fun s a s' hr hn ha => uncovered_faults hr hn ha⟩
  have hs := reachable_stocked hr w wk hk
  refine ⟨fun hp => ?_, fun c hp => ?_⟩
  · simp only [Stocked, hp] at hs
  · simpa only [Stocked, hp] using hs

theorem front_of_nonempty_task : ∃ (s : State) (wk : Worker), s.pool.heap[0]? = some wk ∧
    wk.pc = .pop (.take true) ∧ wk.tasks.queue ≠ [] := by
  obtain ⟨s, hr, hp⟩ := exists_of_run (system 1) RecheckCovered
    (fun s _ => !s.pool.stopRequested)
    {} (List.flatten [[.call (.startup ⟨1, 5, false⟩)], walk 0 8, [.call .submit], walk 1 11, work 0 5])
    (fun s => (s.pool.heap[0]?).any fun (wk : Worker) => wk.pc == .pop (.take true))
    (by
      intro s a ha w ch wk c _ _ _ _ hstop
      simp [hstop] at ha)
    rfl (by decide)
  obtain ⟨wk, hk, hpc⟩ := (Option.any_eq_true _ _).mp hp
  have hpc := beq_iff_eq.mp hpc
  exact ⟨s, wk, hk, hpc, (front_of_nonempty.1 s hr 0 wk hk).2 true hpc⟩

/-- Shutdown requests the stop after the worker's check of its loop: the wait predicate holds by the
token alone, and front() is called on an empty queue. -/
theorem shutdown_empties_front : ¬ ∀ (s : State) (w : Nat) (wk : Worker) (c : Bool),
    Reachable (system 1) Any s → s.pool.heap[w]? = some wk → wk.pc = .pop (.take c) →
      wk.tasks.queue ≠ [] := by
  intro hall
  obtain ⟨s, hr, hp⟩ := exists_of_run (system 1) Any (fun _ _ => true)
    {} (List.flatten [[.call (.startup ⟨1, 5, false⟩)], walk 0 8, work 0 2, [.call .shutdown], walk 1 2,
      work 0 3])
    (fun s => (s.pool.heap[0]?).any fun (wk : Worker) => decide (wk.pc = .pop (.take true) ∧ wk.tasks.queue = []))
    (fun _ _ _ => trivial) rfl (by decide)
  obtain ⟨wk, hk, hwk⟩ := (Option.any_eq_true _ _).mp hp
  obtain ⟨hpc, hq⟩ := of_decide_eq_true hwk
  exact hall s 0 wk true hr hk hpc hq

end Enigma.PoolFront
