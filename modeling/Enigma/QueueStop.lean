import Enigma.QueueWaiters

namespace Enigma.QueueStop

open Transition CondVar SyncQueue QueueStep QueueThreads QueueWaiters

variable {ι T : Type} [DecidableEq ι]

def stops (s : State ι T) : Action ι T → List ι
  | .step t _ _ => if s.pc t matches .notifyAll then [t] else []
  | _ => []

/-- No Stop() notifies while a consumer stands between a wait predicate that
came out false and the block that follows it. -/
def NotifiesNoLatecomer (s : State ι T) (a : Action ι T) : Prop :=
  ∀ t cond ch, a = .step t cond ch → s.pc t = .notifyAll → ∀ u c, s.pc u ≠ .block c

structure Quiet (s : State ι T) (h : List ι) : Prop where
  requested : ∀ t, s.pc t = .notifyAll → s.queue.stopRequested = true
  stopped : h ≠ [] → s.queue.stopRequested = true
  unblocked : h ≠ [] → s.queue.cv.waiting = []
  unblocking : h ≠ [] → ∀ t c, s.pc t ≠ .block c

variable {cond : Bool} {t : ι} {q q' : Queue ι T} {pc pc' : Pc T}

theorem stopRequested_of_notifyAll (h : Step cond t q pc q' .notifyAll) : q'.stopRequested = true := by
  generalize hp : (.notifyAll : Pc T) = p at h
  cases h with
  | requestStop => rfl
  | lock op => cases op <;> cases hp
  | push | notifyNone | notifyOne | testTrue | testFalse | block | spurious | resume | stopped
  | checked | take | fault | clearOne | cleared | size | unlock | notifyAll => cases hp

theorem not_stopRequested_of_block {c : Bool} (h : Step cond t q pc q' (.block c)) :
    q.stopRequested = false := by
  generalize hp : (.block c : Pc T) = p at h
  cases h with
  | testFalse _ _ hs => exact hs
  | lock op => cases op <;> cases hp
  | push | notifyNone | notifyOne | testTrue | block | spurious | resume | stopped | checked | take
  | fault | clearOne | cleared | size | unlock | requestStop | notifyAll => cases hp

theorem step_waiting (h : Step cond t q pc q' pc') (hb : ∀ c, pc ≠ .block c)
    (hw : q.cv.waiting = []) : q'.cv.waiting = [] := by
  cases h with
  | block c => exact (hb c rfl).elim
  | notifyOne w hm => rw [hw] at hm; cases hm
  | spurious c hm => rw [hw] at hm; cases hm
  | notifyAll => rfl
  | lock | push | notifyNone | testTrue | testFalse | resume | stopped | checked | take | fault
  | clearOne | cleared | size | unlock | requestStop => exact hw

theorem step_quiet {s : State ι T} {h : List ι} {ch : Choice ι} (hq : Quiet s h)
    (hok : NotifiesNoLatecomer s (.step t cond ch)) (hs : Step cond t s.queue (s.pc t) q pc) :
    Quiet ⟨q, Function.update s.pc t pc⟩ (h ++ stops s (.step t cond ch)) := by
  have hrequested : ∀ u, Function.update s.pc t pc u = .notifyAll → q.stopRequested = true := by
    intro u hu
    rcases update_cases hu with ⟨rfl, rfl⟩ | ⟨-, hu⟩
    · exact stopRequested_of_notifyAll hs
    · exact step_stopRequested hs (hq.requested u hu)
  -- once Stop() has returned, a predicate comes out true and nobody gets to block again
  have hunblocking (hr : s.queue.stopRequested = true) (hb : ∀ u c, s.pc u ≠ .block c) :
      ∀ u c, Function.update s.pc t pc u ≠ .block c := by
    intro u c hu
    rcases update_cases hu with ⟨rfl, rfl⟩ | ⟨-, hu⟩
    · rw [not_stopRequested_of_block hs] at hr
      cases hr
    · exact hb u c hu
  by_cases hn : s.pc t = .notifyAll
  · have hr := hq.requested t hn
    have hb := hok t cond ch rfl hn
    have hw : q.cv.waiting = [] := by
      rw [hn] at hs
      cases hs
      rfl
    exact ⟨hrequested, fun _ => step_stopRequested hs hr, fun _ => hw, fun _ => hunblocking hr hb⟩
  · have hh : h ++ stops s (.step t cond ch) = h := by
      simp [stops]
    rw [hh]
    refine ⟨hrequested, fun he => step_stopRequested hs (hq.stopped he), fun he => ?_, fun he => ?_⟩
    · exact step_waiting hs (hq.unblocking he t) (hq.unblocked he)
    · exact hunblocking (hq.stopped he) (hq.unblocking he)

theorem entry_ne (op : Op T) : op.entry ≠ .notifyAll ∧ ∀ c, op.entry ≠ .block c := by
  cases op <;> simp [Op.entry]

theorem reachable_quiet {s : State ι T} {h : List ι}
    (hr : Reachable (logged (system ι T) stops) (fun p a => NotifiesNoLatecomer p.1 a) (s, h)) :
    Quiet s h := by
  refine hr.logged_invariant (P := Quiet) ?_ ?_
  · rintro s rfl
    constructor
    · intro t ht
      cases ht
    · intro hh; exact (hh rfl).elim
    · intro hh; exact (hh rfl).elim
    · intro hh; exact (hh rfl).elim
  · intro s h a s' _ hq hok hn
    rcases next_cases hn with ⟨t, pc, -, rfl, hpc⟩ | ⟨t, cond, ch, q, pc, rfl, hs, rfl⟩
    · have hp : pc ≠ .notifyAll ∧ ∀ c, pc ≠ .block c := by
        rcases hpc with ⟨op, -, rfl⟩ | ⟨-, rfl⟩
        · exact entry_ne op
        · simp
      have hh : h ++ stops s a = h := by
        rcases hpc with ⟨op, rfl, -⟩ | ⟨rfl, -⟩ <;> exact List.append_nil h
      rw [hh]
      refine ⟨?_, hq.stopped, hq.unblocked, ?_⟩
      · intro u hu
        rcases update_cases hu with ⟨rfl, he⟩ | ⟨-, hu⟩
        · exact (hp.1 he).elim
        · exact hq.requested u hu
      · intro hne u c hu
        rcases update_cases hu with ⟨rfl, he⟩ | ⟨-, hu⟩
        · exact hp.2 c he
        · exact hq.unblocking hne u c hu
    · exact step_quiet hq hok hs

/-- Where Stop() lands between the predicate and the block of a consumer, the
consumer goes to sleep after the last notification. -/
theorem latecomer_blocks {s : State ι T} {h : List ι} {u : ι} {c : Bool}
    (hr : Reachable (logged (system ι T) stops) Any (s, h)) (ht : s.pc t = .notifyAll)
    (hu : s.pc u = .block c) :
    ∃ s' h', Reachable (logged (system ι T) stops) Any (s', h') ∧ h' ≠ [] ∧ s'.pc u = .wait c ∧
      ¬ Awake s'.queue.cv u := by
  have hne : u ≠ t := by
    rintro rfl
    rw [ht] at hu
    cases hu
  have h₁ := hr.logged_step trivial (next_step t false .run ht rfl)
  have hu₁ : Function.update s.pc t (.returned .unit) u = .block c := by
    rw [Function.update_of_ne hne, hu]
  have h₂ := h₁.logged_step trivial (next_step u false .run hu₁ rfl)
  refine ⟨_, _, h₂, ?_, ?_, ?_⟩
  · simp [stops, ht]
  · simp
  · have h₃ : Reachable (system ι T) Any _ := h₂.forget
    apply (reachable_tracked h₃).not_awake
    simp [block]

/-- In a run in which no Stop() notifies over a consumer about to block, no consumer stays blocked
without a notification once a Stop() has returned. Every other run can go on to break this. -/
theorem stop_wakes {ι T : Type} [DecidableEq ι] :
    (∀ (s : State ι T) (h : List ι),
      Reachable (logged (system ι T) stops) (fun p a => NotifiesNoLatecomer p.1 a) (s, h) →
      h ≠ [] → ∀ t c, s.pc t = .wait c → Awake s.queue.cv t) ∧
    ∀ (s : State ι T) (h : List ι) (a : Action ι T),
      Reachable (logged (system ι T) stops) Any (s, h) → ¬ NotifiesNoLatecomer s a →
      ∃ s' h', Reachable (logged (system ι T) stops) Any (s', h') ∧ h' ≠ [] ∧
        ∃ t c, s'.pc t = .wait c ∧ ¬ Awake s'.queue.cv t := by
  constructor
  · intro s h hr hh t c ht
    have hw := (reachable_quiet hr).unblocked hh
    rcases (reachable_tracked hr.forget).awake_or_waiting ht with ha | hm
    · exact ha
    · rw [hw] at hm
      cases hm
  · intro s h a hr ha
    simp only [NotifiesNoLatecomer, not_forall, not_not] at ha
    obtain ⟨t, cond, ch, rfl, ht, u, c, hu⟩ := ha
    obtain ⟨s', h', hr', hh, hw, hn⟩ := latecomer_blocks hr ht hu
    exact ⟨s', h', hr', hh, u, c, hw, hn⟩

theorem stop_wakes_blocked_consumer : ∃ (s : State Bool Nat) (h : List Bool),
    Reachable (logged (system Bool Nat) stops) (fun p a => NotifiesNoLatecomer p.1 a) (s, h) ∧
    h ≠ [] ∧ s.pc false = .wait false ∧ Awake s.queue.cv false := by
  obtain ⟨⟨s, h⟩, hr, hp⟩ := exists_of_run (logged (system Bool Nat) stops)
    (fun p a => NotifiesNoLatecomer p.1 a)
    (fun p a => match a with
      | .step t _ _ => !(p.1.pc t matches .notifyAll) ||
          (!(p.1.pc false matches .block _) && !(p.1.pc true matches .block _))
      | _ => true)
    (initial, []) (solo false (.pop false) 3 ++ solo true .stop 2)
    (fun p => !p.2.isEmpty && p.1.pc false == .wait false)
    (by
      rintro p a ha t cond ch rfl ht u c hu
      cases u <;> simp [ht, hu] at ha)
    ⟨rfl, rfl⟩ (by decide)
  simp only [Bool.and_eq_true, Bool.not_eq_true', List.isEmpty_eq_false_iff, beq_iff_eq] at hp
  exact ⟨s, h, hr, hp.1, hp.2, stop_wakes.1 s h hr hp.1 false false hp.2⟩

/-- The consumer finds the queue empty and the flag unset; Stop() sets the flag
and notifies; then the consumer blocks, and nothing is left to wake it. -/
theorem stop_misses_latecomer : ¬ ∀ (s : State Bool Nat) (h : List Bool),
    Reachable (logged (system Bool Nat) stops) Any (s, h) → h ≠ [] →
      ∀ t c, s.pc t = .wait c → Awake s.queue.cv t := by
  intro hall
  obtain ⟨⟨s, h⟩, hr, hp⟩ := exists_of_run (logged (system Bool Nat) stops) Any (fun _ _ => true)
    (initial, [])
    (solo false (.pop false) 2 ++ solo true .stop 2 ++ [.step false false .run])
    (fun p => !p.2.isEmpty && p.1.pc false == .wait false && !decide (Awake p.1.queue.cv false))
    (fun _ _ _ => trivial) ⟨rfl, rfl⟩ (by decide)
  simp only [Bool.and_eq_true, Bool.not_eq_true', List.isEmpty_eq_false_iff, beq_iff_eq,
    decide_eq_false_iff_not] at hp
  exact hp.2 (hall s h hr hp.1.1 false false hp.1.2)

end Enigma.QueueStop
