import Enigma.HandlerThread
import Enigma.BusLocks

namespace Enigma.HandlerJoin

open Transition SyncQueue QueueStep EventBus BusThreads BusStep BusCalls BusView QueueConsumer HandlerThread
open QueueThreads (Turn)

variable {M P K A : Type} {ρ : Runtime M P} {n m h : Nat}

def joining (s : State M P K A) (h : Nat) : Prop := s.control h = some .stopJoin ∨ s.control h = some .destroyJoin

def blocked (s : State M P K A) (h : Nat) : Prop :=
  (∃ c b, s.thread h = some ⟨.pop (.wait c), b⟩) ∧ .thread h ∈ (s.shared.cell h).events.cv.waiting

def Notified (_ : State M P K A) (a : Action M P K A) : Prop := ∀ t, a ≠ .step t .spurious

/-- One waits for the other, and whatever anybody does, the other stays blocked. -/
def Stranded [DecidableEq M] (ρ : Runtime M P) (n m : Nat) (s : State M P K A) (h : Nat) : Prop :=
  joining s h ∧ ∀ s', Reachable (startingAt (system ρ n m) s) Notified s' → blocked s' h

/-- The queue's Stop notifies no handler thread that is about to block. -/
def StopWakes (s : State M P K A) (a : Action M P K A) : Prop := ∀ h ch, a = .step (.control h) ch →
  s.control h = some (.stopQueue .notifyAll) → ∀ c b, s.thread h ≠ some ⟨.pop (.block c), b⟩

def waitsForEvent : LoopPc M P K A → Bool
  | .pop (.lock _) | .pop (.test _) | .pop (.block _) | .pop (.wait _) => true
  | _ => false

def noneToCome (s : State M P K A) (h : Nat) : Prop :=
  (s.shared.cell h).events.queue = [] ∧ (s.shared.cell h).events.stopRequested = false

/-- No destructor asks a thread to stop that is in Pop for an event that never comes. -/
def DestroyWakes (s : State M P K A) (a : Action M P K A) : Prop := ∀ h ch, a = .step (.control h) ch →
  s.control h = some .destroyRequest → ∀ l, s.thread h = some l → waitsForEvent l.pc = true → ¬ noneToCome s h

def queueRequested : ControlPc M P A → Bool
  | .stopQueue .notifyAll | .stopQueue (.returned _) | .stopJoin => true
  | _ => false

def destroying : ControlPc M P A → Bool
  | .destroyRequest | .destroyJoin => true
  | _ => false

structure Stopping (s : State M P K A) (h : Nat) : Prop where
  requested : ∀ pc, s.control h = some pc → queueRequested pc = true → (s.shared.cell h).events.stopRequested = true
  hushed : (s.shared.cell h).events.stopRequested = true →
    Hushed (view s h) ∨ s.control h = some (.stopQueue .notifyAll)
  joining : s.control h = some .destroyJoin → ∀ l, s.thread h = some l →
    l.stopRequested = true ∧ (waitsForEvent l.pc = true → ¬ noneToCome s h)

theorem controlStep_requested {s s' : State M P K A} {pc : ControlPc M P A} {pc' : Option (ControlPc M P A)}
    (hs : ControlStep h s pc s' pc') (hw : ControlInPlace pc)
    (hr : queueRequested pc = true → (s.shared.cell h).events.stopRequested = true) :
    ∀ p, pc' = some p → queueRequested p = true → (s'.shared.cell h).events.stopRequested = true := by
  intro p he hp
  cases hs with
  | stopQueue p₁ p₂ q hs =>
      cases he
      have hq : ((setShared s (setEvents s.shared h q)).shared.cell h).events = q := setEvents_self s.shared h q
      rw [hq]
      have hw : Within .stop p₁ := hw
      cases hw with
      | lock hne => exact absurd rfl hne
      | requestStop =>
          cases hs
          rfl
      | notifyAll =>
          cases hs
          exact hr rfl
      | returnedStop => cases hs
  | queueStopped r => exact hr rfl
  | _ => cases he <;> cases hp

theorem view_of_joining {s : State M P K A} {t : Agent} (hu : Unused s h) (hc : s.control h = some .destroyJoin)
    (ht : t ≠ .thread h) : (view s h).pc t = .idle := by
  by_cases hk : t = .control h
  · subst hk
    exact view_control hc
  · exact view_of_unused hu ht hk

theorem not_blocked_of_joining {s : State M P K A} (hs : Stopping s h) (hord : Orderly s h)
    (hunused : s.control h = some .destroyJoin → Unused s h) (hj : joining s h) : ¬ blocked s h := by
  rintro ⟨⟨c, b, ht⟩, hw⟩
  have hstopped (hne : s.control h ≠ some (.stopQueue .notifyAll)) :
      (s.shared.cell h).events.stopRequested = false := by
    cases hq : (s.shared.cell h).events.stopRequested with
    | false => rfl
    | true =>
        rcases hs.hushed hq with hhushed | hc
        · have hnone : (s.shared.cell h).events.cv.waiting = [] := hhushed.unblocked
          rw [hnone] at hw
          cases hw
        · exact absurd hc hne
  rcases hj with hc | hc
  · have hq := hs.requested _ hc rfl
    rw [hstopped (by rw [hc]; simp)] at hq
    cases hq
  · have hnone := (hs.joining hc _ ht).2 rfl
    rcases hord.served.waiting hw with hq | ⟨t, -, hpt⟩
    · exact hnone ⟨hq, hstopped (by rw [hc]; simp)⟩
    · -- only the thread itself and the destructor are left, and neither is pushing
      have hu := hunused hc
      by_cases he : t = .thread h
      · rw [he, view_pop ht] at hpt
        cases hpt
      · rw [view_of_joining hu hc he] at hpt
        cases hpt

section System

variable [DecidableEq M]

theorem reachable_destroying {ok : State M P K A → Action M P K A → Prop} {s : State M P K A}
    (hr : Reachable (system ρ n m) ok s) {pc : ControlPc M P A} (hc : s.control h = some pc)
    (hd : destroying pc = true) : Unused s h := by
  refine reachable_unused hr h (hr.invariant
    (P := fun s => ∀ pc, s.control h = some pc → destroying pc = true → s.destroyed h = true) ?_ ?_ pc hc hd)
  · rintro s rfl pc hc
    cases hc
  · intro s a s' _ hs _ hn pc hpc hd
    rcases move_control (next_sound hn).2 h with
      ⟨hc, he, -⟩ | ⟨x, -, -, -, rfl⟩ | ⟨ch, pc₀, pc', s₁, rfl, hc, hstep, rfl⟩
    · rw [he]
      exact hs pc (by rw [← hc]; exact hpc) hd
    · have hpc : x.entry = pc := by simpa [setControl] using hpc
      subst hpc
      cases x with
      | destroy => simp [setControl, setDestroyed]
      | start | stop => cases hd
    · have hpc' : some pc = pc' := by simpa [setControl] using hpc.symm
      cases hstep with
      | destroyRequest => exact hs _ hc rfl
      | _ => cases hpc' <;> cases hd

theorem move_requested {s s' : State M P K A} {a : Action M P K A} (hs : Stopping s h) (hplaced : Placed s)
    (hn : Move ρ n m s a s') : ∀ pc, s'.control h = some pc → queueRequested pc = true →
      (s'.shared.cell h).events.stopRequested = true := by
  intro pc hpc hq
  rcases move_control hn h with ⟨hc, -, -⟩ | ⟨x, -, -, -, rfl⟩ | ⟨ch, pc₀, pc', s₁, rfl, hc, hstep, rfl⟩
  · obtain ⟨t, q, p, hturn, hview⟩ := move_view hn h
    have hstop := hturn.stopRequested (hs.requested pc (by rw [← hc]; exact hpc) hq)
    rw [show (s'.shared.cell h).events = q from congrArg QueueThreads.State.queue hview]
    exact hstop
  · have hpc : x.entry = pc := by simpa [setControl] using hpc
    subst hpc
    cases x <;> cases hq
  · have hpc' : pc' = some pc := by simpa [setControl] using hpc
    have hstop := controlStep_requested hstep (hplaced.control h pc₀ hc) (hs.requested pc₀ hc) pc hpc' hq
    exact hstop

theorem move_hushed {s s' : State M P K A} {a : Action M P K A} (hs : Stopping s h) (hplaced : Placed s)
    (hok : StopWakes s a) (hn : Move ρ n m s a s') (hq' : (s'.shared.cell h).events.stopRequested = true) :
    Hushed (view s' h) ∨ s'.control h = some (.stopQueue .notifyAll) := by
  have hplaced' := move_placed hplaced hn
  obtain ⟨t, q, p, hturn, hview⟩ := move_view hn h
  have hqueue : (s'.shared.cell h).events = q := congrArg QueueThreads.State.queue hview
  cases hq : (s.shared.cell h).events.stopRequested with
  | false =>
      -- the request itself, and the notification comes next
      have hp : p = .notifyAll := turn_requestStop hturn hq (by rw [← hqueue]; exact hq')
      refine .inr (notifying_control hplaced' (h := h) (a := t) ?_)
      rw [hview, hp]
      exact Function.update_self ..
  | true =>
      rcases hs.hushed hq with hhushed | hc
      · rw [hview]
        exact .inl (turn_hushed hhushed hturn)
      · rcases move_control hn h with ⟨hsame, -, -⟩ | ⟨x, -, hnone, -⟩ | ⟨ch, pc₀, pc', s₁, rfl, hc₀, hstep, rfl⟩
        · exact .inr (by rw [hsame, hc])
        · rw [hnone] at hc
          cases hc
        · rw [hc] at hc₀
          cases hc₀
          cases hstep with
          | stopQueue p p' q hstep =>
              cases hstep
              refine .inl ⟨hq', by simp [view, setControl, setShared, setEvents, setCell, CondVar.notifyAll], ?_⟩
              intro u c hu
              obtain ⟨-, b, hb⟩ := popping_loop hplaced' hu rfl
              exact hok h ch rfl hc c b hb

theorem loopStep_joining {s s' : Shared M P K A} {pc pc' : LoopPc M P K A} (hs : LoopStep ρ h s true pc s' pc')
    (hi : innerCall pc = none)
    (hpc : waitsForEvent pc = true → ¬ ((s.cell h).events.queue = [] ∧ (s.cell h).events.stopRequested = false))
    (hpc' : waitsForEvent pc' = true) :
    ¬ ((s'.cell h).events.queue = [] ∧ (s'.cell h).events.stopRequested = false) := by
  cases hs with
  | enter hb => cases hb
  | pop p p' q hs =>
      rw [(setEvents_cell s h q).1, if_pos rfl]
      cases hs with
      | testFalse c hq hs => exact absurd ⟨hq, hs⟩ (hpc rfl)
      | lock op | block c | spurious c | resume c => exact hpc rfl
      | _ => cases hpc'
  | innerReturned | inner => cases hi
  | _ => cases hpc'

theorem move_joining {s s' : State M P K A} {a : Action M P K A} (hs : Stopping s h)
    (hunused : s.control h = some .destroyJoin → Unused s h) (hok : DestroyWakes s a) (hn : Move ρ n m s a s')
    (hc' : s'.control h = some .destroyJoin) {l : Loop M P K A} (hl : s'.thread h = some l) :
    l.stopRequested = true ∧ (waitsForEvent l.pc = true → ¬ noneToCome s' h) := by
  rcases move_control hn h with ⟨hc, -, -⟩ | ⟨x, -, -, -, rfl⟩ | ⟨ch, pc, pc', s₁, rfl, hc, hstep, rfl⟩
  · rw [hc] at hc'
    have hu := hunused hc'
    rcases move_private hu hn with ⟨hcell, -, ht⟩ | ⟨ch, pc, pc', b, x, rfl, ht, hi, hstep, rfl⟩ |
      ⟨ch, pc, pc', s₁, rfl, hpc, hstep, rfl⟩
    · rcases ht with ht | ⟨ev, y, call, b, pc', ht, ht', hpop⟩
      · rw [ht] at hl
        rw [noneToCome, hcell]
        exact hs.joining hc' l hl
      · rw [ht'] at hl
        cases hl
        refine ⟨(hs.joining hc' _ ht).1, fun he => ?_⟩
        cases pc' with
        | pop p => exact absurd rfl (hpop p)
        | _ => cases he
    · obtain ⟨hb, hnone⟩ := hs.joining hc' _ ht
      have hb : b = true := hb
      subst hb
      have hl : l = ⟨pc', true⟩ := by simpa [setThread] using hl.symm
      subst hl
      exact ⟨rfl, fun he => loopStep_joining hstep hi hnone he⟩
    · rw [hpc] at hc'
      cases hc'
      cases hstep
      simp [setControl, hpc] at hc
  · have hx : x.entry = (.destroyJoin : ControlPc M P A) := by simpa [setControl] using hc'
    cases x <;> cases hx
  · have hpc' : pc' = some .destroyJoin := by simpa [setControl] using hc'
    subst hpc'
    cases hstep with
    | destroyRequest =>
        obtain ⟨l₀, hl₀, rfl⟩ := requestStop_thread hl
        exact ⟨rfl, fun he => hok h ch rfl hc l₀ hl₀ he⟩

theorem reachable_stopping {s : State M P K A}
    (hr : Reachable (system ρ n m) (fun s a => StopWakes s a ∧ DestroyWakes s a) s) (h : Nat) : Stopping s h := by
  refine hr.invariant (P := fun s => Stopping s h) ?_ ?_
  · rintro s rfl
    exact ⟨fun pc hpc => (by cases hpc), fun hq => (by cases hq), fun hc => by cases hc⟩
  · intro s a s' hr hs hok hn
    have hmove := (next_sound hn).2
    have hplaced := reachable_placed hr
    exact ⟨move_requested hs hplaced hmove, move_hushed hs hplaced hok.1 hmove,
      fun hc l hl => move_joining hs (fun hd => reachable_destroying hr hd rfl) hok.2 hmove hc hl⟩

theorem blocked_stays {s s' : State M P K A} {a : Action M P K A} (hord : Orderly s h) (hu : Unused s h)
    (hc : s.control h = some .destroyJoin) (hb : blocked s h) (hok : Notified s a)
    (hn : next ρ n m s a = some s') : s'.control h = some .destroyJoin ∧ blocked s' h := by
  obtain ⟨⟨c, b, ht⟩, hw⟩ := hb
  rcases move_private hu (next_sound hn).2 with ⟨hcell, hcontrol, hthread⟩ |
    ⟨ch, pc, pc', b', x, rfl, ht', hi, hstep, rfl⟩ | ⟨ch, pc, pc', s₁, rfl, hpc, hstep, rfl⟩
  · rcases hthread with hthread | ⟨ev, y, call, b', pc', ht', -⟩
    · exact ⟨by rw [hcontrol, hc], ⟨c, b, by rw [hthread, ht]⟩, by rw [hcell]; exact hw⟩
    · rw [ht] at ht'
      cases ht'
  · -- the thread itself cannot move
    rw [next_pop_blocked ht (hord.tracked.not_awake hw) (fun he => hok _ (by rw [he]))] at hn
    cases hn
  · rw [hc] at hpc
    cases hpc
    cases hstep with
    | destroyJoined hj => simp [joined, ht] at hj

theorem stranded_of_blocked {ok : State M P K A → Action M P K A → Prop} {s : State M P K A}
    (hr : Reachable (system ρ n m) ok s) (hc : s.control h = some .destroyJoin) (hb : blocked s h) :
    Stranded ρ n m s h := by
  refine ⟨.inr hc, fun s' hr' => ?_⟩
  have hstays : s'.control h = some .destroyJoin ∧ blocked s' h := by
    refine hr'.invariant (P := fun s' => s'.control h = some .destroyJoin ∧ blocked s' h) ?_ ?_
    · rintro s' rfl
      exact ⟨hc, hb⟩
    · intro s₁ a s₂ hr₁ hs hok hn
      have hreach := hr.any.trans hr₁.any
      exact blocked_stays (reachable_orderly hreach h) (reachable_destroying hreach hs.1 rfl) hs.1 hs.2 hok hn
  exact hstays.2

section Doomed

variable {s₀ s : State M P K A}

/-- Its destructor has asked a thread to stop that waits for an event. -/
structure Doomed (s : State M P K A) (h : Nat) : Prop where
  alive : s.terminated = false
  joining : s.control h = some .destroyJoin
  none : noneToCome s h

theorem doomed_step {p p' : Pc (Event M P A)} {b : Bool} {q : Queue Agent (Event M P A)}
    (hr : Reachable (startingAt (system ρ n m) s₀) StopWakes s) (hd : Doomed s h)
    (ht : s.thread h = some ⟨.pop p, b⟩) (hp : ∀ r, p ≠ .returned r)
    (hs : step false (.thread h) (s.shared.cell h).events p .run = some (q, p'))
    (hq : q.queue = (s.shared.cell h).events.queue ∧ q.stopRequested = (s.shared.cell h).events.stopRequested) :
    ∃ s', Reachable (startingAt (system ρ n m) s₀) StopWakes s' ∧ Doomed s' h ∧
      s'.thread h = some ⟨.pop p', b⟩ ∧ (s'.shared.cell h).events = q := by
  have hcell := setEvents_self s.shared h q
  refine ⟨_, hr.step (fun h' ch he => by cases he) (next_loop hd.alive ht (loopStep_pop hp hs)),
    ⟨hd.alive, hd.joining, ?_⟩, ?_, hcell⟩
  · obtain ⟨hempty, hstop⟩ := hd.none
    rw [noneToCome, show (setThread (setShared s (setEvents s.shared h q)) h (some ⟨.pop p', b⟩)).shared =
      setEvents s.shared h q from rfl, hcell, hq.1, hq.2]
    exact ⟨hempty, hstop⟩
  · simp [setThread]

theorem doomed_test {c b : Bool} (hr : Reachable (startingAt (system ρ n m) s₀) StopWakes s) (hd : Doomed s h)
    (ht : s.thread h = some ⟨.pop (.test c), b⟩ ∨ s.thread h = some ⟨.pop (.block c), b⟩) :
    ∃ s', Reachable (startingAt (system ρ n m) s₀) StopWakes s' ∧ s'.control h = some .destroyJoin ∧ blocked s' h := by
  have hblock : ∃ s', Reachable (startingAt (system ρ n m) s₀) StopWakes s' ∧ Doomed s' h ∧
      s'.thread h = some ⟨.pop (.block c), b⟩ := by
    rcases ht with ht | ht
    · obtain ⟨hempty, hstop⟩ := hd.none
      have htest : step false (.thread h) (s.shared.cell h).events (.test c) .run =
          some ((s.shared.cell h).events, .block c) := by
        simp [step, hempty, hstop]
      obtain ⟨s', hr', hd', ht', -⟩ := doomed_step hr hd ht (by simp) htest ⟨rfl, rfl⟩
      exact ⟨s', hr', hd', ht'⟩
    · exact ⟨s, hr, hd, ht⟩
  obtain ⟨s', hr', hd', ht'⟩ := hblock
  obtain ⟨s'', hr'', hd'', ht'', hq⟩ := doomed_step hr' hd' ht' (by simp) rfl ⟨rfl, rfl⟩
  exact ⟨s'', hr'', hd''.joining, ⟨c, b, ht''⟩, by rw [hq]; simp [CondVar.block]⟩

/-- A thread that is asked to stop while it waits for an event goes on to block. -/
theorem doomed_blocks {l : Loop M P K A} (hr : Reachable (startingAt (system ρ n m) s₀) StopWakes s)
    (hd : Doomed s h) (hord : Orderly s h) (hu : Unused s h) (ht : s.thread h = some l)
    (hw : waitsForEvent l.pc = true) :
    ∃ s', Reachable (startingAt (system ρ n m) s₀) StopWakes s' ∧ s'.control h = some .destroyJoin ∧ blocked s' h := by
  obtain ⟨pc, b⟩ := l
  have hfree (hne : critical ((view s h).pc (.thread h)) = false) : (s.shared.cell h).events.mutex = none := by
    cases hm : (s.shared.cell h).events.mutex with
    | none => rfl
    | some t =>
        have hc := hord.inSection.owner t hm
        by_cases he : t = .thread h
        · rw [he, hne] at hc
          cases hc
        · rw [view_of_joining hu hd.joining he] at hc
          cases hc
  cases pc with
  | pop p =>
      cases p with
      | lock op =>
          obtain rfl := locks_to_pop hord.placed ht
          have hm := hfree (by rw [view_pop ht]; rfl)
          have hs : step false (.thread h) (s.shared.cell h).events (.lock (.pop false)) .run =
              some ({ (s.shared.cell h).events with mutex := some (.thread h) }, .test false) := by
            simp [step, hm, Op.body]
          obtain ⟨s', hr', hd', ht', -⟩ := doomed_step hr hd ht (by simp) hs ⟨rfl, rfl⟩
          exact doomed_test hr' hd' (.inl ht')
      | test c => exact doomed_test hr hd (.inl ht)
      | block c => exact doomed_test hr hd (.inr ht)
      | wait c =>
          rcases hord.tracked.awake_or_waiting (view_pop ht) with ha | hwait
          · have hm := hfree (by rw [view_pop ht]; rfl)
            have hs : step false (.thread h) (s.shared.cell h).events (.wait c) .run =
                some ({ (s.shared.cell h).events with
                  mutex := some (.thread h), cv := CondVar.resume (s.shared.cell h).events.cv (.thread h) }, .test c) :=
              if_pos ⟨ha, hm⟩
            obtain ⟨s', hr', hd', ht', -⟩ := doomed_step hr hd ht (by simp) hs ⟨rfl, rfl⟩
            exact doomed_test hr' hd' (.inl ht')
          · exact ⟨s, hr, hd.joining, ⟨c, b, ht⟩, hwait⟩
      | _ => cases hw
  | _ => cases hw

end Doomed

/-- In a run in which no destructor asks a thread to stop that waits for an event, nobody waits in
join for a thread blocked for good. Every other run can break this. -/
theorem stopped_thread_wakes (ρ : Runtime M P) (n m : Nat) :
    (∀ (s : State M P K A) (h : Nat),
      Reachable (system ρ n m) (fun s a => StopWakes s a ∧ DestroyWakes s a) s → ¬ Stranded ρ n m s h) ∧
    ∀ (s s' : State M P K A) (a : Action M P K A), Reachable (system ρ n m) StopWakes s →
      next ρ n m s a = some s' → ¬ DestroyWakes s a →
      ∃ s'' h, Reachable (startingAt (system ρ n m) s') StopWakes s'' ∧ Stranded ρ n m s'' h := by
  constructor
  · intro s h hr hs
    refine not_blocked_of_joining (reachable_stopping hr h) (reachable_orderly hr h)
      (fun hc => reachable_destroying hr hc rfl) hs.1 (hs.2 s (.init rfl))
  · intro s s' a hr hn hbad
    simp only [DestroyWakes, not_forall, not_not] at hbad
    obtain ⟨h, ch, rfl, hc, l, ht, hw, hnone⟩ := hbad
    have hr' : Reachable (system ρ n m) Any s' := .step hr.any trivial hn
    obtain ⟨halive, hmove⟩ := next_sound hn
    cases hmove with
    | controlStep _ _ pc pc' s₁ hpc hstep =>
        rw [hc] at hpc
        cases hpc
        cases hstep with
        | destroyRequest =>
            have hjoin : (setControl (requestStop s h) h (some .destroyJoin)).control h = some .destroyJoin := by
              simp [setControl]
            have hthread : (setControl (requestStop s h) h (some .destroyJoin)).thread h = some ⟨l.pc, true⟩ := by
              simp [setControl, requestStop, setThread, ht]
            have hdoomed : Doomed (setControl (requestStop s h) h (some .destroyJoin)) h := ⟨halive, hjoin, hnone⟩
            obtain ⟨s'', hr'', hc'', hb⟩ := doomed_blocks (.init rfl) hdoomed (reachable_orderly hr' h)
              (reachable_destroying hr' hjoin rfl) hthread hw
            exact ⟨s'', h, hr'', stranded_of_blocked (hr'.trans hr''.any) hc'' hb⟩

end System

section Runs

open BusLocks (steps oneType)

/-- Stop, Start and the destructor go on only while the thread is elsewhere. -/
def atLeisure (s : State M P K A) : Action M P K A → Bool
  | .step (.control h) _ => !(s.thread h).any fun l => waitsForEvent l.pc
  | _ => true

theorem wakes_of_atLeisure (s : State M P K A) (a : Action M P K A) (hq : atLeisure s a = true) :
    StopWakes s a ∧ DestroyWakes s a := by
  constructor
  · rintro h ch rfl - c b ht
    simp [atLeisure, ht, waitsForEvent] at hq
  · rintro h ch rfl - l ht hw
    simp [atLeisure, ht, hw] at hq

def joinsLast : ControlPc M P A → Bool
  | .destroyJoin => true
  | _ => false

theorem eq_of_joinsLast {s : State M P K A} (hj : (s.control h).any joinsLast = true) :
    s.control h = some .destroyJoin := by
  obtain ⟨pc, hc, hp⟩ := (Option.any_eq_true _ _).mp hj
  cases pc with
  | destroyJoin => exact hc
  | _ => cases hp

/-- The thread has not entered Pop when its handler is destroyed. -/
theorem stopped_thread_wakes_early : ∃ s : State Unit Nat Nat Nat,
    s.control 0 = some .destroyJoin ∧ ¬ Stranded oneType 0 1 s 0 := by
  obtain ⟨s, hr, hp⟩ := exists_of_run (system oneType 0 1) (fun s a => StopWakes s a ∧ DestroyWakes s a) atLeisure {}
    (List.flatten [[.control 0 .start], steps (.control 0) 3, [.control 0 .destroy], steps (.control 0) 1])
    (fun s => (s.control 0).any joinsLast) wakes_of_atLeisure rfl rfl
  exact ⟨s, eq_of_joinsLast hp, (stopped_thread_wakes oneType 0 1).1 s 0 hr⟩

def noStop (s : State M P K A) : Action M P K A → Bool
  | .step (.control h) _ => !(s.control h).any queueRequested
  | _ => true

theorem stopWakes_of_noStop (s : State M P K A) (a : Action M P K A) (hq : noStop s a = true) : StopWakes s a := by
  rintro h ch rfl hc
  simp [noStop, hc, queueRequested] at hq

def waitsInPop : LoopPc M P K A → Bool
  | .pop (.wait _) => true
  | _ => false

/-- A handler is started and destroyed before anything is published. -/
theorem destroyed_while_blocked : ¬ ∀ (s : State Unit Nat Nat Nat) (h : Nat),
    Reachable (system oneType 0 1) StopWakes s → ¬ Stranded oneType 0 1 s h := by
  intro hall
  obtain ⟨s, hr, hp⟩ := exists_of_run (system (K := Nat) (A := Nat) oneType 0 1) StopWakes noStop {}
    (List.flatten [[.control 0 .start], steps (.control 0) 3, steps (.thread 0) 4, [.control 0 .destroy],
      steps (.control 0) 1])
    (fun s => (s.control 0).any joinsLast && (s.thread 0).any (fun l => waitsInPop l.pc) &&
      decide (.thread 0 ∈ (s.shared.cell 0).events.cv.waiting)) stopWakes_of_noStop rfl rfl
  simp only [Bool.and_eq_true, decide_eq_true_eq] at hp
  obtain ⟨⟨hc, ht⟩, hw⟩ := hp
  obtain ⟨⟨pc, b⟩, ht, hp⟩ := (Option.any_eq_true _ _).mp ht
  cases pc with
  | pop p =>
      cases p with
      | wait c => exact hall s 0 hr (stranded_of_blocked hr (eq_of_joinsLast hc) ⟨⟨c, b, ht⟩, hw⟩)
      | _ => cases hp
  | _ => cases hp

end Runs

end Enigma.HandlerJoin
