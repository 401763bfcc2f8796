import Enigma.Linearization
import Enigma.QueueThreads

namespace Enigma.QueueLinear

open Transition SyncQueue QueueStep QueueThreads Linearization

variable {ι T : Type}

/-- A queue that takes its calls one at a time: the values in it, and whether
it has been stopped. Pop has no answer while there is neither a value nor a stop. -/
inductive Acts : List T × Bool → Op T → Ret T → List T × Bool → Prop
  | push (values : List T) (stopped : Bool) (v : T) :
      Acts (values, stopped) (.push v) .unit (values ++ [v], stopped)
  | pop (c : Bool) (v : T) (rest : List T) : Acts (v :: rest, false) (.pop c) (.value (some v)) (rest, false)
  | stopped (c : Bool) (values : List T) : Acts (values, true) (.pop c) (.value none) (values, true)
  | clear (values : List T) (stopped : Bool) : Acts (values, stopped) .clear .unit ([], stopped)
  | size (values : List T) (stopped : Bool) :
      Acts (values, stopped) .size (.size values.length) (values, stopped)
  | stop (values : List T) (stopped : Bool) : Acts (values, stopped) .stop .unit (values, true)

/-- A push takes effect at the push, a Clear with the mutex, a Pop with the
look at the stop flag after its wait: what it takes away then is settled. -/
def phase (q : Queue ι T) : Pc T → Phase (Op T) (Ret T)
  | .idle | .returned _ | .fault => .outside
  | .lock op => .called op
  | .push v => .called (.push v)
  | .test c | .block c | .wait c | .check c => .called (.pop c)
  | .take _ => .answered (.value q.queue.head?)
  | .size => .called .size
  | .requestStop => .called .stop
  | .notifyOne | .notifyAll | .clear => .answered .unit
  | .unlock r => .answered r

def left (values : List T) : Pc T → List T
  | .take _ => values.tail
  | .clear => []
  | _ => values

def contents (s : State ι T) : List T × Bool :=
  (s.queue.mutex.elim s.queue.queue fun t => left s.queue.queue (s.pc t), s.queue.stopRequested)

def calls (s : State ι T) : Action ι T → List (Event ι (Op T) (Ret T))
  | .call t op => [.invoked t op]
  | .step t _ _ => match s.pc t with
    | .unlock r => [.returned t r]
    | .notifyAll => [.returned t .unit]
    | _ => []
  | .leave _ => []

/-- The condition handed to Pop(cond) does not answer true while there is
neither a value nor a stop. -/
def Sensible (s : State ι T) (a : Action ι T) : Prop :=
  ∀ t ch, a = .step t true ch → s.pc t = .test true → s.queue.queue ≠ [] ∨ s.queue.stopRequested = true

def Stocked (q : Queue ι T) : Pc T → Prop
  | .check _ => q.queue ≠ [] ∨ q.stopRequested = true
  | .take _ => q.queue ≠ []
  | .fault => False
  | _ => True

theorem stocked_congr {q q' : Queue ι T} {pc : Pc T} (hs : Stocked q pc)
    (hq : critical pc = true → q'.queue = q.queue)
    (hr : q.stopRequested = true → q'.stopRequested = true) : Stocked q' pc := by
  cases pc with
  | check c =>
      rw [Stocked, hq rfl]
      exact hs.imp_right hr
  | take c =>
      rw [Stocked, hq rfl]
      exact hs
  | fault => exact hs
  | idle | lock | push | notifyOne | test | block | wait | clear | size | unlock | requestStop
  | notifyAll | returned => trivial

variable [DecidableEq ι]

theorem step_stocked {cond : Bool} {t : ι} {q q' : Queue ι T} {pc pc' : Pc T}
    (h : Step cond t q pc q' pc') (hs : Stocked q pc)
    (hc : cond = true → pc = .test true → q.queue ≠ [] ∨ q.stopRequested = true) : Stocked q' pc' := by
  cases h with
  | lock op => cases op <;> trivial
  | testTrue c hp =>
      rcases hp with hp | hp | ⟨rfl, rfl⟩
      · exact .inl hp
      · exact .inr hp
      · exact hc rfl rfl
  | checked c hr => exact hs.resolve_right (by simp [hr])
  | fault c hq => exact hs hq
  | push | notifyNone | notifyOne | testFalse | block | spurious | resume | stopped | take | clearOne
  | cleared | size | unlock | requestStop | notifyAll => trivial

omit [DecidableEq ι] in
theorem stocked_entry (q : Queue ι T) (op : Op T) : Stocked q op.entry := by
  cases op <;> trivial

theorem reachable_stocked {s : State ι T} (hr : Reachable (system ι T) Sensible s) (t : ι) :
    Stocked s.queue (s.pc t) := by
  refine hr.invariant (P := fun s => ∀ t, Stocked s.queue (s.pc t)) ?_ ?_ t
  · rintro s rfl t
    trivial
  · intro s a s' hr hp hok hn u
    rcases next_cases hn with ⟨t, pc, -, rfl, hpc⟩ | ⟨t, cond, ch, q, pc, rfl, hstep, rfl⟩
    · by_cases he : u = t
      · subst he
        simp only [Function.update_self]
        rcases hpc with ⟨op, -, rfl⟩ | ⟨-, rfl⟩
        · exact stocked_entry _ op
        · trivial
      · simpa only [Function.update_of_ne he] using hp u
    · by_cases he : u = t
      · subst he
        simp only [Function.update_self]
        refine step_stocked hstep (hp u) fun hc => ?_
        subst hc
        exact hok u ch rfl
      · simp only [Function.update_of_ne he]
        exact stocked_congr (hp u) (step_queue_of_other (reachable_exclusive hr) hstep he)
          (step_stopRequested hstep)

omit [DecidableEq ι] in
theorem phase_congr {q q' : Queue ι T} {pc : Pc T} (hq : critical pc = true → q'.queue = q.queue) :
    phase q' pc = phase q pc := by
  cases pc with
  | take c => simp only [phase, hq rfl]
  | _ => rfl

theorem phase_update {s : State ι T} {t : ι} {q : Queue ι T} (pc : Pc T)
    (hq : ∀ u, u ≠ t → critical (s.pc u) = true → q.queue = s.queue.queue) :
    (fun u => phase q (Function.update s.pc t pc u)) =
      Function.update (fun u => phase s.queue (s.pc u)) t (phase q pc) := by
  funext u
  by_cases he : u = t
  · subst he
    simp
  · simp only [Function.update_of_ne he]
    exact phase_congr (hq u he)

omit [DecidableEq ι] in
theorem phase_entry (q : Queue ι T) (op : Op T) : phase q op.entry = .called op := by
  cases op <;> rfl

omit [DecidableEq ι] in
theorem phase_ready (q : Queue ι T) {pc : Pc T} (h : ready pc = true) : phase q pc = .outside := by
  cases pc with
  | idle | returned => rfl
  | _ => cases h

omit [DecidableEq ι] in
theorem contents_owner {s : State ι T} {t : ι} (hm : s.queue.mutex = some t) :
    contents s = (left s.queue.queue (s.pc t), s.queue.stopRequested) := by
  simp [contents, hm]

omit [DecidableEq ι] in
theorem contents_free {s : State ι T} (hm : s.queue.mutex = none) :
    contents s = (s.queue.queue, s.queue.stopRequested) := by
  simp [contents, hm]

omit [DecidableEq ι] in
theorem left_of_not_critical (values : List T) {pc : Pc T} (h : critical pc = false) :
    left values pc = values := by
  cases pc with
  | take | clear => cases h
  | _ => rfl

theorem contents_outside {s : State ι T} {t : ι} {q : Queue ι T} {pc : Pc T}
    (hp : critical (s.pc t) = false) (hc : critical pc = false) (hq : q.queue = s.queue.queue)
    (hm : q.mutex = s.queue.mutex) :
    contents ⟨q, Function.update s.pc t pc⟩ = ((contents s).1, q.stopRequested) := by
  simp only [contents, hq, hm, Prod.mk.injEq, and_true]
  cases s.queue.mutex with
  | none => rfl
  | some u =>
      by_cases he : u = t
      · subst he
        simp [left_of_not_critical, hp, hc]
      · simp [Function.update_of_ne he]

theorem moves_silent {s : State ι T} {t : ι} {q : Queue ι T} {pc : Pc T}
    (hc : contents ⟨q, Function.update s.pc t pc⟩ = contents s)
    (hp : phase q pc = phase s.queue (s.pc t)) :
    Moves Acts (contents s) (fun u => phase s.queue (s.pc u)) []
      (contents ⟨q, Function.update s.pc t pc⟩)
      (Function.update (fun u => phase s.queue (s.pc u)) t (phase q pc)) := by
  rw [hc, hp, Function.update_eq_self]
  exact .silent

theorem moves_effect {s : State ι T} {t : ι} {q : Queue ι T} {pc : Pc T} {op : Op T} {r : Ret T}
    (hop : phase s.queue (s.pc t) = .called op) (hr : phase q pc = .answered r)
    (ha : Acts (contents s) op r (contents ⟨q, Function.update s.pc t pc⟩)) :
    Moves Acts (contents s) (fun u => phase s.queue (s.pc u)) []
      (contents ⟨q, Function.update s.pc t pc⟩)
      (Function.update (fun u => phase s.queue (s.pc u)) t (phase q pc)) := by
  rw [hr]
  exact .effect t op r hop ha

theorem moves_respond {s : State ι T} {t : ι} {q : Queue ι T} {r : Ret T}
    (hc : contents ⟨q, Function.update s.pc t (.returned r)⟩ = contents s)
    (hr : phase s.queue (s.pc t) = .answered r) :
    Moves Acts (contents s) (fun u => phase s.queue (s.pc u)) [.returned t r]
      (contents ⟨q, Function.update s.pc t (.returned r)⟩)
      (Function.update (fun u => phase s.queue (s.pc u)) t (phase q (.returned r))) := by
  rw [hc]
  exact .respond t r hr

theorem contents_update {s : State ι T} {t : ι} {q : Queue ι T} {pc : Pc T} (hm : q.mutex = some t) :
    contents ⟨q, Function.update s.pc t pc⟩ = (left q.queue pc, q.stopRequested) := by
  simp [contents, hm]

theorem step_moves {s : State ι T} {t : ι} {cond : Bool} (ch : Choice ι) {q : Queue ι T} {pc : Pc T}
    (hx : Exclusive s) (hst : Stocked s.queue (s.pc t)) (hs : Step cond t s.queue (s.pc t) q pc) :
    Moves Acts (contents s) (fun u => phase s.queue (s.pc u)) (calls s (.step t cond ch))
      (contents ⟨q, Function.update s.pc t pc⟩)
      (Function.update (fun u => phase s.queue (s.pc u)) t (phase q pc)) := by
  have hown : critical (s.pc t) = true → s.queue.mutex = some t := hx t
  have hbefore (hc : critical (s.pc t) = true) :
      contents s = (left s.queue.queue (s.pc t), s.queue.stopRequested) := contents_owner (hown hc)
  have hafter : q.mutex = some t →
      contents ⟨q, Function.update s.pc t pc⟩ = (left q.queue pc, q.stopRequested) := contents_update
  have houtside := @contents_outside ι T _ s t q pc
  generalize hp : s.pc t = p at hs hst hown hbefore houtside
  simp only [calls, hp]
  cases hs with
  | lock op hm =>
      cases op with
      | clear =>
          apply moves_effect (by rw [hp]; rfl) rfl
          rw [contents_free hm, hafter rfl]
          exact .clear _ _
      | push | pop | size | stop =>
          exact moves_silent (by rw [contents_free hm, hafter rfl]; rfl) (by rw [hp]; rfl)
  | push v =>
      apply moves_effect (by rw [hp]; rfl) rfl
      rw [hbefore rfl, hafter (hown rfl)]
      exact .push _ _ v
  | checked c hr =>
      -- the wait is over and no stop was seen, so the front is this thread's
      obtain ⟨v, rest, hq⟩ := List.exists_cons_of_ne_nil (hst.resolve_right (by simp [hr]))
      apply moves_effect (by rw [hp]; rfl) rfl
      rw [hbefore rfl, hafter (hown rfl), hr]
      simp only [left, hq, List.head?_cons, List.tail_cons]
      exact .pop c v rest
  | stopped c hr =>
      apply moves_effect (by rw [hp]; rfl) rfl
      rw [hbefore rfl, hafter (hown rfl), hr]
      exact .stopped c _
  | size =>
      apply moves_effect (by rw [hp]; rfl) rfl
      rw [hbefore rfl, hafter (hown rfl)]
      exact .size _ _
  | requestStop =>
      apply moves_effect (by rw [hp]; rfl) rfl
      rw [houtside rfl rfl rfl rfl]
      exact .stop _ _
  | unlock r => exact moves_respond (by rw [hbefore rfl, contents_free rfl]; rfl) (by rw [hp]; rfl)
  | notifyAll => exact moves_respond (houtside rfl rfl rfl rfl) (by rw [hp]; rfl)
  | take c v rest hq =>
      apply moves_silent
      · rw [hbefore rfl, hafter (hown rfl)]
        simp [left, hq]
      · simp [hp, phase, hq]
  | fault c hq => exact (hst hq).elim
  | block c => exact moves_silent (by rw [hbefore rfl, contents_free rfl]; rfl) (by rw [hp]; rfl)
  | spurious c hw => exact moves_silent (houtside rfl rfl rfl rfl) (by rw [hp]; rfl)
  | resume c hw hm => exact moves_silent (by rw [contents_free hm, hafter rfl]; rfl) (by rw [hp]; rfl)
  | cleared hq =>
      apply moves_silent
      · rw [hbefore rfl, hafter (hown rfl)]
        simp [left, hq]
      · rw [hp]
        rfl
  | notifyNone | notifyOne | testTrue | testFalse | clearOne =>
      exact moves_silent (by rw [hbefore rfl, hafter (hown rfl)]; rfl) (by rw [hp]; rfl)

/-- Every history of calls on a SyncQueue is explained by some order of the
calls in which each takes effect at once, and what the mutex guards then is
what that order leaves. -/
theorem queue_linearizable {s : State ι T} {h : List (Event ι (Op T) (Ret T))}
    (hr : Reachable (logged (system ι T) calls) (fun p a => Sensible p.1 a) (s, h)) :
    ∃ order, Linearizes Acts ([], false) h order (contents s) := by
  refine moves_linearizes ([], false) contents (fun s u => phase s.queue (s.pc u)) ?_ ?_ hr
  · rintro s rfl
    exact ⟨rfl, fun t => rfl⟩
  · intro s h a s' hr hok hn
    have hx := reachable_exclusive hr.forget_any
    rcases next_cases hn with ⟨t, pc, hready, rfl, hpc⟩ | ⟨t, cond, ch, q, pc, rfl, hstep, rfl⟩
    · have hout : critical (s.pc t) = false := by
        cases hp : s.pc t <;> simp_all [ready, critical]
      have hphase := phase_ready s.queue hready
      have hupdate := phase_update (s := s) (t := t) (q := s.queue) pc fun _ _ _ => rfl
      simp only [hupdate]
      rcases hpc with ⟨op, rfl, rfl⟩ | ⟨rfl, rfl⟩
      · rw [contents_outside hout (entry_not_critical op) rfl rfl, phase_entry]
        exact .invoke t op hphase
      · exact moves_silent (contents_outside hout rfl rfl rfl) hphase.symm
    · have hupdate := phase_update pc fun u hu hc => step_queue_of_other hx hstep hu hc
      simp only [hupdate]
      exact step_moves ch hx (reachable_stocked hr.forget t) hstep

/-- A consumer blocks before the value is pushed that it returns with. -/
theorem queue_linearizable_blocked : ∃ (s : State Nat Nat) (h : List (Event Nat (Op Nat) (Ret Nat))) (order : _),
    Reachable (logged (system Nat Nat) calls) (fun p a => Sensible p.1 a) (s, h) ∧
    h = [.invoked 1 (.pop false), .invoked 0 (.push 7), .returned 0 .unit, .returned 1 (.value (some 7))] ∧
    Linearizes Acts ([], false) h order (contents s) := by
  obtain ⟨⟨s, h⟩, hr, hp⟩ := exists_of_run (logged (system Nat Nat) calls)
    (fun p a => Sensible p.1 a)
    (fun _ a => match a with
      | .step _ cond _ => !cond
      | _ => true)
    (initial, [])
    (solo 1 (.pop false) 3 ++ solo 0 (.push 7) 2 ++ [.step 0 false (.notify 1), .step 0 false .run] ++
      List.replicate 5 (.step 1 false .run))
    (fun p => p.2 == [.invoked 1 (.pop false), .invoked 0 (.push 7), .returned 0 .unit,
      .returned 1 (.value (some 7))])
    (by rintro p a ha t ch rfl; cases ha) ⟨rfl, rfl⟩ (by decide)
  obtain ⟨order, hl⟩ := queue_linearizable hr
  exact ⟨s, h, order, hr, by simpa using hp, hl⟩

end Enigma.QueueLinear
