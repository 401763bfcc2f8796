import Enigma.QueueThreads

namespace Enigma.QueueFifo

open Transition SyncQueue QueueStep QueueThreads

variable {ι T : Type} [DecidableEq ι]

inductive Event (ι T : Type)
  | called (t : ι) (op : Op T)
  | queue (t : ι) (e : Fifo.Event T)
  | sawStop (t : ι)
  deriving DecidableEq, Repr

def seesStop (q : Queue ι T) (t : ι) : Pc T → List (Event ι T)
  | .check _ => if q.stopRequested then [.sawStop t] else []
  | _ => []

def obs (s : State ι T) : Action ι T → List (Event ι T)
  | .call t op => [.called t op]
  | .step t _ _ => (emits s.queue (s.pc t)).map (.queue t) ++ seesStop s.queue t (s.pc t)
  | .leave _ => []

def values (h : List (Event ι T)) : List (Fifo.Event T) := h.filterMap fun
  | .queue _ e => some e
  | _ => none

def pushed (h : List (Event ι T)) : List T := Fifo.pushes (values h)

def removed (h : List (Event ι T)) : List T := Fifo.removals (values h)

def note (t : ι) (own : List (Event ι T)) : Event ι T → List (Event ι T)
  | .called u _ => if u = t then [] else own
  | .queue u e => if u = t then own ++ [.queue u e] else own
  | .sawStop u => if u = t then own ++ [.sawStop u] else own

/-- What a thread did to the queue, and saw of the stop flag, since it
entered the call it is in or has last returned from. -/
def current (t : ι) (h : List (Event ι T)) : List (Event ι T) := h.foldl (note t) []

def Recorded (t : ι) (own : List (Event ι T)) : Pc T → Prop
  | .lock (.pop _) | .test _ | .block _ | .wait _ | .check _ | .take _ => own = []
  | .unlock (.value (some v)) | .returned (.value (some v)) => own = [.queue t (.pop v)]
  | .unlock (.value none) | .returned (.value none) => own = [.sawStop t]
  | .idle | .fault => .sawStop t ∈ own → own = [.sawStop t]
  | _ => .sawStop t ∉ own

def NoConditional (_ : State ι T) (a : Action ι T) : Prop := ∀ t, a ≠ .call t (.pop true)

/-- A thread past the wait predicate of Pop() has a value to take or the stop
flag to see, since nobody else can empty the queue under its mutex. -/
def Served (q : Queue ι T) : Pc T → Prop
  | .lock (.pop c) | .test c | .block c | .wait c => c = false
  | .check c => c = false ∧ (q.queue ≠ [] ∨ q.stopRequested = true)
  | .take c => c = false ∧ q.queue ≠ []
  | .fault => False
  | _ => True

omit [DecidableEq ι] in
theorem values_append (h h' : List (Event ι T)) : values (h ++ h') = values h ++ values h' :=
  List.filterMap_append

omit [DecidableEq ι] in
theorem values_step (s : State ι T) (t : ι) (cond : Bool) (ch : Choice ι) :
    values (obs s (.step t cond ch)) = emits s.queue (s.pc t) := by
  have hs : values (seesStop s.queue t (s.pc t)) = [] := by
    cases s.pc t <;> simp only [seesStop] <;> first | rfl | (split <;> rfl)
  rw [obs, values_append, hs, List.append_nil]
  induction emits s.queue (s.pc t) with
  | nil => rfl
  | cons e es ih => exact congrArg (e :: ·) ih

theorem logged_replays {s : State ι T} {h : List (Event ι T)}
    {ok : State ι T × List (Event ι T) → Action ι T → Prop}
    (hr : Reachable (logged (system ι T) obs) ok (s, h)) : Fifo.Replays [] (values h) s.queue.queue := by
  refine hr.logged_invariant (P := fun s h => Fifo.Replays [] (values h) s.queue.queue) ?_ ?_
  · rintro s rfl
    exact .nil _
  · intro s h a s' _ hp _ hn
    rw [values_append]
    rcases next_cases hn with ⟨t, pc, -, rfl, ⟨op, rfl, rfl⟩ | ⟨rfl, rfl⟩⟩ | ⟨t, cond, ch, q, pc, rfl, hstep, rfl⟩
    · simpa [obs, values] using hp
    · simpa [obs, values] using hp
    · rw [values_step]
      exact hp.append (step_replays hstep)

theorem foldl_note_own (t : ι) (own : List (Event ι T)) (es : List (Fifo.Event T)) :
    (es.map (Event.queue t)).foldl (note t) own = own ++ es.map (.queue t) := by
  induction es generalizing own with
  | nil => simp
  | cons e es ih => simp [note, ih]

theorem foldl_note_other {t u : ι} (hne : t ≠ u) (own : List (Event ι T)) (es : List (Fifo.Event T)) :
    (es.map (Event.queue t)).foldl (note u) own = own := by
  induction es generalizing own with
  | nil => rfl
  | cons e es ih => simp [note, hne, ih]

theorem current_step_own (s : State ι T) (t : ι) (cond : Bool) (ch : Choice ι) (h : List (Event ι T)) :
    current t (h ++ obs s (.step t cond ch)) =
      current t h ++ (emits s.queue (s.pc t)).map (.queue t) ++ seesStop s.queue t (s.pc t) := by
  rw [current, List.foldl_append, obs, List.foldl_append, foldl_note_own]
  cases s.pc t <;> simp [seesStop, current]
  split <;> simp [note]

theorem current_step_other {t u : ι} (hne : t ≠ u) (s : State ι T) (cond : Bool) (ch : Choice ι)
    (h : List (Event ι T)) : current u (h ++ obs s (.step t cond ch)) = current u h := by
  rw [current, List.foldl_append, obs, List.foldl_append, foldl_note_other hne]
  cases s.pc t <;> simp [seesStop, current]
  split <;> simp [note, hne]

theorem step_recorded {cond : Bool} {t : ι} {q q' : Queue ι T} {pc pc' : Pc T}
    {own : List (Event ι T)} (h : Step cond t q pc q' pc') (ho : Recorded t own pc) :
    Recorded t (own ++ (emits q pc).map (.queue t) ++ seesStop q t pc) pc' := by
  cases h with
  | lock op => cases op <;> simpa [Recorded, emits, seesStop, Op.body] using ho
  | take c v rest hq => simpa [Recorded, emits, seesStop, hq] using ho
  | fault c hq => simp_all [Recorded, emits, seesStop]
  | clearOne v rest hq | cleared hq => simpa [Recorded, emits, seesStop, hq] using ho
  | stopped c hs => simpa [Recorded, emits, seesStop, hs] using ho
  | checked c hs => simpa [Recorded, emits, seesStop, hs] using ho
  | unlock r =>
      cases r with
      | unit | size => simpa [Recorded, emits, seesStop] using ho
      | value v => cases v <;> simpa [Recorded, emits, seesStop] using ho
  | push | notifyNone | notifyOne | testTrue | testFalse | block | spurious | resume | size
  | requestStop | notifyAll => simpa [Recorded, emits, seesStop] using ho

omit [DecidableEq ι] in
theorem recorded_entry (t : ι) (op : Op T) : Recorded t [] op.entry := by
  cases op <;> simp [Recorded, Op.entry]

omit [DecidableEq ι] in
theorem recorded_leave {t : ι} {own : List (Event ι T)} {pc : Pc T} (hr : ready pc = true)
    (ho : Recorded t own pc) : Recorded t own .idle := by
  intro hm
  cases pc with
  | idle => exact ho hm
  | returned r =>
      cases r with
      | unit | size => exact (ho hm).elim
      | value v =>
          cases v with
          | none => exact ho
          | some v =>
              have he : own = [.queue t (.pop v)] := ho
              simp [he] at hm
  | lock | push | notifyOne | test | block | wait | check | take | clear | size | unlock
  | requestStop | notifyAll | fault => cases hr

theorem logged_recorded {s : State ι T} {h : List (Event ι T)}
    {ok : State ι T × List (Event ι T) → Action ι T → Prop}
    (hr : Reachable (logged (system ι T) obs) ok (s, h)) (t : ι) : Recorded t (current t h) (s.pc t) := by
  refine hr.logged_invariant (P := fun s h => ∀ t, Recorded t (current t h) (s.pc t)) ?_ ?_ t
  · rintro s rfl t
    simp [Recorded, initial, current]
  · intro s h a s' _ hp _ hn u
    rcases next_cases hn with ⟨t, pc, hready, rfl, ⟨op, rfl, rfl⟩ | ⟨rfl, rfl⟩⟩ |
      ⟨t, cond, ch, q, pc, rfl, hstep, rfl⟩
    · by_cases he : t = u
      · subst he
        simpa [obs, current, note] using recorded_entry t op
      · simpa [obs, current, note, he, Function.update_of_ne (Ne.symm he)] using hp u
    · by_cases he : t = u
      · subst he
        simpa [obs] using recorded_leave hready (hp t)
      · simpa [obs, Function.update_of_ne (Ne.symm he)] using hp u
    · by_cases he : t = u
      · subst he
        simpa only [current_step_own, Function.update_self] using step_recorded hstep (hp t)
      · simpa only [current_step_other he, Function.update_of_ne (Ne.symm he)] using hp u

theorem step_served {cond : Bool} {t : ι} {q q' : Queue ι T} {pc pc' : Pc T}
    (h : Step cond t q pc q' pc') (hs : Served q pc) : Served q' pc' := by
  cases h with
  | lock op => cases op <;> exact hs
  | testTrue c hp =>
      have hc : c = false := hs
      refine ⟨hc, ?_⟩
      rcases hp with hp | hp | hp
      · exact .inl hp
      · exact .inr hp
      · rw [hc] at hp; cases hp.1
  | checked c hr =>
      refine ⟨hs.1, hs.2.resolve_right ?_⟩
      rw [hr]
      exact Bool.false_ne_true
  | fault c hq => exact hs.2 hq
  | testFalse | block | spurious | resume => exact hs
  | push | notifyNone | notifyOne | stopped | take | clearOne | cleared | size | unlock | requestStop
  | notifyAll => trivial

omit [DecidableEq ι] in
theorem served_congr {q q' : Queue ι T} {pc : Pc T} (hs : Served q pc)
    (hq : critical pc = true → q'.queue = q.queue)
    (hr : q.stopRequested = true → q'.stopRequested = true) : Served q' pc := by
  cases pc with
  | check c => exact ⟨hs.1, (hq rfl) ▸ hs.2.imp_right hr⟩
  | take c => exact ⟨hs.1, (hq rfl) ▸ hs.2⟩
  | lock op => cases op <;> exact hs
  | test | block | wait | fault => exact hs
  | idle | push | notifyOne | clear | size | unlock | requestStop | notifyAll | returned => trivial

theorem reachable_served {s : State ι T} (hr : Reachable (system ι T) NoConditional s) (t : ι) :
    Served s.queue (s.pc t) := by
  refine hr.invariant (P := fun s => ∀ t, Served s.queue (s.pc t)) ?_ ?_ t
  · rintro s rfl t
    trivial
  · intro s a s' hr hp hok hn u
    rcases next_cases hn with ⟨t, pc, -, rfl, hpc⟩ | ⟨t, cond, ch, q, pc, rfl, hstep, rfl⟩
    · by_cases he : u = t
      · subst he
        simp only [Function.update_self]
        rcases hpc with ⟨op, rfl, rfl⟩ | ⟨-, rfl⟩
        · cases op with
          | pop c =>
              cases c with
              | false => rfl
              | true => exact (hok u rfl).elim
          | push | clear | stop | size => trivial
        · trivial
      · simpa only [Function.update_of_ne he] using hp u
    · by_cases he : u = t
      · subst he
        simpa only [Function.update_self] using step_served hstep (hp u)
      · simp only [Function.update_of_ne he]
        exact served_congr (hp u) (step_queue_of_other (reachable_exclusive hr) hstep he)
          (step_stopRequested hstep)

omit [DecidableEq ι] in
theorem recorded_sawStop {t : ι} {own : List (Event ι T)} {pc : Pc T} (ho : Recorded t own pc)
    (hf : pc ≠ .fault) (hm : .sawStop t ∈ own) : own = [.sawStop t] ∧
      (pc = .unlock (.value none) ∨ pc = .returned (.value none) ∨ pc = .idle) := by
  cases pc with
  | idle => exact ⟨ho hm, .inr (.inr rfl)⟩
  | unlock r =>
      cases r with
      | unit | size => exact (ho hm).elim
      | value v =>
          cases v with
          | none => exact ⟨ho, .inl rfl⟩
          | some v => simp [show own = _ from ho] at hm
  | returned r =>
      cases r with
      | unit | size => exact (ho hm).elim
      | value v =>
          cases v with
          | none => exact ⟨ho, .inr (.inl rfl)⟩
          | some v => simp [show own = _ from ho] at hm
  | lock op =>
      cases op with
      | pop => simp [show own = _ from ho] at hm
      | push | clear | stop | size => exact (ho hm).elim
  | test | block | wait | check | take => simp [show own = _ from ho] at hm
  | push | notifyOne | clear | size | requestStop | notifyAll => exact (ho hm).elim
  | fault => exact (hf rfl).elim

/-- Wherever the stop flag is set: the values pushed are those removed followed by those present, a
Pop() that returns a value has taken the oldest, and none reads the front of an empty queue. -/
theorem pop_fifo {s : State ι T} {h : List (Event ι T)}
    (hr : Reachable (logged (system ι T) obs) (fun p a => NoConditional p.1 a) (s, h)) :
    pushed h = removed h ++ s.queue.queue ∧
    (∀ h₁ h₂ t v, h = h₁ ++ .queue t (.pop v) :: h₂ → ∃ rest, pushed h₁ = removed h₁ ++ v :: rest) ∧
    (∀ t v, s.pc t = .returned (.value (some v)) → current t h = [.queue t (.pop v)]) ∧
    (∀ t, s.pc t = .returned (.value none) → current t h = [.sawStop t]) ∧
    (∀ t, .sawStop t ∈ current t h → current t h = [.sawStop t] ∧
      (s.pc t = .unlock (.value none) ∨ s.pc t = .returned (.value none) ∨ s.pc t = .idle)) ∧
    (∀ t c, s.pc t = .take c → s.queue.queue ≠ []) ∧ ∀ t, s.pc t ≠ .fault := by
  have hreplay := logged_replays hr
  have hrec := logged_recorded hr
  have hserved := reachable_served hr.forget
  have hfault (t : ι) : s.pc t ≠ .fault := by
    intro ht
    have hs := hserved t
    rw [ht] at hs
    exact hs
  refine ⟨hreplay.conserves, ?_, ?_, ?_, ?_, ?_, hfault⟩
  · rintro h₁ h₂ t v rfl
    rw [values_append] at hreplay
    exact hreplay.pop_oldest
  · intro t v ht
    have ho := hrec t
    rw [ht] at ho
    exact ho
  · intro t ht
    have ho := hrec t
    rw [ht] at ho
    exact ho
  · intro t hm
    exact recorded_sawStop (hrec t) (hfault t) hm
  · intro t c ht
    have hs := hserved t
    rw [ht] at hs
    exact hs.2

theorem pop_fifo_stopped_consumer : ∃ (s : State Nat Nat) (h : List (Event Nat Nat)),
    Reachable (logged (system Nat Nat) obs) (fun p a => NoConditional p.1 a) (s, h) ∧
    removed h = [7] ∧ s.queue.queue = [8] ∧ s.pc 2 = .returned (.value none) ∧
    pushed h = removed h ++ s.queue.queue ∧ current 2 h = [.sawStop 2] := by
  obtain ⟨⟨s, h⟩, hr, hp⟩ := exists_of_run (logged (system Nat Nat) obs)
    (fun p a => NoConditional p.1 a)
    (fun _ a => match a with
      | .call _ (.pop c) => !c
      | _ => true)
    (initial, [])
    (solo 0 (.push 7) 4 ++ solo 0 (.push 8) 4 ++ solo 1 (.pop false) 5 ++ solo 0 .stop 2 ++
      solo 2 (.pop false) 4)
    (fun p => removed p.2 == [7] && p.1.queue.queue == [8] && p.1.pc 2 == .returned (.value none))
    (by rintro p a ha t rfl; cases ha) ⟨rfl, rfl⟩ (by decide)
  simp only [Bool.and_eq_true, beq_iff_eq] at hp
  have hf := pop_fifo hr
  exact ⟨s, h, hr, hp.1.1, hp.1.2, hp.2, hf.1, hf.2.2.2.1 2 hp.2⟩

end Enigma.QueueFifo
