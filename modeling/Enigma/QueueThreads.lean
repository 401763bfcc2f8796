import Enigma.QueueStep

namespace Enigma.QueueThreads

open Transition CondVar SyncQueue QueueStep

variable {ι T : Type} [DecidableEq ι]

structure State (ι T : Type) where
  queue : Queue ι T
  pc : ι → Pc T

inductive Action (ι T : Type)
  | call (t : ι) (op : Op T)
  | step (t : ι) (cond : Bool) (ch : Choice ι)
  | leave (t : ι)

/-- Outside of a call: none made yet, or the last one has returned. -/
def ready : Pc T → Bool
  | .idle | .returned _ => true
  | _ => false

def next (s : State ι T) : Action ι T → Option (State ι T)
  | .call t op => if ready (s.pc t) then some ⟨s.queue, Function.update s.pc t op.entry⟩ else none
  | .step t cond ch => (step cond t s.queue (s.pc t) ch).map fun r => ⟨r.1, Function.update s.pc t r.2⟩
  | .leave t => if ready (s.pc t) then some ⟨s.queue, Function.update s.pc t .idle⟩ else none

def initial : State ι T := ⟨{}, fun _ => .idle⟩

def system (ι T : Type) [DecidableEq ι] : System (State ι T) (Action ι T) := ⟨(· = initial), next⟩

/-- The ways the system can move: a thread enters or leaves a call, which
changes its own position only, or executes one instruction. -/
theorem next_cases {s s' : State ι T} {a : Action ι T} (h : next s a = some s') :
    (∃ t pc, ready (s.pc t) = true ∧ s' = ⟨s.queue, Function.update s.pc t pc⟩ ∧
      ((∃ op, a = .call t op ∧ pc = op.entry) ∨ (a = .leave t ∧ pc = .idle))) ∨
    (∃ t cond ch q pc, a = .step t cond ch ∧ Step cond t s.queue (s.pc t) q pc ∧
      s' = ⟨q, Function.update s.pc t pc⟩) := by
  cases a with
  | call t op =>
      simp only [next] at h
      split at h
      case isTrue hr => exact .inl ⟨t, _, hr, (Option.some.inj h).symm, .inl ⟨op, rfl, rfl⟩⟩
      case isFalse => cases h
  | leave t =>
      simp only [next] at h
      split at h
      case isTrue hr => exact .inl ⟨t, _, hr, (Option.some.inj h).symm, .inr ⟨rfl, rfl⟩⟩
      case isFalse => cases h
  | step t cond ch =>
      obtain ⟨r, hs, he⟩ := Option.map_eq_some_iff.mp h
      exact .inr ⟨t, cond, ch, r.1, r.2, rfl, step_sound hs, he.symm⟩

theorem next_step {s : State ι T} (t : ι) (cond : Bool) (ch : Choice ι) {p pc : Pc T} {q : Queue ι T}
    (hp : s.pc t = p) (h : step cond t s.queue p ch = some (q, pc)) :
    (system ι T).next s (.step t cond ch) = some ⟨q, Function.update s.pc t pc⟩ := by
  simp only [system, next, hp, h, Option.map_some]

theorem update_cases {pc : ι → Pc T} {t u : ι} {p p' : Pc T} (h : Function.update pc t p u = p') :
    (u = t ∧ p = p') ∨ (u ≠ t ∧ pc u = p') := by
  by_cases he : u = t
  · subst he
    exact .inl ⟨rfl, by simpa using h⟩
  · exact .inr ⟨he, by simpa [he] using h⟩

theorem entry_not_critical (op : Op T) : critical op.entry = false := by
  cases op <;> rfl

/-- Mutual exclusion: a thread inside a critical section owns the mutex. -/
def Exclusive (s : State ι T) : Prop := ∀ t, critical (s.pc t) = true → s.queue.mutex = some t

theorem next_exclusive {s s' : State ι T} {a : Action ι T} (hs : Exclusive s)
    (h : next s a = some s') : Exclusive s' := by
  rcases next_cases h with ⟨t, pc, -, rfl, hpc⟩ | ⟨t, cond, ch, q, pc, -, hstep, rfl⟩
  · intro u hu
    by_cases he : u = t
    · subst he
      simp only [Function.update_self] at hu
      rcases hpc with ⟨op, -, rfl⟩ | ⟨-, rfl⟩
      · rw [entry_not_critical] at hu; cases hu
      · cases hu
    · simp only [Function.update_of_ne he] at hu
      exact hs u hu
  · intro u hu
    by_cases he : u = t
    · subst he
      simp only [Function.update_self] at hu
      exact step_critical hstep (hs u) hu
    · simp only [Function.update_of_ne he] at hu
      exact step_mutex_other hstep (hs t) he (hs u hu)

theorem reachable_exclusive {ok : State ι T → Action ι T → Prop} {s : State ι T}
    (hr : Reachable (system ι T) ok s) : Exclusive s := by
  refine hr.invariant (P := Exclusive) ?_ (fun s a s' _ hs _ h => next_exclusive hs h)
  intro s hs t ht
  rw [hs] at ht
  cases ht

theorem step_queue_of_other {s : State ι T} (hs : Exclusive s) {t u : ι} {cond : Bool}
    {q : Queue ι T} {pc : Pc T} (h : Step cond t s.queue (s.pc t) q pc) (hne : u ≠ t)
    (hu : critical (s.pc u) = true) : q.queue = s.queue.queue := by
  apply step_queue_of_not_critical h
  by_contra hc
  have he := (hs u hu).symm.trans (hs t (by simpa using hc))
  exact hne (Option.some.inj he)

/-- What a thread of a larger program may do with a queue in one of its steps. -/
inductive Turn (t : ι) (q : Queue ι T) : Pc T → Queue ι T → Pc T → Prop
  | stay (p : Pc T) : Turn t q p q p
  | call {p : Pc T} (op : Op T) (h : ready p = true) : Turn t q p q op.entry
  | leave {p : Pc T} (h : ready p = true) : Turn t q p q .idle
  | step {p p' : Pc T} {q' : Queue ι T} (cond : Bool) (h : Step cond t q p q' p') : Turn t q p q' p'

theorem Turn.call_if (b : Prop) [Decidable b] (t : ι) (q : Queue ι T) (op : Op T) :
    Turn t q .idle q (if b then op.entry else .idle) := by
  split
  · exact .call op rfl
  · exact .stay _

theorem Turn.leave_if (b : Prop) [Decidable b] (t : ι) (q : Queue ι T) (r : Ret T) :
    Turn t q (if b then .returned r else .idle) q .idle := by
  split
  · exact .leave rfl
  · exact .stay _

theorem Turn.reachable {v : State ι T} {t : ι} {q : Queue ι T} {p : Pc T}
    (hr : Reachable (system ι T) Any v) (h : Turn t v.queue (v.pc t) q p) :
    Reachable (system ι T) Any ⟨q, Function.update v.pc t p⟩ := by
  generalize hp : v.pc t = p₀ at h
  cases h with
  | stay => rwa [← hp, Function.update_eq_self]
  | call op hready =>
      exact .step (a := .call t op) hr trivial (by simp only [system, next, hp, hready, if_true])
  | leave hready =>
      exact .step (a := .leave t) hr trivial (by simp only [system, next, hp, hready, if_true])
  | step cond hs =>
      obtain ⟨ch, hch⟩ := step_complete hs
      exact .step hr trivial (next_step t cond ch hp hch)

theorem Turn.stopRequested {t : ι} {q q' : Queue ι T} {p p' : Pc T} (h : Turn t q p q' p')
    (hs : q.stopRequested = true) : q'.stopRequested = true := by
  cases h with
  | stay | call | leave => exact hs
  | step cond h => exact step_stopRequested h hs

theorem Turn.queue_of_other {v : State ι T} {t u : ι} {q : Queue ι T} {p : Pc T} (hv : Exclusive v)
    (h : Turn t v.queue (v.pc t) q p) (hne : u ≠ t) (hu : critical (v.pc u) = true) :
    q.queue = v.queue.queue := by
  generalize hp : v.pc t = p₀ at h
  cases h with
  | stay | call | leave => rfl
  | step cond h => exact step_queue_of_other hv (hp ▸ h) hne hu

def solo (t : ι) (op : Op T) (n : Nat) : List (Action ι T) :=
  .call t op :: List.replicate n (.step t false .run)

end Enigma.QueueThreads
