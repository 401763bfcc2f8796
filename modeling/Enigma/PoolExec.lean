import Enigma.PoolLog

namespace Enigma.PoolExec

open Transition ThreadPool PoolLog

variable {E V : Type}

inductive Outcome (E V : Type)
  | value (v : V)
  | thrown (e : E)
  | runtimeError (what : String)
  | brokenPromise
  deriving DecidableEq, Repr

def Outcome.of : Except E V → Outcome E V
  | .ok v => .value v
  | .error e => .thrown e

/-- A promise behind a shared_ptr. The flag `twice` is raised when a promise
that already holds a result is given another one. -/
structure Promise (E V : Type) where
  result : Option (Outcome E V) := none
  refs : Nat := 2
  twice : Bool := false
  deriving DecidableEq, Repr

/-- set_value and set_exception. -/
def Promise.satisfy (p : Promise E V) (o : Outcome E V) : Promise E V :=
  match p.result with
  | none => { p with result := some o }
  | some _ => { p with twice := true }

/-- One owner gives the promise up. The last one destroys it, and a promise
destroyed without a result breaks. -/
def Promise.release (p : Promise E V) : Promise E V :=
  { p with
    refs := p.refs - 1
    result := if p.refs = 1 ∧ p.result = none then some .brokenPromise else p.result }

inductive ExecPc
  | submit
  | fail
  | leave (accepted : Bool)
  | returned (accepted : Bool)
  | threw
  deriving DecidableEq, Repr

/-- The promise belongs to exec and to the closure of the task. -/
structure Exec (E V : Type) where
  pc : ExecPc := .submit
  promise : Promise E V := {}
  deriving DecidableEq, Repr

/-- One instruction of exec, `pc` being the position of its Submit. Where Submit refused, the
closure gives its share of the promise up with exec. -/
def Exec.step (e : Exec E V) (pc : CallPc) : Option (Exec E V) :=
  match e.pc, pc with
  | .submit, .done (.submitted true) => some { e with pc := .leave true }
  | .submit, .done (.submitted false) => some { e with pc := .fail }
  | .submit, .done .threw => some ⟨.threw, e.promise.release.release⟩
  | .fail, _ => some ⟨.leave false, e.promise.satisfy (.runtimeError "submit task failed")⟩
  | .leave true, _ => some ⟨.returned true, e.promise.release⟩
  | .leave false, _ => some ⟨.returned false, e.promise.release.release⟩
  | _, _ => none

/-- What an event of the pool does to the promise of task `x`: the closure fulfils it, and is
destroyed after the decrement that follows or with the queue it is in. -/
def Exec.observe (outcome : Nat → Except E V) (x : Nat) (e : Exec E V) : Event → Exec E V
  | .returned _ y => if y = x then { e with promise := e.promise.satisfy (.of (outcome x)) } else e
  | .finished _ y | .queue _ (.drop y) => if y = x then { e with promise := e.promise.release } else e
  | _ => e

/-- The pool and the calls of exec, which share their numbers with the Submit
calls they make. -/
structure State (E V : Type) where
  base : ThreadPool.State := {}
  execs : List (Option (Exec E V)) := []
  deriving DecidableEq, Repr

inductive Action
  | exec
  | call (r : Request)
  | pool (a : ThreadPool.Action)
  | wrap (c : Nat)
  deriving DecidableEq, Repr

def next (hw : Nat) (outcome : Nat → Except E V) (s : State E V) : Action → Option (State E V)
  | .exec => (ThreadPool.next hw s.base (.call .submit)).map fun b => ⟨b, s.execs ++ [some {}]⟩
  | .call r => (ThreadPool.next hw s.base (.call r)).map fun b => ⟨b, s.execs ++ [none]⟩
  | .pool (.call _) => none
  | .pool a => (ThreadPool.next hw s.base a).map fun b =>
      ⟨b, s.execs.mapIdx fun x e => e.map fun e => (obs s.base a).foldl (Exec.observe outcome x) e⟩
  | .wrap c =>
      if s.base.pool.fault then none else match s.execs[c]?, s.base.calls[c]? with
        | some (some e), some pc => (e.step pc).map fun e' => ⟨s.base, s.execs.set c (some e')⟩
        | _, _ => none

def system (hw : Nat) (outcome : Nat → Except E V) : System (State E V) Action :=
  ⟨(· = {}), next hw outcome⟩

def execObs (s : State E V) : Action → List Event
  | .pool a => obs s.base a
  | _ => []

def poolWalk (c n : Nat) : List Action := (walk c n).map .pool

def poolWork (w n : Nat) : List Action := (work w n).map .pool

theorem next_cases {hw : Nat} {outcome : Nat → Except E V} {s s' : State E V} {a : Action}
    (h : next hw outcome s a = some s') :
    (∃ (r : Request) (b : ThreadPool.State) (e : Option (Exec E V)),
      ((a = .exec ∧ r = .submit ∧ e = some {}) ∨ (a = .call r ∧ e = none)) ∧
      ThreadPool.next hw s.base (.call r) = some b ∧ s' = ⟨b, s.execs ++ [e]⟩) ∨
    (∃ a' b, a = .pool a' ∧ (∀ r, a' ≠ .call r) ∧ ThreadPool.next hw s.base a' = some b ∧
      s' = ⟨b, s.execs.mapIdx fun x e => e.map fun e => (obs s.base a').foldl (Exec.observe outcome x) e⟩) ∨
    (∃ c e e' pc, a = .wrap c ∧ s.execs[c]? = some (some e) ∧ s.base.calls[c]? = some pc ∧
      e.step pc = some e' ∧ s' = ⟨s.base, s.execs.set c (some e')⟩) := by
  cases a with
  | exec =>
      obtain ⟨b, hb, rfl⟩ := Option.map_eq_some_iff.mp h
      exact .inl ⟨.submit, b, _, .inl ⟨rfl, rfl, rfl⟩, hb, rfl⟩
  | call r =>
      obtain ⟨b, hb, rfl⟩ := Option.map_eq_some_iff.mp h
      exact .inl ⟨r, b, _, .inr ⟨rfl, rfl⟩, hb, rfl⟩
  | pool a' =>
      cases a' with
      | call r => cases h
      | step | worker =>
          obtain ⟨b, hb, rfl⟩ := Option.map_eq_some_iff.mp h
          exact .inr (.inl ⟨_, b, rfl, by simp, hb, rfl⟩)
  | wrap c =>
      simp only [next] at h
      split at h
      · cases h
      · split at h
        · rename_i e pc he hpc
          obtain ⟨e', hs, rfl⟩ := Option.map_eq_some_iff.mp h
          exact .inr (.inr ⟨c, e, e', pc, rfl, he, hpc, hs, rfl⟩)
        · cases h

end Enigma.PoolExec
