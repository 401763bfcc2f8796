import Mathlib.Logic.Function.Basic
import Mathlib.Data.List.Basic

namespace Enigma.Promise

inductive Side
  | fail
  | success
  deriving DecidableEq, Repr

variable {V : Side → Type} {C E : Type}

/-- The template arguments of a shared state: which of its two value types is void. A callback may
move from the object it is handed; `leaves` is what it leaves behind. -/
structure Traits (V : Side → Type) (C : Type) where
  void : Side → Bool
  leaves : (d : Side) → C → V d → V d

/-- The members of a _SharedPromiseState: _is_finished, _is_successed, the slots
_f_func and _s_func, and the optionals _fail_value and _success_value. -/
structure SharedState (V : Side → Type) (C : Type) where
  isFinished : Bool := false
  isSuccessed : Bool := false
  func : Side → Option C := fun _ => none
  value : (d : Side) → Option (V d) := fun _ => none

structure Call (V : Side → Type) (C : Type) where
  side : Side
  func : C
  arg : Option (V side)

def settledAs (s : SharedState V C) : Side → Bool
  | .fail => s.isFinished && !s.isSuccessed
  | .success => s.isFinished && s.isSuccessed

/-- The optional stays engaged after its value has been handed out. -/
def invoke (τ : Traits V C) (d : Side) (c : C) (s : SharedState V C) : SharedState V C × List (Call V C) :=
  if τ.void d then (s, [⟨d, c, none⟩])
  else match s.value d with
    | some x => ({ s with value := Function.update s.value d (some (τ.leaves d c x)) }, [⟨d, c, some x⟩])
    | none => (s, [])

def setFunc (τ : Traits V C) (d : Side) (v : Option C) (s : SharedState V C) :
    SharedState V C × List (Call V C) :=
  match v with
  | none => (s, [])
  | some c =>
      if settledAs s d then invoke τ d c s
      else ({ s with func := Function.update s.func d (some c) }, [])

def setFailFunc (τ : Traits V C) (v : Option C) (s : SharedState V C) : SharedState V C × List (Call V C) :=
  setFunc τ .fail v s

def setSuccessFunc (τ : Traits V C) (v : Option C) (s : SharedState V C) :
    SharedState V C × List (Call V C) :=
  setFunc τ .success v s

def runFunc (τ : Traits V C) (d : Side) (s : SharedState V C) : SharedState V C × List (Call V C) :=
  match s.func d with
  | some c => invoke τ d c s
  | none => (s, [])

/-- What a settling call leaves behind: the state, the callbacks it invoked, and
the exception that left it. -/
structure Settled (V : Side → Type) (C E : Type) where
  state : SharedState V C
  calls : List (Call V C)
  thrown : Option E

/-- The argument is what the construction of the value from it comes to. The
flags are written before the construction. -/
def settle (τ : Traits V C) (d : Side) (arg : Except E (V d)) (s : SharedState V C) : Settled V C E :=
  if s.isFinished then ⟨s, [], none⟩
  else
    let s := { s with isFinished := true, isSuccessed := decide (d = .success) }
    if τ.void d then ⟨(runFunc τ d s).1, (runFunc τ d s).2, none⟩
    else match arg with
      | .error e => ⟨s, [], some e⟩
      | .ok x =>
          let s := { s with value := Function.update s.value d (some x) }
          ⟨(runFunc τ d s).1, (runFunc τ d s).2, none⟩

def setFailed (τ : Traits V C) (arg : Except E (V .fail)) (s : SharedState V C) : Settled V C E :=
  settle τ .fail arg s

def setSuccessed (τ : Traits V C) (arg : Except E (V .success)) (s : SharedState V C) : Settled V C E :=
  settle τ .success arg s

def isSuccessed (s : SharedState V C) : Bool := s.isFinished && s.isSuccessed

inductive Request (V : Side → Type) (C E : Type)
  | register (d : Side) (c : C)
  | settle (d : Side) (arg : Except E (V d))
  | isFinished
  | isSuccessed

def apply (τ : Traits V C) (s : SharedState V C) : Request V C E → SharedState V C × List (Call V C)
  | .register .fail c => setFailFunc τ (some c) s
  | .register .success c => setSuccessFunc τ (some c) s
  | .settle .fail arg => ((setFailed τ arg s).state, (setFailed τ arg s).calls)
  | .settle .success arg => ((setSuccessed τ arg s).state, (setSuccessed τ arg s).calls)
  | .isFinished | .isSuccessed => (s, [])

def run (τ : Traits V C) : SharedState V C → List (Request V C E) → SharedState V C × List (Call V C)
  | s, [] => (s, [])
  | s, r :: rs => ((run τ (apply τ s r).1 rs).1, (apply τ s r).2 ++ (run τ (apply τ s r).1 rs).2)

/-- One promise with all its handles. A handle either points to the shared
state or has been moved from. -/
structure Handles (V : Side → Type) (C : Type) where
  shared : SharedState V C := {}
  promises : List Bool := [true]
  futures : List Bool := []

/-- The copy constructor of Future assigns one std::atomic to another and does not
compile, so `copyFuture` is an operation more than a program has. -/
inductive Op (V : Side → Type) (C E : Type)
  | getFuture (p : Nat)
  | copyFuture (f : Nat)
  | moveFuture (f : Nat)
  | assignFuture (f g : Nat)
  | moveAssignFuture (f g : Nat)
  | movePromise (p : Nat)
  | moveAssignPromise (p q : Nat)
  | thenDo (f : Nat) (func : Option C)
  | fail (f : Nat) (func : Option C)
  | isFinished (f : Nat)
  | isSuccessed (f : Nat)
  | setFailed (p : Nat) (arg : Except E (V .fail))
  | setSuccessed (p : Nat) (arg : Except E (V .success))

def attached (hs : List Bool) (i : Nat) : Bool := hs[i]?.getD false

/-- The operation on the shared state that an operation on a handle comes to,
if any: an empty function is not registered, and a handle that was moved from
does nothing. -/
def request (h : Handles V C) : Op V C E → Option (Request V C E)
  | .thenDo f func => if attached h.futures f then func.map (.register .success) else none
  | .fail f func => if attached h.futures f then func.map (.register .fail) else none
  | .isFinished f => if attached h.futures f then some .isFinished else none
  | .isSuccessed f => if attached h.futures f then some .isSuccessed else none
  | .setFailed p arg => if attached h.promises p then some (.settle .fail arg) else none
  | .setSuccessed p arg => if attached h.promises p then some (.settle .success arg) else none
  | _ => none

/-- GetFuture of a promise that was moved from throws, and no handle is made. -/
def handle (h : Handles V C) : Op V C E → Handles V C
  | .getFuture p => if attached h.promises p then { h with futures := h.futures ++ [true] } else h
  | .copyFuture f => { h with futures := h.futures ++ [attached h.futures f] }
  | .moveFuture f => { h with futures := h.futures.set f false ++ [attached h.futures f] }
  | .assignFuture f g => { h with futures := h.futures.set f (attached h.futures g) }
  | .moveAssignFuture f g =>
      if f = g then h else { h with futures := (h.futures.set f (attached h.futures g)).set g false }
  | .movePromise p => { h with promises := h.promises.set p false ++ [attached h.promises p] }
  | .moveAssignPromise p q => { h with promises := (h.promises.set p (attached h.promises q)).set q false }
  | _ => h

def futureIsFinished (h : Handles V C) (f : Nat) : Bool := attached h.futures f && h.shared.isFinished

def futureIsSuccessed (h : Handles V C) (f : Nat) : Bool := attached h.futures f && isSuccessed h.shared

def issue (τ : Traits V C) (h : Handles V C) (op : Op V C E) : Handles V C × List (Call V C) :=
  match request h op with
  | some r => ({ handle h op with shared := (apply τ h.shared r).1 }, (apply τ h.shared r).2)
  | none => (handle h op, [])

def issueAll (τ : Traits V C) : Handles V C → List (Op V C E) → Handles V C × List (Call V C)
  | h, [] => (h, [])
  | h, op :: ops =>
      ((issueAll τ (issue τ h op).1 ops).1, (issue τ h op).2 ++ (issueAll τ (issue τ h op).1 ops).2)

def requests (τ : Traits V C) : Handles V C → List (Op V C E) → List (Request V C E)
  | _, [] => []
  | h, op :: ops => (request h op).toList ++ requests τ (issue τ h op).1 ops

theorem handle_shared (h : Handles V C) (op : Op V C E) : (handle h op).shared = h.shared := by
  cases op with
  | getFuture p => simp only [handle]; split <;> rfl
  | moveAssignFuture f g => simp only [handle]; split <;> rfl
  | _ => rfl

theorem issue_shared (τ : Traits V C) (h : Handles V C) (op : Op V C E) :
    ((issue τ h op).1.shared, (issue τ h op).2) = run τ h.shared (request h op).toList := by
  unfold issue
  cases request h op with
  | none => simp [handle_shared, run]
  | some r => simp [run]

theorem run_append (τ : Traits V C) (s : SharedState V C) (rs rs' : List (Request V C E)) :
    run τ s (rs ++ rs') = ((run τ (run τ s rs).1 rs').1, (run τ s rs).2 ++ (run τ (run τ s rs).1 rs').2) := by
  induction rs generalizing s with
  | nil => simp [run]
  | cons r rs ih => simp [run, ih]

/-- Whatever handles it goes through, a program comes to the operations that
reach the shared state. -/
theorem issueAll_eq_run (τ : Traits V C) (h : Handles V C) (ops : List (Op V C E)) :
    ((issueAll τ h ops).1.shared, (issueAll τ h ops).2) = run τ h.shared (requests τ h ops) := by
  induction ops generalizing h with
  | nil => rfl
  | cons op ops ih =>
      have hi := issue_shared τ h op
      have hr := ih (issue τ h op).1
      rw [Prod.ext_iff] at hi hr
      simp only at hi hr
      simp only [issueAll, requests, run_append, ← hi.1, ← hi.2, ← hr.1, ← hr.2]

end Enigma.Promise
