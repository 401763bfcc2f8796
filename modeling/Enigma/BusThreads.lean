import Enigma.EventBus
import Enigma.QueueThreads

namespace Enigma.BusThreads

open Transition SyncQueue EventBus

variable {M P K A : Type}

/-- The threads that use the bus and the handlers, the thread of each handler, and for each handler
the one that starts, stops or destroys it, as these calls write _thread without a lock. -/
inductive Agent
  | client (c : Nat)
  | thread (h : Nat)
  | control (h : Nat)
  deriving DecidableEq, Repr

/-- The members of an EventHandler that are shared between threads: _events, the
owner of _mutex and _event_handles. -/
structure Cell (M P K A : Type) where
  events : Queue Agent (Event M P A) := {}
  mutex : Option Agent := none
  handles : Handles M K := []

/-- The members of the EventBus, the owner of its _mutex first, and the handlers. -/
structure Shared (M P K A : Type) where
  mutex : Option Agent := none
  handlers : HandlerSet := .empty
  cell : Nat → Cell M P K A := fun _ => {}

/-- What a Publish hands out: the typed one copies the message, the other one
moves from its argument. -/
structure Sending (M P A : Type) where
  event : Event M P A
  typed : Bool

inductive Call (M P K A : Type)
  | publish (m : M) (msg : P) (ack : Option A)
  | publishAny (type : String) (any : Any M P) (ack : Option A)
  | subscribe (h : Option Nat)
  | unsubscribe (h : Option Nat)
  | on (h : Nat) (m : M) (callback : Option K)
  | onType (h : Nat) (type : String) (callback : Option K)
  | cancel (h : Nat) (m : M)
  | clear (h : Nat)

inductive BusCall (M P A : Type)
  | publish (x : Sending M P A)
  | subscribe (h : Nat)
  | unsubscribe (h : Nat)

inductive TableCall (M K : Type)
  | on (m : M) (callback : K)
  | onType (type : String) (callback : K)
  | cancel (m : M)

/-- A Publish in its loop: the handlers that are still to come, and its result. -/
structure Visit (M P A : Type) where
  sending : Sending M P A
  rest : List Nat
  result : Bool

/-- Where a call on the bus or on a handler stands, named after the instruction
it executes next. -/
inductive OpPc (M P K A : Type)
  | lockBus (x : BusCall M P A)
  | visit (v : Visit M P A)
  | lockType (h : Nat) (v : Visit M P A)
  | readType (h : Nat) (v : Visit M P A)
  | unlockType (h : Nat) (found : Bool) (v : Visit M P A)
  | deliver (h : Nat) (p : Pc (Event M P A)) (v : Visit M P A)
  | insert (h : Nat)
  | erase (h : Nat)
  | unlockBus (result : Option Bool)
  | lockTable (h : Nat) (x : TableCall M K)
  | table (h : Nat) (x : TableCall M K)
  | unlockTable (h : Nat) (result : Option Bool)
  | clear (h : Nat) (p : Pc (Event M P A))
  | returned (result : Option Bool)

/-- What the standard library and the compiler determine: the name of a type, and
what a move leaves in a std::any. -/
structure Runtime (M P : Type) where
  name : M → String
  moved : Any M P → Any M P

def Call.entry (ρ : Runtime M P) : Call M P K A → OpPc M P K A
  | .publish m msg ack => .lockBus (.publish ⟨⟨ρ.name m, some ⟨m, msg⟩, ack⟩, true⟩)
  | .publishAny type any ack => .lockBus (.publish ⟨⟨type, any, ack⟩, false⟩)
  | .subscribe none => .returned (some false)
  | .subscribe (some h) => .lockBus (.subscribe h)
  | .unsubscribe none => .returned none
  | .unsubscribe (some h) => .lockBus (.unsubscribe h)
  | .on _ _ none | .onType _ _ none => .returned (some false)
  | .on h m (some k) => .lockTable h (.on m k)
  | .onType h type (some k) => if type.isEmpty then .returned (some false) else .lockTable h (.onType type k)
  | .cancel h m => .lockTable h (.cancel m)
  | .clear h => .clear h (Op.clear : Op (Event M P A)).entry

def BusCall.body (s : Shared M P K A) : BusCall M P A → OpPc M P K A
  | .publish x => .visit ⟨x, s.handlers.items, false⟩
  | .subscribe h => .insert h
  | .unsubscribe h => .erase h

def TableCall.apply (ρ : Runtime M P) (t : Handles M K) : TableCall M K → Handles M K × Option Bool
  | .on m k => ((EventBus.on ρ.name m (some k) t).1, some (EventBus.on ρ.name m (some k) t).2)
  | .onType type k => ((EventBus.onType type (some k) t).1, some (EventBus.onType type (some k) t).2)
  | .cancel m => (EventBus.cancel ρ.name m t, none)

def Sending.sent (ρ : Runtime M P) (x : Sending M P A) : Sending M P A :=
  if x.typed then x else { x with event := { x.event with ev := ρ.moved x.event.ev } }

def setCell (s : Shared M P K A) (h : Nat) (c : Cell M P K A) : Shared M P K A :=
  { s with cell := Function.update s.cell h c }

def inQueue (a : Agent) (s : Shared M P K A) (h : Nat) (p : Pc (Event M P A)) (ch : Choice Agent) :
    Option (Shared M P K A × Pc (Event M P A)) :=
  (step false a (s.cell h).events p ch).map fun r => (setCell s h { s.cell h with events := r.1 }, r.2)

def lockCell (a : Agent) (s : Shared M P K A) (h : Nat) : Option (Shared M P K A) :=
  if (s.cell h).mutex = none then some (setCell s h { s.cell h with mutex := some a }) else none

def unlockCell (s : Shared M P K A) (h : Nat) : Shared M P K A := setCell s h { s.cell h with mutex := none }

def opStep (ρ : Runtime M P) (a : Agent) (s : Shared M P K A) (ch : Choice Agent) :
    OpPc M P K A → Option (Shared M P K A × OpPc M P K A)
  | .lockBus x => if s.mutex = none then some ({ s with mutex := some a }, x.body s) else none
  | .visit ⟨_, [], r⟩ => some (s, .unlockBus (some r))
  | .visit ⟨x, h :: rest, r⟩ => some (s, .lockType h ⟨x, rest, r⟩)
  | .lockType h v => (lockCell a s h).map fun s' => (s', .readType h v)
  | .readType h v => some (s, .unlockType h (contains (s.cell h).handles v.sending.event.type) v)
  | .unlockType h true v =>
      some (unlockCell s h, .deliver h (Op.push v.sending.event).entry { v with sending := v.sending.sent ρ })
  | .unlockType h false v => some (unlockCell s h, .visit v)
  | .deliver _ (.returned _) v => some (s, .visit { v with result := true })
  | .deliver h p v => (inQueue a s h p ch).map fun r => (r.1, .deliver h r.2 v)
  | .insert h =>
      some ({ s with handlers := (s.handlers.insert h).1 }, .unlockBus (some (s.handlers.insert h).2))
  | .erase h => some ({ s with handlers := s.handlers.erase h }, .unlockBus none)
  | .unlockBus r => some ({ s with mutex := none }, .returned r)
  | .lockTable h x => (lockCell a s h).map fun s' => (s', .table h x)
  | .table h x =>
      some (setCell s h { s.cell h with handles := (x.apply ρ (s.cell h).handles).1 },
        .unlockTable h (x.apply ρ (s.cell h).handles).2)
  | .unlockTable h r => some (unlockCell s h, .returned r)
  | .clear _ (.returned _) => some (s, .returned none)
  | .clear h p => (inQueue a s h p ch).map fun r => (r.1, .clear h r.2)
  | .returned _ => none

/-- The user's code that runs on the thread of a handler: the callback of On<T>,
called with the value of the message, the ack after it, or the callback of
OnType. -/
inductive Code (P K : Type)
  | on (callback : K) (arg : P)
  | ack
  | onType (callback : K)

def Code.isCallback : Code P K → Bool
  | .on _ _ | .onType _ => true
  | .ack => false

/-- What a stored function comes to run: the wrapper of On<T> casts the payload first. -/
def Callback.code [DecidableEq M] (ev : Event M P A) : Callback M K → Option (Code P K)
  | .on m k => (anyCast m ev.ev).map (.on k)
  | .onType k => some (.onType k)

/-- The thread of a handler. While it runs the user's code that code may be
inside a call of its own. -/
inductive LoopPc (M P K A : Type)
  | check
  | pop (p : Pc (Event M P A))
  | lock (ev : Event M P A)
  | find (ev : Event M P A)
  | call (ev : Event M P A) (f : Callback M K)
  | user (ev : Event M P A) (x : Code P K) (inner : Option (OpPc M P K A))
  | unlock
  | exited

structure Loop (M P K A : Type) where
  pc : LoopPc M P K A := .check
  stopRequested : Bool := false

def loopStep [DecidableEq M] (ρ : Runtime M P) (h : Nat) (s : Shared M P K A) (stopRequested : Bool)
    (ch : Choice Agent) : LoopPc M P K A → Option (Shared M P K A × LoopPc M P K A)
  | .check => some (s, if stopRequested then .exited else .pop (Op.pop false : Op (Event M P A)).entry)
  | .pop (.returned (.value (some ev))) => some (s, .lock ev)
  | .pop (.returned _) => some (s, .check)
  | .pop p => (inQueue (.thread h) s h p ch).map fun r => (r.1, .pop r.2)
  | .lock ev => (lockCell (.thread h) s h).map fun s' => (s', .find ev)
  | .find ev => match find (s.cell h).handles ev.type with
    | none => some (s, .unlock)
    | some f => some (s, .call ev f)
  | .call ev (.on m k) => match anyCast m ev.ev with
    | none => some (s, .unlock)
    | some x => some (s, .user ev (.on k x) none)
  | .call ev (.onType k) => some (s, .user ev (.onType k) none)
  | .user ev x (some (.returned _)) => some (s, .user ev x none)
  | .user ev x (some pc) => (opStep ρ (.thread h) s ch pc).map fun r => (r.1, .user ev x (some r.2))
  | .user _ _ none => none
  | .unlock => some (unlockCell s h, .check)
  | .exited => none

inductive ControlPc (M P A : Type)
  | startCheck
  | startSpawn
  | startSet
  | stopCheck
  | stopRequest
  | stopQueue (p : Pc (Event M P A))
  | stopJoin
  | stopClear (p : Pc (Event M P A))
  | stopSet
  | destroyRequest
  | destroyJoin

inductive Control
  | start
  | stop
  | destroy
  deriving DecidableEq, Repr

def Control.entry : Control → ControlPc M P A
  | .start => .startCheck
  | .stop => .stopCheck
  | .destroy => .destroyRequest

/-- Everything there is: `thread h` is the joinable thread of handler `h`. An
exception that leaves a thread ends the program. -/
structure State (M P K A : Type) where
  shared : Shared M P K A := {}
  client : Nat → Option (OpPc M P K A) := fun _ => none
  thread : Nat → Option (Loop M P K A) := fun _ => none
  control : Nat → Option (ControlPc M P A) := fun _ => none
  start : Nat → Bool := fun _ => false
  destroyed : Nat → Bool := fun _ => false
  terminated : Bool := false

def setControl (s : State M P K A) (h : Nat) (pc : Option (ControlPc M P A)) : State M P K A :=
  { s with control := Function.update s.control h pc }

def setThread (s : State M P K A) (h : Nat) (l : Option (Loop M P K A)) : State M P K A :=
  { s with thread := Function.update s.thread h l }

def requestStop (s : State M P K A) (h : Nat) : State M P K A :=
  setThread s h ((s.thread h).map fun l => { l with stopRequested := true })

/-- The join of a thread that is not joinable is skipped. -/
def joined (s : State M P K A) (h : Nat) : Bool := match s.thread h with
  | none | some ⟨.exited, _⟩ => true
  | some _ => false

def controlStep (h : Nat) (s : State M P K A) (ch : Choice Agent) : ControlPc M P A → Option (State M P K A)
  | .startCheck => some (setControl s h (if s.start h then none else some .startSpawn))
  | .startSpawn =>
      if (s.thread h).isNone then some (setControl (setThread s h (some {})) h (some .startSet)) else none
  | .startSet => some (setControl { s with start := Function.update s.start h true } h none)
  | .stopCheck => some (setControl s h (if s.start h then some .stopRequest else none))
  | .stopRequest =>
      some (setControl (requestStop s h) h (some (.stopQueue (Op.stop : Op (Event M P A)).entry)))
  | .stopQueue (.returned _) => some (setControl s h (some .stopJoin))
  | .stopQueue p => (inQueue (.control h) s.shared h p ch).map fun r =>
      setControl { s with shared := r.1 } h (some (.stopQueue r.2))
  | .stopJoin =>
      if joined s h then
        some (setControl (setThread s h none) h (some (.stopClear (Op.clear : Op (Event M P A)).entry)))
      else none
  | .stopClear (.returned _) => some (setControl s h (some .stopSet))
  | .stopClear p => (inQueue (.control h) s.shared h p ch).map fun r =>
      setControl { s with shared := r.1 } h (some (.stopClear r.2))
  | .stopSet => some (setControl { s with start := Function.update s.start h false } h none)
  | .destroyRequest => some (setControl (requestStop s h) h (some .destroyJoin))
  | .destroyJoin => if joined s h then some (setControl (setThread s h none) h none) else none

/-- Whether a call uses handler `h`, so that its caller owns a pointer to it. -/
def uses (h : Nat) : OpPc M P K A → Bool
  | .lockBus (.subscribe h') | .lockBus (.unsubscribe h') | .insert h' | .erase h' | .lockTable h' _ | .table h' _
  | .unlockTable h' _ | .clear h' _ => h' == h
  | .visit v => v.rest.contains h
  | .lockType h' v | .readType h' v | .unlockType h' _ v | .deliver h' _ v => h' == h || v.rest.contains h
  | _ => false

def innerCall : LoopPc M P K A → Option (OpPc M P K A)
  | .user _ _ pc => pc
  | _ => none

def inCall (s : State M P K A) : Agent → Option (OpPc M P K A)
  | .client c => s.client c
  | .thread h => (s.thread h).bind fun l => innerCall l.pc
  | .control _ => none

def unowned (n m : Nat) (s : State M P K A) (h : Nat) : Bool :=
  !s.shared.handlers.items.contains h && (s.control h).isNone &&
    (List.range n).all (fun c => !(inCall s (.client c)).any (uses h)) &&
    (List.range m).all fun h' => !(inCall s (.thread h')).any (uses h)

def Code.finish (ev : Event M P A) (throws : Bool) : Code P K → Option (LoopPc M P K A)
  | .on _ _ => some (if !throws && ev.ack.isSome then .user ev .ack none else .unlock)
  | .ack => some .unlock
  | .onType _ => if throws then none else some .unlock

/-- A thread makes a call, the user's code on the thread of a handler makes one,
or returns or throws, or a thread executes its next instruction. -/
inductive Action (M P K A : Type)
  | call (c : Nat) (x : Call M P K A)
  | control (h : Nat) (x : Control)
  | inner (h : Nat) (x : Call M P K A)
  | finish (h : Nat) (throws : Bool)
  | step (a : Agent) (ch : Choice Agent)

def Call.handler : Call M P K A → Option Nat
  | .publish _ _ _ | .publishAny _ _ _ => none
  | .subscribe h | .unsubscribe h => h
  | .on h _ _ | .onType h _ _ | .cancel h _ | .clear h => some h

def Call.valid (m : Nat) (s : State M P K A) (x : Call M P K A) : Bool :=
  x.handler.all fun h => decide (h < m) && !s.destroyed h

section System

variable [DecidableEq M] (ρ : Runtime M P) (n m : Nat)

def act (s : State M P K A) : Action M P K A → Option (State M P K A)
  | .call c x =>
      if c < n ∧ s.client c = none ∧ x.valid m s = true then
        some { s with client := Function.update s.client c (some (x.entry ρ)) }
      else none
  | .control h x =>
      if h < m ∧ s.destroyed h = false ∧ s.control h = none ∧ (x = .destroy → unowned n m s h = true) then
        some (setControl { s with destroyed := Function.update s.destroyed h (x == .destroy) } h (some x.entry))
      else none
  | .inner h x => match s.thread h with
    | some ⟨.user ev y none, b⟩ =>
        if x.valid m s then some (setThread s h (some ⟨.user ev y (some (x.entry ρ)), b⟩)) else none
    | _ => none
  | .finish h throws => match s.thread h with
    | some ⟨.user ev y none, b⟩ => match y.finish ev throws with
      | some pc => some (setThread s h (some ⟨pc, b⟩))
      | none => some { s with terminated := true }
    | _ => none
  | .step (.client c) ch => match s.client c with
    | some (.returned _) => some { s with client := Function.update s.client c none }
    | some pc => (opStep ρ (.client c) s.shared ch pc).map fun r =>
        { s with shared := r.1, client := Function.update s.client c (some r.2) }
    | none => none
  | .step (.thread h) ch => match s.thread h with
    | some l => (loopStep ρ h s.shared l.stopRequested ch l.pc).map fun r =>
        setThread { s with shared := r.1 } h (some ⟨r.2, l.stopRequested⟩)
    | none => none
  | .step (.control h) ch => (s.control h).bind (controlStep h s ch)

def next (s : State M P K A) (a : Action M P K A) : Option (State M P K A) :=
  if s.terminated then none else act ρ n m s a

def system : System (State M P K A) (Action M P K A) := ⟨(· = {}), next ρ n m⟩

end System

end Enigma.BusThreads
