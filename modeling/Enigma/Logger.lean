import Enigma.QueueStep

namespace Enigma.Logger

open Transition SyncQueue QueueStep

inductive LogLevel
  | trace
  | traceError
  | debug
  | info
  | warn
  | error
  | fatal
  deriving DecidableEq, Repr

structure Message where
  level : LogLevel
  time : Nat
  thread : Nat
  moduleName : Option String
  content : String
  deriving DecidableEq, Repr

/-- The interface of the sinks; the result of Log is not used by the logger. -/
structure Sink (σ : Type) where
  init : σ → σ × Bool
  uninit : σ → σ
  log : LogLevel → Message → σ → σ × Bool

/-- The threads that log, the thread of the logger, and the one that calls Init and Uninit, which
have no lock. For an Init over a running thread see `LoggerCalls.init`. -/
inductive Agent
  | client (c : Nat)
  | thread
  | control
  deriving DecidableEq, Repr

inductive LoopPc
  | check
  | pop (p : Pc Message)
  | log (i : Nat) (msg : Message)
  | exited
  deriving DecidableEq, Repr

structure Loop where
  pc : LoopPc := .check
  stopRequested : Bool := false
  deriving DecidableEq, Repr

inductive ControlPc (σ : Type)
  | initAssign (lvl : LogLevel) (sinks : List σ)
  | initSink (i : Nat) (allSuccess : Bool)
  | initSpawn
  | uninitQueue (p : Pc Message)
  | uninitRequest
  | uninitJoin
  | uninitSink (i : Nat)
  | returned (r : Option Bool)
  | threw
  deriving DecidableEq, Repr

structure State (σ : Type) where
  queue : Queue Agent Message := {}
  lvl : LogLevel := .trace
  sinks : List σ := []
  thread : Option Loop := none
  client : Nat → Pc Message := fun _ => .idle
  control : Option (ControlPc σ) := none

variable {σ : Type}

def setClient (s : State σ) (c : Nat) (p : Pc Message) : State σ :=
  { s with client := Function.update s.client c p }

def setThread (s : State σ) (pc : LoopPc) (b : Bool) : State σ := { s with thread := some ⟨pc, b⟩ }

def setControl (s : State σ) (pc : Option (ControlPc σ)) : State σ := { s with control := pc }

/-- The loop over the sinks is left at the end of _sinks. -/
def loopStep (K : Sink σ) (s : State σ) (b : Bool) (ch : Choice Agent) : LoopPc → Option (State σ)
  | .check => some (setThread s (if b then .exited else .pop (Op.pop false : Op Message).entry) b)
  | .pop (.returned (.value (some msg))) => some (setThread s (.log 0 msg) b)
  | .pop (.returned _) => some (setThread s .check b)
  | .pop p => (step false .thread s.queue p ch).map fun r => setThread { s with queue := r.1 } (.pop r.2) b
  | .log i msg => match s.sinks[i]? with
    | some k => some (setThread { s with sinks := s.sinks.set i (K.log s.lvl msg k).1 } (.log (i + 1) msg) b)
    | none => some (setThread s .check b)
  | .exited => none

/-- The join of a logger without a thread throws. -/
def controlStep (K : Sink σ) (s : State σ) (ch : Choice Agent) : ControlPc σ → Option (State σ)
  | .initAssign lvl sinks =>
      if sinks.isEmpty then some (setControl s (some (.returned (some false))))
      else some (setControl { s with lvl := lvl, sinks := sinks } (some (.initSink 0 true)))
  | .initSink i allSuccess => match s.sinks[i]? with
    | some k => some (setControl { s with sinks := s.sinks.set i (K.init k).1 }
        (some (.initSink (i + 1) (allSuccess && (K.init k).2))))
    | none => some (setControl s (some (if allSuccess then .initSpawn else .returned (some false))))
  | .initSpawn => some (setControl { s with thread := some {} } (some (.returned (some true))))
  | .uninitQueue (.returned _) => some (setControl s (some .uninitRequest))
  | .uninitQueue p => (step false .control s.queue p ch).map fun r =>
      setControl { s with queue := r.1 } (some (.uninitQueue r.2))
  | .uninitRequest =>
      some (setControl { s with thread := s.thread.map fun l => { l with stopRequested := true } } (some .uninitJoin))
  | .uninitJoin => match s.thread with
    | none => some (setControl s (some .threw))
    | some ⟨.exited, _⟩ => some (setControl { s with thread := none } (some (.uninitSink 0)))
    | some _ => none
  | .uninitSink i => match s.sinks[i]? with
    | some k => some (setControl { s with sinks := s.sinks.set i (K.uninit k) } (some (.uninitSink (i + 1))))
    | none => some (setControl s (some (.returned none)))
  | .returned _ | .threw => some (setControl s none)

inductive Action (σ : Type)
  | logIt (c : Nat) (msg : Message)
  | init (lvl : LogLevel) (sinks : List σ)
  | uninit
  | step (a : Agent) (ch : Choice Agent)
  deriving DecidableEq, Repr

def next (K : Sink σ) (s : State σ) : Action σ → Option (State σ)
  | .logIt c msg => if s.client c = .idle then some (setClient s c (Op.push msg).entry) else none
  | .init lvl sinks =>
      if s.control.isNone ∧ s.thread = none then some (setControl s (some (.initAssign lvl sinks))) else none
  | .uninit =>
      if s.control.isNone then some (setControl s (some (.uninitQueue (Op.stop : Op Message).entry))) else none
  | .step (.client c) ch => match s.client c with
    | .returned _ => some (setClient s c .idle)
    | p => (step false (.client c) s.queue p ch).map fun r => setClient { s with queue := r.1 } c r.2
  | .step .thread ch => s.thread.bind fun l => loopStep K s l.stopRequested ch l.pc
  | .step .control ch => s.control.bind (controlStep K s ch)

def system (K : Sink σ) : System (State σ) (Action σ) where
  init s := s = {}
  next := next K

inductive LoopStep (K : Sink σ) (s : State σ) (b : Bool) : LoopPc → State σ → Prop
  | exit (hb : b = true) : LoopStep K s b .check (setThread s .exited b)
  | enter (hb : b = false) : LoopStep K s b .check (setThread s (.pop (.lock (.pop false))) b)
  | got (msg : Message) : LoopStep K s b (.pop (.returned (.value (some msg)))) (setThread s (.log 0 msg) b)
  | nothing (r : Ret Message) (hr : ∀ msg, r ≠ .value (some msg)) :
      LoopStep K s b (.pop (.returned r)) (setThread s .check b)
  | pop (p p' : Pc Message) (q : Queue Agent Message) (hs : Step false .thread s.queue p q p') :
      LoopStep K s b (.pop p) (setThread { s with queue := q } (.pop p') b)
  | log (i : Nat) (msg : Message) (k : σ) (hk : s.sinks[i]? = some k) : LoopStep K s b (.log i msg)
      (setThread { s with sinks := s.sinks.set i (K.log s.lvl msg k).1 } (.log (i + 1) msg) b)
  | logged (i : Nat) (msg : Message) (hk : s.sinks[i]? = none) :
      LoopStep K s b (.log i msg) (setThread s .check b)

theorem loopStep_sound {K : Sink σ} {s s' : State σ} {b : Bool} {ch : Choice Agent} {pc : LoopPc}
    (he : loopStep K s b ch pc = some s') : LoopStep K s b pc s' := by
  unfold loopStep at he
  split at he
  case h_1 =>
      cases b with
      | true => cases he; exact .exit rfl
      | false => cases he; exact .enter rfl
  case h_2 msg => cases he; exact .got msg
  case h_3 r hr =>
      cases he
      refine .nothing r ?_
      rintro msg rfl
      exact hr msg rfl
  case h_4 p _ _ =>
      obtain ⟨r, hs, hr⟩ := Option.map_eq_some_iff.mp he
      subst hr
      exact .pop p r.2 r.1 (step_sound hs)
  case h_5 i msg =>
      split at he
      case h_1 k hk => cases he; exact .log i msg k hk
      case h_2 hk => cases he; exact .logged i msg hk
  case h_6 => cases he

inductive ControlStep (K : Sink σ) (s : State σ) : ControlPc σ → State σ → Option (ControlPc σ) → Prop
  | refused (lvl : LogLevel) : ControlStep K s (.initAssign lvl []) s (some (.returned (some false)))
  | assign (lvl : LogLevel) (sinks : List σ) (hne : sinks ≠ []) : ControlStep K s (.initAssign lvl sinks)
      { s with lvl := lvl, sinks := sinks } (some (.initSink 0 true))
  | initSink (i : Nat) (b : Bool) (k : σ) (hk : s.sinks[i]? = some k) : ControlStep K s (.initSink i b)
      { s with sinks := s.sinks.set i (K.init k).1 } (some (.initSink (i + 1) (b && (K.init k).2)))
  | initialised (i : Nat) (hk : s.sinks[i]? = none) : ControlStep K s (.initSink i true) s (some .initSpawn)
  | failed (i : Nat) (hk : s.sinks[i]? = none) :
      ControlStep K s (.initSink i false) s (some (.returned (some false)))
  | spawn : ControlStep K s .initSpawn { s with thread := some {} } (some (.returned (some true)))
  | queueStopped (r : Ret Message) : ControlStep K s (.uninitQueue (.returned r)) s (some .uninitRequest)
  | stopQueue (p p' : Pc Message) (q : Queue Agent Message) (hs : Step false .control s.queue p q p') :
      ControlStep K s (.uninitQueue p) { s with queue := q } (some (.uninitQueue p'))
  | request : ControlStep K s .uninitRequest
      { s with thread := s.thread.map fun l => { l with stopRequested := true } } (some .uninitJoin)
  | notJoinable (ht : s.thread = none) : ControlStep K s .uninitJoin s (some .threw)
  | joined (b : Bool) (ht : s.thread = some ⟨.exited, b⟩) :
      ControlStep K s .uninitJoin { s with thread := none } (some (.uninitSink 0))
  | uninitSink (i : Nat) (k : σ) (hk : s.sinks[i]? = some k) : ControlStep K s (.uninitSink i)
      { s with sinks := s.sinks.set i (K.uninit k) } (some (.uninitSink (i + 1)))
  | uninitialised (i : Nat) (hk : s.sinks[i]? = none) :
      ControlStep K s (.uninitSink i) s (some (.returned none))
  | left (r : Option Bool) : ControlStep K s (.returned r) s none
  | thrown : ControlStep K s .threw s none

theorem controlStep_sound {K : Sink σ} {s s' : State σ} {ch : Choice Agent} {pc : ControlPc σ}
    (he : controlStep K s ch pc = some s') : ∃ s₁ pc', ControlStep K s pc s₁ pc' ∧ s' = setControl s₁ pc' := by
  unfold controlStep at he
  split at he
  case h_1 lvl sinks =>
      split at he
      case isTrue hnil =>
          rw [List.isEmpty_iff] at hnil
          subst hnil
          exact ⟨_, _, .refused lvl, (Option.some.inj he).symm⟩
      case isFalse hne => exact ⟨_, _, .assign lvl sinks (by simpa using hne), (Option.some.inj he).symm⟩
  case h_2 i b =>
      split at he
      case h_1 k hk => exact ⟨_, _, .initSink i b k hk, (Option.some.inj he).symm⟩
      case h_2 hk =>
          cases b with
          | true => exact ⟨_, _, .initialised i hk, (Option.some.inj he).symm⟩
          | false => exact ⟨_, _, .failed i hk, (Option.some.inj he).symm⟩
  case h_3 => exact ⟨_, _, .spawn, (Option.some.inj he).symm⟩
  case h_4 r => exact ⟨_, _, .queueStopped r, (Option.some.inj he).symm⟩
  case h_5 p _ =>
      obtain ⟨r, hs, hr⟩ := Option.map_eq_some_iff.mp he
      exact ⟨_, _, .stopQueue p r.2 r.1 (step_sound hs), hr.symm⟩
  case h_6 => exact ⟨_, _, .request, (Option.some.inj he).symm⟩
  case h_7 =>
      split at he
      case h_1 ht => exact ⟨_, _, .notJoinable ht, (Option.some.inj he).symm⟩
      case h_2 b ht => exact ⟨_, _, .joined b ht, (Option.some.inj he).symm⟩
      case h_3 => cases he
  case h_8 i =>
      split at he
      case h_1 k hk => exact ⟨_, _, .uninitSink i k hk, (Option.some.inj he).symm⟩
      case h_2 hk => exact ⟨_, _, .uninitialised i hk, (Option.some.inj he).symm⟩
  case h_9 r => exact ⟨_, _, .left r, (Option.some.inj he).symm⟩
  case h_10 => exact ⟨_, _, .thrown, (Option.some.inj he).symm⟩

inductive Move (K : Sink σ) (s : State σ) : Action σ → State σ → Prop
  | logIt (c : Nat) (msg : Message) (hc : s.client c = .idle) :
      Move K s (.logIt c msg) (setClient s c (.lock (.push msg)))
  | init (lvl : LogLevel) (sinks : List σ) (hc : s.control = none) (ht : s.thread = none) :
      Move K s (.init lvl sinks) (setControl s (some (.initAssign lvl sinks)))
  | uninit (hc : s.control = none) : Move K s .uninit (setControl s (some (.uninitQueue .requestStop)))
  | leave (c : Nat) (ch : Choice Agent) (r : Ret Message) (hc : s.client c = .returned r) :
      Move K s (.step (.client c) ch) (setClient s c .idle)
  | client (c : Nat) (ch : Choice Agent) (p' : Pc Message) (q : Queue Agent Message)
      (hs : Step false (.client c) s.queue (s.client c) q p') :
      Move K s (.step (.client c) ch) (setClient { s with queue := q } c p')
  | thread (ch : Choice Agent) (pc : LoopPc) (b : Bool) (s' : State σ) (ht : s.thread = some ⟨pc, b⟩)
      (hs : LoopStep K s b pc s') : Move K s (.step .thread ch) s'
  | control (ch : Choice Agent) (pc : ControlPc σ) (pc' : Option (ControlPc σ)) (s' : State σ)
      (hc : s.control = some pc) (hs : ControlStep K s pc s' pc') :
      Move K s (.step .control ch) (setControl s' pc')

theorem next_sound {K : Sink σ} {s s' : State σ} {a : Action σ} (he : next K s a = some s') : Move K s a s' := by
  cases a with
  | logIt c msg =>
      simp only [next] at he
      split at he
      case isTrue hc => cases he; exact .logIt c msg hc
      case isFalse => cases he
  | init lvl sinks =>
      simp only [next] at he
      split at he
      case isTrue hc => cases he; exact .init lvl sinks (by simpa using hc.1) hc.2
      case isFalse => cases he
  | uninit =>
      simp only [next] at he
      split at he
      case isTrue hc => cases he; exact .uninit (by simpa using hc)
      case isFalse => cases he
  | step a ch =>
      cases a with
      | client c =>
          simp only [next] at he
          split at he
          case h_1 r hc => cases he; exact .leave c ch r hc
          case h_2 =>
              obtain ⟨r, hs, hr⟩ := Option.map_eq_some_iff.mp he
              subst hr
              exact .client c ch r.2 r.1 (step_sound hs)
      | thread =>
          obtain ⟨⟨pc, b⟩, ht, hs⟩ := Option.bind_eq_some_iff.mp he
          exact .thread ch pc b s' ht (loopStep_sound hs)
      | control =>
          obtain ⟨pc, hc, hs⟩ := Option.bind_eq_some_iff.mp he
          obtain ⟨s₁, pc', hstep, rfl⟩ := controlStep_sound hs
          exact .control ch pc pc' s₁ hc hstep

end Enigma.Logger
