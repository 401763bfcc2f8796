import Enigma.QueueThreads

namespace Enigma.ThreadPool

open Transition SyncQueue QueueStep

/-- The threads that touch the queue of a worker: its own, and the calls
numbered by `c` that push to it or destroy it. -/
inductive Agent
  | worker
  | call (c : Nat)
  deriving DecidableEq, Repr

/-- The thread of a worker, between the instructions of its loop. A task is
known by the number of the Submit call that created it. -/
inductive WorkerPc
  | loop
  | idle
  | pop (p : Pc Nat)
  | ready (x : Nat)
  | running (x : Nat)
  | decrement (x : Nat)
  | exited
  deriving DecidableEq, Repr

structure Worker where
  tasks : Queue Agent Nat := {}
  busy : Bool := false
  pc : WorkerPc := .loop
  destroyed : Bool := false
  deriving DecidableEq, Repr

def newWorker : Worker := {}

/-- The members of a ThreadPool; `heap` keeps every Worker ever constructed. The flag `fault` is
raised by the front() of an empty queue and by the use of a destroyed Worker. -/
structure Pool where
  allowExpand : Bool := true
  start : Bool := false
  currTaskCount : Nat := 0
  maxTaskCount : Nat := 0
  workerMtx : Option Nat := none
  workers : List Nat := []
  stopRequested : Bool := false
  heap : List Worker := []
  fault : Bool := false
  deriving DecidableEq, Repr

structure Args where
  threadCount : Nat
  maxTaskCount : Nat
  allowExpand : Bool
  deriving DecidableEq, Repr

def Args.createCount (a : Args) : Nat := if a.threadCount = 0 then 1 else a.threadCount

def Args.limit (a : Args) : Nat := if a.maxTaskCount = 0 then 999 else a.maxTaskCount

inductive Result
  | started
  | alreadyStarted
  | shutDown
  | notStarted
  | submitted (accepted : Bool)
  | threw
  deriving DecidableEq, Repr

/-- Where a call of Startup, Shutdown or Submit stands. Shutdown walks through the destructors of
the elements of _workers; `fresh` marks a worker that Submit has not yet put into _workers. -/
inductive CallPc
  | startupCheck (a : Args)
  | startupMax (a : Args)
  | startupExpand (a : Args)
  | startupLock (a : Args)
  | startupCreate (a : Args) (i : Nat)
  | startupStart
  | startupUnlock
  | shutdownCheck
  | shutdownRequest
  | shutdownClear (i : Nat)
  | destroyClear (i w : Nat) (p : Pc Nat)
  | destroyStop (i w : Nat) (p : Pc Nat)
  | destroyJoin (i w : Nat)
  | shutdownEnd
  | submitCheck
  | submitLock
  | submitLimit
  | submitScan (i : Nat)
  | submitRoute
  | submitRandom
  | pushCount (w : Nat) (fresh : Bool)
  | pushTask (w : Nat) (fresh : Bool) (p : Pc Nat)
  | submitEmplace (w : Nat)
  | submitReturn (b : Bool)
  | submitThrow
  | done (r : Result)
  deriving DecidableEq, Repr

def put (s : Pool) (w : Nat) (wk : Worker) : Pool := { s with heap := s.heap.set w wk }

def onWorker (s : Pool) (w : Nat) (pc : CallPc) (f : Worker → Option (Pool × CallPc)) :
    Option (Pool × CallPc) :=
  match s.heap[w]? with
  | none => none
  | some wk => if wk.destroyed then some ({ s with fault := true }, pc) else f wk

def inQueue (c : Nat) (s : Pool) (w : Nat) (p : Pc Nat) (ch : Choice Agent) (pc : Pc Nat → CallPc) :
    Option (Pool × CallPc) :=
  onWorker s w (pc p) fun wk =>
    (step s.stopRequested (.call c) wk.tasks p ch).map fun r => (put s w { wk with tasks := r.1 }, pc r.2)

/-- The last index random() can draw, size() - 1 in size_t. -/
def lastIndex (s : Pool) : Nat := (s.workers.length + (2 ^ 64 - 1)) % 2 ^ 64

/-- One instruction of call `c`. The number `j` is what random() draws; `hw` is
hardware_concurrency(). -/
def callStep (hw c : Nat) (s : Pool) (ch : Choice Agent) (j : Nat) : CallPc → Option (Pool × CallPc)
  | .startupCheck a => some (s, if s.start then .done .alreadyStarted else .startupMax a)
  | .startupMax a => some ({ s with maxTaskCount := a.limit }, .startupExpand a)
  | .startupExpand a => some ({ s with allowExpand := a.allowExpand }, .startupLock a)
  | .startupLock a =>
      if s.workerMtx = none then some ({ s with workerMtx := some c }, .startupCreate a 0) else none
  | .startupCreate a i =>
      if i < a.createCount then
        some ({ s with heap := s.heap ++ [newWorker], workers := s.workers ++ [s.heap.length] },
          .startupCreate a (i + 1))
      else some (s, .startupStart)
  | .startupStart => some ({ s with start := true }, .startupUnlock)
  | .startupUnlock => some ({ s with workerMtx := none }, .done .started)
  | .shutdownCheck => some (s, if s.start then .shutdownRequest else .done .notStarted)
  | .shutdownRequest => some ({ s with stopRequested := true }, .shutdownClear 0)
  | .shutdownClear i => match s.workers[i]? with
    | some w => some (s, .destroyClear i w (.lock .clear))
    | none => some ({ s with workers := [] }, .shutdownEnd)
  | .destroyClear i w (.returned _) => some (s, .destroyStop i w .requestStop)
  | .destroyClear i w p => inQueue c s w p ch (.destroyClear i w)
  | .destroyStop i w (.returned _) => some (s, .destroyJoin i w)
  | .destroyStop i w p => inQueue c s w p ch (.destroyStop i w)
  | .destroyJoin i w => onWorker s w (.destroyJoin i w) fun wk =>
      if wk.pc = .exited then
        some (put s w { wk with destroyed := true, tasks := { wk.tasks with queue := [] } },
          .shutdownClear (i + 1))
      else none
  | .shutdownEnd => some ({ s with start := false }, .done .shutDown)
  | .submitCheck => some (s, if s.start then .submitLock else .done (.submitted false))
  | .submitLock =>
      if s.workerMtx = none then some ({ s with workerMtx := some c }, .submitLimit) else none
  | .submitLimit =>
      some (s, if s.currTaskCount > s.maxTaskCount then .submitReturn false else .submitScan 0)
  | .submitScan i => match s.workers[i]? with
    | some w => onWorker s w (.submitScan i) fun wk =>
        some (s, if wk.busy then .submitScan (i + 1) else .pushCount w false)
    | none => some (s, .submitRoute)
  | .submitRoute =>
      if s.allowExpand = false ∨ s.workers.length + 1 > hw * 2 then some (s, .submitRandom)
      else some ({ s with heap := s.heap ++ [newWorker] }, .pushCount s.heap.length true)
  | .submitRandom =>
      if j ≤ lastIndex s then match s.workers[j]? with
        | some w => some (s, .pushCount w false)
        | none => some (s, .submitThrow)
      else none
  | .pushCount w fresh => onWorker s w (.pushCount w fresh) fun _ =>
      some ({ s with currTaskCount := s.currTaskCount + 1 }, .pushTask w fresh (.lock (.push c)))
  | .pushTask w fresh (.returned _) => some (s, if fresh then .submitEmplace w else .submitReturn true)
  | .pushTask w fresh p => inQueue c s w p ch (.pushTask w fresh)
  | .submitEmplace w => some ({ s with workers := s.workers ++ [w] }, .submitReturn true)
  | .submitReturn b => some ({ s with workerMtx := none }, .done (.submitted b))
  | .submitThrow => some ({ s with workerMtx := none }, .done .threw)
  | .done _ => none

/-- The decrement of the unsigned counter, which wraps below zero. A wrap above
would take 2^64 tasks alive at once, each an object of its own on the heap. -/
def decrement (n : Nat) : Nat := if n = 0 then 2 ^ 64 - 1 else n - 1

/-- One instruction of the thread of worker `w`. Every worker looks at the one
stop source of the pool. -/
def workerStep (s : Pool) (w : Nat) (wk : Worker) (ch : Choice Agent) : Option Pool :=
  match wk.pc with
  | .loop => some (put s w { wk with pc := if s.stopRequested then .exited else .idle })
  | .idle => some (put s w { wk with busy := false, pc := .pop (.lock (.pop true)) })
  | .pop (.returned (.value none)) => some (put s w { wk with busy := true, pc := .loop })
  | .pop (.returned (.value (some x))) => some (put s w { wk with busy := true, pc := .ready x })
  | .pop p => (step s.stopRequested .worker wk.tasks p ch).map fun r =>
      { put s w { wk with tasks := r.1, pc := .pop r.2 } with fault := r.2 = .fault }
  | .ready x => some (put s w { wk with pc := .running x })
  | .running x => some (put s w { wk with pc := .decrement x })
  | .decrement _ =>
      some { put s w { wk with pc := .loop } with currTaskCount := decrement s.currTaskCount }
  | .exited => none

structure State where
  pool : Pool := {}
  calls : List CallPc := []
  deriving DecidableEq, Repr

inductive Request
  | startup (a : Args)
  | shutdown
  | submit
  deriving DecidableEq, Repr

def Request.entry : Request → CallPc
  | .startup a => .startupCheck a
  | .shutdown => .shutdownCheck
  | .submit => .submitCheck

inductive Action
  | call (r : Request)
  | step (c : Nat) (ch : Choice Agent) (j : Nat)
  | worker (w : Nat) (ch : Choice Agent)
  deriving DecidableEq, Repr

/-- A fault ends the run. -/
def next (hw : Nat) (s : State) (a : Action) : Option State :=
  if s.pool.fault then none else match a with
    | .call r => some { s with calls := s.calls ++ [r.entry] }
    | .step c ch j => match s.calls[c]? with
      | none => none
      | some pc => (callStep hw c s.pool ch j pc).map fun r => ⟨r.1, s.calls.set c r.2⟩
    | .worker w ch => match s.pool.heap[w]? with
      | none => none
      | some wk => (workerStep s.pool w wk ch).map fun p => ⟨p, s.calls⟩

def system (hw : Nat) : System State Action := ⟨(· = {}), next hw⟩

def isCall : Action → Bool
  | .call _ => true
  | _ => false

def mover (s : State) : Action → Option CallPc
  | .step c _ _ => s.calls[c]?
  | _ => none

def walk (c n : Nat) : List Action := List.replicate n (.step c .run 0)

def work (w n : Nat) : List Action := List.replicate n (.worker w .run)

end Enigma.ThreadPool
