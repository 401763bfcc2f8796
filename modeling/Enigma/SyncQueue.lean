import Enigma.Transition
import Enigma.Fifo
import Enigma.CondVar

namespace Enigma.SyncQueue

open Transition CondVar

variable {ι T : Type} [DecidableEq ι]

/-- The members of a SyncQueue: queue_, the owner of mutex_, cv_ and whether
stop_source_ has been asked to stop. -/
structure Queue (ι T : Type) where
  queue : List T := []
  mutex : Option ι := none
  cv : Waiters ι := {}
  stopRequested : Bool := false
  deriving DecidableEq, Repr

/-- The member functions. The flag of `pop` tells Pop(cond) from Pop(). -/
inductive Op (T : Type)
  | push (v : T)
  | pop (conditional : Bool)
  | clear
  | stop
  | size
  deriving DecidableEq, Repr

inductive Ret (T : Type)
  | unit
  | value (v : Option T)
  | size (n : Nat)
  deriving DecidableEq, Repr

/-- Where a thread stands in a member function, named after the instruction
it executes next. Both forms of Pop share their instructions. -/
inductive Pc (T : Type)
  | idle
  | lock (op : Op T)
  | push (v : T)
  | notifyOne
  | test (conditional : Bool)
  | block (conditional : Bool)
  | wait (conditional : Bool)
  | check (conditional : Bool)
  | take (conditional : Bool)
  | clear
  | size
  | unlock (r : Ret T)
  | requestStop
  | notifyAll
  | returned (r : Ret T)
  | fault
  deriving DecidableEq, Repr

/-- Stop is the only member function that does not take the mutex. -/
def Op.entry : Op T → Pc T
  | .stop => .requestStop
  | op => .lock op

def Op.body : Op T → Pc T
  | .push v => .push v
  | .pop c => .test c
  | .clear => .clear
  | .stop => .requestStop
  | .size => .size

inductive Choice (ι : Type)
  | run
  | notify (w : ι)
  | spurious
  deriving DecidableEq, Repr

/-- One instruction of thread `t`; `cond` is what the condition of Pop(cond) answers now. The move
out of front() and the pop() after it are one step, as both run under the mutex. -/
def step (cond : Bool) (t : ι) (q : Queue ι T) : Pc T → Choice ι → Option (Queue ι T × Pc T)
  | .lock op, .run => if q.mutex = none then some ({ q with mutex := some t }, op.body) else none
  | .push v, .run => some ({ q with queue := q.queue ++ [v] }, .notifyOne)
  | .notifyOne, .run => if q.cv.waiting = [] then some (q, .unlock .unit) else none
  | .notifyOne, .notify w =>
      if w ∈ q.cv.waiting then some ({ q with cv := notifyOne q.cv w }, .unlock .unit) else none
  | .test c, .run =>
      some (q, if !q.queue.isEmpty || q.stopRequested || (c && cond) then .check c else .block c)
  | .block c, .run => some ({ q with mutex := none, cv := block q.cv t }, .wait c)
  | .wait c, .spurious =>
      if t ∈ q.cv.waiting then some ({ q with cv := wakeSpuriously q.cv t }, .wait c) else none
  | .wait c, .run =>
      if Awake q.cv t ∧ q.mutex = none then
        some ({ q with mutex := some t, cv := resume q.cv t }, .test c)
      else none
  | .check c, .run => some (q, if q.stopRequested then .unlock (.value none) else .take c)
  | .take _, .run => match q.queue with
    | [] => some (q, .fault)
    | v :: rest => some ({ q with queue := rest }, .unlock (.value (some v)))
  | .clear, .run => match q.queue with
    | [] => some (q, .unlock .unit)
    | _ :: rest => some ({ q with queue := rest }, .clear)
  | .size, .run => some (q, .unlock (.size q.queue.length))
  | .unlock r, .run => some ({ q with mutex := none }, .returned r)
  | .requestStop, .run => some ({ q with stopRequested := true }, .notifyAll)
  | .notifyAll, .run => some ({ q with cv := notifyAll q.cv }, .returned .unit)
  | _, _ => none

inductive Step (cond : Bool) (t : ι) (q : Queue ι T) : Pc T → Queue ι T → Pc T → Prop
  | lock (op : Op T) (h : q.mutex = none) : Step cond t q (.lock op) { q with mutex := some t } op.body
  | push (v : T) : Step cond t q (.push v) { q with queue := q.queue ++ [v] } .notifyOne
  | notifyNone (h : q.cv.waiting = []) : Step cond t q .notifyOne q (.unlock .unit)
  | notifyOne (w : ι) (h : w ∈ q.cv.waiting) :
      Step cond t q .notifyOne { q with cv := notifyOne q.cv w } (.unlock .unit)
  | testTrue (c : Bool) (h : q.queue ≠ [] ∨ q.stopRequested = true ∨ (c = true ∧ cond = true)) :
      Step cond t q (.test c) q (.check c)
  | testFalse (c : Bool) (hq : q.queue = []) (hs : q.stopRequested = false)
      (hc : (c && cond) = false) : Step cond t q (.test c) q (.block c)
  | block (c : Bool) : Step cond t q (.block c) { q with mutex := none, cv := block q.cv t } (.wait c)
  | spurious (c : Bool) (h : t ∈ q.cv.waiting) :
      Step cond t q (.wait c) { q with cv := wakeSpuriously q.cv t } (.wait c)
  | resume (c : Bool) (h : Awake q.cv t) (hm : q.mutex = none) :
      Step cond t q (.wait c) { q with mutex := some t, cv := resume q.cv t } (.test c)
  | stopped (c : Bool) (h : q.stopRequested = true) : Step cond t q (.check c) q (.unlock (.value none))
  | checked (c : Bool) (h : q.stopRequested = false) : Step cond t q (.check c) q (.take c)
  | take (c : Bool) (v : T) (rest : List T) (h : q.queue = v :: rest) :
      Step cond t q (.take c) { q with queue := rest } (.unlock (.value (some v)))
  | fault (c : Bool) (h : q.queue = []) : Step cond t q (.take c) q .fault
  | clearOne (v : T) (rest : List T) (h : q.queue = v :: rest) :
      Step cond t q .clear { q with queue := rest } .clear
  | cleared (h : q.queue = []) : Step cond t q .clear q (.unlock .unit)
  | size : Step cond t q .size q (.unlock (.size q.queue.length))
  | unlock (r : Ret T) : Step cond t q (.unlock r) { q with mutex := none } (.returned r)
  | requestStop : Step cond t q .requestStop { q with stopRequested := true } .notifyAll
  | notifyAll : Step cond t q .notifyAll { q with cv := notifyAll q.cv } (.returned .unit)

theorem step_sound {cond : Bool} {t : ι} {q q' : Queue ι T} {pc pc' : Pc T} {ch : Choice ι}
    (h : step cond t q pc ch = some (q', pc')) : Step cond t q pc q' pc' := by
  cases pc <;> cases ch <;> simp only [step, reduceCtorEq] at h
  case lock.run op =>
    split at h
    case isTrue hm => cases h; exact .lock op hm
    case isFalse => cases h
  case push.run v => cases h; exact .push v
  case notifyOne.run =>
    split at h
    case isTrue hw => cases h; exact .notifyNone hw
    case isFalse => cases h
  case notifyOne.notify w =>
    split at h
    case isTrue hw => cases h; exact .notifyOne w hw
    case isFalse => cases h
  case test.run c =>
    split at h
    case isTrue hp =>
      cases h
      exact .testTrue c (by simpa [or_assoc] using hp)
    case isFalse hp =>
      cases h
      simp only [Bool.or_eq_true, Bool.not_eq_true', List.isEmpty_eq_false_iff, not_or, not_not,
        Bool.not_eq_true] at hp
      exact .testFalse c hp.1.1 hp.1.2 hp.2
  case block.run c => cases h; exact .block c
  case wait.spurious c =>
    split at h
    case isTrue hw => cases h; exact .spurious c hw
    case isFalse => cases h
  case wait.run c =>
    split at h
    case isTrue hw => cases h; exact .resume c hw.1 hw.2
    case isFalse => cases h
  case check.run c =>
    split at h
    case isTrue hs => cases h; exact .stopped c hs
    case isFalse hs => cases h; exact .checked c (by simpa using hs)
  case take.run c =>
    split at h
    case h_1 hq => cases h; exact .fault c hq
    case h_2 v rest hq => cases h; exact .take c v rest hq
  case clear.run =>
    split at h
    case h_1 hq => cases h; exact .cleared hq
    case h_2 v rest hq => cases h; exact .clearOne v rest hq
  case size.run => cases h; exact .size
  case unlock.run r => cases h; exact .unlock r
  case requestStop.run => cases h; exact .requestStop
  case notifyAll.run => cases h; exact .notifyAll

theorem step_complete {cond : Bool} {t : ι} {q q' : Queue ι T} {pc pc' : Pc T}
    (h : Step cond t q pc q' pc') : ∃ ch, step cond t q pc ch = some (q', pc') := by
  cases h with
  | lock op hm => exact ⟨.run, by simp [step, hm]⟩
  | notifyNone hw => exact ⟨.run, by simp [step, hw]⟩
  | notifyOne w hw => exact ⟨.notify w, by simp [step, hw]⟩
  | testTrue c hp =>
      refine ⟨.run, ?_⟩
      rcases hp with hq | hs | ⟨rfl, rfl⟩
      · simp [step, hq]
      · simp [step, hs]
      · simp [step]
  | testFalse c hq hs hc => exact ⟨.run, by simpa [step, hq, hs] using hc⟩
  | spurious c hw => exact ⟨.spurious, by simp [step, hw]⟩
  | resume c hw hm => exact ⟨.run, by simp [step, hw, hm]⟩
  | stopped c hs => exact ⟨.run, by simp [step, hs]⟩
  | checked c hs => exact ⟨.run, by simp [step, hs]⟩
  | take c v rest hq => exact ⟨.run, by simp [step, hq]⟩
  | fault c hq => exact ⟨.run, by simp [step, hq]⟩
  | clearOne v rest hq => exact ⟨.run, by simp [step, hq]⟩
  | cleared hq => exact ⟨.run, by simp [step, hq]⟩
  | push | block | size | unlock | requestStop | notifyAll => exact ⟨.run, rfl⟩

end Enigma.SyncQueue
