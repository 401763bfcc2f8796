import Enigma.SyncQueue

namespace Enigma.QueueStep

open CondVar SyncQueue

variable {ι T : Type} {cond : Bool} {t u : ι} {q q' : Queue ι T} {pc pc' : Pc T}

/-- The instructions a thread executes with the mutex in its hands. A thread
that ran into an empty front() never gives it back. -/
def critical : Pc T → Bool
  | .idle | .lock _ | .wait _ | .requestStop | .notifyAll | .returned _ => false
  | .push _ | .notifyOne | .test _ | .block _ | .check _ | .take _ | .clear | .size | .unlock _
  | .fault => true

def emits (q : Queue ι T) : Pc T → List (Fifo.Event T)
  | .push v => [.push v]
  | .take _ => q.queue.head?.toList.map .pop
  | .clear => q.queue.head?.toList.map .drop
  | _ => []

/-- The values in the hands of a thread: a value still to be pushed, or one
already popped. -/
def held : Pc T → List T
  | .lock (.push v) | .push v => [v]
  | .unlock (.value v) | .returned (.value v) => v.toList
  | _ => []

inductive Within : Op T → Pc T → Prop
  | lock {op : Op T} (h : op ≠ .stop) : Within op (.lock op)
  | push {v : T} : Within (.push v) (.push v)
  | notifyOne {v : T} : Within (.push v) .notifyOne
  | test {c : Bool} : Within (.pop c) (.test c)
  | block {c : Bool} : Within (.pop c) (.block c)
  | wait {c : Bool} : Within (.pop c) (.wait c)
  | check {c : Bool} : Within (.pop c) (.check c)
  | take {c : Bool} : Within (.pop c) (.take c)
  | fault {c : Bool} : Within (.pop c) .fault
  | clear : Within .clear .clear
  | size : Within .size .size
  | unlockPush {v : T} : Within (.push v) (.unlock .unit)
  | unlockPop {c : Bool} {r : Option T} : Within (.pop c) (.unlock (.value r))
  | unlockClear : Within .clear (.unlock .unit)
  | unlockSize {n : Nat} : Within .size (.unlock (.size n))
  | requestStop : Within .stop .requestStop
  | notifyAll : Within .stop .notifyAll
  | returnedPush {v : T} : Within (.push v) (.returned .unit)
  | returnedPop {c : Bool} {r : Option T} : Within (.pop c) (.returned (.value r))
  | returnedClear : Within .clear (.returned .unit)
  | returnedStop : Within .stop (.returned .unit)
  | returnedSize {n : Nat} : Within .size (.returned (.size n))

variable [DecidableEq ι]

/-- The queue refines the abstract first-in first-out queue, step by step. -/
theorem step_replays (h : Step cond t q pc q' pc') :
    Fifo.Replays q.queue (emits q pc) q'.queue := by
  cases h with
  | push v => exact .push (.nil _)
  | take c v rest hq =>
      simp only [emits, hq, List.head?_cons, Option.toList_some, List.map_cons, List.map_nil]
      exact .pop (.nil _)
  | fault c hq =>
      simp only [emits, hq, List.head?_nil, Option.toList_none, List.map_nil]
      exact .nil _
  | clearOne v rest hq =>
      simp only [emits, hq, List.head?_cons, Option.toList_some, List.map_cons, List.map_nil]
      exact .drop (.nil _)
  | cleared hq =>
      simp only [emits, hq, List.head?_nil, Option.toList_none, List.map_nil]
      exact .nil _
  | lock | notifyNone | notifyOne | testTrue | testFalse | block | spurious | resume | stopped
  | checked | size | unlock | requestStop | notifyAll => exact .nil _

theorem step_queue_of_not_critical (h : Step cond t q pc q' pc') (hc : critical pc = false) :
    q'.queue = q.queue := by
  cases h with
  | push | take | clearOne => cases hc
  | lock | notifyNone | notifyOne | testTrue | testFalse | block | spurious | resume | stopped
  | checked | size | unlock | requestStop | notifyAll | fault | cleared => rfl

theorem step_critical (h : Step cond t q pc q' pc') (hm : critical pc = true → q.mutex = some t)
    (hc : critical pc' = true) : q'.mutex = some t := by
  cases h with
  | lock | resume => rfl
  | block | spurious | unlock | requestStop | notifyAll => cases hc
  | push | notifyNone | notifyOne | testTrue | testFalse | stopped | checked | take | fault
  | clearOne | cleared | size => exact hm rfl

theorem step_mutex_other (h : Step cond t q pc q' pc') (hm : critical pc = true → q.mutex = some t)
    (hne : u ≠ t) (hu : q.mutex = some u) : q'.mutex = some u := by
  have hother (hc : critical pc = true) : False := by
    have he := (hm hc).symm.trans hu
    exact hne (Option.some.inj he).symm
  cases h with
  | lock op hn => simp [hn] at hu
  | resume c hw hn => simp [hn] at hu
  | block | unlock => exact (hother rfl).elim
  | push | notifyNone | notifyOne | testTrue | testFalse | stopped | checked | take | fault
  | clearOne | cleared | size | spurious | requestStop | notifyAll => exact hu

theorem step_stopRequested (h : Step cond t q pc q' pc') (hs : q.stopRequested = true) :
    q'.stopRequested = true := by
  cases h <;> first | exact hs | rfl

/-- No step loses a value: it goes from hand to queue, from queue to hand, or
is destroyed by Clear. -/
theorem step_conserves (h : Step cond t q pc q' pc') :
    q'.queue.length + (held pc').length + (Fifo.drops (emits q pc)).length =
      q.queue.length + (held pc).length := by
  cases h with
  | lock op => cases op <;> simp [held, Op.body, emits, Fifo.drops]
  | take c v rest hq | clearOne v rest hq => simp [held, emits, Fifo.drops, hq]
  | fault c hq | cleared hq => simp [held, emits, Fifo.drops, hq]
  | unlock r => cases r <;> rfl
  | push | notifyNone | notifyOne | testTrue | testFalse | block | spurious | resume | stopped
  | checked | size | requestStop | notifyAll => simp [held, emits, Fifo.drops]

theorem step_within {op : Op T} (h : Step cond t q pc q' pc') (hw : Within op pc) :
    Within op pc' := by
  cases h with
  | lock op' =>
      cases hw with
      | lock hne => cases op with
        | push => exact .push
        | pop => exact .test
        | clear => exact .clear
        | stop => exact (hne rfl).elim
        | size => exact .size
  | push => cases hw; exact .notifyOne
  | notifyNone | notifyOne => cases hw; exact .unlockPush
  | testTrue => cases hw; exact .check
  | testFalse => cases hw; exact .block
  | block => cases hw; exact .wait
  | spurious => exact hw
  | resume => cases hw; exact .test
  | stopped => cases hw; exact .unlockPop
  | checked => cases hw; exact .take
  | take => cases hw; exact .unlockPop
  | fault => cases hw; exact .fault
  | clearOne => exact hw
  | cleared => cases hw; exact .unlockClear
  | size => cases hw; exact .unlockSize
  | unlock =>
      cases hw with
      | unlockPush => exact .returnedPush
      | unlockPop => exact .returnedPop
      | unlockClear => exact .returnedClear
      | unlockSize => exact .returnedSize
  | requestStop => cases hw; exact .notifyAll
  | notifyAll => cases hw; exact .returnedStop

theorem step_pops {c : Bool} (h : Step cond t q pc q' pc') (hw : Within (.pop c) pc) :
    held pc' = held pc ++ Fifo.pops (emits q pc) := by
  cases h with
  | lock op => cases hw; rfl
  | take c v rest hq => simp [held, emits, Fifo.pops, hq]
  | fault c hq => simp [held, emits, Fifo.pops, hq]
  | unlock r => cases hw; simp [held, emits, Fifo.pops]
  | testTrue | testFalse | block | spurious | resume | stopped | checked =>
      simp [held, emits, Fifo.pops]
  | push | notifyNone | notifyOne | clearOne | cleared | size | requestStop | notifyAll => cases hw

theorem step_pushes {v : T} (h : Step cond t q pc q' pc') (hw : Within (.push v) pc) :
    Fifo.pushes (emits q pc) ++ held pc' = held pc := by
  cases h with
  | lock op => cases hw; rfl
  | unlock r => cases hw; rfl
  | push => rfl
  | notifyNone | notifyOne => rfl
  | testTrue | testFalse | block | spurious | resume | stopped | checked | take | fault | clearOne
  | cleared | size | requestStop | notifyAll => cases hw

theorem step_push_order {v : T} (h : Step cond t q pc q' pc') (hw : Within (.push v) pc) :
    q'.queue ++ held pc' = q.queue ++ held pc := by
  cases h with
  | lock op => cases hw; rfl
  | unlock r => cases hw; rfl
  | push => simp [held]
  | notifyNone | notifyOne => rfl
  | testTrue | testFalse | block | spurious | resume | stopped | checked | take | fault | clearOne
  | cleared | size | requestStop | notifyAll => cases hw

theorem step_pop_order {c : Bool} (h : Step cond t q pc q' pc') (hw : Within (.pop c) pc) :
    held pc' ++ q'.queue = held pc ++ q.queue := by
  cases h with
  | lock op => cases hw; rfl
  | take c v rest hq => simp [held, hq]
  | unlock r => cases hw; rfl
  | fault | testTrue | testFalse | block | spurious | resume | stopped | checked => rfl
  | push | notifyNone | notifyOne | clearOne | cleared | size | requestStop | notifyAll => cases hw

omit [DecidableEq ι] in
theorem pushes_emits {op : Op T} (hw : Within op pc) (hne : ∀ v, op ≠ .push v) :
    Fifo.pushes (emits q pc) = [] := by
  cases hw with
  | push => exact (hne _ rfl).elim
  | take | clear => cases hq : q.queue <;> simp [emits, Fifo.pushes, hq]
  | lock | notifyOne | test | block | wait | check | fault | size | unlockPush | unlockPop
  | unlockClear | unlockSize | requestStop | notifyAll | returnedPush | returnedPop | returnedClear
  | returnedStop | returnedSize => rfl

omit [DecidableEq ι] in
theorem pops_emits {op : Op T} (hw : Within op pc) (hne : ∀ c, op ≠ .pop c) :
    Fifo.pops (emits q pc) = [] := by
  cases hw with
  | take => exact (hne _ rfl).elim
  | push => rfl
  | clear => cases hq : q.queue <;> simp [emits, Fifo.pops, hq]
  | lock | notifyOne | test | block | wait | check | fault | size | unlockPush | unlockPop
  | unlockClear | unlockSize | requestStop | notifyAll | returnedPush | returnedPop | returnedClear
  | returnedStop | returnedSize => rfl

end Enigma.QueueStep
