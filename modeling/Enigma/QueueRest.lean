import Enigma.QueueConsumer
import Enigma.QueueFifo

namespace Enigma.QueueRest

open CondVar SyncQueue QueueStep QueueThreads QueueWaiters QueueConsumer

variable {ι T : Type} {cond c : Bool} {t u : ι} {q q' : Queue ι T} {pc pc' : Pc T} {n : Nat}

section Rank

variable [DecidableEq ι]

/-- How many more steps a thread in Pop makes until it blocks, if the queue holds nothing;
the loop around it makes `n` steps with a value. -/
def popRank (n : Nat) (t : ι) (q : Queue ι T) : Pc T → Nat
  | .lock _ => 4
  | .test _ => 3
  | .check _ => 2
  | .take _ | .block _ => 1
  | .wait _ => if t ∈ q.cv.waiting then 0 else 4
  | .unlock _ => n + 6
  | .returned _ => n + 5
  | _ => 0

/-- The same with what is in the queue, each value of which costs a round of the loop. -/
def load (n : Nat) (t : ι) (q : Queue ι T) (pc : Pc T) : Nat := (n + 6) * q.queue.length + popRank n t q pc

def pushRank (n : Nat) : Pc T → Nat
  | .lock _ => n + 14
  | .push _ => n + 13
  | .notifyOne => 6
  | .unlock _ => 1
  | _ => 0

theorem popRank_congr (h : q'.cv.waiting = q.cv.waiting) : popRank n t q' pc = popRank n t q pc := by
  cases pc <;> simp only [popRank, h]

theorem popRank_notifyOne (w : ι) :
    popRank n u { q with cv := notifyOne q.cv w } pc ≤ popRank n u q pc + 4 := by
  cases pc with
  | wait c =>
      simp only [popRank]
      split <;> omega
  | _ => exact Nat.le_add_right _ _

theorem step_ne {ch : Choice ι} {r : Queue ι T × Pc T} (h : step cond t q pc ch = some r) (hch : ch ≠ .spurious)
    (hw : Within (.pop c) pc) : r.2 ≠ pc := by
  obtain ⟨q', pc'⟩ := r
  have hs := step_sound h
  show pc' ≠ pc
  cases hs with
  | lock op =>
      cases hw
      simp [Op.body]
  | spurious c hin =>
      cases ch with
      | spurious => exact absurd rfl hch
      | run =>
          simp only [step] at h
          split at h
          · simp at h
          · cases h
      | notify w => cases h
  | clearOne => cases hw
  | _ => simp

theorem step_load (h : Step cond t q pc q' pc') (hw : Within (.pop c) pc) (hstop : q.stopRequested = false)
    (hone : Awake q.cv t → t ∉ q.cv.waiting) (hne : pc' ≠ pc) :
    load n t q' pc' < load n t q pc := by
  have hless (hq : q'.queue = q.queue) (hr : popRank n t q' pc' < popRank n t q pc) :
      load n t q' pc' < load n t q pc := by
    rw [load, load, hq]
    exact Nat.add_lt_add_left hr _
  cases h with
  | lock op =>
      cases hw
      exact hless rfl (by simp [popRank, Op.body])
  | testTrue | testFalse | checked | fault | unlock => exact hless rfl (by simp [popRank])
  | block => exact hless rfl (by simp [popRank, block])
  | spurious => exact absurd rfl hne
  | resume c ha => exact hless rfl (by simp [popRank, hone ha])
  | stopped c hs =>
      rw [hstop] at hs
      cases hs
  | take c v rest hq =>
      rw [load, load, hq, List.length_cons, Nat.mul_succ]
      simp only [popRank]
      omega
  | push | notifyNone | notifyOne | clearOne | cleared | size | requestStop | notifyAll => cases hw

theorem step_pushRank {x : T} (h : Step cond t q pc q' pc') (hw : Within (.push x) pc) (u : ι) (pu : Pc T) :
    load n u q' pu + pushRank n pc' < load n u q pu + pushRank n pc := by
  have hless (hq : q'.queue = q.queue) (hcv : q'.cv.waiting = q.cv.waiting) (hr : pushRank n pc' < pushRank n pc) :
      load n u q' pu + pushRank n pc' < load n u q pu + pushRank n pc := by
    rw [load, load, hq, popRank_congr hcv]
    exact Nat.add_lt_add_left hr _
  cases h with
  | lock op =>
      cases hw
      exact hless rfl rfl (by simp [pushRank, Op.body])
  | notifyNone | unlock => exact hless rfl rfl (by simp [pushRank])
  | push x =>
      have hsame : popRank n u { q with queue := q.queue ++ [x] } pu = popRank n u q pu := popRank_congr rfl
      rw [load, load, hsame]
      simp only [List.length_append, List.length_singleton, Nat.mul_succ, pushRank]
      omega
  | notifyOne w =>
      have hle : popRank n u { q with cv := notifyOne q.cv w } pu ≤ popRank n u q pu + 4 := popRank_notifyOne w
      rw [load, load]
      simp only [pushRank]
      omega
  | testTrue | testFalse | block | spurious | resume | stopped | checked | take | fault | clearOne | cleared | size
  | requestStop | notifyAll => cases hw

def clearRank : Pc T → Nat
  | .lock _ => 3
  | .clear => 2
  | .unlock _ => 1
  | _ => 0

theorem step_clearRank (h : Step cond t q pc q' pc') (hw : Within .clear pc) (u : ι) (pu : Pc T) :
    load n u q' pu + clearRank pc' < load n u q pu + clearRank pc := by
  have hless (hq : q'.queue = q.queue) (hcv : q'.cv.waiting = q.cv.waiting) (hr : clearRank pc' < clearRank pc) :
      load n u q' pu + clearRank pc' < load n u q pu + clearRank pc := by
    rw [load, load, hq, popRank_congr hcv]
    exact Nat.add_lt_add_left hr _
  cases h with
  | lock op =>
      cases hw
      exact hless rfl rfl (by simp [clearRank, Op.body])
  | clearOne v rest hq =>
      have hsame : popRank n u { q with queue := rest } pu = popRank n u q pu := popRank_congr rfl
      rw [load, load, hsame, hq]
      simp only [List.length_cons, Nat.mul_succ]
      omega
  | cleared | unlock => exact hless rfl rfl (by simp [clearRank])
  | push | notifyNone | notifyOne | testTrue | testFalse | block | spurious | resume | stopped | checked | take | fault
  | size | requestStop | notifyAll => cases hw

def haltRank : Pc T → Nat
  | .block _ => 7
  | .lock _ | .wait _ => 6
  | .test _ => 5
  | .check _ => 4
  | .take _ => 3
  | .unlock _ => 2
  | .returned _ => 1
  | _ => 0

theorem step_haltRank (h : Step true t q pc q' pc') (hw : Within (.pop true) pc) (hne : pc' ≠ pc) :
    q'.queue.length + haltRank pc' < q.queue.length + haltRank pc := by
  cases h with
  | lock op =>
      cases hw
      simp [haltRank, Op.body]
  | testFalse c hq hs hc =>
      cases hw
      cases hc
  | spurious => exact absurd rfl hne
  | take c v rest hq =>
      rw [hq, List.length_cons]
      simp only [haltRank]
      omega
  | testTrue | block | resume | stopped | checked | fault | unlock => simp [haltRank]
  | push | notifyNone | notifyOne | clearOne | cleared | size | requestStop | notifyAll => cases hw

theorem step_push_length {x : T} (h : Step cond t q pc q' pc') (hw : Within (.push x) pc) :
    q'.queue.length + pushRank n pc' < q.queue.length + pushRank n pc := by
  cases h with
  | lock op =>
      cases hw
      simp [pushRank, Op.body]
  | push x =>
      simp only [List.length_append, List.length_singleton, pushRank]
      omega
  | notifyNone | notifyOne | unlock => simp [pushRank]
  | testTrue | testFalse | block | spurious | resume | stopped | checked | take | fault | clearOne | cleared | size
  | requestStop | notifyAll => cases hw

theorem step_clear_length (h : Step cond t q pc q' pc') (hw : Within .clear pc) :
    q'.queue.length + clearRank pc' < q.queue.length + clearRank pc := by
  cases h with
  | lock op =>
      cases hw
      simp [clearRank, Op.body]
  | clearOne v rest hq =>
      rw [hq, List.length_cons]
      simp only [clearRank]
      omega
  | cleared | unlock => simp [clearRank]
  | push | notifyNone | notifyOne | testTrue | testFalse | block | spurious | resume | stopped | checked | take | fault
  | size | requestStop | notifyAll => cases hw

def stopRank : Pc T → Nat
  | .requestStop => 2
  | .notifyAll => 1
  | _ => 0

theorem step_stop_length (h : Step cond t q pc q' pc') (hw : Within .stop pc) :
    q'.queue.length + stopRank pc' < q.queue.length + stopRank pc := by
  cases h with
  | requestStop | notifyAll => simp [stopRank]
  | lock op =>
      cases hw with
      | lock hne => exact absurd rfl hne
  | push | notifyNone | notifyOne | testTrue | testFalse | block | spurious | resume | stopped | checked | take | fault
  | clearOne | cleared | size | unlock => cases hw

theorem critical_moves (cond : Bool) (t : ι) (q : Queue ι T) (hc : critical pc = true) (hf : pc ≠ .fault) :
    ∃ ch, ch ≠ .spurious ∧ step cond t q pc ch ≠ none := by
  cases pc with
  | notifyOne =>
      cases hw : q.cv.waiting with
      | nil => exact ⟨.run, by simp, by simp [step, hw]⟩
      | cons w ws => exact ⟨.notify w, by simp, by simp [step, hw]⟩
  | take | clear =>
      refine ⟨.run, by simp, ?_⟩
      simp only [step]
      split <;> simp
  | push | test | block | check | size | unlock => exact ⟨.run, by simp, by simp [step]⟩
  | fault => exact absurd rfl hf
  | idle | lock | wait | requestStop | notifyAll | returned => cases hc

end Rank

variable [DecidableEq ι] {v : State ι T}

/-- A thread that calls Pop() only finds something to take past its predicate, whatever the
others do. -/
theorem turn_supplied {p : Pc T} (hs : QueueFifo.Served v.queue (v.pc u)) (hx : Exclusive v)
    (hc : u = t → ∀ c, p = .lock (.pop c) → c = false) (h : Turn t v.queue (v.pc t) q p) :
    QueueFifo.Served q (Function.update v.pc t p u) := by
  generalize hp : v.pc t = p₀ at h
  by_cases he : u = t
  · subst he
    rw [Function.update_self]
    rw [hp] at hs
    cases h with
    | stay => exact hs
    | leave => trivial
    | step cond hstep => exact QueueFifo.step_served hstep hs
    | call op =>
        cases op with
        | pop c => exact hc rfl c rfl
        | push | clear | stop | size => trivial
  · rw [Function.update_of_ne he]
    cases h with
    | stay | call | leave => exact hs
    | step cond hstep =>
        rw [← hp] at hstep
        exact QueueFifo.served_congr hs (step_queue_of_other hx hstep he) (step_stopRequested hstep)

/-- Where nobody can make a step but to wake up for nothing. -/
def Still (cond : Bool) (v : State ι T) : Prop :=
  ∀ t ch, ch ≠ .spurious → step cond t v.queue (v.pc t) ch = none

theorem Still.free (h : Still cond v) (hin : InSection v) (hf : ∀ t, v.pc t ≠ .fault) : v.queue.mutex = none := by
  cases hm : v.queue.mutex with
  | none => rfl
  | some t =>
      obtain ⟨ch, hch, hstep⟩ := critical_moves cond t v.queue (hin.owner t hm) (hf t)
      exact absurd (h t ch hch) hstep

theorem Still.not_lock (h : Still cond v) (hm : v.queue.mutex = none) (op : Op T) : v.pc t ≠ .lock op := by
  intro hp
  have hstep := h t .run (by simp)
  simp [hp, step, hm] at hstep

theorem Still.blocked (h : Still cond v) (hm : v.queue.mutex = none) (ht : Tracked v) (hx : Exclusive v)
    (hw : Within (.pop c) (v.pc u)) (hr : ∀ r, v.pc u ≠ .returned r) :
    v.pc u = .wait c ∧ u ∈ v.queue.cv.waiting := by
  have hcrit : critical (v.pc u) = false := by
    by_contra hc
    have ho := hx u (by simpa using hc)
    rw [hm] at ho
    cases ho
  generalize hp : v.pc u = p at hw hcrit
  cases hw with
  | wait =>
      refine ⟨rfl, ?_⟩
      rcases ht.awake_or_waiting hp with ha | hin
      · have hstep := h u .run (by simp)
        simp [hp, step, ha, hm] at hstep
      · exact hin
  | lock => exact absurd hp (h.not_lock hm _)
  | returnedPop => exact absurd hp (hr _)
  | test | block | check | take | fault | unlockPop => cases hcrit

theorem Still.waiting (h : Still cond v) (hm : v.queue.mutex = none) (hs : Served u v) (ht : Tracked v)
    (hx : Exclusive v) (hw : Within (.pop c) (v.pc u)) (hr : ∀ r, v.pc u ≠ .returned r) :
    v.pc u = .wait c ∧ v.queue.queue = [] := by
  obtain ⟨hwait, hin⟩ := h.blocked hm ht hx hw hr
  refine ⟨hwait, ?_⟩
  rcases hs.waiting hin with hq | ⟨t, ho, -⟩
  · exact hq
  · rw [hm] at ho
    cases ho

theorem Still.returned {op : Op T} (h : Still cond v) (hm : v.queue.mutex = none) (hx : Exclusive v)
    (hw : Within op (v.pc u)) (hop : ∀ c, op ≠ .pop c) : ∃ r, v.pc u = .returned r := by
  have hcrit : critical (v.pc u) = false := by
    by_contra hc
    have ho := hx u (by simpa using hc)
    rw [hm] at ho
    cases ho
  have hrun := h u .run (by simp)
  generalize hp : v.pc u = p at hw hcrit hrun
  cases hw with
  | lock => exact absurd hp (h.not_lock hm _)
  | returnedPush | returnedClear | returnedStop | returnedSize => exact ⟨_, rfl⟩
  | requestStop | notifyAll => simp [step] at hrun
  | push | notifyOne | clear | size | unlockPush | unlockClear | unlockSize => cases hcrit
  | test | block | wait | check | take | fault | unlockPop | returnedPop => exact absurd rfl (hop _)

end Enigma.QueueRest
