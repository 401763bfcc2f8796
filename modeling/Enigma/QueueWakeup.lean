import Enigma.QueueWaiters

namespace Enigma.QueueWakeup

open Transition CondVar SyncQueue QueueStep QueueThreads QueueWaiters

variable {ι T : Type} [DecidableEq ι]

/-- Producers and consumers call Push, Pop(), Clear and Size; nobody calls Stop. -/
def PushPop (_ : State ι T) (a : Action ι T) : Prop :=
  ∀ t op, a = .call t op → op ≠ .stop ∧ op ≠ .pop true

/-- What the owner of the mutex is going to make good before it releases it:
one notification, or one value taken away. -/
def slack : Pc T → Nat
  | .notifyOne | .test _ | .check _ | .take _ => 1
  | _ => 0

def stopping : Pc T → Bool
  | .lock .stop | .requestStop | .notifyAll => true
  | _ => false

def owed (s : State ι T) : Nat := (s.queue.mutex.map fun t => slack (s.pc t)).getD 0

def Bound (q : Queue ι T) (n : Nat) : Prop :=
  q.cv.waiting ≠ [] → q.queue.length ≤ q.cv.notified.length + n

structure Balanced (s : State ι T) : Prop where
  unstopped : s.queue.stopRequested = false
  stopless : ∀ t, stopping (s.pc t) = false
  empty : ∀ t c, s.pc t = .block c → s.queue.queue = []
  bound : Bound s.queue (owed s)

variable {cond : Bool} {t : ι} {q q' : Queue ι T} {pc pc' : Pc T}

theorem step_bound (h : Step cond t q pc q' pc') (hc : critical pc = true)
    (hs : q.stopRequested = false) (he : ∀ c, pc = .block c → q.queue = [])
    (hb : Bound q (slack pc)) : Bound q' (slack pc') := by
  intro hw
  cases h with
  | push v =>
      have hq := hb hw
      simpa [slack] using hq
  | notifyNone hn => exact (hw hn).elim
  | notifyOne w hm =>
      have hq := hb (List.ne_nil_of_mem hm)
      simpa [slack, CondVar.notifyOne] using hq
  | testTrue c hp => exact hb hw
  | testFalse c hq => simp [hq]
  | block c => simp [he c rfl]
  | stopped c hr => rw [hs] at hr; cases hr
  | checked c => exact hb hw
  | take c v rest hq =>
      have hl := hb hw
      simp only [hq, slack, List.length_cons] at hl ⊢
      omega
  | fault c hq => simp [hq]
  | clearOne v rest hq =>
      have hl := hb hw
      simp only [hq, slack, List.length_cons] at hl ⊢
      omega
  | cleared hq => simp [hq]
  | size => exact hb hw
  | unlock r => exact hb hw
  | lock | spurious | resume | requestStop | notifyAll => cases hc

theorem step_owner (h : Step cond t q pc q' pc') (hc : critical pc = true) (hm : q.mutex = some t) :
    q'.mutex = some t ∨ (q'.mutex = none ∧ slack pc' = 0) := by
  cases h with
  | block | unlock => exact .inr ⟨rfl, rfl⟩
  | push | notifyNone | notifyOne | testTrue | testFalse | stopped | checked | take | fault
  | clearOne | cleared | size => exact .inl hm
  | lock | spurious | resume | requestStop | notifyAll => cases hc

theorem step_owed {s : State ι T} (hx : Exclusive s) (hb : Balanced s)
    (hs : Step cond t s.queue (s.pc t) q pc) :
    Bound q (owed ⟨q, Function.update s.pc t pc⟩) := by
  by_cases hc : critical (s.pc t) = true
  · have hm := hx t hc
    have ho : owed s = slack (s.pc t) := by simp [owed, hm]
    have ho' : owed ⟨q, Function.update s.pc t pc⟩ = slack pc := by
      rcases step_owner hs hc hm with hq | ⟨hq, hz⟩
      · simp [owed, hq]
      · simp [owed, hq, hz]
    rw [ho']
    exact step_bound hs hc hb.unstopped (fun c => hb.empty t c) (ho ▸ hb.bound)
  · generalize hp : s.pc t = p at hs hc
    have hbound := hb.bound
    cases hs with
    | lock op hn =>
        have ho : owed s = 0 := by simp [owed, hn]
        intro hw
        have hl := hbound hw
        rw [ho] at hl
        exact Nat.le_trans hl (Nat.le_add_right _ _)
    | spurious c hm =>
        have ho : owed ⟨{ s.queue with cv := wakeSpuriously s.queue.cv t },
            Function.update s.pc t (.wait c)⟩ = owed s := by
          simp only [owed]
          rw [← hp, Function.update_eq_self]
        rw [ho]
        intro hw
        exact hbound (wakeSpuriously_waiting_ne hw)
    | resume c ha hn =>
        have ho : owed s = 0 := by simp [owed, hn]
        intro hw
        have hl := hbound hw
        have hr := length_notified_resume s.queue.cv t
        rw [ho] at hl
        simp only [owed, Option.map_some, Function.update_self, slack, Option.getD_some]
        exact Nat.le_trans hl hr
    | requestStop | notifyAll =>
        have hz := hb.stopless t
        rw [hp] at hz
        cases hz
    | push | notifyNone | notifyOne | testTrue | testFalse | block | stopped | checked | take | fault
    | clearOne | cleared | size | unlock => exact (hc rfl).elim

theorem step_stopless (h : Step cond t q pc q' pc') (hp : stopping pc = false) :
    stopping pc' = false ∧ q'.stopRequested = q.stopRequested := by
  cases h with
  | lock op => cases op <;> first | exact ⟨rfl, rfl⟩ | cases hp
  | requestStop | notifyAll => cases hp
  | push | notifyNone | notifyOne | testTrue | testFalse | block | spurious | resume | stopped
  | checked | take | fault | clearOne | cleared | size | unlock => exact ⟨rfl, rfl⟩

theorem step_to_block {c : Bool} (h : Step cond t q pc q' (.block c)) : q'.queue = [] := by
  generalize hp : (.block c : Pc T) = p at h
  cases h with
  | testFalse _ hq => exact hq
  | lock op => cases op <;> cases hp
  | push | notifyNone | notifyOne | testTrue | block | spurious | resume | stopped | checked | take
  | fault | clearOne | cleared | size | unlock | requestStop | notifyAll => cases hp

theorem step_balanced {s : State ι T} (hx : Exclusive s) (hb : Balanced s)
    (hs : Step cond t s.queue (s.pc t) q pc) : Balanced ⟨q, Function.update s.pc t pc⟩ := by
  obtain ⟨hz, hr⟩ := step_stopless hs (hb.stopless t)
  refine ⟨hr.trans hb.unstopped, ?_, ?_, step_owed hx hb hs⟩
  · intro u
    by_cases he : u = t
    · subst he
      simpa using hz
    · simpa [Function.update_of_ne he] using hb.stopless u
  · intro u c hu
    rcases update_cases hu with ⟨rfl, rfl⟩ | ⟨he, hu⟩
    · exact step_to_block hs
    · have hq := step_queue_of_other hx hs he (by rw [hu]; rfl)
      exact hq.trans (hb.empty u c hu)

omit [DecidableEq ι] in
theorem slack_of_ready (h : ready pc = true) : slack pc = 0 := by
  cases pc <;> first | rfl | cases h

theorem call_balanced {s : State ι T} (hb : Balanced s)
    (hready : ready (s.pc t) = true) (hz : stopping pc = false) (he : ∀ c, pc ≠ .block c) :
    Balanced ⟨s.queue, Function.update s.pc t pc⟩ := by
  refine ⟨hb.unstopped, ?_, ?_, ?_⟩
  · intro u
    by_cases hu : u = t
    · subst hu
      simpa using hz
    · simpa [Function.update_of_ne hu] using hb.stopless u
  · intro u c hu
    rcases update_cases hu with ⟨rfl, hp⟩ | ⟨-, hu⟩
    · exact (he c hp).elim
    · exact hb.empty u c hu
  · have ho : owed s ≤ owed ⟨s.queue, Function.update s.pc t pc⟩ := by
      cases hm : s.queue.mutex with
      | none => simp [owed, hm]
      | some u =>
          by_cases hu : u = t
          · subst hu
            simp [owed, hm, slack_of_ready hready]
          · simp [owed, hm, Function.update_of_ne hu]
    intro hw
    exact Nat.le_trans (hb.bound hw) (Nat.add_le_add_left ho _)

theorem reachable_balanced {s : State ι T} (hr : Reachable (system ι T) PushPop s) : Balanced s := by
  refine hr.invariant (P := Balanced) ?_ ?_
  · rintro s rfl
    refine ⟨rfl, fun _ => rfl, ?_, fun hw => (hw rfl).elim⟩
    intro t c ht
    cases ht
  · intro s a s' hr hb hok hn
    rcases next_cases hn with ⟨t, pc, hready, rfl, ⟨op, rfl, rfl⟩ | ⟨rfl, rfl⟩⟩ |
      ⟨t, cond, ch, q, pc, rfl, hs, rfl⟩
    · have hop := (hok t op rfl).1
      apply call_balanced hb hready
      · cases op with
        | stop => exact (hop rfl).elim
        | push | pop | clear | size => rfl
      · intro c
        cases op <;> simp [Op.entry]
    · exact call_balanced hb hready rfl (by simp)
    · exact step_balanced (reachable_exclusive hr) hb hs

/-- One notify_one per Push loses no wakeup: with the mutex free and some consumer asleep without a
notification, every queued value is matched by a notified consumer on its way to the mutex. -/
theorem no_lost_wakeup {s : State ι T} {c : Bool} (hr : Reachable (system ι T) PushPop s)
    (hm : s.queue.mutex = none) (hp : s.pc t = .wait c) (hn : ¬ Awake s.queue.cv t) :
    s.queue.queue.length ≤ s.queue.cv.notified.length ∧ s.queue.cv.notified.Nodup ∧
    (∀ u ∈ s.queue.cv.notified, waits (s.pc u) = true) ∧
    (s.queue.queue ≠ [] → ∃ u, u ∈ s.queue.cv.notified) := by
  have ht := reachable_tracked hr
  have hw := (ht.awake_or_waiting hp).resolve_left hn
  have hb := (reachable_balanced hr).bound (List.ne_nil_of_mem hw)
  have ho : owed s = 0 := by simp [owed, hm]
  rw [ho, Nat.add_zero] at hb
  refine ⟨hb, ?_, ?_, ?_⟩
  · exact (List.nodup_append.mp (List.nodup_append.mp ht.nodup).1).2.1
  · intro u hu
    exact (ht.mem_iff u).mp (List.mem_append_left _ (List.mem_append_right _ hu))
  · intro hq
    apply List.exists_mem_of_length_pos
    exact Nat.lt_of_lt_of_le (List.length_pos_iff.mpr hq) hb

theorem no_lost_wakeup_two_consumers : ∃ s : State Nat Nat,
    Reachable (system Nat Nat) PushPop s ∧ s.queue.mutex = none ∧ s.pc 1 = .wait false ∧
    ¬ Awake s.queue.cv 1 ∧ s.queue.queue = [7] ∧ ∃ u, u ∈ s.queue.cv.notified := by
  obtain ⟨s, hr, hp⟩ := exists_of_run (system Nat Nat) PushPop
    (fun _ a => match a with
      | .call _ .stop => false
      | .call _ (.pop c) => !c
      | _ => true)
    initial
    (solo 0 (.pop false) 3 ++ solo 1 (.pop false) 3 ++ solo 2 (.push 7) 2 ++
      [.step 2 false (.notify 0), .step 2 false .run])
    (fun s => s.queue.mutex == none && s.pc 1 == .wait false && !decide (Awake s.queue.cv 1) &&
      s.queue.queue == [7])
    (by
      rintro s a ha t op rfl
      constructor
      · rintro rfl; cases ha
      · rintro rfl; cases ha)
    rfl (by decide)
  simp only [Bool.and_eq_true, beq_iff_eq, Bool.not_eq_true', decide_eq_false_iff_not] at hp
  obtain ⟨⟨⟨hm, hw⟩, hn⟩, hq⟩ := hp
  exact ⟨s, hr, hm, hw, hn, hq, (no_lost_wakeup hr hm hw hn).2.2.2 (by rw [hq]; simp)⟩

end Enigma.QueueWakeup
