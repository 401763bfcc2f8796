import Enigma.QueueStop
import Enigma.QueueWakeup

namespace Enigma.QueueConsumer

open Transition CondVar SyncQueue QueueStep QueueThreads QueueWaiters QueueStop QueueWakeup

variable {ι T : Type} {cond : Bool} {t u : ι} {q q' : Queue ι T} {pc pc' : Pc T}

def popping : Pc T → Bool
  | .lock (.pop _) | .test _ | .block _ | .wait _ | .check _ | .take _ | .fault | .unlock (.value _)
  | .returned (.value _) => true
  | _ => false

theorem not_popping_of_within {op : Op T} (hw : Within op pc) (hop : ∀ c, op ≠ .pop c) : popping pc = false := by
  cases hw with
  | @lock op => cases op with
    | pop c => exact absurd rfl (hop c)
    | push | clear | stop | size => rfl
  | test | block | wait | check | take | fault | unlockPop | returnedPop => exact absurd rfl (hop _)
  | push | notifyOne | clear | size | unlockPush | unlockClear | unlockSize | requestStop | notifyAll
  | returnedPush | returnedClear | returnedStop | returnedSize => rfl

/-- With one consumer `u`: it blocks only on an empty queue, and while it is
blocked the queue stays empty, except between a push and its notification. -/
structure Served (u : ι) (v : State ι T) : Prop where
  block : ∀ c, v.pc u = .block c → v.queue.queue = []
  waiting : u ∈ v.queue.cv.waiting → v.queue.queue = [] ∨ ∃ t, v.queue.mutex = some t ∧ v.pc t = .notifyOne

theorem Tracked.pc_of_waiting {v : State ι T} (ht : Tracked v) (hw : t ∈ v.queue.cv.waiting) :
    ∃ c, v.pc t = .wait c := by
  have hm : t ∈ threads v.queue.cv := by simp [threads, hw]
  have hp := (ht.mem_iff t).mp hm
  cases hc : v.pc t with
  | wait c => exact ⟨c, rfl⟩
  | _ => simp [waits, hc] at hp

theorem Tracked.nodup_waiting {v : State ι T} (ht : Tracked v) : v.queue.cv.waiting.Nodup := by
  have hn := ht.nodup
  rw [threads, List.append_assoc] at hn
  exact (List.nodup_append.mp hn).1

/-- A thread in its critical section, not about to notify, has left nothing in
the queue that a blocked consumer does not know of. -/
theorem Served.empty {v : State ι T} (hv : Served u v) (hx : Exclusive v) (hc : critical (v.pc t) = true)
    (hne : v.pc t ≠ .notifyOne) (hw : u ∈ v.queue.cv.waiting) : v.queue.queue = [] := by
  rcases hv.waiting hw with hq | ⟨t', hm, ht'⟩
  · exact hq
  · have he : t = t' := Option.some.inj ((hx t hc).symm.trans hm)
    exact absurd (he ▸ ht') hne

variable [DecidableEq ι]

theorem step_waiting_served {v : State ι T} (hv : Served u v) (hx : Exclusive v) (ht : Tracked v)
    (honly : ∀ t, popping (v.pc t) = true → t = u) (hs : Step cond t v.queue (v.pc t) q pc)
    (hw : u ∈ q.cv.waiting) :
    q.queue = [] ∨ ∃ t', q.mutex = some t' ∧ Function.update v.pc t pc t' = .notifyOne := by
  generalize hp : v.pc t = p at hs
  have hpop (hpp : popping p = true) : t = u := honly t (by rw [hp]; exact hpp)
  -- a blocked thread stands in its wait
  have hnot (hwait : u ∈ v.queue.cv.waiting) (hpp : popping p = true) (hne : ∀ c, p ≠ .wait c) : False := by
    obtain ⟨c, hc⟩ := Tracked.pc_of_waiting ht hwait
    rw [← hpop hpp, hp] at hc
    exact hne c hc
  have hempty (hcrit : critical p = true) (hne : p ≠ .notifyOne) (hwait : u ∈ v.queue.cv.waiting) :
      v.queue.queue = [] := hv.empty hx (by rw [hp]; exact hcrit) (by rw [hp]; exact hne) hwait
  cases hs with
  | lock op hfree =>
      rcases hv.waiting hw with hq | ⟨t', hm, -⟩
      · exact .inl hq
      · rw [hfree] at hm
        cases hm
  | push x => exact .inr ⟨t, hx t (by rw [hp]; rfl), by simp⟩
  | notifyNone hnone =>
      rw [hnone] at hw
      cases hw
  | notifyOne w hm =>
      obtain ⟨c, hc⟩ := Tracked.pc_of_waiting ht hm
      have hwu : w = u := honly w (by rw [hc]; rfl)
      subst hwu
      exact absurd hw (List.Nodup.not_mem_erase (Tracked.nodup_waiting ht))
  | block c =>
      have he := hpop rfl
      subst he
      exact .inl (hv.block c hp)
  | spurious c hm =>
      have he := hpop rfl
      subst he
      exact absurd hw (List.Nodup.not_mem_erase (Tracked.nodup_waiting ht))
  | resume c hawake =>
      have he := hpop rfl
      subst he
      exact absurd hawake (ht.not_awake hw)
  | testTrue | testFalse | stopped | checked | take | fault => exact (hnot hw rfl (by simp)).elim
  | clearOne x rest hq =>
      have hnil := hempty rfl (by simp) hw
      rw [hq] at hnil
      cases hnil
  | cleared | size | unlock => exact .inl (hempty rfl (by simp) hw)
  | requestStop =>
      rcases hv.waiting hw with hq | ⟨t', hm, ht'⟩
      · exact .inl hq
      · have hne : t' ≠ t := by
          rintro rfl
          rw [hp] at ht'
          cases ht'
        exact .inr ⟨t', hm, by simpa [hne] using ht'⟩
  | notifyAll => cases hw

theorem turn_served {v : State ι T} (hv : Served u v) (hx : Exclusive v) (ht : Tracked v)
    (honly : ∀ t, popping (v.pc t) = true → t = u) (h : Turn t v.queue (v.pc t) q pc) :
    Served u ⟨q, Function.update v.pc t pc⟩ := by
  -- entering or leaving a call changes neither the queue nor a position that matters
  have hmove (hready : ready (v.pc t) = true) (hb : ∀ c, pc ≠ .block c) :
      Served u ⟨v.queue, Function.update v.pc t pc⟩ := by
    refine ⟨fun c hc => ?_, fun hw => ?_⟩
    · rcases update_cases hc with ⟨-, he⟩ | ⟨-, hc⟩
      · exact absurd he (hb c)
      · exact hv.block c hc
    · rcases hv.waiting hw with hq | ⟨t', hm, ht'⟩
      · exact .inl hq
      · have hne : t' ≠ t := by
          rintro rfl
          rw [ht'] at hready
          cases hready
        exact .inr ⟨t', hm, by simpa [hne] using ht'⟩
  generalize hp : v.pc t = p at h
  cases h with
  | stay =>
      rw [← hp, Function.update_eq_self]
      exact hv
  | call op hready => exact hmove (by rw [hp]; exact hready) (entry_ne op).2
  | leave hready => exact hmove (by rw [hp]; exact hready) (by simp)
  | step cond hs =>
      rw [← hp] at hs
      refine ⟨fun c hc => ?_, step_waiting_served hv hx ht honly hs⟩
      rcases update_cases hc with ⟨rfl, rfl⟩ | ⟨hne, hc⟩
      · exact step_to_block hs
      · exact (step_queue_of_other hx hs hne (by rw [hc]; rfl)).trans (hv.block c hc)

/-- The owner of the mutex is in its critical section. Stop is not among the
functions that lock. -/
structure InSection (v : State ι T) : Prop where
  owner : ∀ t, v.queue.mutex = some t → critical (v.pc t) = true
  stop : ∀ t, v.pc t ≠ .lock .stop

theorem step_owner_critical (hs : Step cond t q pc q' pc') (hm : q.mutex = some t → critical pc = true)
    (hne : pc ≠ .lock .stop) (hm' : q'.mutex = some t) : critical pc' = true := by
  cases hs with
  | lock op =>
      cases op with
      | stop => exact absurd rfl hne
      | push | pop | clear | size => rfl
  | block | unlock => cases hm'
  | spurious | requestStop | notifyAll => cases hm hm'
  | push | notifyNone | notifyOne | testTrue | testFalse | resume | stopped | checked | take | fault | clearOne
  | cleared | size => rfl

theorem step_mutex_of_other (hs : Step cond t q pc q' pc') (hne : u ≠ t) (hu : q'.mutex = some u) :
    q.mutex = some u := by
  cases hs with
  | lock | resume => exact absurd (Option.some.inj hu).symm hne
  | block | unlock => cases hu
  | push | notifyNone | notifyOne | testTrue | testFalse | spurious | stopped | checked | take | fault | clearOne
  | cleared | size | requestStop | notifyAll => exact hu

theorem step_ne_lock (hs : Step cond t q pc q' pc') (op : Op T) : pc' ≠ .lock op := by
  cases hs with
  | lock op' => cases op' <;> simp [Op.body]
  | _ => simp

theorem turn_inSection {v : State ι T} (hv : InSection v) (h : Turn t v.queue (v.pc t) q pc) :
    InSection ⟨q, Function.update v.pc t pc⟩ := by
  have hmove (hready : ready (v.pc t) = true) (hne : pc ≠ .lock .stop) :
      InSection ⟨v.queue, Function.update v.pc t pc⟩ := by
    refine ⟨fun u hu => ?_, fun u hu => ?_⟩
    · have hut : u ≠ t := by
        rintro rfl
        have hc := hv.owner u hu
        cases hp : v.pc u <;> simp [hp, ready, critical] at hready hc
      simpa [hut] using hv.owner u hu
    · rcases update_cases hu with ⟨-, he⟩ | ⟨-, hu⟩
      · exact hne he
      · exact hv.stop u hu
  generalize hp : v.pc t = p at h
  cases h with
  | stay =>
      rw [← hp, Function.update_eq_self]
      exact hv
  | call op hready => exact hmove (by rw [hp]; exact hready) (by cases op <;> simp [Op.entry])
  | leave hready => exact hmove (by rw [hp]; exact hready) (by simp)
  | step cond hs =>
      rw [← hp] at hs
      refine ⟨fun u hu => ?_, fun u hu => ?_⟩
      · by_cases he : u = t
        · subst he
          simpa using step_owner_critical hs (hv.owner u) (hv.stop u) hu
        · simpa [he] using hv.owner u (step_mutex_of_other hs he hu)
      · rcases update_cases hu with ⟨-, he⟩ | ⟨-, hu⟩
        · exact step_ne_lock hs _ he
        · exact hv.stop u hu

theorem reachable_inSection {ok : State ι T → Action ι T → Prop} {v : State ι T}
    (hr : Reachable (system ι T) ok v) : InSection v := by
  refine hr.invariant (P := InSection) ?_ ?_
  · rintro v rfl
    exact ⟨fun t ht => (by cases ht), fun t ht => by cases ht⟩
  · intro v a v' _ hv _ hn
    rcases next_cases hn with ⟨t, p, hready, rfl, ⟨op, -, rfl⟩ | ⟨-, rfl⟩⟩ | ⟨t, cond, ch, q, p, -, hs, rfl⟩
    · exact turn_inSection hv (.call op hready)
    · exact turn_inSection hv (.leave hready)
    · exact turn_inSection hv (.step cond hs)

/-- Stop has come through: nobody is blocked or about to block. -/
structure Hushed (v : State ι T) : Prop where
  stopped : v.queue.stopRequested = true
  unblocked : v.queue.cv.waiting = []
  unblocking : ∀ t c, v.pc t ≠ .block c

theorem turn_hushed {v : State ι T} (hv : Hushed v) (h : Turn t v.queue (v.pc t) q pc) :
    Hushed ⟨q, Function.update v.pc t pc⟩ := by
  have hmove (hb : ∀ c, pc ≠ .block c) (u : ι) (c : Bool) : Function.update v.pc t pc u ≠ .block c := by
    intro hu
    rcases update_cases hu with ⟨-, he⟩ | ⟨-, hu⟩
    · exact hb c he
    · exact hv.unblocking u c hu
  generalize hp : v.pc t = p at h
  cases h with
  | stay =>
      rw [← hp, Function.update_eq_self]
      exact hv
  | call op hready => exact ⟨hv.stopped, hv.unblocked, hmove (entry_ne op).2⟩
  | leave hready => exact ⟨hv.stopped, hv.unblocked, hmove (by simp)⟩
  | step cond hs =>
      refine ⟨step_stopRequested hs hv.stopped, ?_, hmove ?_⟩
      · exact step_waiting hs (by rw [← hp]; exact hv.unblocking t) hv.unblocked
      · rintro c rfl
        have hs := not_stopRequested_of_block hs
        rw [hv.stopped] at hs
        cases hs

/-- The queue has been asked to stop, and nobody is about to take from it. -/
structure Stale (v : State ι T) : Prop where
  stopped : v.queue.stopRequested = true
  untaken : ∀ t c, v.pc t ≠ .take c

theorem turn_stale {v : State ι T} (hv : Stale v) (h : Turn t v.queue (v.pc t) q pc) :
    Stale ⟨q, Function.update v.pc t pc⟩ := by
  refine ⟨h.stopRequested hv.stopped, fun u c hu => ?_⟩
  rcases update_cases hu with ⟨rfl, rfl⟩ | ⟨-, hu⟩
  · generalize hp : v.pc u = p at h
    generalize hpc : (.take c : Pc T) = p' at h
    cases h with
    | stay =>
        subst hpc
        exact hv.untaken u c hp
    | call op => cases op <;> cases hpc
    | leave => cases hpc
    | step cond hs =>
        cases hs with
        | checked c hs =>
            rw [hv.stopped] at hs
            cases hs
        | lock op => cases op <;> cases hpc
        | _ => cases hpc
  · exact hv.untaken u c hu

theorem turn_requestStop (h : Turn t q pc q' pc') (hq : q.stopRequested = false) (hq' : q'.stopRequested = true) :
    pc' = .notifyAll := by
  cases h with
  | step cond hs =>
      cases hs with
      | requestStop => rfl
      | _ => simp [hq] at hq'
  | _ => simp [hq] at hq'

end Enigma.QueueConsumer
