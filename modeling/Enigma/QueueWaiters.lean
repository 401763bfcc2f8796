import Enigma.QueueThreads

namespace Enigma.QueueWaiters

open Transition CondVar SyncQueue QueueStep QueueThreads

variable {ι T : Type} [DecidableEq ι] {cond : Bool} {t : ι} {q q' : Queue ι T} {pc pc' : Pc T}

def waits : Pc T → Bool
  | .wait _ => true
  | _ => false

/-- The condition variable knows exactly the threads inside its wait, and
each of them once. -/
structure Tracked (s : State ι T) : Prop where
  nodup : (threads s.queue.cv).Nodup
  mem_iff : ∀ t, t ∈ threads s.queue.cv ↔ waits (s.pc t) = true

theorem step_threads (h : Step cond t q pc q' pc') (hn : (threads q.cv).Nodup) :
    ((threads q'.cv).Perm (threads q.cv) ∧ waits pc' = waits pc) ∨
    ((threads q'.cv).Perm (t :: threads q.cv) ∧ waits pc = false ∧ waits pc' = true) ∨
    ((threads q.cv).Perm (t :: threads q'.cv) ∧ waits pc' = false) := by
  cases h with
  | block => exact .inr (.inl ⟨List.Perm.refl _, rfl, rfl⟩)
  | resume c ha => exact .inr (.inr ⟨threads_resume ha hn, rfl⟩)
  | notifyOne w hw => exact .inl ⟨threads_notifyOne hw, rfl⟩
  | spurious c hw => exact .inl ⟨threads_wakeSpuriously hw, rfl⟩
  | lock op => cases op <;> exact .inl ⟨List.Perm.refl _, rfl⟩
  | push | notifyNone | testTrue | testFalse | stopped | checked | take | fault | clearOne | cleared
  | size | unlock | requestStop | notifyAll => exact .inl ⟨List.Perm.refl _, rfl⟩

theorem step_tracked {s : State ι T} (ht : Tracked s) (hs : Step cond t s.queue (s.pc t) q pc) :
    Tracked ⟨q, Function.update s.pc t pc⟩ := by
  rcases step_threads hs ht.nodup with ⟨hp, hw⟩ | ⟨hp, hw, hw'⟩ | ⟨hp, hw⟩
  · refine ⟨hp.nodup_iff.mpr ht.nodup, fun u => ?_⟩
    rw [hp.mem_iff, ht.mem_iff]
    by_cases hu : u = t
    · subst hu; simp [hw]
    · simp [hu]
  · have hnew : t ∉ threads s.queue.cv := by
      rw [ht.mem_iff, hw]
      exact Bool.false_ne_true
    refine ⟨hp.nodup_iff.mpr (List.nodup_cons.mpr ⟨hnew, ht.nodup⟩), fun u => ?_⟩
    rw [hp.mem_iff, List.mem_cons, ht.mem_iff]
    by_cases hu : u = t
    · subst hu; simp [hw']
    · simp [hu]
  · obtain ⟨hgone, hn⟩ := List.nodup_cons.mp (hp.nodup_iff.mp ht.nodup)
    refine ⟨hn, fun u => ?_⟩
    by_cases hu : u = t
    · subst hu; simp [hw, hgone]
    · have hm := ht.mem_iff u
      rw [hp.mem_iff, List.mem_cons] at hm
      simpa [hu] using hm

theorem call_tracked {s : State ι T} (ht : Tracked s) (hready : ready (s.pc t) = true)
    (hw : waits pc = false) : Tracked ⟨s.queue, Function.update s.pc t pc⟩ := by
  refine ⟨ht.nodup, fun u => ?_⟩
  rw [ht.mem_iff]
  by_cases hu : u = t
  · subst hu
    have hz : waits (s.pc u) = false := by
      cases hp : s.pc u with
      | wait c => rw [hp] at hready; cases hready
      | idle | lock | push | notifyOne | test | block | check | take | clear | size | unlock
      | requestStop | notifyAll | returned | fault => rfl
    simp [hz, hw]
  · simp [hu]

theorem reachable_tracked {ok : State ι T → Action ι T → Prop} {s : State ι T}
    (hr : Reachable (system ι T) ok s) : Tracked s := by
  refine hr.invariant (P := Tracked) ?_ ?_
  · rintro s rfl
    exact ⟨List.nodup_nil, fun t => by simp [threads, initial, waits]⟩
  · intro s a s' _ ht _ hn
    rcases next_cases hn with ⟨t, pc, hready, rfl, ⟨op, -, rfl⟩ | ⟨-, rfl⟩⟩ |
      ⟨t, cond, ch, q, pc, -, hs, rfl⟩
    · exact call_tracked ht hready (by cases op <;> rfl)
    · exact call_tracked ht hready rfl
    · exact step_tracked ht hs

omit [DecidableEq ι] in
theorem Tracked.awake_or_waiting {s : State ι T} (ht : Tracked s) {c : Bool} (hp : s.pc t = .wait c) :
    Awake s.queue.cv t ∨ t ∈ s.queue.cv.waiting := by
  have hm : t ∈ threads s.queue.cv := (ht.mem_iff t).mpr (by rw [hp]; rfl)
  simp only [threads, List.mem_append] at hm
  rcases hm with (hm | hm) | hm
  · exact .inr hm
  · exact .inl (.inl hm)
  · exact .inl (.inr hm)

omit [DecidableEq ι] in
theorem Tracked.not_awake {s : State ι T} (ht : Tracked s) (hw : t ∈ s.queue.cv.waiting) :
    ¬ Awake s.queue.cv t := by
  obtain ⟨hn, -, hs⟩ := List.nodup_append.mp ht.nodup
  obtain ⟨-, -, hn⟩ := List.nodup_append.mp hn
  rintro (hm | hm)
  · exact hn t hw t hm rfl
  · exact hs t (List.mem_append_left _ hw) t hm rfl

end Enigma.QueueWaiters
