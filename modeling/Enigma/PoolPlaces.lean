import Mathlib.Data.List.Nodup
import Enigma.PoolTasks

namespace Enigma.PoolPlaces

open Transition SyncQueue ThreadPool PoolStep PoolLog PoolTasks Indexed

def tag (g : Event → Option Nat) (e : Event) : Option (Nat × Nat) :=
  (g e).map fun x => (Event.worker e, x)

variable {g g' g₁ g₂ : Event → Option Nat}

theorem filterMap_eq_tags (g : Event → Option Nat) (h : List Event) :
    h.filterMap g = (h.filterMap (tag g)).map Prod.snd := by
  rw [List.map_filterMap]
  refine congrArg (h.filterMap ·) (funext fun e => ?_)
  simp [tag, Function.comp_def]

theorem count_ofWorker (g : Event → Option Nat) (h : List Event) (w x : Nat) :
    ((ofWorker w h).filterMap g).count x = (h.filterMap (tag g)).count (w, x) := by
  induction h with
  | nil => rfl
  | cons e h ih =>
      by_cases hw : Event.worker e = w
      · have ho : ofWorker w (e :: h) = e :: ofWorker w h := by simp [ofWorker, hw]
        rw [ho]
        cases he : g e with
        | none => rw [List.filterMap_cons_none he, List.filterMap_cons_none (by simp [tag, he]), ih]
        | some y =>
            have ht : tag g e = some (w, y) := by simp [tag, he, hw]
            rw [List.filterMap_cons_some he, List.filterMap_cons_some ht, List.count_cons,
              List.count_cons, ih]
            simp
      · have ho : ofWorker w (e :: h) = ofWorker w h := by simp [ofWorker, hw]
        rw [ho, ih]
        cases he : g e with
        | none => rw [List.filterMap_cons_none (by simp [tag, he])]
        | some y =>
            have ht : tag g e = some (Event.worker e, y) := by simp [tag, he]
            have hne : (Event.worker e, y) ≠ (w, x) := fun hp => hw (congrArg Prod.fst hp)
            rw [List.filterMap_cons_some ht, List.count_cons_of_ne hne]

theorem count_ofWorker_le (g : Event → Option Nat) (h : List Event) (w x : Nat) :
    ((ofWorker w h).filterMap g).count x ≤ (h.filterMap g).count x :=
  (List.filter_sublist.filterMap g).count_le x

theorem mem_of_mem_ofWorker {h : List Event} {w x : Nat} (hx : x ∈ (ofWorker w h).filterMap g) :
    x ∈ h.filterMap g :=
  (List.filter_sublist.filterMap g).subset hx

theorem mem_ofWorker {h : List Event} {x : Nat} (hx : x ∈ h.filterMap g) :
    ∃ w, x ∈ (ofWorker w h).filterMap g := by
  obtain ⟨e, he, hx⟩ := List.mem_filterMap.mp hx
  exact ⟨Event.worker e, List.mem_filterMap.mpr ⟨e, List.mem_filter.mpr ⟨he, beq_self_eq_true _⟩, hx⟩⟩

/-- What holds between the counts of every worker holds between the counts of
the pool. -/
theorem count_add_le_of_workers {h : List Event}
    (hle : ∀ w x, ((ofWorker w h).filterMap g₁).count x + ((ofWorker w h).filterMap g₂).count x ≤
      ((ofWorker w h).filterMap g).count x) (x : Nat) :
    (h.filterMap g₁).count x + (h.filterMap g₂).count x ≤ (h.filterMap g).count x := by
  rw [filterMap_eq_tags g₁, filterMap_eq_tags g₂, filterMap_eq_tags g, ← List.count_append,
    ← List.map_append]
  apply count_untagged_le
  intro w y
  rw [List.count_append, ← count_ofWorker, ← count_ofWorker, ← count_ofWorker]
  exact hle w y

theorem count_le_of_workers {h : List Event}
    (hle : ∀ w x, ((ofWorker w h).filterMap g').count x ≤ ((ofWorker w h).filterMap g).count x)
    (x : Nat) : (h.filterMap g').count x ≤ (h.filterMap g).count x := by
  rw [filterMap_eq_tags g', filterMap_eq_tags g]
  apply count_untagged_le
  intro w y
  rw [← count_ofWorker, ← count_ofWorker]
  exact hle w y

theorem exists_worker {h : List Event} {x : Nat} (hx : (h.filterMap g).count x = 1) :
    ∃ w, ((ofWorker w h).filterMap g).count x = 1 ∧
      ∀ v, v ≠ w → ((ofWorker v h).filterMap g).count x = 0 := by
  have htag := hx
  rw [filterMap_eq_tags] at htag
  obtain ⟨w, hw⟩ := exists_tag (l := h.filterMap (tag g)) (x := x) (by omega)
  refine ⟨w, ?_, fun v hv => ?_⟩
  · have hle := count_ofWorker_le g h w x
    rw [count_ofWorker] at hle ⊢
    omega
  · have hle := count_tags_le hv (h.filterMap (tag g)) x
    rw [count_ofWorker]
    omega

/-- Where a task that was accepted can be. A worker holds the task from the
moment it leaves the queue until its decrement of the counter. -/
inductive Place
  | queued (w : Nat)
  | held (w : Nat)
  | finished (w : Nat)
  | discarded (w : Nat)
  deriving DecidableEq, Repr

def queueOf (s : State) (w : Nat) : List Nat := ((s.pool.heap[w]?).map (·.tasks.queue)).getD []

def handsOf (s : State) (w : Nat) : List Nat :=
  ((s.pool.heap[w]?).map fun wk => inProgress wk ++ unstarted wk).getD []

def copies (s : State) (h : List Event) (x : Nat) : Place → Nat
  | .queued w => (queueOf s w).count x
  | .held w => (handsOf s w).count x
  | .finished w => (ends (ofWorker w h)).count x
  | .discarded w => (Fifo.drops (traffic (ofWorker w h))).count x

variable {hw : Nat} {s : State} {h : List Event}

theorem copies_worker (hb : Books s h) (w x : Nat) :
    copies s h x (.queued w) + copies s h x (.held w) + copies s h x (.finished w) +
      copies s h x (.discarded w) = (Fifo.pushes (traffic (ofWorker w h))).count x := by
  cases hk : s.pool.heap[w]? with
  | none =>
      have hnil := hb.ledger.unborn w (List.getElem?_eq_none_iff.mp hk)
      simp only [copies, queueOf, handsOf, hk, hnil]
      rfl
  | some wk =>
      have ha := hb.ledger.accounted w wk hk
      have hpush := ha.replays.count_pushes x
      have hpop := congrArg (List.count x) ha.popped
      have hstart := congrArg (List.count x) ha.started
      rw [List.count_append] at hpop hstart
      simp only [copies, queueOf, handsOf, hk, Option.map_some, Option.getD_some, List.count_append]
      omega

theorem starts_sublist (hb : Books s h) (w : Nat) :
    (starts (ofWorker w h)).Sublist (Fifo.pushes (traffic (ofWorker w h))) := by
  cases hk : s.pool.heap[w]? with
  | none =>
      rw [hb.ledger.unborn w (List.getElem?_eq_none_iff.mp hk)]
      exact List.Sublist.refl _
  | some wk =>
      have ha := hb.ledger.accounted w wk hk
      have hpop : (starts (ofWorker w h)).Sublist (Fifo.pops (traffic (ofWorker w h))) := by
        rw [ha.popped]
        exact List.sublist_append_left _ _
      exact hpop.trans ha.replays.pops_sublist_pushes

theorem placed_le_one (pc : CallPc) : placed pc ≤ 1 := by
  unfold placed
  split <;> omega

theorem count_pushes_le_one (hb : Books s h) (x : Nat) : (Fifo.pushes (traffic h)).count x ≤ 1 := by
  rw [hb.placed x, placedAt]
  cases s.calls[x]? with
  | none => exact Nat.zero_le 1
  | some pc => exact placed_le_one pc

theorem count_starts_le (hb : Books s h) (x : Nat) :
    (starts h).count x ≤ (Fifo.pushes (traffic h)).count x := by
  rw [pushes_traffic]
  apply count_le_of_workers
  intro w y
  rw [← pushes_traffic]
  exact (starts_sublist hb w).count_le y

theorem count_rets_ofWorker_le (hb : Books s h) (w x : Nat) :
    (ends (ofWorker w h)).count x ≤ (rets (ofWorker w h)).count x ∧
    (rets (ofWorker w h)).count x + (Fifo.drops (traffic (ofWorker w h))).count x ≤
      (Fifo.pushes (traffic (ofWorker w h))).count x := by
  cases hk : s.pool.heap[w]? with
  | none =>
      rw [hb.ledger.unborn w (List.getElem?_eq_none_iff.mp hk)]
      exact ⟨Nat.le_refl _, Nat.le_refl _⟩
  | some wk =>
      have ha := hb.ledger.accounted w wk hk
      have hpush := ha.replays.count_pushes x
      have hpop := congrArg (List.count x) ha.popped
      have hstart := congrArg (List.count x) ha.started
      have hret := congrArg (List.count x) ha.returned
      have hle : (returning wk).count x ≤ (inProgress wk).count x := by
        unfold returning inProgress
        cases wk.pc <;> simp
      rw [List.count_append] at hpop hstart hret
      constructor <;> omega

theorem count_rets_add_drops_le (hb : Books s h) (x : Nat) :
    (rets h).count x + (Fifo.drops (traffic h)).count x ≤ placedAt s.calls x := by
  rw [← hb.placed x, drops_traffic, pushes_traffic]
  apply count_add_le_of_workers
  intro w y
  rw [← drops_traffic, ← pushes_traffic]
  exact (count_rets_ofWorker_le hb w y).2

theorem count_ends_le (hb : Books s h) (x : Nat) : (ends h).count x ≤ (rets h).count x := by
  apply count_le_of_workers
  intro w y
  exact (count_rets_ofWorker_le hb w y).1

theorem exists_place (hb : Books s h) {x : Nat} (hx : (Fifo.pushes (traffic h)).count x = 1) :
    ∃ p, copies s h x p = 1 ∧ ∀ p', p' ≠ p → copies s h x p' = 0 := by
  rw [pushes_traffic] at hx
  obtain ⟨w, hone, hzero⟩ := exists_worker hx
  have hself := copies_worker hb w x
  rw [pushes_traffic, hone] at hself
  -- the other workers have never had the task
  have hother (v : Nat) (hv : v ≠ w) := (copies_worker hb v x).trans (pushes_traffic _ ▸ hzero v hv)
  have hp : ∃ p, copies s h x p = 1 ∧ (p = .queued w ∨ p = .held w ∨ p = .finished w ∨ p = .discarded w) := by
    by_cases hq : copies s h x (.queued w) = 1
    · exact ⟨_, hq, by simp⟩
    by_cases hh : copies s h x (.held w) = 1
    · exact ⟨_, hh, by simp⟩
    by_cases hf : copies s h x (.finished w) = 1
    · exact ⟨_, hf, by simp⟩
    · exact ⟨.discarded w, by omega, by simp⟩
  obtain ⟨p, hp, hpw⟩ := hp
  refine ⟨p, hp, fun p' hne => ?_⟩
  cases p' with
  | queued v | held v | finished v | discarded v =>
      by_cases hv : v = w
      · subst hv
        rcases hpw with rfl | rfl | rfl | rfl <;> first | omega | exact (hne rfl).elim
      · have := hother v hv
        omega

/-- A task whose Submit has returned true is at every moment in exactly one place; none starts
twice, a refused one never, and a worker starts its tasks in the order of their routing. -/
theorem accepted_in_one_place (hr : Reachable (logged (system hw) obs) Any (s, h)) :
    (∀ x, s.calls[x]? = some (.done (.submitted true)) →
      ∃ p, copies s h x p = 1 ∧ ∀ p', p' ≠ p → copies s h x p' = 0) ∧
    (∀ x, (starts h).count x ≤ 1) ∧
    (∀ x, s.calls[x]? = some (.done (.submitted false)) → x ∉ starts h) ∧
    (∀ w, (Fifo.pushes (traffic (ofWorker w h))).Nodup ∧
      (starts (ofWorker w h)).Sublist (Fifo.pushes (traffic (ofWorker w h)))) := by
  have hb := reachable_books hr
  refine ⟨fun x hx => ?_, fun x => ?_, fun x hx hm => ?_, fun w => ⟨?_, starts_sublist hb w⟩⟩
  · apply exists_place hb
    rw [hb.placed x, placedAt, hx]
    rfl
  · exact Nat.le_trans (count_starts_le hb x) (count_pushes_le_one hb x)
  · have hle := count_starts_le hb x
    have hpos := List.count_pos_iff.mpr hm
    rw [hb.placed x, placedAt, hx] at hle
    exact absurd (Nat.lt_of_lt_of_le hpos hle) (by decide)
  · apply List.nodup_iff_count_le_one.mpr
    intro x
    have hle := count_pushes_le_one hb x
    rw [pushes_traffic] at hle ⊢
    exact Nat.le_trans (count_ofWorker_le pushOf h w x) hle

theorem accepted_in_one_place_running : ∃ s h, s.calls[1]? = some (.done (.submitted true)) ∧
    starts h = [1] ∧ ∃ p, copies s h 1 p = 1 ∧ ∀ p', p' ≠ p → copies s h 1 p' = 0 := by
  obtain ⟨⟨s, h⟩, hr, hp⟩ := exists_of_run (logged (system 1) obs) Any (fun _ _ => true) ({}, [])
    (List.flatten [[.call (.startup ⟨1, 0, false⟩)], walk 0 8, [.call .submit], walk 1 11, work 0 9])
    (fun p : State × List Event =>
      decide (p.1.calls[1]? = some (CallPc.done (.submitted true)) ∧ starts p.2 = [1]))
    (fun _ _ _ => trivial) ⟨rfl, rfl⟩ (by decide)
  obtain ⟨hx, hs⟩ := of_decide_eq_true hp
  exact ⟨s, h, hx, hs, (accepted_in_one_place hr).1 1 hx⟩

end Enigma.PoolPlaces
