import Enigma.Transition
import Mathlib.Algebra.BigOperators.Group.Finset.Basic

namespace Enigma.Rest

open Transition

variable {σ α : Type} {S : System σ α} {moves : α → Prop} {Inv : σ → Prop} {μ : σ → Nat} {s s' : σ} {as : List α}

/-- None of the actions that count as moves is possible. -/
def AtRest (S : System σ α) (moves : α → Prop) (s : σ) : Prop := ∀ a, moves a → S.next s a = none

/-- Every move keeps the invariant and uses up some of the measure. -/
structure Settles (S : System σ α) (moves : α → Prop) (Inv : σ → Prop) (μ : σ → Nat) : Prop where
  keeps : ∀ s a s', Inv s → moves a → S.next s a = some s' → Inv s'
  drops : ∀ s a s', Inv s → moves a → S.next s a = some s' → μ s' < μ s

theorem Settles.length_add_le (h : Settles S moves Inv μ) (hs : Inv s) (hm : ∀ a ∈ as, moves a)
    (hr : run S s as = some s') : as.length + μ s' ≤ μ s := by
  induction as generalizing s with
  | nil =>
      cases hr
      exact Nat.le_of_eq (Nat.zero_add _)
  | cons a as ih =>
      obtain ⟨t, hn, ht⟩ := Option.bind_eq_some_iff.mp hr
      have ha := hm a List.mem_cons_self
      have hlen := ih (h.keeps s a t hs ha hn) (fun b hb => hm b (List.mem_cons_of_mem _ hb)) ht
      have hlt := h.drops s a t hs ha hn
      rw [List.length_cons]
      omega

theorem Settles.run_keeps (h : Settles S moves Inv μ) (hs : Inv s) (hm : ∀ a ∈ as, moves a)
    (hr : run S s as = some s') : Inv s' := by
  induction as generalizing s with
  | nil =>
      cases hr
      exact hs
  | cons a as ih =>
      obtain ⟨t, hn, ht⟩ := Option.bind_eq_some_iff.mp hr
      exact ih (h.keeps s a t hs (hm a List.mem_cons_self) hn) (fun b hb => hm b (List.mem_cons_of_mem _ hb)) ht

theorem Settles.exists_rest (h : Settles S moves Inv μ) (hs : Inv s) :
    ∃ as t, (∀ a ∈ as, moves a) ∧ run S s as = some t ∧ AtRest S moves t := by
  induction hμ : μ s using Nat.strong_induction_on generalizing s with
  | _ n ih =>
      by_cases hrest : AtRest S moves s
      · exact ⟨[], s, by simp, rfl, hrest⟩
      · simp only [AtRest, not_forall] at hrest
        obtain ⟨a, ha, hne⟩ := hrest
        obtain ⟨t, hn⟩ := Option.ne_none_iff_exists'.mp hne
        have hlt := h.drops s a t hs ha hn
        obtain ⟨as, u, hm, hr, hu⟩ := ih (μ t) (by omega) (h.keeps s a t hs ha hn) rfl
        refine ⟨a :: as, u, ?_, ?_, hu⟩
        · intro b hb
          rcases List.mem_cons.mp hb with rfl | hb
          · exact ha
          · exact hm b hb
        · rw [run, hn]
          exact hr

theorem run_startingAt (t : σ) : run (startingAt S t) s as = run S s as := by
  induction as generalizing s with
  | nil => rfl
  | cons a as ih =>
      simp only [run, startingAt] at ih ⊢
      simp only [ih]

theorem reachable_run {ε : Type} {obs : σ → α → List ε} {okL : σ × List ε → α → Prop} {h : List ε}
    (hr : Reachable (logged S obs) okL (s, h)) (hok : ∀ p a, moves a → okL p a) (hm : ∀ a ∈ as, moves a)
    (hrun : run S s as = some s') : ∃ h', Reachable (logged S obs) okL (s', h ++ h') := by
  induction as generalizing s h with
  | nil =>
      cases hrun
      exact ⟨[], by rwa [List.append_nil]⟩
  | cons a as ih =>
      obtain ⟨t, hn, ht⟩ := Option.bind_eq_some_iff.mp hrun
      have hstep := hr.logged_step (hok (s, h) a (hm a List.mem_cons_self)) hn
      obtain ⟨h', hr'⟩ := ih hstep (fun b hb => hm b (List.mem_cons_of_mem _ hb)) ht
      exact ⟨obs s a ++ h', by rwa [← List.append_assoc]⟩

theorem sum_of_eq_elsewhere {n i : Nat} {f g : Nat → Nat} (hi : i < n) (h : ∀ j, j ≠ i → g j = f j) :
    (∑ j ∈ Finset.range n, g j) + f i = (∑ j ∈ Finset.range n, f j) + g i := by
  have hmem : i ∈ Finset.range n := Finset.mem_range.mpr hi
  have hrest : ∑ j ∈ (Finset.range n).erase i, g j = ∑ j ∈ (Finset.range n).erase i, f j :=
    Finset.sum_congr rfl fun j hj => h j (Finset.ne_of_mem_erase hj)
  have hnew := Finset.add_sum_erase (Finset.range n) g hmem
  have hold := Finset.add_sum_erase (Finset.range n) f hmem
  omega

end Enigma.Rest
