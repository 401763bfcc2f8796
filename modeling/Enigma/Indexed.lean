import Mathlib.Algebra.BigOperators.Group.List.Basic
import Mathlib.Algebra.Order.Ring.Nat
import Mathlib.Data.List.Perm.Subperm

namespace Enigma.Indexed

variable {α β : Type}

theorem set_cases {l : List α} {i j : Nat} {a b : α} (h : (l.set i b)[j]? = some a) :
    (j = i ∧ a = b ∧ i < l.length) ∨ (j ≠ i ∧ l[j]? = some a) := by
  by_cases he : j = i
  · subst he
    rw [List.getElem?_set_self'] at h
    obtain ⟨x, hx, rfl⟩ := Option.map_eq_some_iff.mp h
    exact .inl ⟨rfl, rfl, (List.getElem?_eq_some_iff.mp hx).1⟩
  · rw [List.getElem?_set_ne (Ne.symm he)] at h
    exact .inr ⟨he, h⟩

theorem append_cases {l : List α} {j : Nat} {a b : α} (h : (l ++ [b])[j]? = some a) :
    (j = l.length ∧ a = b) ∨ l[j]? = some a := by
  rcases Nat.lt_trichotomy j l.length with hj | hj | hj
  · rw [List.getElem?_append_left hj] at h
    exact .inr h
  · subst hj
    rw [List.getElem?_concat_length] at h
    exact .inl ⟨rfl, (Option.some.inj h).symm⟩
  · rw [List.getElem?_eq_none (by simp; omega)] at h
    cases h

theorem forall_set {P : Nat → α → Prop} {l : List α} {i : Nat} {b : α}
    (h : ∀ j a, l[j]? = some a → P j a) (hb : P i b) (j : Nat) (a : α)
    (ha : (l.set i b)[j]? = some a) : P j a := by
  rcases set_cases ha with ⟨rfl, rfl, -⟩ | ⟨-, ha⟩
  · exact hb
  · exact h j a ha

theorem forall_append {P : Nat → α → Prop} {l : List α} {b : α}
    (h : ∀ j a, l[j]? = some a → P j a) (hb : P l.length b) (j : Nat) (a : α)
    (ha : (l ++ [b])[j]? = some a) : P j a := by
  rcases append_cases ha with ⟨rfl, rfl⟩ | ha
  · exact hb
  · exact h j a ha

theorem sum_map_set {l : List α} {i : Nat} {a : α} (h : l[i]? = some a) (b : α) (f : α → Nat) :
    ((l.set i b).map f).sum + f a = (l.map f).sum + f b := by
  induction l generalizing i with
  | nil => cases h
  | cons x l ih =>
      cases i with
      | zero =>
          cases h
          simp only [List.set_cons_zero, List.map_cons, List.sum_cons]
          omega
      | succ i =>
          have hl := ih (i := i) (by simpa using h)
          simp only [List.set_cons_succ, List.map_cons, List.sum_cons]
          omega

theorem le_sum_map {l : List α} {i : Nat} {a : α} (h : l[i]? = some a) (f : α → Nat) :
    f a ≤ (l.map f).sum := by
  induction l generalizing i with
  | nil => cases h
  | cons x l ih =>
      rw [List.map_cons, List.sum_cons]
      cases i with
      | zero =>
          cases h
          exact Nat.le_add_right _ _
      | succ i => exact Nat.le_trans (ih (by simpa using h)) (Nat.le_add_left _ _)

section Tagged

variable [DecidableEq α] [DecidableEq β]

theorem count_tags_le {a b : α} (hne : a ≠ b) (l : List (α × β)) (x : β) :
    l.count (a, x) + l.count (b, x) ≤ (l.map Prod.snd).count x := by
  induction l with
  | nil => exact Nat.le_refl _
  | cons p l ih =>
      obtain ⟨c, y⟩ := p
      simp only [List.map_cons, List.count_cons, beq_iff_eq, Prod.mk.injEq]
      split_ifs <;> first | omega | simp_all

theorem exists_tag {l : List (α × β)} {x : β} (h : 0 < (l.map Prod.snd).count x) :
    ∃ a, 0 < l.count (a, x) := by
  obtain ⟨⟨a, y⟩, hm, rfl⟩ := List.mem_map.mp (List.count_pos_iff.mp h)
  exact ⟨a, List.count_pos_iff.mpr hm⟩

theorem count_untagged_le {l l' : List (α × β)} (h : ∀ a x, l.count (a, x) ≤ l'.count (a, x)) (x : β) :
    (l.map Prod.snd).count x ≤ (l'.map Prod.snd).count x := by
  have hs : l.Subperm l' := List.subperm_ext_iff.mpr fun p _ => h p.1 p.2
  simp only [List.count, List.countP_map]
  exact hs.countP_le _

end Tagged

end Enigma.Indexed
