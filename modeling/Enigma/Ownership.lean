import Mathlib.Logic.Function.Basic
import Mathlib.Data.List.Basic

namespace Enigma.Ownership

variable {A β ι : Type}

abbrev Memory (A β : Type) := A → Option β

variable {m m₁ m₂ : Memory A β} {p p₁ p₂ : Option A} {a : A} {b : β}

section Blocks

variable [DecidableEq A]

def put (m : Memory A β) (a : A) (b : β) : Memory A β := Function.update m a (some b)

def erase (m : Memory A β) (a : A) : Memory A β := Function.update m a none

end Blocks

/-- One owner of at most one block, `p` before and `p₁` after, may have changed it,
given it back or got another one, and touched nothing else. -/
structure Changes (m : Memory A β) (p : Option A) (m₁ : Memory A β) (p₁ : Option A) : Prop where
  frame : ∀ a, p ≠ some a → p₁ ≠ some a → m₁ a = m a
  live : ∀ a, p₁ = some a → m₁ a ≠ none
  freed : ∀ a, p = some a → p₁ ≠ some a → m₁ a = none
  fresh : ∀ a, p₁ = some a → p ≠ some a → m a = none

theorem Changes.refl (h : ∀ a, p = some a → m a ≠ none) : Changes m p m p where
  frame _ _ _ := rfl
  live := h
  freed _ hp hne := absurd hp hne
  fresh _ hp hne := absurd hp hne

theorem Changes.trans (h : Changes m p m₁ p₁) (h₁ : Changes m₁ p₁ m₂ p₂) : Changes m p m₂ p₂ where
  frame a hp hp₂ := by
    by_cases hp₁ : p₁ = some a
    · rw [h₁.freed a hp₁ hp₂, h.fresh a hp₁ hp]
    · rw [h₁.frame a hp₁ hp₂, h.frame a hp hp₁]
  live := h₁.live
  freed a hp hp₂ := by
    by_cases hp₁ : p₁ = some a
    · exact h₁.freed a hp₁ hp₂
    · rw [h₁.frame a hp₁ hp₂, h.freed a hp hp₁]
  fresh a hp₂ hp := by
    by_cases hp₁ : p₁ = some a
    · exact h.fresh a hp₁ hp
    · rw [← h.frame a hp hp₁, h₁.fresh a hp₂ hp₁]

theorem Changes.other (h : Changes m p m₁ p₁) (hp : p ≠ some a) (ha : m a ≠ none) : m₁ a = m a := by
  refine h.frame a hp fun hp₁ => ha ?_
  exact h.fresh a hp₁ hp

section Blocks

variable [DecidableEq A]

theorem put_self (m : Memory A β) (a : A) (b : β) : put m a b a = some b := Function.update_self ..

theorem changes_put (m : Memory A β) (a : A) (b : β) : Changes m (some a) (put m a b) (some a) where
  frame a' hp _ := Function.update_of_ne (fun he => hp (by rw [he])) _ _
  live a' hp := by
    obtain rfl := Option.some.inj hp
    simp [put]
  freed _ hp hne := absurd hp hne
  fresh _ hp hne := absurd hp hne

theorem changes_new (ha : m a = none) (b : β) : Changes m none (put m a b) (some a) where
  frame a' _ hp := Function.update_of_ne (fun he => hp (by rw [he])) _ _
  live a' hp := by
    obtain rfl := Option.some.inj hp
    simp [put]
  freed _ hp _ := by cases hp
  fresh a' hp _ := by
    obtain rfl := Option.some.inj hp
    exact ha

theorem changes_erase (m : Memory A β) (a : A) : Changes m (some a) (erase m a) none where
  frame a' hp _ := Function.update_of_ne (fun he => hp (by rw [he])) _ _
  live _ hp := by cases hp
  freed a' hp _ := by
    obtain rfl := Option.some.inj hp
    exact Function.update_self ..
  fresh _ hp _ := by cases hp

theorem changes_move {a' : A} (ha : m a' = none ∨ a' = a) (b : β) :
    Changes m (some a) (put (erase m a) a' b) (some a') := by
  refine (changes_erase m a).trans (changes_new ?_ b)
  by_cases he : a' = a
  · rw [he]
    exact Function.update_self ..
  · rw [erase, Function.update_of_ne he]
    exact ha.resolve_right he

end Blocks

/-- Owners of one block each, those of two different ones apart, and the blocks that
nobody owns any more. -/
structure Accounts (m : Memory A β) (r : ι → Option A) (lost : List A) : Prop where
  apart : ∀ i j a, r i = some a → r j = some a → i = j
  owned : ∀ i a, r i = some a → a ∉ lost
  once : lost.Nodup
  live : ∀ a, m a ≠ none ↔ (∃ i, r i = some a) ∨ a ∈ lost

variable {r : ι → Option A} {lost : List A} {i j : ι}

theorem Accounts.of_owner (h : Accounts m r lost) (hi : r i = some a) : m a ≠ none := (h.live a).mpr (.inl ⟨i, hi⟩)

variable [DecidableEq ι]

theorem update_eq_some {k : ι} :
    Function.update r i p k = some a ↔ (k = i ∧ p = some a) ∨ (k ≠ i ∧ r k = some a) := by
  by_cases he : k = i <;> simp [he]

theorem Accounts.change (h : Accounts m r lost) (hc : Changes m (r i) m₁ p) :
    Accounts m₁ (Function.update r i p) lost := by
  -- what is owned by another, or lost, is neither the old block nor the new one
  have hother {a : A} (ha : (∃ k, k ≠ i ∧ r k = some a) ∨ a ∈ lost) : r i ≠ some a ∧ p ≠ some a := by
    have hold : r i ≠ some a := by
      intro hi
      rcases ha with ⟨k, hk, hr⟩ | hl
      · exact hk (h.apart k i a hr hi)
      · exact h.owned i a hi hl
    have hlive : m a ≠ none := by
      rcases ha with ⟨k, -, hr⟩ | hl
      · exact h.of_owner hr
      · exact (h.live a).mpr (.inr hl)
    exact ⟨hold, fun hp => hlive (hc.fresh a hp hold)⟩
  refine ⟨fun k l a hk hl => ?_, fun k a hk hin => ?_, h.once, fun a => ?_⟩
  · rcases update_eq_some.mp hk with ⟨hki, hp⟩ | ⟨hki, hrk⟩ <;> rcases update_eq_some.mp hl with ⟨hli, hp'⟩ | ⟨hli, hrl⟩
    · exact hki.trans hli.symm
    · exact absurd hp (hother (.inl ⟨l, hli, hrl⟩)).2
    · exact absurd hp' (hother (.inl ⟨k, hki, hrk⟩)).2
    · exact h.apart k l a hrk hrl
  · rcases update_eq_some.mp hk with ⟨rfl, hp⟩ | ⟨-, hk⟩
    · exact absurd hp (hother (.inr hin)).2
    · exact h.owned k a hk hin
  · constructor
    · intro ha
      by_cases hp : p = some a
      · exact .inl ⟨i, update_eq_some.mpr (.inl ⟨rfl, hp⟩)⟩
      · have hi : r i ≠ some a := fun hi => ha (hc.freed a hi hp)
        rw [hc.frame a hi hp] at ha
        rcases (h.live a).mp ha with ⟨k, hk⟩ | hl
        · have hne : k ≠ i := by
            rintro rfl
            exact hi hk
          exact .inl ⟨k, update_eq_some.mpr (.inr ⟨hne, hk⟩)⟩
        · exact .inr hl
    · have hkeep (ha : (∃ k, k ≠ i ∧ r k = some a) ∨ a ∈ lost) : m₁ a ≠ none := by
        rw [hc.frame a (hother ha).1 (hother ha).2]
        refine (h.live a).mpr (ha.imp_left ?_)
        rintro ⟨k, -, hk⟩
        exact ⟨k, hk⟩
      rintro (⟨k, hk⟩ | hl)
      · rcases update_eq_some.mp hk with ⟨-, hp⟩ | ⟨hne, hk⟩
        · exact hc.live a hp
        · exact hkeep (.inl ⟨k, hne, hk⟩)
      · exact hkeep (.inr hl)

/-- An owner hands its block over to another one, whose own block is lost; from an owner
to itself, the block is. -/
theorem Accounts.transfer (h : Accounts m r lost) (i j : ι) :
    Accounts m (Function.update (Function.update r i (r j)) j none) (lost ++ (r i).toList) := by
  have hupdate {k : ι} {a : A} (hk : Function.update (Function.update r i (r j)) j none k = some a) :
      k ≠ j ∧ ∃ l, r l = some a ∧ (l = j ∧ k = i ∨ l = k ∧ k ≠ i) := by
    rcases update_eq_some.mp hk with ⟨-, hnone⟩ | ⟨hkj, hk⟩
    · cases hnone
    · rcases update_eq_some.mp hk with ⟨rfl, hr⟩ | ⟨hki, hr⟩
      · exact ⟨hkj, j, hr, .inl ⟨rfl, rfl⟩⟩
      · exact ⟨hkj, k, hr, .inr ⟨rfl, hki⟩⟩
  refine ⟨fun k l a hk hl => ?_, fun k a hk hin => ?_, ?_, fun a => ?_⟩
  · obtain ⟨hkj, k', hk', hck⟩ := hupdate hk
    obtain ⟨hlj, l', hl', hcl⟩ := hupdate hl
    have he := h.apart k' l' a hk' hl'
    rcases hck with ⟨rfl, rfl⟩ | ⟨rfl, hne⟩ <;> rcases hcl with ⟨rfl, rfl⟩ | ⟨rfl, hne'⟩
    · rfl
    · exact absurd he.symm hlj
    · exact absurd he hkj
    · exact he
  · obtain ⟨hkj, k', hk', hck⟩ := hupdate hk
    rw [List.mem_append, Option.mem_toList] at hin
    rcases hin with hin | hin
    · exact h.owned k' a hk' hin
    · have he := h.apart k' i a hk' hin
      rcases hck with ⟨rfl, rfl⟩ | ⟨rfl, hne⟩
      · exact hkj he.symm
      · exact hne he
  · cases hi : r i with
    | none => simpa using h.once
    | some a => simpa [List.nodup_append, h.once] using fun b hb (he : b = a) => h.owned i a hi (he ▸ hb)
  · rw [h.live a, List.mem_append, Option.mem_toList]
    constructor
    · rintro (⟨k, hk⟩ | hl)
      · by_cases hi : r i = some a
        · exact .inr (.inr hi)
        · have hki : k ≠ i := by
            rintro rfl
            exact hi hk
          by_cases hkj : k = j
          · subst hkj
            exact .inl ⟨i, update_eq_some.mpr (.inr ⟨Ne.symm hki, update_eq_some.mpr (.inl ⟨rfl, hk⟩)⟩)⟩
          · exact .inl ⟨k, update_eq_some.mpr (.inr ⟨hkj, update_eq_some.mpr (.inr ⟨hki, hk⟩)⟩)⟩
      · exact .inr (.inl hl)
    · rintro (⟨k, hk⟩ | hl | hi)
      · obtain ⟨-, l, hl, -⟩ := hupdate hk
        exact .inl ⟨l, hl⟩
      · exact .inr hl
      · exact .inl ⟨i, hi⟩

theorem Accounts.discard (h : Accounts m r lost) (i : ι) :
    Accounts m (Function.update r i none) (lost ++ (r i).toList) := by
  have ht := h.transfer i i
  rwa [Function.update_idem] at ht

end Enigma.Ownership
