import Mathlib.Algebra.Order.Ring.Nat
import Mathlib.Data.List.Basic

namespace Enigma.Block

variable {α : Type}

/-- The block after a copy of `xs` to position `i`, if it lies inside the block. -/
def store (b : List α) (i : Nat) (xs : List α) : Option (List α) :=
  if i + xs.length ≤ b.length then some (b.take i ++ xs ++ b.drop (i + xs.length)) else none

def load (b : List α) (i n : Nat) : Option (List α) :=
  if i + n ≤ b.length then some ((b.drop i).take n) else none

variable {b b' xs : List α} {i n : Nat}

theorem store_some (h : i + xs.length ≤ b.length) :
    store b i xs = some (b.take i ++ xs ++ b.drop (i + xs.length)) := if_pos h

theorem load_some (h : i + n ≤ b.length) : load b i n = some ((b.drop i).take n) := if_pos h

theorem store_bound (h : store b i xs = some b') : i + xs.length ≤ b.length := by
  unfold store at h
  split at h
  case isTrue hle => exact hle
  case isFalse => cases h

theorem load_bound (h : load b i n = some xs) : i + n ≤ b.length := by
  unfold load at h
  split at h
  case isTrue hle => exact hle
  case isFalse => cases h

theorem length_store (h : store b i xs = some b') : b'.length = b.length := by
  have hle := store_bound h
  rw [store_some hle, Option.some.injEq] at h
  subst h
  simp only [List.length_append, List.length_take, List.length_drop]
  omega

theorem take_store (h : store b i xs = some b') : b'.take (i + xs.length) = b.take i ++ xs := by
  have hle := store_bound h
  rw [store_some hle, Option.some.injEq] at h
  subst h
  apply List.take_left'
  simp only [List.length_append, List.length_take]
  omega

theorem load_take {k : Nat} (h : i + n ≤ k) (hk : k ≤ b.length) :
    load b i n = some (((b.take k).drop i).take n) := by
  rw [load_some (Nat.le_trans h hk), List.drop_take, List.take_take, Nat.min_eq_left]
  omega

end Enigma.Block
