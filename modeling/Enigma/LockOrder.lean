import Mathlib.Data.Finset.Max

namespace Enigma.LockOrder

variable {ι Λ : Type} {waits : ι → Option Λ} {owner : Λ → Option ι} {rank : Λ → Nat}

/-- A set of threads each of which waits for a lock that one of them owns. -/
def Deadlocked (waits : ι → Option Λ) (owner : Λ → Option ι) (D : Finset ι) : Prop :=
  D.Nonempty ∧ ∀ a ∈ D, ∃ l b, waits a = some l ∧ owner l = some b ∧ b ∈ D

/-- Where every thread waits only for locks ranked above those it owns, there is
no deadlock. -/
theorem not_deadlocked_of_rank
    (hrank : ∀ a l l', owner l = some a → waits a = some l' → rank l < rank l') (D : Finset ι) :
    ¬ Deadlocked waits owner D := by
  rintro ⟨hne, hall⟩
  obtain ⟨a, ha, hmax⟩ := D.exists_max_image (fun a => (waits a).elim 0 rank) hne
  obtain ⟨l, b, hl, hb, hbD⟩ := hall a ha
  obtain ⟨l', -, hl', -, -⟩ := hall b hbD
  have hle := hmax b hbD
  simp only [hl, hl', Option.elim_some] at hle
  exact Nat.not_lt.mpr hle (hrank b l l' hb hl')

end Enigma.LockOrder
