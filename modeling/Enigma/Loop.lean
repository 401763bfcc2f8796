import Mathlib.Logic.Basic

namespace Enigma.Loop

variable {σ β : Type}

/-- A loop, as long as the fuel lasts: a round goes on to another one, or ends it. -/
def iterate (body : σ → σ ⊕ β) : Nat → σ → Option β
  | 0, _ => none
  | n + 1, s => match body s with
    | .inl s' => iterate body n s'
    | .inr b => some b

variable {body : σ → σ ⊕ β} {n m : Nat} {s s' : σ} {b : β}

theorem iterate_next (h : body s = .inl s') (n : Nat) : iterate body (n + 1) s = iterate body n s' := by
  rw [iterate, h]

theorem iterate_exit (h : body s = .inr b) (n : Nat) : iterate body (n + 1) s = some b := by
  rw [iterate, h]

/-- The rule for loops that end: every round keeps what the loop is going to give and has
fewer rounds after it, and the last one gives it. -/
theorem iterate_eq {I : σ → Prop} {f : σ → β} (v : σ → Nat)
    (hnext : ∀ s s', I s → body s = .inl s' → I s' ∧ v s' < v s ∧ f s' = f s)
    (hexit : ∀ s b, I s → body s = .inr b → b = f s) (hs : I s) (hn : v s < n) :
    iterate body n s = some (f s) := by
  induction n generalizing s with
  | zero => exact absurd hn (Nat.not_lt_zero _)
  | succ n ih =>
      cases h : body s with
      | inl s' =>
          obtain ⟨hs', hv, hf⟩ := hnext s s' hs h
          rw [iterate_next h, ih hs' (by omega), hf]
      | inr b => rw [iterate_exit h, hexit s b hs h]

theorem iterate_eq_none {I : σ → Prop} (h : ∀ s, I s → ∃ s', body s = .inl s' ∧ I s') (hs : I s) (n : Nat) :
    iterate body n s = none := by
  induction n generalizing s with
  | zero => rfl
  | succ n ih =>
      obtain ⟨s', hb, hs'⟩ := h s hs
      rw [iterate_next hb]
      exact ih hs'

end Enigma.Loop
