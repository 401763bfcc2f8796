import Mathlib.Data.List.Induction

namespace Enigma.Decimal

variable {c : Char} {ds : List Char}

abbrev value (ds : List Char) : Nat := Nat.ofDigitChars 10 ds 0

theorem toNat_digitChar : ∀ d, d < 10 → (Nat.digitChar d).toNat = 48 + d := by decide

theorem digit_of_isDigit (h : c.isDigit = true) : ∃ d, d < 10 ∧ c = Nat.digitChar d := by
  rw [Char.isDigit_iff_toNat] at h
  have hlow : 48 ≤ c.toNat := h.1
  have hhigh : c.toNat ≤ 57 := h.2
  refine ⟨c.toNat - 48, by omega, Char.toNat_inj.mp ?_⟩
  rw [toNat_digitChar _ (by omega)]
  omega

theorem value_concat {d : Nat} (hd : d < 10) (ds : List Char) :
    value (ds ++ [Nat.digitChar d]) = 10 * value ds + d := by
  rw [value, Nat.ofDigitChars_append, Nat.ofDigitChars_cons_digitChar_of_lt_ten hd, Nat.ofDigitChars_nil]

theorem toDigits_concat {n d : Nat} (hn : 0 < n) (hd : d < 10) :
    Nat.toDigits 10 (10 * n + d) = Nat.toDigits 10 n ++ [Nat.digitChar d] := by
  rw [← Nat.toDigits_append_toDigits (by decide) hn hd, Nat.toDigits_of_lt_base hd]

theorem head?_concat (hne : ds ≠ []) (c : Char) : (ds ++ [c]).head? = ds.head? := by
  obtain ⟨x, xs, rfl⟩ := List.exists_cons_of_ne_nil hne
  rfl

theorem toDigits_value (hne : ds ≠ []) (hall : ∀ c ∈ ds, c.isDigit = true) (hz : ds.head? ≠ some '0') :
    Nat.toDigits 10 (value ds) = ds := by
  induction ds using List.reverseRecOn with
  | nil => exact absurd rfl hne
  | append_singleton ds c ih =>
      obtain ⟨d, hd, rfl⟩ := digit_of_isDigit (hall c (by simp))
      rw [value_concat hd]
      by_cases hds : ds = []
      · rw [hds, show 10 * value [] + d = d by simp, Nat.toDigits_of_lt_base hd]
        rfl
      · rw [head?_concat hds] at hz
        have hrest := ih hds (fun c hc => hall c (by simp [hc])) hz
        have hpos : 0 < value ds := by
          by_contra hv
          rw [show value ds = 0 by omega, Nat.toDigits_zero] at hrest
          exact hz (by rw [← hrest]; rfl)
        rw [toDigits_concat hpos hd, hrest]

theorem head?_toDigits {n : Nat} (hn : 0 < n) : (Nat.toDigits 10 n).head? ≠ some '0' := by
  induction n using Nat.strongRecOn with
  | ind n ih =>
      by_cases hlt : n < 10
      · rw [Nat.toDigits_of_lt_base hlt]
        intro h
        have hc := congrArg Char.toNat (Option.some.inj h)
        rw [toNat_digitChar n hlt] at hc
        change 48 + n = 48 at hc
        omega
      · have hd : n % 10 < 10 := Nat.mod_lt n (by decide)
        have hpos : 0 < n / 10 := by omega
        rw [show n = 10 * (n / 10) + n % 10 by omega, toDigits_concat hpos hd, head?_concat Nat.toDigits_ne_nil]
        exact ih (n / 10) (by omega) hpos

end Enigma.Decimal
