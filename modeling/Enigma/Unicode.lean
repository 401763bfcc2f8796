import Mathlib.Algebra.Order.Ring.Nat
import Mathlib.Data.List.Basic

namespace Enigma.Unicode

def utf8 (cs : List Char) : List UInt8 := cs.flatMap String.utf8EncodeChar

/-- A character beyond the first 65536 has a high unit and a low one. -/
def utf16Char (c : Char) : List UInt16 :=
  if c.toNat < 0x10000 then [UInt16.ofNat c.toNat]
  else [UInt16.ofNat (0xD800 + (c.toNat - 0x10000) / 0x400), UInt16.ofNat (0xDC00 + (c.toNat - 0x10000) % 0x400)]

def utf16 (cs : List Char) : List UInt16 := cs.flatMap utf16Char

def decode8 (bs : List UInt8) : Option (List Char) := bs.toByteArray.utf8Decode?.map Array.toList

def decode16 : List UInt16 → Option (List Char)
  | [] => some []
  | u :: us =>
    if u.toNat < 0xD800 ∨ 0xDFFF < u.toNat then (decode16 us).map (Char.ofNat u.toNat :: ·)
    else if u.toNat < 0xDC00 then match us with
      | [] => none
      | v :: vs =>
        if 0xDC00 ≤ v.toNat ∧ v.toNat ≤ 0xDFFF then
          (decode16 vs).map (Char.ofNat (0x10000 + (u.toNat - 0xD800) * 0x400 + (v.toNat - 0xDC00)) :: ·)
        else none
    else none

def Ascii (c : Char) : Prop := c.toNat ≤ 0x7F

instance : DecidablePred Ascii := fun c => inferInstanceAs (Decidable (c.toNat ≤ 0x7F))

variable {c : Char} {cs : List Char}

theorem decode8_utf8 (cs : List Char) : decode8 (utf8 cs) = some cs := by
  have h : (utf8 cs).toByteArray = cs.utf8Encode := rfl
  rw [decode8, h, List.utf8Decode?_utf8Encode]
  rfl

theorem utf8_injective : Function.Injective utf8 := fun cs ds h => by
  have hd := congrArg decode8 h
  rwa [decode8_utf8, decode8_utf8, Option.some.injEq] at hd

theorem toNat_bounds (c : Char) : c.toNat < 0xD800 ∨ (0xDFFF < c.toNat ∧ c.toNat < 0x110000) := c.valid

theorem decode16_utf16Char (c : Char) (us : List UInt16) :
    decode16 (utf16Char c ++ us) = (decode16 us).map (c :: ·) := by
  have hc := toNat_bounds c
  rw [utf16Char]
  split
  case isTrue hlt =>
      have hu : (UInt16.ofNat c.toNat).toNat = c.toNat := UInt16.toNat_ofNat_of_lt' hlt
      rw [List.singleton_append, decode16.eq_def]
      dsimp only
      rw [hu, if_pos (by omega), Char.ofNat_toNat]
  case isFalse hge =>
      have hu : (UInt16.ofNat (0xD800 + (c.toNat - 0x10000) / 0x400)).toNat = 0xD800 + (c.toNat - 0x10000) / 0x400 :=
        UInt16.toNat_ofNat_of_lt' (show _ < 65536 by omega)
      have hv : (UInt16.ofNat (0xDC00 + (c.toNat - 0x10000) % 0x400)).toNat = 0xDC00 + (c.toNat - 0x10000) % 0x400 :=
        UInt16.toNat_ofNat_of_lt' (show _ < 65536 by omega)
      rw [List.cons_append, List.singleton_append, decode16.eq_def]
      dsimp only
      rw [hu, if_neg (by omega), if_pos (by omega), hv, if_pos (by omega)]
      have hall : 0x10000 + (0xD800 + (c.toNat - 0x10000) / 0x400 - 0xD800) * 0x400 +
          (0xDC00 + (c.toNat - 0x10000) % 0x400 - 0xDC00) = c.toNat := by omega
      rw [hall, Char.ofNat_toNat]

theorem decode16_utf16 (cs : List Char) : decode16 (utf16 cs) = some cs := by
  induction cs with
  | nil => rfl
  | cons c cs ih =>
      rw [utf16, List.flatMap_cons, decode16_utf16Char, ← utf16, ih]
      rfl

theorem utf16_injective : Function.Injective utf16 := fun cs ds h => by
  have hd := congrArg decode16 h
  rwa [decode16_utf16, decode16_utf16, Option.some.injEq] at hd

/-! ### Lengths -/

theorem length_utf8Char (c : Char) : (String.utf8EncodeChar c).length =
    if c.toNat ≤ 0x7F then 1 else if c.toNat ≤ 0x7FF then 2 else if c.toNat ≤ 0xFFFF then 3 else 4 :=
  String.length_utf8EncodeChar c

theorem length_utf16Char (c : Char) : (utf16Char c).length = if c.toNat < 0x10000 then 1 else 2 := by
  rw [utf16Char]
  split <;> rfl

theorem length_utf16Char_le (c : Char) : (utf16Char c).length ≤ (String.utf8EncodeChar c).length := by
  rw [length_utf8Char, length_utf16Char]
  grind

theorem length_utf8Char_le (c : Char) : (String.utf8EncodeChar c).length ≤ 3 * (utf16Char c).length := by
  rw [length_utf8Char, length_utf16Char]
  grind

theorem length_utf16Char_eq (c : Char) : (utf16Char c).length = (String.utf8EncodeChar c).length ↔ Ascii c := by
  rw [length_utf8Char, length_utf16Char, Ascii]
  grind

@[simp] theorem length_utf8_cons (c : Char) (cs : List Char) :
    (utf8 (c :: cs)).length = (String.utf8EncodeChar c).length + (utf8 cs).length := by
  rw [utf8, List.flatMap_cons, List.length_append, ← utf8]

@[simp] theorem length_utf16_cons (c : Char) (cs : List Char) :
    (utf16 (c :: cs)).length = (utf16Char c).length + (utf16 cs).length := by
  rw [utf16, List.flatMap_cons, List.length_append, ← utf16]

theorem length_utf16_le (cs : List Char) : (utf16 cs).length ≤ (utf8 cs).length := by
  induction cs with
  | nil => exact Nat.le_refl _
  | cons c cs ih =>
      rw [length_utf16_cons, length_utf8_cons]
      exact Nat.add_le_add (length_utf16Char_le c) ih

theorem length_utf8_le (cs : List Char) : (utf8 cs).length ≤ 3 * (utf16 cs).length := by
  induction cs with
  | nil => exact Nat.le_refl _
  | cons c cs ih =>
      rw [length_utf16_cons, length_utf8_cons, Nat.mul_add]
      exact Nat.add_le_add (length_utf8Char_le c) ih

theorem length_utf16_eq (cs : List Char) : (utf16 cs).length = (utf8 cs).length ↔ ∀ c ∈ cs, Ascii c := by
  induction cs with
  | nil => exact iff_of_true rfl (List.forall_mem_nil _)
  | cons c cs ih =>
      have hc := length_utf16Char_le c
      have hcs := length_utf16_le cs
      rw [length_utf16_cons, length_utf8_cons, List.forall_mem_cons, ← length_utf16Char_eq, ← ih]
      omega

theorem utf16_eq_nil : utf16 cs = [] ↔ cs = [] :=
  ⟨fun h => utf16_injective h, fun h => h ▸ rfl⟩

theorem utf8_eq_nil : utf8 cs = [] ↔ cs = [] :=
  ⟨fun h => utf8_injective h, fun h => h ▸ rfl⟩

end Enigma.Unicode
