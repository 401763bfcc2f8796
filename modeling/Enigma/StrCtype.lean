import Enigma.Str

namespace Enigma.StrCtype

open Str

structure Ctype where
  isspace : Int → Bool
  tolower : Int → Int
  toupper : Int → Int

/-- What they are defined on: the values of unsigned char, and EOF. -/
def Defined (c : Int) : Prop := 0 ≤ c ∧ c ≤ 255 ∨ c = -1

instance (c : Int) : Decidable (Defined c) := inferInstanceAs (Decidable (_ ∨ _))

/-- A char that is passed as an int: it has a sign. -/
def char (b : UInt8) : Int := b.toInt8.toInt

def ofInt (n : Int) : UInt8 := UInt8.ofNat (n % 256).toNat

def transform (f : Int → Int) (s : Bytes) : Bytes × List Int := (s.map fun b => ofInt (f (char b)), s.map char)

def toLower (l : Ctype) (s : Bytes) : Bytes × List Int := transform l.tolower s

def toUpper (l : Ctype) (s : Bytes) : Bytes × List Int := transform l.toupper s

/-- std::find_if_not: how far it gets, with the arguments of the calls. -/
def findIfNot (p : Int → Bool) : List Int → Nat × List Int
  | [] => (0, [])
  | c :: cs =>
    if p c then
      let r := findIfNot p cs
      (r.1 + 1, c :: r.2)
    else (0, [c])

/-- The scan from the front goes through a lambda for unsigned char, the one from the back does not. -/
def trim (l : Ctype) (s : Bytes) : Bytes × List Int :=
  let first := findIfNot l.isspace (s.map fun b => (b.toNat : Int))
  let last := findIfNot l.isspace (s.reverse.map char)
  let stop := s.length - last.1
  (if stop ≤ first.1 then [] else (s.take stop).drop first.1, first.2 ++ last.2)

variable {l : Ctype} {s : Bytes} {b : UInt8} {p : Int → Bool} {cs : List Int}

/-- An ASCII byte, or the one that reads as EOF. -/
def Plain (b : UInt8) : Prop := b.toNat < 128 ∨ b.toNat = 255

instance (b : UInt8) : Decidable (Plain b) := inferInstanceAs (Decidable (_ ∨ _))

theorem defined_char (b : UInt8) : Defined (char b) ↔ Plain b := by
  have hb : b.toNat < 256 := b.toNat_lt
  have hc : char b = Int.bmod b.toNat (2 ^ 8) := BitVec.toInt_eq_toNat_bmod _
  simp only [Defined, hc, Plain, Int.bmod]
  split <;> omega

theorem defined_byte (b : UInt8) : Defined b.toNat := by
  have hb := b.toNat_lt
  rw [Defined]
  omega

theorem mem_findIfNot {c : Int} :
    c ∈ (findIfNot p cs).2 ↔ ∃ pre post, cs = pre ++ c :: post ∧ ∀ x ∈ pre, p x = true := by
  induction cs with
  | nil => simp [findIfNot]
  | cons a cs ih =>
      rw [findIfNot]
      split
      case isTrue ha =>
          rw [List.mem_cons, ih]
          constructor
          · rintro (rfl | ⟨pre, post, rfl, hp⟩)
            · exact ⟨[], cs, rfl, by simp⟩
            · exact ⟨a :: pre, post, rfl, List.forall_mem_cons.mpr ⟨ha, hp⟩⟩
          · rintro ⟨pre, post, he, hp⟩
            cases pre with
            | nil =>
                cases he
                exact Or.inl rfl
            | cons x pre =>
                cases he
                exact Or.inr ⟨pre, post, rfl, (List.forall_mem_cons.mp hp).2⟩
      case isFalse ha =>
          rw [List.mem_singleton]
          constructor
          · rintro rfl
            exact ⟨[], cs, rfl, by simp⟩
          · rintro ⟨pre, post, he, hp⟩
            cases pre with
            | nil =>
                cases he
                rfl
            | cons x pre =>
                cases he
                exact absurd (hp a (by simp)) ha

def Reached (l : Ctype) (s : Bytes) (b : UInt8) : Prop :=
  ∃ pre post, s = pre ++ b :: post ∧ ∀ x ∈ post, l.isspace (char x) = true

theorem mem_last {c : Int} :
    c ∈ (findIfNot l.isspace (s.reverse.map char)).2 ↔ ∃ b, Reached l s b ∧ c = char b := by
  rw [mem_findIfNot]
  constructor
  · rintro ⟨pre, post, he, hp⟩
    obtain ⟨xs, ys, hs, rfl, hys⟩ := List.map_eq_append_iff.mp he
    obtain ⟨b, zs, rfl, rfl, rfl⟩ := List.map_eq_cons_iff.mp hys
    refine ⟨b, ⟨zs.reverse, xs.reverse, ?_, fun x hx => hp _ ?_⟩, rfl⟩
    · rw [← List.reverse_reverse s, hs]
      simp
    · exact List.mem_map_of_mem (List.mem_reverse.mp hx)
  · rintro ⟨b, ⟨pre, post, rfl, hp⟩, rfl⟩
    refine ⟨post.reverse.map char, pre.reverse.map char, by simp, fun x hx => ?_⟩
    obtain ⟨y, hy, rfl⟩ := List.mem_map.mp hx
    exact hp y (List.mem_reverse.mp hy)

theorem transform_defined_iff (f : Int → Int) (s : Bytes) :
    (∀ c ∈ (transform f s).2, Defined c) ↔ ∀ b ∈ s, Plain b := by
  simp only [transform, List.forall_mem_map, defined_char]

theorem trim_defined_iff (l : Ctype) (s : Bytes) :
    (∀ c ∈ (trim l s).2, Defined c) ↔ ∀ b, Reached l s b → Plain b := by
  have hfirst : ∀ c ∈ (findIfNot l.isspace (s.map fun b => (b.toNat : Int))).2, Defined c := by
    intro c hc
    obtain ⟨pre, post, he, _⟩ := mem_findIfNot.mp hc
    obtain ⟨b, _, rfl⟩ := List.mem_map.mp (he ▸ List.mem_append_right pre (List.mem_cons_self ..))
    exact defined_byte b
  rw [trim, List.forall_mem_append, and_iff_right hfirst]
  constructor
  · exact fun h b hb => (defined_char b).mp (h _ (mem_last.mpr ⟨b, hb, rfl⟩))
  · intro h c hc
    obtain ⟨b, hb, rfl⟩ := mem_last.mp hc
    exact (defined_char b).mpr (h b hb)

/-- Changing the case asks about every byte, and is defined exactly for those that stay in the
domain with a sign; trimming asks so only about those followed by nothing but white space. -/
theorem arguments_defined_iff (l : Ctype) (s : Bytes) :
    ((∀ c ∈ (toLower l s).2, Defined c) ↔ ∀ b ∈ s, Plain b) ∧
      ((∀ c ∈ (toUpper l s).2, Defined c) ↔ ∀ b ∈ s, Plain b) ∧
        ((∀ c ∈ (trim l s).2, Defined c) ↔ ∀ b, Reached l s b → Plain b) :=
  ⟨transform_defined_iff _ s, transform_defined_iff _ s, trim_defined_iff l s⟩

def classic : Ctype where
  isspace c := decide (9 ≤ c ∧ c ≤ 13 ∨ c = 32)
  tolower c := if 65 ≤ c ∧ c ≤ 90 then c + 32 else c
  toupper c := if 97 ≤ c ∧ c ≤ 122 then c - 32 else c

/-- The two bytes of an e with an acute accent. -/
theorem accent_undefined :
    (¬∀ c ∈ (toLower classic [195, 169]).2, Defined c) ∧ (¬∀ c ∈ (toUpper classic [195, 169]).2, Defined c) ∧
      ¬∀ c ∈ (trim classic [195, 169]).2, Defined c := by decide

end Enigma.StrCtype
