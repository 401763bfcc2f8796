import Enigma.Unicode

namespace Enigma.StrWide

open Unicode

/-- A conversion of the Windows API from a source of so many elements into a buffer of such
a size, if there is one: its result, and the buffer afterwards. -/
abbrev Conversion (α β : Type) := List α → Int → Option (List β) → Int → Int × List β

structure Windows where
  multiByteToWideChar : Conversion UInt8 UInt16
  wideCharToMultiByte : Conversion UInt16 UInt8

def int (n : Nat) : Int := Int.bmod n (2 ^ 32)

/-- The memory at the pointer of c_str has a zero after the string. -/
def toWstring (w : Windows) (s : List UInt8) : List UInt16 :=
  if s = [] then []
  else
    let sizeNeed := (w.multiByteToWideChar (s ++ [0]) (int s.length) none 0).1
    if sizeNeed = 0 then []
    else (w.multiByteToWideChar (s ++ [0]) (int s.length) (some (List.replicate sizeNeed.toNat 0)) sizeNeed).2

/-- The overload for a pointer and a length; no elements stand for a null pointer. -/
def fromWchars (w : Windows) (wstr : Option (List UInt16)) (len : Nat) : List UInt8 := match wstr with
  | none => []
  | some wstr =>
    if len = 0 then []
    else
      let sizeNeed := (w.wideCharToMultiByte wstr (int len) none 0).1
      if sizeNeed = 0 then []
      -- the size of the buffer is given as the length of the source
      else (w.wideCharToMultiByte wstr (int len) (some (List.replicate sizeNeed.toNat 0)) (int len)).2

def fromWstring (w : Windows) (wstr : List UInt16) : List UInt8 := fromWchars w (some (wstr ++ [0])) wstr.length

section Contract

variable {α β : Type} (src : List Char → List α) (dst : List Char → List β)

/-- A text that is not empty, with a length in both encodings that is an int. -/
structure Fits (cs : List Char) : Prop where
  pos : 0 < (src cs).length
  src : (src cs).length < 2 ^ 31
  dst : (dst cs).length < 2 ^ 31

/-- What is documented of a conversion of well-formed text. -/
structure Converts (f : Conversion α β) : Prop where
  measure : ∀ cs rest, Fits src dst cs → (f (src cs ++ rest) (src cs).length none 0).1 = (dst cs).length
  convert : ∀ cs rest buffer (size : Nat), Fits src dst cs → (dst cs).length ≤ size → size ≤ buffer.length →
    f (src cs ++ rest) (src cs).length (some buffer) size =
      (((dst cs).length : Int), dst cs ++ buffer.drop (dst cs).length)
  small : ∀ cs rest buffer (size : Nat), Fits src dst cs → 0 < size → size < (dst cs).length →
    size ≤ buffer.length → ∃ buffer', f (src cs ++ rest) (src cs).length (some buffer) size = (0, buffer') ∧
      buffer'.length = buffer.length ∧ buffer'.drop size = buffer.drop size

end Contract

structure Conforms (w : Windows) : Prop where
  multiByteToWideChar : Converts utf8 utf16 w.multiByteToWideChar
  wideCharToMultiByte : Converts utf16 utf8 w.wideCharToMultiByte

variable {w : Windows} {cs : List Char} {n : Nat}

theorem int_of_lt (h : n < 2 ^ 31) : int n = n := by
  have hn : (n : Int) < 2147483648 := by omega
  exact Int.bmod_eq_of_le (by omega) (by omega)

theorem fits_utf8 (hne : cs ≠ []) (h : (utf8 cs).length < 2 ^ 31) : Fits utf8 utf16 cs where
  pos := List.length_pos_iff.mpr fun hn => hne (utf8_eq_nil.mp hn)
  src := h
  dst := Nat.lt_of_le_of_lt (length_utf16_le cs) h

theorem fits_utf16 (hne : cs ≠ []) (h : (utf8 cs).length < 2 ^ 31) : Fits utf16 utf8 cs where
  pos := List.length_pos_iff.mpr fun hn => hne (utf16_eq_nil.mp hn)
  src := Nat.lt_of_le_of_lt (length_utf16_le cs) h
  dst := h

theorem toWstring_utf8 (hw : Conforms w) (h : (utf8 cs).length < 2 ^ 31) : toWstring w (utf8 cs) = utf16 cs := by
  by_cases hne : cs = []
  · rw [hne]
    rfl
  have hf := fits_utf8 hne h
  have hpos := (fits_utf16 hne h).pos
  have hconv := hw.multiByteToWideChar.convert cs [0] (List.replicate (utf16 cs).length 0) (utf16 cs).length hf
    (Nat.le_refl _) (by rw [List.length_replicate])
  rw [toWstring, if_neg (mt utf8_eq_nil.mp hne), int_of_lt h, hw.multiByteToWideChar.measure cs [0] hf]
  dsimp only
  rw [if_neg (by omega), Int.toNat_natCast, hconv]
  simp

theorem fromWstring_utf16 (hw : Conforms w) (hne : cs ≠ []) (h : (utf8 cs).length < 2 ^ 31) :
    fromWstring w (utf16 cs) = (w.wideCharToMultiByte (utf16 cs ++ [0]) (utf16 cs).length
      (some (List.replicate (utf8 cs).length 0)) (utf16 cs).length).2 := by
  have hf := fits_utf16 hne h
  have hpos := (fits_utf8 hne h).pos
  rw [fromWstring, fromWchars, if_neg (Nat.ne_of_gt hf.pos), int_of_lt hf.src,
    hw.wideCharToMultiByte.measure cs [0] hf]
  dsimp only
  rw [if_neg (by omega), Int.toNat_natCast]

theorem fromWstring_ascii (hw : Conforms w) (h : (utf8 cs).length < 2 ^ 31) (ha : ∀ c ∈ cs, Ascii c) :
    fromWstring w (utf16 cs) = utf8 cs := by
  by_cases hne : cs = []
  · rw [hne]
    rfl
  have hlen := (length_utf16_eq cs).mpr ha
  have hconv := hw.wideCharToMultiByte.convert cs [0] (List.replicate (utf8 cs).length 0) (utf16 cs).length
    (fits_utf16 hne h) (by omega) (by rw [List.length_replicate, hlen])
  rw [fromWstring_utf16 hw hne h, hconv]
  simp

/-- Of a text that is not ASCII the last bytes are never written. -/
theorem fromWstring_rest (hw : Conforms w) (h : (utf8 cs).length < 2 ^ 31) (ha : ¬∀ c ∈ cs, Ascii c) :
    (fromWstring w (utf16 cs)).drop (utf16 cs).length =
      List.replicate ((utf8 cs).length - (utf16 cs).length) 0 := by
  have hne : cs ≠ [] := fun hn => ha (hn ▸ List.forall_mem_nil _)
  have hlt := Nat.lt_of_le_of_ne (length_utf16_le cs) (mt (length_utf16_eq cs).mp ha)
  have hf := fits_utf16 hne h
  obtain ⟨buffer, hconv, -, hrest⟩ := hw.wideCharToMultiByte.small cs [0] (List.replicate (utf8 cs).length 0)
    (utf16 cs).length hf hf.pos hlt (by rw [List.length_replicate]; omega)
  rw [fromWstring_utf16 hw hne h, hconv, hrest, List.drop_replicate]

/-! ### A conversion that leaves a small buffer alone -/

section Plain

variable {α β : Type} {src : List Char → List α} {dst : List Char → List β} {decode : List α → Option (List Char)}

def plain (decode : List α → Option (List Char)) (dst : List Char → List β) : Conversion α β :=
  fun source n buffer size => match decode (source.take n.toNat) with
    | none => (0, buffer.getD [])
    | some cs => match buffer with
      | none => ((dst cs).length, [])
      | some b =>
        if size = 0 then ((dst cs).length, b)
        else if (dst cs).length ≤ size then ((dst cs).length, dst cs ++ b.drop (dst cs).length)
        else (0, b)

theorem decode_source (hd : ∀ cs, decode (src cs) = some cs) (cs : List Char) (rest : List α) :
    decode ((src cs ++ rest).take (Int.toNat (src cs).length)) = some cs := by
  rw [Int.toNat_natCast, List.take_left, hd]

theorem plain_converts (hd : ∀ cs, decode (src cs) = some cs) (hpos : ∀ cs, src cs ≠ [] → dst cs ≠ []) :
    Converts src dst (plain decode dst) where
  measure cs rest hf := by rw [plain, decode_source hd]
  convert cs rest buffer size hf hle hsize := by
    have hlen := List.length_pos_iff.mpr (hpos cs (List.length_pos_iff.mp hf.pos))
    rw [plain, decode_source hd]
    dsimp only
    rw [if_neg (by omega), if_pos (by omega)]
  small cs rest buffer size hf h0 hlt hsize := by
    refine ⟨buffer, ?_, rfl, rfl⟩
    rw [plain, decode_source hd]
    dsimp only
    rw [if_neg (by omega), if_neg (by omega)]

end Plain

def windows : Windows := ⟨plain decode8 utf16, plain decode16 utf8⟩

theorem windows_conforms : Conforms windows where
  multiByteToWideChar := plain_converts decode8_utf8 fun _ h hn => h (utf8_eq_nil.mpr (utf16_eq_nil.mp hn))
  wideCharToMultiByte := plain_converts decode16_utf16 fun _ h hn => h (utf16_eq_nil.mpr (utf8_eq_nil.mp hn))

theorem utf8_zeros (n : Nat) : utf8 (List.replicate n (Char.ofNat 0)) = List.replicate n 0 := by
  induction n with
  | zero => rfl
  | succ n ih =>
      rw [List.replicate_succ, List.replicate_succ, ← ih]
      rfl

theorem length_utf16_zeros (n : Nat) : (utf16 (List.replicate n (Char.ofNat 0))).length = n := by
  induction n with
  | zero => rfl
  | succ n ih =>
      rw [List.replicate_succ, length_utf16_cons, ih]
      exact Nat.add_comm 1 n

theorem fromWstring_windows (h : (utf8 cs).length < 2 ^ 31) (ha : ¬∀ c ∈ cs, Ascii c) :
    fromWstring windows (utf16 cs) = utf8 (List.replicate (utf8 cs).length (Char.ofNat 0)) := by
  have hne : cs ≠ [] := fun hn => ha (hn ▸ List.forall_mem_nil _)
  have hlt := Nat.lt_of_le_of_ne (length_utf16_le cs) (mt (length_utf16_eq cs).mp ha)
  have hpos := (fits_utf16 hne h).pos
  have hconv : plain decode16 utf8 (utf16 cs ++ [0]) (utf16 cs).length (some (List.replicate (utf8 cs).length 0))
      (utf16 cs).length = (0, List.replicate (utf8 cs).length 0) := by
    rw [plain, decode_source decode16_utf16]
    dsimp only
    rw [if_neg (by omega), if_neg (by omega)]
  rw [fromWstring_utf16 windows_conforms hne h, utf8_zeros]
  exact congrArg Prod.snd hconv

/-- To wide characters and back, and the other way: with every conversion that does what is
documented, the text comes back when it is ASCII, and with some it does not when it is
not. -/
theorem round_trips (cs : List Char) :
    ((utf8 cs).length < 2 ^ 31 →
      ((∀ w, Conforms w → fromWstring w (toWstring w (utf8 cs)) = utf8 cs) ↔ ∀ c ∈ cs, Ascii c)) ∧
    ((utf16 cs).length < 2 ^ 29 →
      ((∀ w, Conforms w → toWstring w (fromWstring w (utf16 cs)) = utf16 cs) ↔ ∀ c ∈ cs, Ascii c)) := by
  constructor
  · intro h
    refine ⟨fun hall => by_contra fun ha => ?_, fun ha w hw => ?_⟩
    · have hback := hall windows windows_conforms
      rw [toWstring_utf8 windows_conforms h, fromWstring_windows h ha] at hback
      refine ha fun c hc => ?_
      rw [← utf8_injective hback] at hc
      exact (List.eq_of_mem_replicate hc) ▸ (by decide)
    · rw [toWstring_utf8 hw h, fromWstring_ascii hw h ha]
  · intro h16
    have h : (utf8 cs).length < 2 ^ 31 := Nat.lt_of_le_of_lt (length_utf8_le cs) (by omega)
    refine ⟨fun hall => by_contra fun ha => ?_, fun ha w hw => ?_⟩
    · have hback := hall windows windows_conforms
      have hzeros : (utf8 (List.replicate (utf8 cs).length (Char.ofNat 0))).length < 2 ^ 31 := by
        rwa [utf8_zeros, List.length_replicate]
      rw [fromWstring_windows h ha, toWstring_utf8 windows_conforms hzeros] at hback
      have hlen := congrArg List.length hback
      rw [length_utf16_zeros] at hlen
      exact ha ((length_utf16_eq cs).mp hlen.symm)
    · rw [fromWstring_ascii hw h ha, toWstring_utf8 hw h]

theorem round_trips_ascii :
    (∀ w, Conforms w → fromWstring w (toWstring w (utf8 ['H', 'i'])) = utf8 ['H', 'i']) ∧
      ∀ w, Conforms w → toWstring w (fromWstring w (utf16 ['H', 'i'])) = utf16 ['H', 'i'] := by
  have hascii : ∀ c ∈ ['H', 'i'], Ascii c :=
    List.forall_mem_cons.mpr ⟨by decide, List.forall_mem_singleton.mpr (by decide)⟩
  exact ⟨((round_trips ['H', 'i']).1 (by decide)).mpr hascii, ((round_trips ['H', 'i']).2 (by decide)).mpr hascii⟩

/-- Of the two bytes of the letter the second is lost, with every conversion. -/
theorem fromWstring_loses : Conforms windows ∧
    ∀ w, Conforms w → fromWstring w (toWstring w (utf8 ['é'])) ≠ utf8 ['é'] := by
  refine ⟨windows_conforms, fun w hw h => ?_⟩
  have hwide : ¬∀ c ∈ ['é'], Ascii c := fun hall => absurd (List.forall_mem_singleton.mp hall) (by decide)
  have hrest := @fromWstring_rest w ['é'] hw (by decide) hwide
  rw [toWstring_utf8 hw (by decide)] at h
  rw [h] at hrest
  exact absurd hrest (by decide)

end Enigma.StrWide
