import Enigma.Block

namespace Enigma.Network

open Block

/-- The value of a u64 expression. -/
def wrap (n : Nat) : Nat := n % 2 ^ 64

/-- The members of a packet; a block of memory is the list of its bytes. -/
structure Packet where
  data : Option (List UInt8) := none
  size : Nat := 0
  offset : Nat := 0
  readPos : Nat := 0
  deriving DecidableEq, Repr

/-- What the allocator answers to one call: whether it succeeds, and what it leaves
in the bytes that it adds. -/
structure Alloc where
  ok : Bool := true
  fill : Nat → UInt8 := fun _ => 0

/-- The end of a member function: it returns, it throws, or it touches memory that is
not its own. -/
inductive Outcome (α : Type)
  | ok (v : α)
  | threw
  | fault
  deriving DecidableEq, Repr

def Outcome.bind {α β : Type} (x : Outcome α) (f : α → Outcome β) : Outcome β := match x with
  | .ok v => f v
  | .threw => .threw
  | .fault => .fault

theorem Outcome.bind_eq_ok {α β : Type} {x : Outcome α} {f : α → Outcome β} {v : β} (h : x.bind f = .ok v) :
    ∃ u, x = .ok u ∧ f u = .ok v := by
  cases x with
  | ok u => exact ⟨u, rfl, h⟩
  | threw | fault => cases h

def malloc (a : Alloc) (length : Nat) (p : Packet) : Outcome Packet :=
  if length = 0 then .ok p
  else if a.ok then .ok { p with data := some ((List.range length).map a.fill), size := length }
  else .threw

def realloc (a : Alloc) (length : Nat) (p : Packet) : Outcome Packet :=
  if length = 0 ∨ length ≤ p.size then .ok p
  else match p.data with
    | none => malloc a length p
    | some b =>
        if a.ok then
          .ok { p with data := some (b ++ (List.range (length - b.length)).map a.fill), size := length }
        else .threw

def copyIn (i : Nat) (bytes : List UInt8) (p : Packet) : Outcome Packet :=
  match p.data.bind fun b => store b i bytes with
  | none => .fault
  | some b => .ok { p with data := some b }

def isEmpty (p : Packet) : Bool := p.size == 0

def length (p : Packet) : Nat := p.offset

def getPos (p : Packet) : Nat := p.readPos

def readRemaining (p : Packet) : Nat := if p.readPos < p.offset then p.offset - p.readPos else 0

def resetPos (p : Packet) : Packet := { p with readPos := 0 }

def setPos (pos : Nat) (p : Packet) : Packet := { p with readPos := if pos < p.offset then pos else p.offset }

def grow (a : Alloc) (dataSize : Nat) (p : Packet) : Outcome Packet :=
  if p.size < wrap (p.offset + dataSize) then
    realloc a (max (wrap (p.size * 2)) (wrap (p.offset + dataSize))) p
  else .ok p

/-- The member template write; a value is its bytes. -/
def writeValue (a : Alloc) (value : List UInt8) (p : Packet) : Outcome (Packet × Bool) :=
  (grow a value.length p).bind fun p => (copyIn p.offset value p).bind fun p =>
    .ok ({ p with offset := wrap (p.offset + value.length) }, true)

def write (a : Alloc) (data : Option (List UInt8)) (p : Packet) : Outcome (Packet × Bool) := match data with
  | none | some [] => .ok (p, false)
  | some bytes => writeValue a bytes p

/-- The member template read, with what it writes to its argument. -/
def readValue (dataSize : Nat) (p : Packet) : Outcome (Packet × Option (List UInt8)) :=
  if p.offset < wrap (p.readPos + dataSize) then .ok (p, none)
  else match p.data.bind fun b => load b p.readPos dataSize with
    | none => .fault
    | some bytes => .ok ({ p with readPos := wrap (p.readPos + dataSize) }, some bytes)

def read (buffer : Bool) (bufferSize : Nat) (p : Packet) : Outcome (Packet × Option (List UInt8)) :=
  if !buffer || bufferSize == 0 then .ok (p, none) else readValue bufferSize p

def clear (p : Packet) : Outcome Packet :=
  if isEmpty p || p.offset == 0 then .ok p
  else (copyIn 0 (List.replicate p.offset 0) p).bind fun p => .ok { p with offset := 0, readPos := 0 }

def free (p : Packet) : Packet := if isEmpty p || p.data.isNone then p else {}

def construct (a : Alloc) (size : Nat) : Outcome Packet := malloc a size {}

def copyAssign (a : Alloc) (lvalue p : Packet) : Outcome Packet :=
  if lvalue.size = 0 then .ok (free p)
  else if lvalue.offset = 0 then clear p
  else (if p.size < lvalue.size then realloc a lvalue.size p else .ok p).bind fun p =>
    match lvalue.data.bind fun b => load b 0 lvalue.offset with
    | none => .fault
    | some bytes => (copyIn 0 bytes p).bind fun p =>
        (if lvalue.offset < p.size then copyIn lvalue.offset (List.replicate (p.size - lvalue.offset) 0) p
        else .ok p).bind fun p => .ok { p with offset := lvalue.offset }

def moveAssign (rvalue p : Packet) : Packet × Packet :=
  ({ p with data := rvalue.data, size := rvalue.size, offset := rvalue.offset },
    { rvalue with data := none, size := 0, offset := 0 })

def memory (p : Packet) : List UInt8 := p.data.getD []

structure Backed (p : Packet) : Prop where
  length : (memory p).length = p.size
  null : p.data = none ↔ p.size = 0
  bound : p.size < 2 ^ 64

structure Extends (p p' : Packet) : Prop where
  offset : p'.offset = p.offset
  readPos : p'.readPos = p.readPos
  size : p.size ≤ p'.size
  memory : ∃ junk, memory p' = memory p ++ junk

variable {a : Alloc} {p p' : Packet} {n i : Nat} {bytes : List UInt8}

theorem Extends.refl (p : Packet) : Extends p p := ⟨rfl, rfl, Nat.le_refl _, [], by simp⟩

theorem wrap_lt (n : Nat) : wrap n < 2 ^ 64 := Nat.mod_lt _ (by decide)

theorem wrap_of_lt (h : n < 2 ^ 64) : wrap n = n := Nat.mod_eq_of_lt h

theorem malloc_ok (h : malloc a n p = .ok p') (hb : Backed p) (hnull : p.data = none) (hn : n < 2 ^ 64) :
    Backed p' ∧ Extends p p' ∧ n ≤ p'.size := by
  unfold malloc at h
  split at h
  case isTrue hz =>
      cases h
      exact ⟨hb, .refl p, by omega⟩
  case isFalse hz =>
      split at h
      case isFalse => cases h
      case isTrue =>
          cases h
          have hsize : p.size = 0 := hb.null.mp hnull
          refine ⟨⟨by simp [memory], by simp [hz], hn⟩, ⟨rfl, rfl, by simp [hsize], ?_⟩, Nat.le_refl _⟩
          exact ⟨_, by simp [memory, hnull]; rfl⟩

theorem realloc_ok (h : realloc a n p = .ok p') (hb : Backed p) (hn : n < 2 ^ 64) :
    Backed p' ∧ Extends p p' ∧ n ≤ p'.size := by
  unfold realloc at h
  split at h
  case isTrue hz =>
      cases h
      exact ⟨hb, .refl p, by omega⟩
  case isFalse hz =>
      split at h
      case h_1 hnull => exact malloc_ok h hb hnull hn
      case h_2 b hdata =>
          split at h
          case isFalse => cases h
          case isTrue =>
              cases h
              have hlen : b.length = p.size := by simpa [memory, hdata] using hb.length
              refine ⟨⟨?_, ?_, hn⟩, ⟨rfl, rfl, ?_, ?_⟩, Nat.le_refl _⟩
              · simp only [memory, Option.getD_some, List.length_append, List.length_map, List.length_range]
                omega
              · simp only [reduceCtorEq, false_iff]
                omega
              · dsimp only
                omega
              · exact ⟨_, by simp [memory, hdata]; rfl⟩

theorem grow_ok (h : grow a n p = .ok p') (hb : Backed p) :
    Backed p' ∧ Extends p p' ∧ wrap (p.offset + n) ≤ p'.size := by
  unfold grow at h
  split at h
  case isTrue =>
      obtain ⟨hb', he, hle⟩ := realloc_ok h hb (Nat.max_lt.mpr ⟨wrap_lt _, wrap_lt _⟩)
      exact ⟨hb', he, Nat.le_trans (Nat.le_max_right _ _) hle⟩
  case isFalse hle =>
      cases h
      exact ⟨hb, .refl p, Nat.not_lt.mp hle⟩

theorem copyIn_ok (h : copyIn i bytes p = .ok p') (hb : Backed p) :
    ∃ b, store (memory p) i bytes = some b ∧ p' = { p with data := some b } ∧ Backed p' := by
  unfold copyIn at h
  split at h
  case h_1 => cases h
  case h_2 b hs =>
      obtain ⟨b₀, hdata, hstore⟩ := Option.bind_eq_some_iff.mp hs
      cases h
      have hmem : memory p = b₀ := by simp [memory, hdata]
      have hne : p.size ≠ 0 := fun hz => by simp [hb.null.mpr hz] at hdata
      refine ⟨b, by rw [hmem]; exact hstore, rfl, ⟨?_, by simp [hne], hb.bound⟩⟩
      have hlen := hb.length
      rw [hmem] at hlen
      exact (length_store hstore).trans hlen

theorem writeValue_ok {r : Packet × Bool} (h : writeValue a bytes p = .ok r) (hb : Backed p)
    (ho : p.offset ≤ p.size) :
    Backed r.1 ∧ r.1.offset = p.offset + bytes.length ∧ r.1.readPos = p.readPos ∧ r.1.offset ≤ r.1.size ∧
      (memory r.1).take r.1.offset = (memory p).take p.offset ++ bytes ∧ r.2 = true := by
  obtain ⟨p₁, hgrow, h⟩ := Outcome.bind_eq_ok h
  obtain ⟨p₂, hcopy, h⟩ := Outcome.bind_eq_ok h
  cases h
  obtain ⟨hb₁, he, -⟩ := grow_ok hgrow hb
  obtain ⟨b, hstore, rfl, hb₂⟩ := copyIn_ok hcopy hb₁
  obtain ⟨junk, hjunk⟩ := he.memory
  have hbound := store_bound hstore
  rw [hb₁.length, he.offset] at hbound
  have hwrap : wrap (p₁.offset + bytes.length) = p.offset + bytes.length := by
    rw [he.offset]
    exact wrap_of_lt (Nat.lt_of_le_of_lt hbound hb₁.bound)
  refine ⟨⟨hb₂.length, hb₂.null, hb₂.bound⟩, hwrap, he.readPos, ?_, ?_, rfl⟩
  · dsimp only
    rw [hwrap]
    exact hbound
  · have hold : (memory p₁).take p.offset = (memory p).take p.offset := by
      rw [hjunk]
      exact List.take_append_of_le_length (by rwa [hb.length])
    have htake := take_store hstore
    rw [he.offset, hold] at htake
    dsimp only [memory, Option.getD_some] at htake ⊢
    rw [hwrap, htake]

theorem readValue_ok {r : Packet × Option (List UInt8)} (h : readValue n p = .ok r) (hb : Backed p) :
    (p.offset < wrap (p.readPos + n) ∧ r = (p, none)) ∨
      (wrap (p.readPos + n) ≤ p.offset ∧ p.readPos + n ≤ p.size ∧
        ∃ bytes, load (memory p) p.readPos n = some bytes ∧
          r = ({ p with readPos := wrap (p.readPos + n) }, some bytes)) := by
  unfold readValue at h
  split at h
  case isTrue hlt =>
      cases h
      exact .inl ⟨hlt, rfl⟩
  case isFalse hle =>
      split at h
      case h_1 => cases h
      case h_2 bytes hl =>
          obtain ⟨b, hdata, hload⟩ := Option.bind_eq_some_iff.mp hl
          cases h
          have hmem : memory p = b := by simp [memory, hdata]
          have hbound := load_bound hload
          rw [← hmem, hb.length] at hbound
          exact .inr ⟨Nat.not_lt.mp hle, hbound, bytes, by rw [hmem]; exact hload, rfl⟩

theorem clear_ok (h : clear p = .ok p') (hb : Backed p) (ho : p.offset ≤ p.size) :
    (p.offset = 0 ∧ p' = p) ∨
      (p.offset ≠ 0 ∧ ∃ b, b.length = p.size ∧ p' = { p with data := some b, offset := 0, readPos := 0 }) := by
  unfold clear at h
  split at h
  case isTrue hz =>
      cases h
      simp only [isEmpty, Bool.or_eq_true, beq_iff_eq] at hz
      exact .inl ⟨by omega, rfl⟩
  case isFalse hz =>
      obtain ⟨p₁, hcopy, h⟩ := Outcome.bind_eq_ok h
      cases h
      obtain ⟨b, hstore, rfl, hb₁⟩ := copyIn_ok hcopy hb
      simp only [isEmpty, Bool.or_eq_true, beq_iff_eq, not_or] at hz
      exact .inr ⟨hz.2, b, (length_store hstore).trans hb.length, rfl⟩

section Total

variable (hok : a.ok = true)

include hok

theorem malloc_total (n : Nat) (p : Packet) : ∃ p', malloc a n p = .ok p' := by
  unfold malloc
  split
  · exact ⟨_, rfl⟩
  · exact ⟨_, rfl⟩

theorem realloc_total (n : Nat) (p : Packet) : ∃ p', realloc a n p = .ok p' := by
  unfold realloc
  split
  · exact ⟨_, rfl⟩
  · split
    · exact malloc_total hok n p
    · exact ⟨_, rfl⟩

theorem grow_total (n : Nat) (p : Packet) : ∃ p', grow a n p = .ok p' := by
  unfold grow
  split
  · exact realloc_total hok _ p
  · exact ⟨_, rfl⟩

omit hok in
theorem copyIn_total (hb : Backed p) (hi : i + bytes.length ≤ p.size) (hs : 0 < p.size) :
    ∃ p', copyIn i bytes p = .ok p' := by
  cases hdata : p.data with
  | none => exact absurd (hb.null.mp hdata) (by omega)
  | some b =>
      have hlen : b.length = p.size := by simpa [memory, hdata] using hb.length
      exact ⟨_, by simp only [copyIn, hdata, Option.bind_some, store_some (hlen ▸ hi)]; rfl⟩

theorem writeValue_total (hb : Backed p) (hn : p.offset + bytes.length < 2 ^ 64) (hne : bytes ≠ []) :
    ∃ r, writeValue a bytes p = .ok r := by
  obtain ⟨p₁, hgrow⟩ := grow_total hok bytes.length p
  obtain ⟨hb₁, he, hroom⟩ := grow_ok hgrow hb
  rw [wrap_of_lt hn, ← he.offset] at hroom
  have hpos := List.length_pos_iff.mpr hne
  obtain ⟨p₂, hcopy⟩ := copyIn_total hb₁ hroom (by omega)
  exact ⟨_, by simp only [writeValue, hgrow, Outcome.bind, hcopy]; rfl⟩

omit hok in
theorem readValue_total (hb : Backed p) (hn : p.readPos + n < 2 ^ 64) (ho : p.offset ≤ p.size) (hpos : 0 < n) :
    ∃ r, readValue n p = .ok r := by
  unfold readValue
  rw [wrap_of_lt hn]
  split
  case isTrue => exact ⟨_, rfl⟩
  case isFalse hle =>
      cases hdata : p.data with
      | none => exact absurd (hb.null.mp hdata) (by omega)
      | some b =>
          have hlen : b.length = p.size := by simpa [memory, hdata] using hb.length
          exact ⟨_, by simp only [Option.bind_some, load_some (show p.readPos + n ≤ b.length by omega)]; rfl⟩

omit hok in
theorem clear_total (hb : Backed p) (ho : p.offset ≤ p.size) : ∃ p', clear p = .ok p' := by
  unfold clear
  split
  case isTrue => exact ⟨_, rfl⟩
  case isFalse hz =>
      simp only [isEmpty, Bool.or_eq_true, beq_iff_eq, not_or] at hz
      obtain ⟨p₁, hcopy⟩ : ∃ p₁, copyIn 0 (List.replicate p.offset 0) p = .ok p₁ :=
        copyIn_total hb (by simpa using ho) (by omega)
      exact ⟨_, by rw [hcopy]; rfl⟩

end Total

end Enigma.Network
