import Enigma.Network

namespace Enigma.PacketBounds

open Block Network

variable {a : Alloc} {p : Packet} {n i : Nat} {bytes : List UInt8} {data : Option (List UInt8)} {buffer : Bool}

theorem wrap_of_le (h : 2 ^ 64 ≤ n) (hn : n < 2 * 2 ^ 64) : wrap n = n - 2 ^ 64 := by
  rw [wrap, Nat.mod_eq_sub_mod h, Nat.mod_eq_of_lt]
  omega

theorem malloc_ne_fault (a : Alloc) (n : Nat) (p : Packet) : malloc a n p ≠ .fault := by
  unfold malloc
  split
  · exact nofun
  · split <;> exact nofun

theorem realloc_ne_fault (a : Alloc) (n : Nat) (p : Packet) : realloc a n p ≠ .fault := by
  unfold realloc
  split
  · exact nofun
  · split
    · exact malloc_ne_fault a n p
    · split <;> exact nofun

theorem grow_ne_fault (a : Alloc) (n : Nat) (p : Packet) : grow a n p ≠ .fault := by
  unfold grow
  split
  · exact realloc_ne_fault a _ p
  · exact nofun

/-- A sum beyond 64 bits starts again at 0, so that it is smaller than its first part. -/
theorem wrap_add_lt (hi : i < 2 ^ 64) (hn : n < 2 ^ 64) (h : 2 ^ 64 ≤ i + n) : wrap (i + n) < i := by
  rw [wrap_of_le h (by omega)]
  omega

theorem copyIn_fault (hb : Backed p) (h : p.size < i + bytes.length) : copyIn i bytes p = .fault := by
  cases hc : copyIn i bytes p with
  | fault => rfl
  | ok p' =>
      obtain ⟨b, hstore, -, -⟩ := copyIn_ok hc hb
      have hle := store_bound hstore
      rw [hb.length] at hle
      omega
  | threw =>
      unfold copyIn at hc
      split at hc <;> cases hc

/-- Where the sum is too large the packet does not grow, and the copy begins inside it and
ends outside. -/
theorem writeValue_fault (hb : Backed p) (ho : p.offset ≤ p.size) (hn : bytes.length < 2 ^ 64)
    (h : 2 ^ 64 ≤ p.offset + bytes.length) : writeValue a bytes p = .fault := by
  have hbound := hb.bound
  have hlt := wrap_add_lt (Nat.lt_of_le_of_lt ho hbound) hn h
  have hgrow : grow a bytes.length p = .ok p := if_neg (by omega)
  rw [writeValue, hgrow, Outcome.bind, copyIn_fault hb (by omega)]
  rfl

theorem writeValue_ne_fault (hb : Backed p) (hne : bytes ≠ []) (h : p.offset + bytes.length < 2 ^ 64) :
    writeValue a bytes p ≠ .fault := by
  intro hw
  cases hgrow : grow a bytes.length p with
  | fault => exact grow_ne_fault a bytes.length p hgrow
  | threw =>
      rw [writeValue, hgrow] at hw
      cases hw
  | ok p₁ =>
      obtain ⟨hb₁, he, hroom⟩ := grow_ok hgrow hb
      rw [wrap_of_lt h] at hroom
      have hpos := List.length_pos_iff.mpr hne
      obtain ⟨p₂, hcopy⟩ := copyIn_total (i := p.offset) hb₁ hroom (by omega)
      rw [writeValue, hgrow, Outcome.bind, he.offset, hcopy] at hw
      cases hw

theorem write_ne_fault (hb : Backed p) (ho : p.offset ≤ p.size) (hn : (data.getD []).length < 2 ^ 64) :
    write a data p ≠ .fault ↔ p.offset + (data.getD []).length < 2 ^ 64 := by
  have hbound := hb.bound
  cases data with
  | none => exact iff_of_true nofun (Nat.lt_of_le_of_lt ho hbound)
  | some bytes =>
      cases bytes with
      | nil => exact iff_of_true nofun (Nat.lt_of_le_of_lt ho hbound)
      | cons c cs =>
          by_cases h : p.offset + (c :: cs).length < 2 ^ 64
          · exact iff_of_true (writeValue_ne_fault hb (List.cons_ne_nil c cs) h) h
          · exact iff_of_false (not_not.mpr (writeValue_fault hb ho hn (Nat.not_lt.mp h))) h

theorem readValue_fault (hb : Backed p) (hr : p.readPos ≤ p.offset) (ho : p.offset ≤ p.size) (hn : n < 2 ^ 64)
    (h : 2 ^ 64 ≤ p.readPos + n) : readValue n p = .fault := by
  have hbound := hb.bound
  have hlt := wrap_add_lt (by omega) hn h
  cases hc : readValue n p with
  | fault => rfl
  | ok r =>
      obtain ⟨hno, -⟩ | ⟨-, hin, -⟩ := readValue_ok hc hb
      · omega
      · omega
  | threw =>
      unfold readValue at hc
      split at hc
      · cases hc
      · split at hc <;> cases hc

/-- A read that stays inside the buffer, and answers true only for what is there to read. -/
def ReadSafe (buffer : Bool) (n : Nat) (p : Packet) : Prop :=
  ∃ r, read buffer n p = .ok r ∧ (r.2.isSome → 0 < n ∧ n ≤ readRemaining p)

theorem readSafe_iff (hb : Backed p) (hr : p.readPos ≤ p.offset) (ho : p.offset ≤ p.size) (hn : n < 2 ^ 64) :
    ReadSafe buffer n p ↔ (buffer = true → p.readPos + n < 2 ^ 64) := by
  have hbound := hb.bound
  rw [ReadSafe, Network.read]
  split
  case isTrue hnone =>
      refine iff_of_true ⟨_, rfl, nofun⟩ fun hbuf => ?_
      simp only [hbuf, Bool.not_true, Bool.false_or, beq_iff_eq] at hnone
      omega
  case isFalse hsome =>
      simp only [Bool.or_eq_true, Bool.not_eq_true', beq_iff_eq, not_or, Bool.not_eq_false] at hsome
      by_cases h : p.readPos + n < 2 ^ 64
      · refine iff_of_true ?_ fun _ => h
        obtain ⟨r, hok⟩ := readValue_total hb h ho (Nat.pos_of_ne_zero hsome.2)
        refine ⟨r, hok, fun htrue => ?_⟩
        obtain ⟨-, rfl⟩ | ⟨hle, -, -⟩ := readValue_ok hok hb
        · cases htrue
        · rw [wrap_of_lt h] at hle
          rw [readRemaining]
          split <;> omega
      · refine iff_of_false ?_ fun hall => h (hall hsome.1)
        rintro ⟨r, hok, -⟩
        rw [readValue_fault hb hr ho hn (Nat.not_lt.mp h)] at hok
        cases hok

/-- Read and write keep to the buffer exactly when the sum that they compare does not go
beyond 64 bits, whatever the allocator does. -/
theorem copies_inside (hb : Backed p) (hr : p.readPos ≤ p.offset) (ho : p.offset ≤ p.size) (hn : n < 2 ^ 64)
    (hd : (data.getD []).length < 2 ^ 64) :
    (ReadSafe buffer n p ↔ (buffer = true → p.readPos + n < 2 ^ 64)) ∧
      (write a data p ≠ .fault ↔ p.offset + (data.getD []).length < 2 ^ 64) :=
  ⟨readSafe_iff hb hr ho hn, write_ne_fault hb ho hd⟩

def halfRead : Packet := { data := some [1, 2], size := 2, offset := 2, readPos := 1 }

theorem backed_halfRead : Backed halfRead := ⟨rfl, by decide, by decide⟩

theorem copies_inside_halfRead :
    (ReadSafe true 1 halfRead ↔ (true = true → halfRead.readPos + 1 < 2 ^ 64)) ∧
      (write {} (some [3]) halfRead ≠ .fault ↔ halfRead.offset + 1 < 2 ^ 64) :=
  copies_inside backed_halfRead (by decide) (by decide) (by decide) (by decide)

theorem read_beyond : Backed halfRead ∧ halfRead.readPos ≤ halfRead.offset ∧ halfRead.offset ≤ halfRead.size ∧
    read true (2 ^ 64 - 1) halfRead = .fault := ⟨backed_halfRead, by decide, by decide, by decide⟩

end Enigma.PacketBounds
