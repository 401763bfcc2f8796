import Enigma.Network

namespace Enigma.PacketStream

open Block Network

/-- What a packet is for: the bytes written, and how far they have been read. -/
structure Stream where
  bytes : List UInt8 := []
  pos : Nat := 0
  deriving DecidableEq, Repr

/-- The calls of a user. A value of a trivially copyable type has at least one byte;
of a buffer that is read into only its size matters. -/
inductive Op
  | writeValue (value : List UInt8) (hne : value ≠ [])
  | write (data : Option (List UInt8))
  | readValue (dataSize : Nat) (hpos : 0 < dataSize)
  | read (buffer : Bool) (bufferSize : Nat)
  | setPos (pos : Nat)
  | resetPos
  | clear

inductive Reply
  | flag (b : Bool)
  | bytes (r : Option (List UInt8))
  | unit
  deriving DecidableEq, Repr

def Stream.write (bs : List UInt8) (s : Stream) : Stream := { s with bytes := s.bytes ++ bs }

def Stream.read (n : Nat) (s : Stream) : Stream × Option (List UInt8) :=
  if 0 < n ∧ n ≤ s.bytes.length - s.pos then ({ s with pos := s.pos + n }, some ((s.bytes.drop s.pos).take n))
  else (s, none)

def Stream.apply (s : Stream) : Op → Stream × Reply
  | .writeValue value _ => (s.write value, .flag true)
  | .write none | .write (some []) => (s, .flag false)
  | .write (some bs) => (s.write bs, .flag true)
  | .readValue n _ => ((s.read n).1, .bytes (s.read n).2)
  | .read false _ => (s, .bytes none)
  | .read true n => ((s.read n).1, .bytes (s.read n).2)
  | .setPos pos => ({ s with pos := min pos s.bytes.length }, .unit)
  | .resetPos => ({ s with pos := 0 }, .unit)
  | .clear => ({}, .unit)

def Stream.run (s : Stream) : List Op → Stream × List Reply
  | [] => (s, [])
  | op :: ops => (((s.apply op).1.run ops).1, (s.apply op).2 :: ((s.apply op).1.run ops).2)

def apply (a : Alloc) (p : Packet) : Op → Outcome (Packet × Reply)
  | .writeValue value _ => (Network.writeValue a value p).bind fun r => .ok (r.1, .flag r.2)
  | .write data => (Network.write a data p).bind fun r => .ok (r.1, .flag r.2)
  | .readValue n _ => (Network.readValue n p).bind fun r => .ok (r.1, .bytes r.2)
  | .read buffer n => (Network.read buffer n p).bind fun r => .ok (r.1, .bytes r.2)
  | .setPos pos => .ok (Network.setPos pos p, .unit)
  | .resetPos => .ok (Network.resetPos p, .unit)
  | .clear => (Network.clear p).bind fun p => .ok (p, .unit)

def run (p : Packet) : List (Op × Alloc) → Outcome (Packet × List Reply)
  | [] => .ok (p, [])
  | (op, a) :: ops => (apply a p op).bind fun r => (run r.1 ops).bind fun q => .ok (q.1, r.2 :: q.2)

def Op.written : Op → Nat
  | .writeValue value _ => value.length
  | .write data => (data.getD []).length
  | _ => 0

def Op.requested : Op → Nat
  | .readValue n _ | .read _ n => n
  | _ => 0

structure Holds (p : Packet) (s : Stream) : Prop where
  backed : Backed p
  offset : p.offset = s.bytes.length
  room : p.offset ≤ p.size
  pos : p.readPos = s.pos
  inside : s.pos ≤ s.bytes.length
  bytes : (memory p).take p.offset = s.bytes

variable {a : Alloc} {p : Packet} {s : Stream}

theorem writeValue_holds {value : List UInt8} (hs : Holds p s) (hok : a.ok = true) (hne : value ≠ [])
    (hn : s.bytes.length + value.length < 2 ^ 62) :
    ∃ p', writeValue a value p = .ok (p', true) ∧ Holds p' (s.write value) := by
  have hn : p.offset + value.length < 2 ^ 64 := by
    have ho := hs.offset
    omega
  obtain ⟨⟨p', b⟩, h⟩ := writeValue_total hok hs.backed hn hne
  obtain ⟨hb, ho, hpos, hroom, hbytes, rfl⟩ := writeValue_ok h hs.backed hs.room
  refine ⟨p', h, ⟨hb, ?_, hroom, hpos.trans hs.pos, ?_, ?_⟩⟩
  · rw [ho, hs.offset]
    simp [Stream.write]
  · have hin := hs.inside
    simp only [Stream.write, List.length_append]
    omega
  · rw [hbytes, hs.bytes]
    rfl

theorem readValue_holds {n : Nat} (hs : Holds p s) (hpos : 0 < n) (hs62 : s.bytes.length < 2 ^ 62) (hn : n < 2 ^ 62) :
    ∃ p', readValue n p = .ok (p', (s.read n).2) ∧ Holds p' (s.read n).1 := by
  have hin := hs.inside
  have hp := hs.pos
  have ho := hs.offset
  have hwrap : p.readPos + n < 2 ^ 64 := by omega
  obtain ⟨r, h⟩ := readValue_total hs.backed hwrap hs.room hpos
  rcases readValue_ok h hs.backed with ⟨hlt, rfl⟩ | ⟨hle, -, bytes, hload, rfl⟩
  · rw [wrap_of_lt hwrap] at hlt
    have hfail : s.read n = (s, none) := if_neg (by omega)
    rw [hfail]
    exact ⟨p, h, hs⟩
  · rw [wrap_of_lt hwrap] at hle h
    have hread : s.read n = ({ s with pos := s.pos + n }, some ((s.bytes.drop s.pos).take n)) := if_pos (by omega)
    rw [load_take hle (by rw [hs.backed.length]; exact hs.room), hs.bytes, hp, Option.some.injEq] at hload
    rw [hread, hload]
    refine ⟨_, h, ⟨⟨hs.backed.length, hs.backed.null, hs.backed.bound⟩, ho, hs.room, ?_, ?_, hs.bytes⟩⟩
    · exact congrArg (· + n) hp
    · dsimp only
      omega

theorem clear_holds (hs : Holds p s) : ∃ p', clear p = .ok p' ∧ Holds p' {} := by
  obtain ⟨p', h⟩ := clear_total hs.backed hs.room
  refine ⟨p', h, ?_⟩
  rcases clear_ok h hs.backed hs.room with ⟨ho, rfl⟩ | ⟨ho, b, hlen, rfl⟩
  · have hnil : s.bytes = [] := List.length_eq_zero_iff.mp (hs.offset.symm.trans ho)
    have hin := hs.inside
    rw [hnil, List.length_nil, Nat.le_zero] at hin
    exact ⟨hs.backed, ho, hs.room, hs.pos.trans hin, Nat.le_refl _, by simp [ho]⟩
  · have hsize : p.size ≠ 0 := by
      have hroom := hs.room
      omega
    exact ⟨⟨hlen, by simp [hsize], hs.backed.bound⟩, rfl, Nat.zero_le _, rfl, Nat.le_refl _, rfl⟩

theorem setPos_holds (pos : Nat) (hs : Holds p s) : Holds (setPos pos p) { s with pos := min pos s.bytes.length } := by
  refine ⟨⟨hs.backed.length, hs.backed.null, hs.backed.bound⟩, hs.offset, hs.room, ?_, Nat.min_le_right _ _, hs.bytes⟩
  have ho := hs.offset
  simp only [setPos]
  split <;> omega

/-- One call on the packet does to the stream what it does to its pair of bytes and
position. -/
theorem apply_holds (op : Op) (hs : Holds p s) (hok : a.ok = true)
    (hw : s.bytes.length + op.written < 2 ^ 62) (hreq : op.requested < 2 ^ 62) :
    ∃ p', apply a p op = .ok (p', (s.apply op).2) ∧ Holds p' (s.apply op).1 := by
  have hlen : s.bytes.length < 2 ^ 62 := Nat.lt_of_le_of_lt (Nat.le_add_right _ _) hw
  cases op with
  | writeValue value hne =>
      obtain ⟨p', h, hs'⟩ := writeValue_holds hs hok hne hw
      exact ⟨p', by simp only [apply, h, Outcome.bind]; rfl, hs'⟩
  | write data =>
      obtain _ | bytes := data
      · exact ⟨p, rfl, hs⟩
      cases bytes with
      | nil => exact ⟨p, rfl, hs⟩
      | cons x bs =>
          obtain ⟨p', h, hs'⟩ := writeValue_holds hs hok (List.cons_ne_nil x bs) hw
          exact ⟨p', by simp only [apply, write, h, Outcome.bind]; rfl, hs'⟩
  | readValue n hpos =>
      obtain ⟨p', h, hs'⟩ := readValue_holds hs hpos hlen hreq
      exact ⟨p', by simp only [apply, h, Outcome.bind]; rfl, hs'⟩
  | read buffer n =>
      cases buffer with
      | false => exact ⟨p, rfl, hs⟩
      | true =>
          by_cases hz : n = 0
          · subst hz
            have hfail : s.read 0 = (s, none) := if_neg (by simp)
            exact ⟨p, by simp only [Stream.apply, hfail]; rfl, by simpa only [Stream.apply, hfail] using hs⟩
          · obtain ⟨p', h, hs'⟩ := readValue_holds hs (Nat.pos_of_ne_zero hz) hlen hreq
            exact ⟨p', by simp [apply, Network.read, hz, h, Outcome.bind, Stream.apply], hs'⟩
  | setPos pos => exact ⟨_, rfl, setPos_holds pos hs⟩
  | resetPos =>
      have hb := hs.backed
      exact ⟨_, rfl, ⟨⟨hb.length, hb.null, hb.bound⟩, hs.offset, hs.room, rfl, Nat.zero_le _, hs.bytes⟩⟩
  | clear =>
      obtain ⟨p', h, hs'⟩ := clear_holds hs
      exact ⟨p', by simp only [apply, h, Outcome.bind]; rfl, hs'⟩

theorem length_apply (s : Stream) (op : Op) : (s.apply op).1.bytes.length ≤ s.bytes.length + op.written := by
  have hread (n : Nat) : (s.read n).1.bytes.length = s.bytes.length := by
    unfold Stream.read
    split <;> rfl
  match op with
  | .writeValue value hne => simp [Stream.apply, Stream.write, Op.written]
  | .write none | .write (some []) => simp [Stream.apply, Op.written]
  | .write (some (x :: bs)) => simp [Stream.apply, Stream.write, Op.written]
  | .readValue n hpos => simp [Stream.apply, hread]
  | .read false n => simp [Stream.apply]
  | .read true n => simp [Stream.apply, hread]
  | .setPos pos => simp [Stream.apply]
  | .resetPos => simp [Stream.apply]
  | .clear => simp [Stream.apply]

theorem run_holds {ops : List (Op × Alloc)} (hs : Holds p s) (hok : ∀ x ∈ ops, x.2.ok = true)
    (hw : s.bytes.length + (ops.map fun x => x.1.written).sum < 2 ^ 62) (hreq : ∀ x ∈ ops, x.1.requested < 2 ^ 62) :
    ∃ p', run p ops = .ok (p', (s.run (ops.map Prod.fst)).2) ∧ Holds p' (s.run (ops.map Prod.fst)).1 := by
  induction ops generalizing p s with
  | nil => exact ⟨p, rfl, hs⟩
  | cons x ops ih =>
      obtain ⟨op, a⟩ := x
      simp only [List.map_cons, List.sum_cons] at hw
      obtain ⟨p₁, h, hs₁⟩ := apply_holds op hs (hok _ List.mem_cons_self) (by omega) (hreq _ List.mem_cons_self)
      have hlen := length_apply s op
      obtain ⟨p', h', hs'⟩ := ih hs₁ (fun x hx => hok x (List.mem_cons_of_mem _ hx)) (by omega)
        fun x hx => hreq x (List.mem_cons_of_mem _ hx)
      exact ⟨p', by simp only [run, h, Outcome.bind, h']; rfl, hs'⟩

theorem construct_holds {size : Nat} (hok : a.ok = true) (hn : size < 2 ^ 62) :
    ∃ p, construct a size = .ok p ∧ Holds p {} := by
  obtain ⟨p, h⟩ := malloc_total hok size {}
  have hb : Backed {} := ⟨rfl, by simp, by decide⟩
  obtain ⟨hb', he, -⟩ := malloc_ok h hb rfl (by omega)
  have ho : p.offset = 0 := he.offset
  exact ⟨p, h, ⟨hb', ho, by omega, he.readPos, Nat.le_refl _, by simp [ho]⟩⟩

inductive Applied (a : Alloc) (p : Packet) : Packet → Reply → Prop
  | refused (r : Reply) (hr : r = .flag false ∨ r = .bytes none) : Applied a p p r
  | wrote (bytes : List UInt8) (p' : Packet) (b : Bool) (h : writeValue a bytes p = .ok (p', b)) :
      Applied a p p' (.flag b)
  | got (n : Nat) (p' : Packet) (r : Option (List UInt8)) (h : readValue n p = .ok (p', r)) :
      Applied a p p' (.bytes r)
  | positioned (pos : Nat) : Applied a p (setPos pos p) .unit
  | reset : Applied a p (resetPos p) .unit
  | cleared (p' : Packet) (h : clear p = .ok p') : Applied a p p' .unit

theorem apply_ok {p' : Packet} {op : Op} {r : Reply} (h : apply a p op = .ok (p', r)) : Applied a p p' r := by
  cases op with
  | writeValue value hne =>
      obtain ⟨⟨p₁, b⟩, h₁, he⟩ := Outcome.bind_eq_ok h
      cases he
      exact .wrote value p₁ b h₁
  | write data =>
      obtain _ | bytes := data
      · cases h
        exact .refused _ (.inl rfl)
      cases bytes with
      | nil =>
          cases h
          exact .refused _ (.inl rfl)
      | cons x bs =>
          obtain ⟨⟨p₁, b⟩, h₁, he⟩ := Outcome.bind_eq_ok h
          cases he
          exact .wrote (x :: bs) p₁ b h₁
  | readValue n hpos =>
      obtain ⟨⟨p₁, v⟩, h₁, he⟩ := Outcome.bind_eq_ok h
      cases he
      exact .got n p₁ v h₁
  | read buffer n =>
      by_cases hz : (!buffer || n == 0) = true
      · simp only [apply, Network.read, if_pos hz] at h
        cases h
        exact .refused _ (.inr rfl)
      · simp only [apply, Network.read, if_neg hz] at h
        obtain ⟨⟨p₁, v⟩, h₁, he⟩ := Outcome.bind_eq_ok h
        cases he
        exact .got n p₁ v h₁
  | setPos pos =>
      cases h
      exact .positioned pos
  | resetPos =>
      cases h
      exact .reset
  | clear =>
      obtain ⟨p₁, h₁, he⟩ := Outcome.bind_eq_ok h
      cases he
      exact .cleared _ h₁

theorem apply_failed {p' : Packet} {op : Op} {r : Reply} (h : apply a p op = .ok (p', r))
    (hr : r = .flag false ∨ r = .bytes none) : p' = p := by
  cases apply_ok h with
  | refused => rfl
  | wrote bytes p' b hwrite =>
      obtain ⟨_, -, hwrite⟩ := Outcome.bind_eq_ok hwrite
      obtain ⟨_, -, hwrite⟩ := Outcome.bind_eq_ok hwrite
      cases hwrite
      rcases hr with hr | hr <;> cases hr
  | got n p' r hread =>
      unfold readValue at hread
      split at hread
      case isTrue =>
          cases hread
          rfl
      case isFalse =>
          split at hread
          case h_1 => cases hread
          case h_2 =>
              cases hread
              rcases hr with hr | hr <;> cases hr
  | positioned | reset | cleared => rcases hr with hr | hr <;> cases hr

/-- The packet refines the pair of the bytes written and the read position, over every
sequence of calls, however often its memory is reallocated. -/
theorem packet_refines {size : Nat} {a₀ : Alloc} {ops : List (Op × Alloc)} (hsize : size < 2 ^ 62)
    (hok₀ : a₀.ok = true) (hok : ∀ x ∈ ops, x.2.ok = true) (hw : (ops.map fun x => x.1.written).sum < 2 ^ 62)
    (hreq : ∀ x ∈ ops, x.1.requested < 2 ^ 62) :
    ∃ p₀ p, construct a₀ size = .ok p₀ ∧ run p₀ ops = .ok (p, (Stream.run {} (ops.map Prod.fst)).2) ∧
      (memory p).take (length p) = (Stream.run {} (ops.map Prod.fst)).1.bytes ∧
      length p = (Stream.run {} (ops.map Prod.fst)).1.bytes.length ∧
      getPos p = (Stream.run {} (ops.map Prod.fst)).1.pos ∧
      readRemaining p = (Stream.run {} (ops.map Prod.fst)).1.bytes.length - (Stream.run {} (ops.map Prod.fst)).1.pos ∧
      ∀ a op p' r, apply a p op = .ok (p', r) → r = .flag false ∨ r = .bytes none → p' = p := by
  obtain ⟨p₀, hconstruct, hs₀⟩ := construct_holds hok₀ hsize
  obtain ⟨p, hrun, hs⟩ := run_holds hs₀ hok (by simpa using hw) hreq
  refine ⟨p₀, p, hconstruct, hrun, hs.bytes, hs.offset, hs.pos, ?_, fun a op p' r => apply_failed⟩
  have ho := hs.offset
  have hp := hs.pos
  unfold readRemaining
  split <;> omega

def growing : List (Op × Alloc) :=
  [(.write (some [1, 2]), {}), (.writeValue [3] (by decide), {}), (.read true 2, {}), (.readValue 2 (by decide), {})]

theorem packet_refines_growing :
    ∃ p₀ p, construct {} 0 = .ok p₀ ∧
      run p₀ growing = .ok (p, [.flag true, .flag true, .bytes (some [1, 2]), .bytes none]) ∧
      readRemaining p = 1 := by
  have hsize : 0 < 2 ^ 62 := by decide
  have hok : ∀ x ∈ growing, x.2.ok = true := by simp [growing]
  obtain ⟨p₀, p, h₀, hrun, -, -, -, hrem, -⟩ :=
    packet_refines hsize (rfl : ({} : Alloc).ok = true) hok (by decide) (by simp [growing, Op.requested])
  exact ⟨p₀, p, h₀, hrun, hrem⟩

end Enigma.PacketStream
