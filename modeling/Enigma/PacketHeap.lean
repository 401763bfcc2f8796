import Enigma.Ownership
import Enigma.PacketLife

namespace Enigma.PacketHeap

open Block Network Ownership Transition

/-- The members of a packet; of its block only the address. -/
structure Members where
  data : Option Nat := none
  size : Nat := 0
  offset : Nat := 0
  readPos : Nat := 0
  deriving DecidableEq, Repr

abbrev Heap := Memory Nat (List UInt8)

abbrev Placed := Heap × Members

def deref (m : Heap) (p : Members) : Packet := ⟨p.data.bind m, p.size, p.offset, p.readPos⟩

def isEmpty (p : Members) : Bool := p.size == 0

def setPos (pos : Nat) (p : Members) : Members := { p with readPos := if pos < p.offset then pos else p.offset }

def resetPos (p : Members) : Members := { p with readPos := 0 }

def malloc (a : Alloc) (addr length : Nat) (r : Placed) : Outcome Placed :=
  if length = 0 then .ok r
  else if a.ok then
    .ok (put r.1 addr ((List.range length).map a.fill), { r.2 with data := some addr, size := length })
  else .threw

/-- A block that grows may move: the old one is given back. -/
def realloc (a : Alloc) (addr length : Nat) (r : Placed) : Outcome Placed :=
  if length = 0 ∨ length ≤ r.2.size then .ok r
  else match r.2.data with
    | none => malloc a addr length r
    | some d => match r.1 d with
      | none => .fault
      | some b =>
          if a.ok then
            .ok (put (erase r.1 d) addr (b ++ (List.range (length - b.length)).map a.fill),
              { r.2 with data := some addr, size := length })
          else .threw

def copyIn (i : Nat) (bytes : List UInt8) (r : Placed) : Outcome Placed := match r.2.data with
  | none => .fault
  | some d => match (r.1 d).bind fun b => store b i bytes with
    | none => .fault
    | some b => .ok (put r.1 d b, r.2)

def grow (a : Alloc) (addr dataSize : Nat) (r : Placed) : Outcome Placed :=
  if r.2.size < wrap (r.2.offset + dataSize) then
    realloc a addr (max (wrap (r.2.size * 2)) (wrap (r.2.offset + dataSize))) r
  else .ok r

def writeValue (a : Alloc) (addr : Nat) (value : List UInt8) (r : Placed) : Outcome (Placed × Bool) :=
  (grow a addr value.length r).bind fun r => (copyIn r.2.offset value r).bind fun r =>
    .ok ((r.1, { r.2 with offset := wrap (r.2.offset + value.length) }), true)

def write (a : Alloc) (addr : Nat) (data : Option (List UInt8)) (r : Placed) : Outcome (Placed × Bool) := match data with
  | none | some [] => .ok (r, false)
  | some bytes => writeValue a addr bytes r

def readValue (dataSize : Nat) (r : Placed) : Outcome (Placed × Option (List UInt8)) :=
  if r.2.offset < wrap (r.2.readPos + dataSize) then .ok (r, none)
  else match (r.2.data.bind r.1).bind fun b => load b r.2.readPos dataSize with
    | none => .fault
    | some bytes => .ok ((r.1, { r.2 with readPos := wrap (r.2.readPos + dataSize) }), some bytes)

def read (buffer : Bool) (bufferSize : Nat) (r : Placed) : Outcome (Placed × Option (List UInt8)) :=
  if !buffer || bufferSize == 0 then .ok (r, none) else readValue bufferSize r

def clear (r : Placed) : Outcome Placed :=
  if isEmpty r.2 || r.2.offset == 0 then .ok r
  else (copyIn 0 (List.replicate r.2.offset 0) r).bind fun r => .ok (r.1, { r.2 with offset := 0, readPos := 0 })

/-- A block that is given back twice is an access to foreign memory. -/
def free (r : Placed) : Outcome Placed :=
  if isEmpty r.2 then .ok r
  else match r.2.data with
    | none => .ok r
    | some d => match r.1 d with
      | none => .fault
      | some _ => .ok (erase r.1 d, {})

def construct (a : Alloc) (addr size : Nat) (m : Heap) : Outcome Placed := malloc a addr size (m, {})

/-- The bytes of the other packet are read after the packet itself has grown. -/
def copyAssign (a : Alloc) (addr : Nat) (lvalue : Members) (r : Placed) : Outcome Placed :=
  if lvalue.size = 0 then free r
  else if lvalue.offset = 0 then clear r
  else (if r.2.size < lvalue.size then realloc a addr lvalue.size r else .ok r).bind fun r =>
    match (lvalue.data.bind r.1).bind fun b => load b 0 lvalue.offset with
    | none => .fault
    | some bytes => (copyIn 0 bytes r).bind fun r =>
        (if lvalue.offset < r.2.size then copyIn lvalue.offset (List.replicate (r.2.size - lvalue.offset) 0) r
        else .ok r).bind fun r => .ok (r.1, { r.2 with offset := lvalue.offset })

/-- The address goes over, and nothing is given back. -/
def moveAssign (rvalue p : Members) : Members × Members :=
  ({ p with data := rvalue.data, size := rvalue.size, offset := rvalue.offset },
    { rvalue with data := none, size := 0, offset := 0 })

def apply (a : Alloc) (addr : Nat) (r : Placed) : PacketStream.Op → Outcome (Placed × PacketStream.Reply)
  | .writeValue value _ => (writeValue a addr value r).bind fun r => .ok (r.1, .flag r.2)
  | .write data => (write a addr data r).bind fun r => .ok (r.1, .flag r.2)
  | .readValue n _ => (readValue n r).bind fun r => .ok (r.1, .bytes r.2)
  | .read buffer n => (read buffer n r).bind fun r => .ok (r.1, .bytes r.2)
  | .setPos pos => .ok ((r.1, setPos pos r.2), .unit)
  | .resetPos => .ok ((r.1, resetPos r.2), .unit)
  | .clear => (clear r).bind fun r => .ok (r, .unit)

structure State where
  heap : Heap
  members : Nat → Option Members

/-- What is done with the packets, with the address that the allocator answers; the
destructor does nothing. -/
inductive Act
  | call (x : PacketLife.Act) (addr : Nat)
  | destroy (i : Nat)

def State.set (σ : State) (i : Nat) (r : Placed) : State := ⟨r.1, Function.update σ.members i (some r.2)⟩

def State.move (σ : State) (i j : Nat) (r : Members × Members) : State :=
  ⟨σ.heap, Function.update (Function.update σ.members i (some r.1)) j (some r.2)⟩

def callNext (σ : State) (addr : Nat) : PacketLife.Act → Option State
  | .construct i size a => if (σ.members i).isNone ∧ size < 2 ^ 64 then match construct a addr size σ.heap with
    | .ok r => some (σ.set i r)
    | .threw => some σ
    | .fault => none
    else none
  | .copyConstruct i j a => match σ.members i, σ.members j with
    | none, some q => match copyAssign a addr q (σ.heap, {}) with
      | .ok r => some (σ.set i r)
      | _ => none
    | _, _ => none
  | .moveConstruct i j => match σ.members i, σ.members j with
    | none, some q => some (σ.move i j (moveAssign q {}))
    | _, _ => none
  | .copyAssign i j a => match σ.members i, σ.members j with
    | some p, some q =>
        if i = j then some σ
        else match copyAssign a addr q (σ.heap, p) with
          | .ok r => some (σ.set i r)
          | _ => none
    | _, _ => none
  | .moveAssign i j => match σ.members i, σ.members j with
    | some p, some q => some (σ.move i j (moveAssign q p))
    | _, _ => none
  | .call i op a => match σ.members i with
    | some p => match apply a addr (σ.heap, p) op with
      | .ok r => some (σ.set i r.1)
      | .threw => some σ
      | .fault => none
    | none => none
  | .free i => match σ.members i with
    | some p => match free (σ.heap, p) with
      | .ok r => some (σ.set i r)
      | _ => none
    | none => none

def next (σ : State) : Act → Option State
  | .call x addr => callNext σ addr x
  | .destroy i => (σ.members i).map fun _ => ⟨σ.heap, Function.update σ.members i none⟩

def system : System State Act := ⟨(· = ⟨fun _ => none, fun _ => none⟩), next⟩

def block (σ : State) (i : Nat) : Option Nat := (σ.members i).bind Members.data

def lost (σ : State) : Act → List Nat
  | .call (.moveAssign i _) _ => (block σ i).toList
  | .destroy i => (block σ i).toList
  | _ => []

def target : PacketLife.Act → Option Nat
  | .construct i _ _ | .copyConstruct i _ _ | .copyAssign i _ _ | .call i _ _ => some i
  | _ => none

/-- The allocator answers with a free address, or that of the packet's own block, which
then grows in place. -/
def Allocates (σ : State) : Act → Prop
  | .call x addr => ∀ i, target x = some i → σ.heap addr = none ∨ block σ i = some addr
  | .destroy _ => True

def view (σ : State) : PacketLife.State := fun i => (σ.members i).map (deref σ.heap)

def valueNext (s : PacketLife.State) : Act → Option PacketLife.State
  | .call x _ => PacketLife.next s x
  | .destroy i => (s i).map fun _ => Function.update s i none

section Agreement

variable {β γ δ ε : Type}

inductive Agrees (R : β → γ → Prop) : Outcome β → Outcome γ → Prop
  | ok {b : β} {c : γ} (h : R b c) : Agrees R (.ok b) (.ok c)
  | threw : Agrees R .threw .threw
  | fault : Agrees R .fault .fault

theorem Agrees.bind {R : β → γ → Prop} {R' : δ → ε → Prop} {x : Outcome β} {y : Outcome γ} {f : β → Outcome δ}
    {g : γ → Outcome ε} (h : Agrees R x y) (hfg : ∀ b c, R b c → Agrees R' (f b) (g c)) :
    Agrees R' (x.bind f) (y.bind g) := by
  cases h with
  | ok h => exact hfg _ _ h
  | threw => exact .threw
  | fault => exact .fault

end Agreement

/-- The packet, which owned the block at `p` of the memory `m`, has become the value `q`. -/
structure Same (m : Heap) (p : Option Nat) (r : Placed) (q : Packet) : Prop where
  deref : deref r.1 r.2 = q
  changes : Changes m p r.1 r.2.data

def SameWith {ρ : Type} (m : Heap) (p : Option Nat) (r : Placed × ρ) (q : Packet × ρ) : Prop :=
  Same m p r.1 q.1 ∧ r.2 = q.2

variable {m : Heap} {p : Option Nat} {r : Placed} {q : Packet} {a : Alloc} {addr n i : Nat} {bytes : List UInt8}

theorem Same.size (h : Same m p r q) : r.2.size = q.size := by rw [← h.deref]; rfl

theorem Same.offset (h : Same m p r q) : r.2.offset = q.offset := by rw [← h.deref]; rfl

theorem Same.readPos (h : Same m p r q) : r.2.readPos = q.readPos := by rw [← h.deref]; rfl

theorem Same.data (h : Same m p r q) : r.2.data.bind r.1 = q.data := by rw [← h.deref]; rfl

theorem Same.setOffset (h : Same m p r q) (n : Nat) :
    Same m p (r.1, { r.2 with offset := n }) { q with offset := n } := ⟨by rw [← h.deref]; rfl, h.changes⟩

theorem Same.setReadPos (h : Same m p r q) (n : Nat) :
    Same m p (r.1, { r.2 with readPos := n }) { q with readPos := n } := ⟨by rw [← h.deref]; rfl, h.changes⟩

theorem Same.some_iff (h : Same m p r q) {d : Nat} (hd : r.2.data = some d) : ∃ b, r.1 d = some b ∧ q.data = some b := by
  obtain ⟨b, hb⟩ := Option.ne_none_iff_exists'.mp (h.changes.live d hd)
  refine ⟨b, hb, ?_⟩
  rw [← h.data, hd]
  exact hb

def Fresh (addr : Nat) (r : Placed) : Prop := r.1 addr = none ∨ r.2.data = some addr

theorem malloc_agrees (h : Same m p r q) (hd : r.2.data = none) (hf : Fresh addr r) :
    Agrees (Same m p) (malloc a addr n r) (Network.malloc a n q) := by
  unfold malloc Network.malloc
  split
  case isTrue => exact .ok h
  case isFalse =>
      split
      case isFalse => exact .threw
      case isTrue =>
          have hnone : r.1 addr = none := hf.resolve_right (by simp [hd])
          have hnew := changes_new hnone ((List.range n).map a.fill)
          refine .ok ⟨?_, h.changes.trans (hd ▸ hnew)⟩
          simp [← h.deref, PacketHeap.deref, put_self]

theorem realloc_agrees (h : Same m p r q) (hf : Fresh addr r) :
    Agrees (Same m p) (realloc a addr n r) (Network.realloc a n q) := by
  unfold realloc Network.realloc
  rw [h.size]
  split
  case isTrue => exact .ok h
  case isFalse =>
      cases hd : r.2.data with
      | none =>
          have hq : q.data = none := by rw [← h.data, hd]; rfl
          simp only [hq]
          exact malloc_agrees h hd hf
      | some d =>
          obtain ⟨b, hb, hq⟩ := h.some_iff hd
          simp only [hb, hq]
          split
          case isFalse => exact .threw
          case isTrue =>
              have hold : r.1 addr = none ∨ addr = d := hf.imp_right fun he => Option.some.inj (he.symm.trans hd)
              have hmove := changes_move hold (b ++ (List.range (n - b.length)).map a.fill)
              refine .ok ⟨?_, h.changes.trans (hd ▸ hmove)⟩
              simp [← h.deref, PacketHeap.deref, put_self]

theorem copyIn_agrees (h : Same m p r q) : Agrees (Same m p) (copyIn i bytes r) (Network.copyIn i bytes q) := by
  unfold copyIn Network.copyIn
  cases hd : r.2.data with
  | none =>
      have hq : q.data = none := by rw [← h.data, hd]; rfl
      simp only [hq]
      exact .fault
  | some d =>
      obtain ⟨b, hb, hq⟩ := h.some_iff hd
      simp only [hb, hq, Option.bind_some]
      cases hs : store b i bytes with
      | none => exact .fault
      | some b' =>
          have hput := changes_put r.1 d b'
          refine .ok ⟨?_, h.changes.trans (hd ▸ hd ▸ hput)⟩
          simp [← h.deref, PacketHeap.deref, hd, put_self]

theorem grow_agrees (h : Same m p r q) (hf : Fresh addr r) :
    Agrees (Same m p) (grow a addr n r) (Network.grow a n q) := by
  unfold grow Network.grow
  rw [h.size, h.offset]
  split
  · exact realloc_agrees h hf
  · exact .ok h

theorem writeValue_agrees (h : Same m p r q) (hf : Fresh addr r) :
    Agrees (SameWith m p) (writeValue a addr bytes r) (Network.writeValue a bytes q) := by
  unfold writeValue Network.writeValue
  refine (grow_agrees h hf).bind fun r₁ q₁ h₁ => ?_
  rw [h₁.offset]
  refine copyIn_agrees h₁ |>.bind fun r₂ q₂ h₂ => .ok ⟨?_, rfl⟩
  rw [h₂.offset]
  exact h₂.setOffset _

theorem write_agrees {data : Option (List UInt8)} (h : Same m p r q) (hf : Fresh addr r) :
    Agrees (SameWith m p) (write a addr data r) (Network.write a data q) := by
  match data with
  | none | some [] => exact .ok ⟨h, rfl⟩
  | some (b :: bs) => exact writeValue_agrees h hf

theorem readValue_agrees (h : Same m p r q) :
    Agrees (SameWith m p) (readValue n r) (Network.readValue n q) := by
  unfold readValue Network.readValue
  rw [h.offset, h.readPos, h.data]
  split
  case isTrue => exact .ok ⟨h, rfl⟩
  case isFalse =>
      cases q.data.bind fun b => load b q.readPos n with
      | none => exact .fault
      | some bytes => exact .ok ⟨h.setReadPos _, rfl⟩

theorem read_agrees {buffer : Bool} (h : Same m p r q) :
    Agrees (SameWith m p) (read buffer n r) (Network.read buffer n q) := by
  unfold read Network.read
  split
  · exact .ok ⟨h, rfl⟩
  · exact readValue_agrees h

theorem isEmpty_eq (h : Same m p r q) : isEmpty r.2 = Network.isEmpty q := by
  unfold isEmpty Network.isEmpty
  rw [h.size]

theorem clear_agrees (h : Same m p r q) : Agrees (Same m p) (clear r) (Network.clear q) := by
  unfold clear Network.clear
  rw [isEmpty_eq h, h.offset]
  split
  · exact .ok h
  · exact (copyIn_agrees h).bind fun r₁ q₁ h₁ => .ok ((h₁.setOffset 0).setReadPos 0)

theorem free_agrees (h : Same m p r q) : Agrees (Same m p) (free r) (.ok (Network.free q)) := by
  unfold free Network.free
  rw [isEmpty_eq h]
  cases hz : Network.isEmpty q with
  | true => exact .ok h
  | false =>
      cases hd : r.2.data with
      | none =>
          have hq : q.data = none := by rw [← h.data, hd]; rfl
          simp only [hq]
          exact .ok h
      | some d =>
          obtain ⟨b, hb, hq⟩ := h.some_iff hd
          simp only [hb, hq]
          exact .ok ⟨rfl, h.changes.trans (hd ▸ changes_erase r.1 d)⟩

/-- The block of the other packet is not touched by what this one does before it is read. -/
theorem copyAssign_agrees {lvalue : Members} (h : Same m p r q) (hf : Fresh addr r)
    (hl : ∀ d, lvalue.data = some d → p ≠ some d ∧ m d ≠ none) :
    Agrees (Same m p) (copyAssign a addr lvalue r) (Network.copyAssign a (deref m lvalue) q) := by
  unfold copyAssign Network.copyAssign
  simp only [show (deref m lvalue).size = lvalue.size from rfl, show (deref m lvalue).offset = lvalue.offset from rfl]
  split
  case isTrue => exact free_agrees h
  case isFalse =>
      split
      case isTrue => exact clear_agrees h
      case isFalse =>
          have hgrown : Agrees (Same m p) (if r.2.size < lvalue.size then realloc a addr lvalue.size r else .ok r)
              (if q.size < lvalue.size then Network.realloc a lvalue.size q else .ok q) := by
            rw [h.size]
            split
            · exact realloc_agrees h hf
            · exact .ok h
          refine hgrown.bind fun r₁ q₁ h₁ => ?_
          have hread : lvalue.data.bind r₁.1 = (deref m lvalue).data := by
            refine Option.bind_congr fun d hd => ?_
            exact h₁.changes.other (hl d hd).1 (hl d hd).2
          rw [hread]
          cases (deref m lvalue).data.bind fun b => load b 0 lvalue.offset with
          | none => exact .fault
          | some bytes =>
              refine (copyIn_agrees h₁).bind fun r₂ q₂ h₂ => ?_
              have hzeroed : Agrees (Same m p)
                  (if lvalue.offset < r₂.2.size then
                    copyIn lvalue.offset (List.replicate (r₂.2.size - lvalue.offset) 0) r₂ else .ok r₂)
                  (if lvalue.offset < q₂.size then
                    Network.copyIn lvalue.offset (List.replicate (q₂.size - lvalue.offset) 0) q₂ else .ok q₂) := by
                rw [h₂.size]
                split
                · exact copyIn_agrees h₂
                · exact .ok h₂
              exact hzeroed.bind fun r₃ q₃ h₃ => .ok (h₃.setOffset lvalue.offset)

theorem apply_agrees (op : PacketStream.Op) (h : Same m p r q) (hf : Fresh addr r) :
    Agrees (SameWith m p) (apply a addr r op) (PacketStream.apply a q op) := by
  cases op with
  | writeValue value _ => exact (writeValue_agrees h hf).bind fun r₁ q₁ h₁ => .ok ⟨h₁.1, by rw [h₁.2]⟩
  | write data => exact (write_agrees h hf).bind fun r₁ q₁ h₁ => .ok ⟨h₁.1, by rw [h₁.2]⟩
  | readValue n _ => exact (readValue_agrees h).bind fun r₁ q₁ h₁ => .ok ⟨h₁.1, by rw [h₁.2]⟩
  | read buffer n => exact (read_agrees h).bind fun r₁ q₁ h₁ => .ok ⟨h₁.1, by rw [h₁.2]⟩
  | setPos pos =>
      refine .ok ⟨?_, rfl⟩
      simpa only [setPos, Network.setPos, h.offset] using h.setReadPos (if pos < q.offset then pos else q.offset)
  | resetPos => exact .ok ⟨h.setReadPos 0, rfl⟩
  | clear => exact (clear_agrees h).bind fun r₁ q₁ h₁ => .ok ⟨h₁, rfl⟩

variable {σ : State} {gone : List Nat} {j : Nat}

theorem block_set (σ : State) (i : Nat) (r : Placed) : block (σ.set i r) = Function.update (block σ) i r.2.data := by
  funext k
  by_cases he : k = i
  · subst he
    simp [block, State.set]
  · simp [block, State.set, he]

theorem block_move (σ : State) (i j : Nat) (r : Members × Members) :
    block (σ.move i j r) = Function.update (Function.update (block σ) i r.1.data) j r.2.data := by
  funext k
  by_cases hj : k = j
  · subst hj
    simp [block, State.move]
  · by_cases hi : k = i
    · subst hi
      simp [block, State.move, hj]
    · simp [block, State.move, hi, hj]

theorem view_move (σ : State) (i j : Nat) (r : Members × Members) :
    view (σ.move i j r) = Function.update (Function.update (view σ) i (some (deref σ.heap r.1))) j
      (some (deref σ.heap r.2)) := by
  funext k
  by_cases hj : k = j
  · subst hj
    simp [view, State.move]
  · by_cases hi : k = i
    · subst hi
      simp [view, State.move, hj]
    · simp [view, State.move, hi, hj]

theorem view_set (h : Accounts σ.heap (block σ) gone) (hs : Same σ.heap (block σ i) r q) :
    view (σ.set i r) = Function.update (view σ) i (some q) := by
  funext k
  by_cases he : k = i
  · subst he
    simp [view, State.set, hs.deref]
  · simp only [view, State.set, Function.update_of_ne he]
    refine Option.map_congr fun p hp => ?_
    have hblock : block σ k = p.data := by simp [block, hp]
    have hdata : p.data.bind r.1 = p.data.bind σ.heap := by
      refine Option.bind_congr fun d hd => ?_
      have hown : block σ k = some d := hblock.trans hd
      exact hs.changes.other (fun hi => he (h.apart k i d hown hi)) (h.of_owner hown)
    rw [deref, hdata]
    rfl

structure Kept (gone : List Nat) (o : Option State) (v : Option PacketLife.State) : Prop where
  view : o.map view = v
  accounts : ∀ σ', o = some σ' → Accounts σ'.heap (block σ') gone

theorem kept_none : Kept gone none none := ⟨rfl, nofun⟩

theorem kept_some (h : Accounts σ.heap (block σ) gone) : Kept gone (some σ) (some (view σ)) := by
  refine ⟨rfl, fun σ' he => ?_⟩
  cases he
  exact h

theorem kept_set (h : Accounts σ.heap (block σ) gone) (hs : Same σ.heap (block σ i) r q) :
    Kept gone (some (σ.set i r)) (some (Function.update (view σ) i (some q))) := by
  have hset : Accounts (σ.set i r).heap (block (σ.set i r)) gone := by
    rw [block_set]
    exact h.change hs.changes
  rw [← view_set h hs]
  exact kept_some hset

theorem same_none (hi : σ.members i = none) : Same σ.heap (block σ i) (σ.heap, {}) {} := by
  have hb : block σ i = none := by simp [block, hi]
  rw [hb]
  exact ⟨rfl, .refl nofun⟩

theorem same_some {p : Members} (h : Accounts σ.heap (block σ) gone) (hi : σ.members i = some p) :
    Same σ.heap (block σ i) (σ.heap, p) (deref σ.heap p) := by
  have hb : block σ i = p.data := by simp [block, hi]
  exact ⟨rfl, hb ▸ .refl fun d hd => h.of_owner hd⟩

theorem fresh_of {p : Members} (hx : σ.heap addr = none ∨ block σ i = some addr) (hb : block σ i = p.data) :
    Fresh addr (σ.heap, p) := hx.imp_right fun ha => hb.symm.trans ha

theorem source_apart {p : Members} (h : Accounts σ.heap (block σ) gone) (hne : i ≠ j) (hj : σ.members j = some p) (d : Nat)
    (hd : p.data = some d) : block σ i ≠ some d ∧ σ.heap d ≠ none := by
  have hb : block σ j = some d := by simp [block, hj, hd]
  exact ⟨fun hi => hne (h.apart i j d hi hb), h.of_owner hb⟩

theorem kept_move {p p' : Members} (h : Accounts σ.heap (block σ) gone) (hj : σ.members j = some p) :
    Kept (gone ++ (block σ i).toList) (some (σ.move i j (moveAssign p p')))
      (some (Function.update (Function.update (view σ) i (some (Network.moveAssign (deref σ.heap p) (deref σ.heap p')).1))
        j (some (Network.moveAssign (deref σ.heap p) (deref σ.heap p')).2))) := by
  have hmove : Accounts (σ.move i j (moveAssign p p')).heap (block (σ.move i j (moveAssign p p')))
      (gone ++ (block σ i).toList) := by
    have hb : block σ j = p.data := by simp [block, hj]
    have ht := h.transfer i j
    rw [hb] at ht
    rw [block_move]
    exact ht
  have hview := view_move σ i j (moveAssign p p')
  refine ⟨?_, (kept_some hmove).accounts⟩
  rw [Option.map_some, hview]
  rfl

theorem call_kept {x : PacketLife.Act} (h : Accounts σ.heap (block σ) gone) (hx : Allocates σ (.call x addr)) :
    Kept (gone ++ lost σ (.call x addr)) (callNext σ addr x) (PacketLife.next (view σ) x) := by
  cases x with
  | construct i size a =>
      simp only [callNext, PacketLife.next, lost, List.append_nil, view, Option.isNone_map]
      split
      case isFalse => exact kept_none
      case isTrue hg =>
          have hi : σ.members i = none := by simpa using hg.1
          have hf : Fresh addr (σ.heap, {}) := fresh_of (hx i rfl) (by simp [block, hi])
          have hc := malloc_agrees (n := size) (a := a) (same_none hi) rfl hf
          simp only [construct, Network.construct]
          generalize malloc a addr size (σ.heap, {}) = o, Network.malloc a size {} = v at hc
          cases hc with
          | ok hs => exact kept_set h hs
          | threw => exact kept_some h
          | fault => exact kept_none
  | copyConstruct i j a =>
      simp only [callNext, PacketLife.next, lost, List.append_nil, view]
      cases hi : σ.members i with
      | some p => exact kept_none
      | none =>
          cases hj : σ.members j with
          | none => exact kept_none
          | some p =>
              have hne : i ≠ j := by
                rintro rfl
                rw [hi] at hj
                cases hj
              have hf : Fresh addr (σ.heap, {}) := fresh_of (hx i rfl) (by simp [block, hi])
              have hc := copyAssign_agrees (a := a) (same_none hi) hf (source_apart h hne hj)
              simp only [Option.map_none, Option.map_some]
              generalize copyAssign a addr p (σ.heap, {}) = o, Network.copyAssign a (deref σ.heap p) {} = v at hc
              cases hc with
              | ok hs => exact kept_set h hs
              | threw | fault => exact kept_none
  | moveConstruct i j =>
      simp only [callNext, PacketLife.next, lost, view]
      cases hi : σ.members i with
      | some p => exact kept_none
      | none =>
          cases hj : σ.members j with
          | none => exact kept_none
          | some p =>
              have hb : (block σ i).toList = [] := by simp [block, hi]
              exact hb ▸ kept_move h hj
  | copyAssign i j a =>
      simp only [callNext, PacketLife.next, lost, List.append_nil, view]
      cases hi : σ.members i with
      | none => exact kept_none
      | some p =>
          cases hj : σ.members j with
          | none => exact kept_none
          | some p' =>
              simp only [Option.map_some]
              split
              case isTrue => exact kept_some h
              case isFalse hne =>
                  have hf : Fresh addr (σ.heap, p) := fresh_of (hx i rfl) (by simp [block, hi])
                  have hc := copyAssign_agrees (a := a) (same_some h hi) hf (source_apart h hne hj)
                  generalize copyAssign a addr p' (σ.heap, p) = o,
                    Network.copyAssign a (deref σ.heap p') (deref σ.heap p) = v at hc
                  cases hc with
                  | ok hs => exact kept_set h hs
                  | threw | fault => exact kept_none
  | moveAssign i j =>
      simp only [callNext, PacketLife.next, lost, view]
      cases hi : σ.members i with
      | none => exact kept_none
      | some p =>
          cases hj : σ.members j with
          | none => exact kept_none
          | some p' => exact kept_move h hj
  | call i op a =>
      simp only [callNext, PacketLife.next, lost, List.append_nil, view]
      cases hi : σ.members i with
      | none => exact kept_none
      | some p =>
          have hf : Fresh addr (σ.heap, p) := fresh_of (hx i rfl) (by simp [block, hi])
          have hc := apply_agrees (a := a) op (same_some h hi) hf
          simp only [Option.map_some]
          generalize apply a addr (σ.heap, p) op = o, PacketStream.apply a (deref σ.heap p) op = v at hc
          cases hc with
          | ok hs => exact kept_set h hs.1
          | threw => exact kept_some h
          | fault => exact kept_none
  | free i =>
      simp only [callNext, PacketLife.next, lost, List.append_nil, view]
      cases hi : σ.members i with
      | none => exact kept_none
      | some p =>
          have hc := free_agrees (same_some h hi)
          simp only [Option.map_some]
          generalize free (σ.heap, p) = o, Network.free (deref σ.heap p) = v at hc
          cases hc with
          | ok hs => exact kept_set h hs

theorem destroy_kept (h : Accounts σ.heap (block σ) gone) (i : Nat) :
    Kept (gone ++ lost σ (.destroy i)) (next σ (.destroy i)) (valueNext (view σ) (.destroy i)) := by
  simp only [next, valueNext, view]
  cases hi : σ.members i with
  | none => exact kept_none
  | some p =>
      have hblock : block ⟨σ.heap, Function.update σ.members i none⟩ = Function.update (block σ) i none := by
        funext k
        by_cases he : k = i
        · subst he
          simp [block]
        · simp [block, he]
      have hview : view ⟨σ.heap, Function.update σ.members i none⟩ = Function.update (view σ) i none := by
        funext k
        by_cases he : k = i
        · subst he
          simp [view]
        · simp [view, he]
      have hgone : Accounts σ.heap (block ⟨σ.heap, Function.update σ.members i none⟩) (gone ++ (block σ i).toList) := by
        rw [hblock]
        exact h.discard i
      exact ⟨congrArg some hview, (kept_some hgone).accounts⟩

theorem step_kept {x : Act} (h : Accounts σ.heap (block σ) gone) (hx : Allocates σ x) :
    Kept (gone ++ lost σ x) (next σ x) (valueNext (view σ) x) := by
  cases x with
  | call x addr => exact call_kept h hx
  | destroy i => exact destroy_kept h i

theorem reachable_accounts (hr : Reachable (logged system lost) (fun s x => Allocates s.1 x) (σ, gone)) :
    Accounts σ.heap (block σ) gone := by
  refine hr.logged_invariant (P := fun σ gone => Accounts σ.heap (block σ) gone) ?_ ?_
  · rintro σ rfl
    exact ⟨nofun, nofun, List.nodup_nil, fun d => by simp [block]⟩
  · intro σ gone x σ' _ h hx hn
    exact (step_kept h hx).accounts σ' hn

/-- At the level of addresses a program does to its packets what it does to their values: no block
is used or given back after it was given back, and each is a packet's or lost. -/
theorem packets_accounted (hr : Reachable (logged system lost) (fun s x => Allocates s.1 x) (σ, gone)) :
    (∀ x, Allocates σ x → (next σ x).map view = valueNext (view σ) x) ∧
      (∀ i j d, block σ i = some d → block σ j = some d → i = j) ∧
      (∀ d, σ.heap d ≠ none ↔ (∃ i, block σ i = some d) ∨ d ∈ gone) ∧
      (∀ i d, block σ i = some d → d ∉ gone) ∧ gone.Nodup := by
  have h := reachable_accounts hr
  exact ⟨fun x hx => (step_kept h hx).view, h.apart, h.live, h.owned, h.once⟩

def overwrite : List Act :=
  [.call (.construct 0 4 {}) 7, .call (.call 0 (.write (some [1, 2])) {}) 0, .call (.copyConstruct 1 0 {}) 3,
    .call (.moveAssign 0 1) 0, .destroy 1]

def allocates (s : State × List Nat) : Act → Bool
  | .call x addr => (target x).all fun i => (s.1.heap addr).isNone || decide (block s.1 i = some addr)
  | .destroy _ => true

theorem allocates_iff (s : State × List Nat) (x : Act) (h : allocates s x = true) : Allocates s.1 x := by
  cases x with
  | destroy i => trivial
  | call x addr =>
      intro i hi
      simpa [allocates, hi] using h

theorem packets_accounted_overwritten : ∃ σ : State,
    σ.heap 7 = some [1, 2, 0, 0] ∧ (∀ i, block σ i ≠ some 7) ∧ block σ 0 = some 3 ∧ σ.heap 3 ≠ none := by
  obtain ⟨⟨σ, gone⟩, hr, hp⟩ := exists_of_run (logged system lost) _ allocates (⟨fun _ => none, fun _ => none⟩, [])
    overwrite (fun s : State × List Nat =>
      decide (s.2 = [7] ∧ block s.1 0 = some 3 ∧ s.1.heap 7 = some [1, 2, 0, 0])) allocates_iff ⟨rfl, rfl⟩ (by decide)
  obtain ⟨rfl, hb, hm⟩ := of_decide_eq_true hp
  obtain ⟨-, -, hlive, howned, -⟩ := packets_accounted hr
  exact ⟨σ, hm, fun i hi => howned i 7 hi (List.mem_singleton.mpr rfl), hb, (hlive 3).mpr (.inl ⟨0, hb⟩)⟩

end Enigma.PacketHeap
