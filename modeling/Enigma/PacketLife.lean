import Enigma.PacketStream
import Enigma.Transition

namespace Enigma.PacketLife

open Block Network PacketStream Transition

/-- What is done with the packets of a program, by their numbers, with the answers of
the allocator. -/
inductive Act
  | construct (i size : Nat) (a : Alloc)
  | copyConstruct (i j : Nat) (a : Alloc)
  | moveConstruct (i j : Nat)
  | copyAssign (i j : Nat) (a : Alloc)
  | moveAssign (i j : Nat)
  | call (i : Nat) (op : Op) (a : Alloc)
  | free (i : Nat)

abbrev State := Nat → Option Packet

/-- An exception leaves the packet as it is, but the assignments are noexcept: out of
them it ends the program, as does an access to foreign memory. -/
def next (s : State) : Act → Option State
  | .construct i size a => if (s i).isNone ∧ size < 2 ^ 64 then match Network.construct a size with
    | .ok p => some (Function.update s i (some p))
    | .threw => some s
    | .fault => none
    else none
  | .copyConstruct i j a => match s i, s j with
    | none, some q => match Network.copyAssign a q {} with
      | .ok p => some (Function.update s i (some p))
      | _ => none
    | _, _ => none
  | .moveConstruct i j => match s i, s j with
    | none, some q =>
        some (Function.update (Function.update s i (some (Network.moveAssign q {}).1)) j (some (Network.moveAssign q {}).2))
    | _, _ => none
  | .copyAssign i j a => match s i, s j with
    | some p, some q =>
        if i = j then some s
        else match Network.copyAssign a q p with
          | .ok p' => some (Function.update s i (some p'))
          | _ => none
    | _, _ => none
  -- the packet itself comes last, as its own source too
  | .moveAssign i j => match s i, s j with
    | some p, some q =>
        some (Function.update (Function.update s i (some (Network.moveAssign q p).1)) j (some (Network.moveAssign q p).2))
    | _, _ => none
  | .call i op a => match s i with
    | some p => match PacketStream.apply a p op with
      | .ok r => some (Function.update s i (some r.1))
      | .threw => some s
      | .fault => none
    | none => none
  | .free i => (s i).map fun p => Function.update s i (some (Network.free p))

def system : System State Act := ⟨(· = fun _ => none), next⟩

/-- The representation invariant. -/
def Intact (p : Packet) : Prop := p.readPos ≤ p.offset ∧ p.offset ≤ p.size ∧ (p.data = none ↔ p.size = 0)

inductive Move (s : State) : Act → State → Prop
  | construct (i size : Nat) (a : Alloc) (p : Packet) (hi : s i = none) (hs : size < 2 ^ 64)
      (h : Network.construct a size = .ok p) : Move s (.construct i size a) (Function.update s i (some p))
  | constructThrew (i size : Nat) (a : Alloc) : Move s (.construct i size a) s
  | copyConstruct (i j : Nat) (a : Alloc) (q p : Packet) (hi : s i = none) (hj : s j = some q)
      (h : Network.copyAssign a q {} = .ok p) : Move s (.copyConstruct i j a) (Function.update s i (some p))
  | moveConstruct (i j : Nat) (q : Packet) (hi : s i = none) (hj : s j = some q) :
      Move s (.moveConstruct i j) (Function.update (Function.update s i (some (Network.moveAssign q {}).1)) j
        (some (Network.moveAssign q {}).2))
  | copySelf (i : Nat) (a : Alloc) (p : Packet) (hi : s i = some p) : Move s (.copyAssign i i a) s
  | copyAssign (i j : Nat) (a : Alloc) (p q p' : Packet) (hne : i ≠ j) (hi : s i = some p) (hj : s j = some q)
      (h : Network.copyAssign a q p = .ok p') : Move s (.copyAssign i j a) (Function.update s i (some p'))
  | moveAssign (i j : Nat) (p q : Packet) (hi : s i = some p) (hj : s j = some q) :
      Move s (.moveAssign i j) (Function.update (Function.update s i (some (Network.moveAssign q p).1)) j
        (some (Network.moveAssign q p).2))
  | call (i : Nat) (op : Op) (a : Alloc) (p p' : Packet) (r : Reply) (hi : s i = some p)
      (h : PacketStream.apply a p op = .ok (p', r)) : Move s (.call i op a) (Function.update s i (some p'))
  | callThrew (i : Nat) (op : Op) (a : Alloc) : Move s (.call i op a) s
  | free (i : Nat) (p : Packet) (hi : s i = some p) :
      Move s (.free i) (Function.update s i (some (Network.free p)))

theorem next_sound {s s' : State} {x : Act} (hn : next s x = some s') : Move s x s' := by
  cases x with
  | construct i size a =>
      simp only [next] at hn
      split at hn
      case isFalse => cases hn
      case isTrue hg =>
          split at hn
          case h_1 p h => cases hn; exact .construct i size a p (by simpa using hg.1) hg.2 h
          case h_2 => cases hn; exact .constructThrew i size a
          case h_3 => cases hn
  | copyConstruct i j a =>
      simp only [next] at hn
      split at hn
      case h_1 q hi hj =>
          split at hn
          case h_1 p h => cases hn; exact .copyConstruct i j a q p hi hj h
          case h_2 => cases hn
      case h_2 => cases hn
  | moveConstruct i j =>
      simp only [next] at hn
      split at hn
      case h_1 q hi hj => cases hn; exact .moveConstruct i j q hi hj
      case h_2 => cases hn
  | copyAssign i j a =>
      simp only [next] at hn
      split at hn
      case h_1 p q hi hj =>
          split at hn
          case isTrue he =>
              subst he
              cases hn
              exact .copySelf i a p hi
          case isFalse hne =>
              split at hn
              case h_1 p' h => cases hn; exact .copyAssign i j a p q p' hne hi hj h
              case h_2 => cases hn
      case h_2 => cases hn
  | moveAssign i j =>
      simp only [next] at hn
      split at hn
      case h_1 p q hi hj => cases hn; exact .moveAssign i j p q hi hj
      case h_2 => cases hn
  | call i op a =>
      simp only [next] at hn
      split at hn
      case h_1 p hi =>
          split at hn
          case h_1 r h => cases hn; exact .call i op a p r.1 r.2 hi h
          case h_2 => cases hn; exact .callThrew i op a
          case h_3 => cases hn
      case h_2 => cases hn
  | free i =>
      obtain ⟨p, hi, he⟩ := Option.map_eq_some_iff.mp hn
      subst he
      exact .free i p hi

structure Stored (p : Packet) : Prop where
  backed : Backed p
  room : p.offset ≤ p.size

def Within (p : Packet) : Prop := p.readPos ≤ p.offset

theorem intact_iff {p : Packet} (hp : Stored p) : Intact p ↔ Within p :=
  ⟨fun h => h.1, fun h => ⟨h, hp.room, hp.backed.null⟩⟩

theorem stored_empty : Stored {} := ⟨⟨rfl, by simp, by decide⟩, Nat.le_refl _⟩

variable {a : Alloc} {p q p' : Packet}

theorem construct_stored {size : Nat} (h : construct a size = .ok p) (hn : size < 2 ^ 64) : Stored p ∧ Within p := by
  obtain ⟨hb, he, -⟩ := malloc_ok h stored_empty.backed rfl hn
  have ho : p.offset = 0 := he.offset
  have hr : p.readPos = 0 := he.readPos
  exact ⟨⟨hb, by omega⟩, by simp [Within, hr]⟩

theorem clear_stored (h : clear p = .ok p') (hp : Stored p) : Stored p' ∧ (Within p → Within p') := by
  rcases clear_ok h hp.backed hp.room with ⟨-, rfl⟩ | ⟨ho, b, hlen, rfl⟩
  · exact ⟨hp, id⟩
  · have hroom := hp.room
    exact ⟨⟨⟨hlen, by simp; omega, hp.backed.bound⟩, Nat.zero_le _⟩, fun _ => Nat.le_refl _⟩

theorem free_stored (hp : Stored p) : Stored (free p) ∧ (Within p → Within (free p)) := by
  unfold free
  split
  · exact ⟨hp, id⟩
  · exact ⟨stored_empty, fun _ => Nat.le_refl _⟩

theorem apply_stored {op : Op} {r : Reply} (h : PacketStream.apply a p op = .ok (p', r)) (hp : Stored p)
    (hw : Within p) : Stored p' ∧ Within p' := by
  have hb := hp.backed
  cases apply_ok h with
  | refused => exact ⟨hp, hw⟩
  | wrote bytes p' b hwrite =>
      obtain ⟨hb', ho, hr, hroom, -, -⟩ := writeValue_ok hwrite hb hp.room
      have hw : p.readPos ≤ p.offset := hw
      simp only at ho hr
      refine ⟨⟨hb', hroom⟩, ?_⟩
      simp only [Within]
      omega
  | got n p' r hread =>
      rcases readValue_ok hread hb with ⟨-, he⟩ | ⟨hle, -, bytes, -, he⟩
      · cases he
        exact ⟨hp, hw⟩
      · cases he
        exact ⟨⟨⟨hb.length, hb.null, hb.bound⟩, hp.room⟩, hle⟩
  | positioned pos =>
      refine ⟨⟨⟨hb.length, hb.null, hb.bound⟩, hp.room⟩, ?_⟩
      simp only [Within, setPos]
      split <;> omega
  | reset => exact ⟨⟨⟨hb.length, hb.null, hb.bound⟩, hp.room⟩, Nat.zero_le _⟩
  | cleared p' hclear => exact ⟨(clear_stored hclear hp).1, (clear_stored hclear hp).2 hw⟩

/-- The assignment copies the bytes of the other packet and keeps its own position. -/
theorem copyAssign_ok (h : copyAssign a q p = .ok p') (hp : Stored p) (hq : Stored q) :
    (q.offset = 0 ∧ Stored p' ∧ (Within p → Within p')) ∨
      (q.offset ≠ 0 ∧ Stored p' ∧ p'.offset = q.offset ∧ p'.readPos = p.readPos) := by
  unfold copyAssign at h
  split at h
  case isTrue hz =>
      cases h
      have hroom := hq.room
      exact .inl ⟨by omega, free_stored hp⟩
  case isFalse =>
      split at h
      case isTrue ho => exact .inl ⟨ho, clear_stored h hp⟩
      case isFalse ho =>
          obtain ⟨p₁, h₁, h⟩ := Outcome.bind_eq_ok h
          have hgrown : Backed p₁ ∧ Extends p p₁ ∧ q.size ≤ p₁.size := by
            split at h₁
            case isTrue => exact realloc_ok h₁ hp.backed hq.backed.bound
            case isFalse hle =>
                cases h₁
                exact ⟨hp.backed, .refl p, Nat.not_lt.mp hle⟩
          obtain ⟨hb₁, he, hle⟩ := hgrown
          split at h
          case h_1 => cases h
          case h_2 bytes hl =>
              obtain ⟨p₂, h₂, h⟩ := Outcome.bind_eq_ok h
              obtain ⟨b₂, -, hp₂, hb₂⟩ := copyIn_ok h₂ hb₁
              obtain ⟨p₃, h₃, h⟩ := Outcome.bind_eq_ok h
              cases h
              have hzeroed : Backed p₃ ∧ p₃.size = p₂.size ∧ p₃.readPos = p₂.readPos := by
                split at h₃
                case isTrue =>
                    obtain ⟨b₃, -, rfl, hb₃⟩ := copyIn_ok h₃ hb₂
                    exact ⟨hb₃, rfl, rfl⟩
                case isFalse =>
                    cases h₃
                    exact ⟨hb₂, rfl, rfl⟩
              obtain ⟨hb₃, hsize, hpos⟩ := hzeroed
              subst hp₂
              refine .inr ⟨ho, ⟨⟨hb₃.length, hb₃.null, hb₃.bound⟩, ?_⟩, rfl, hpos.trans he.readPos⟩
              exact Nat.le_trans hq.room (Nat.le_trans hle (Nat.le_of_eq hsize.symm))

/-- The read position of a packet is kept by an assignment to it and by a move from it:
it has to fit the bytes that the packet has then. -/
def Rewound (s : State) : Act → Prop
  | .moveConstruct _ j => ∀ q, s j = some q → q.readPos = 0
  | .copyAssign i j _ => ∀ p q, s i = some p → s j = some q → q.offset = 0 ∨ p.readPos ≤ q.offset
  | .moveAssign i j => ∀ p q, s i = some p → s j = some q → q.readPos = 0 ∧ (i ≠ j → p.readPos ≤ q.offset)
  | _ => True

def All (P : Packet → Prop) (s : State) : Prop := ∀ i p, s i = some p → P p

theorem all_update {P : Packet → Prop} {s : State} {i : Nat} {p : Packet} (hs : All P s) :
    All P (Function.update s i (some p)) ↔ P p := by
  refine ⟨fun h => h i p (by simp), fun hp j r hj => ?_⟩
  by_cases he : j = i
  · subst he
    simp only [Function.update_self, Option.some.injEq] at hj
    subst hj
    exact hp
  · exact hs j r (by simpa [he] using hj)

theorem all_update_pair {P : Packet → Prop} {s : State} {i j : Nat} {p₁ p₂ : Packet} (hs : All P s) :
    All P (Function.update (Function.update s i (some p₁)) j (some p₂)) ↔ P p₂ ∧ (i ≠ j → P p₁) := by
  by_cases he : i = j
  · subst he
    rw [Function.update_idem, all_update hs]
    exact ⟨fun h => ⟨h, fun hne => absurd rfl hne⟩, fun h => h.1⟩
  · constructor
    · intro h
      exact ⟨h j p₂ (by simp), fun _ => h i p₁ (by simp [he])⟩
    · intro h
      exact (all_update ((all_update hs).mpr (h.2 he))).mpr h.1

theorem moveAssign_stored (p : Packet) (hq : Stored q) : Stored (moveAssign q p).1 ∧ Stored (moveAssign q p).2 := by
  have hb := hq.backed
  refine ⟨⟨⟨hb.length, hb.null, hb.bound⟩, hq.room⟩, ⟨⟨rfl, ?_, Nat.zero_lt_of_lt hb.bound⟩, Nat.le_refl _⟩⟩
  simp [moveAssign]

/-- What a step makes of the packets: they keep their blocks, and their positions are
inside if and only if the step meets the condition. -/
theorem move_within {s s' : State} {x : Act} (hs : All Stored s) (hw : All Within s) (hn : Move s x s') :
    All Stored s' ∧ (All Within s' ↔ Rewound s x) := by
  cases hn with
  | construct i size a p hi hsize h =>
      obtain ⟨hp, hin⟩ := construct_stored h hsize
      exact ⟨(all_update hs).mpr hp, iff_of_true ((all_update hw).mpr hin) trivial⟩
  | constructThrew | callThrew => exact ⟨hs, iff_of_true hw trivial⟩
  | copySelf i a p hi =>
      refine ⟨hs, iff_of_true hw fun p₁ q hp hq => ?_⟩
      cases Option.some.inj (hp.symm.trans hq)
      exact .inr (hw i p₁ hp)
  | copyConstruct i j a q p hi hj h =>
      rcases copyAssign_ok h stored_empty (hs j q hj) with ⟨-, hp, hin⟩ | ⟨-, hp, ho, hr⟩
      · exact ⟨(all_update hs).mpr hp, iff_of_true ((all_update hw).mpr (hin (Nat.le_refl _))) trivial⟩
      · have hin : Within p := by
          simp only [Within, hr]
          exact Nat.zero_le _
        exact ⟨(all_update hs).mpr hp, iff_of_true ((all_update hw).mpr hin) trivial⟩
  | copyAssign i j a p q p' hne hi hj h =>
      have hiff : Rewound s (.copyAssign i j a) ↔ q.offset = 0 ∨ p.readPos ≤ q.offset := by
        refine ⟨fun h => h p q hi hj, fun h p₁ q₁ hp hq => ?_⟩
        cases Option.some.inj (hi.symm.trans hp)
        cases Option.some.inj (hj.symm.trans hq)
        exact h
      rw [hiff, all_update hw]
      rcases copyAssign_ok h (hs i p hi) (hs j q hj) with ⟨hz, hp', hin⟩ | ⟨hz, hp', ho, hr⟩
      · exact ⟨(all_update hs).mpr hp', iff_of_true (hin (hw i p hi)) (.inl hz)⟩
      · refine ⟨(all_update hs).mpr hp', ?_⟩
        simp [Within, ho, hr, hz]
  | moveConstruct i j q hi hj =>
      obtain ⟨h₁, h₂⟩ := moveAssign_stored {} (hs j q hj)
      refine ⟨(all_update_pair hs).mpr ⟨h₂, fun _ => h₁⟩, ?_⟩
      rw [all_update_pair hw]
      simp [Within, moveAssign, Rewound, hj]
  | moveAssign i j p q hi hj =>
      obtain ⟨h₁, h₂⟩ := moveAssign_stored p (hs j q hj)
      refine ⟨(all_update_pair hs).mpr ⟨h₂, fun _ => h₁⟩, ?_⟩
      rw [all_update_pair hw]
      simp [Within, moveAssign, Rewound, hi, hj]
  | call i op a p p' r hi h =>
      obtain ⟨hp, hin⟩ := apply_stored h (hs i p hi) (hw i p hi)
      exact ⟨(all_update hs).mpr hp, iff_of_true ((all_update hw).mpr hin) trivial⟩
  | free i p hi =>
      obtain ⟨hp, hin⟩ := free_stored (hs i p hi)
      exact ⟨(all_update hs).mpr hp, iff_of_true ((all_update hw).mpr (hin (hw i p hi))) trivial⟩

theorem reachable_within {s : State} (hr : Reachable system Rewound s) : All Stored s ∧ All Within s := by
  refine hr.invariant (P := fun s => All Stored s ∧ All Within s) ?_ ?_
  · rintro s rfl
    exact ⟨fun i p h => (by cases h), fun i p h => (by cases h)⟩
  · intro s x s' _ hs hok hn
    obtain ⟨hstored, hiff⟩ := move_within hs.1 hs.2 (next_sound hn)
    exact ⟨hstored, hiff.mpr hok⟩

/-- The representation invariant holds in every state of the runs whose assignments
and moves leave no read position behind, and the first step that does breaks it. -/
theorem packets_intact {s : State} (hr : Reachable system Rewound s) :
    (∀ i p, s i = some p → Intact p) ∧
      ∀ x s', next s x = some s' → ((∀ i p, s' i = some p → Intact p) ↔ Rewound s x) := by
  have hall {s : State} (hs : All Stored s) : (∀ i p, s i = some p → Intact p) ↔ All Within s := by
    refine forall_congr' fun i => forall_congr' fun p => ?_
    exact imp_congr_right fun h => intact_iff (hs i p h)
  obtain ⟨hs, hw⟩ := reachable_within hr
  refine ⟨(hall hs).mpr hw, fun x s' hn => ?_⟩
  obtain ⟨hs', hiff⟩ := move_within hs hw (next_sound hn)
  exact (hall hs').trans hiff

section Runs

def readOne : List Act :=
  [.construct 0 4 {}, .call 0 (.write (some [1, 2])) {}, .call 0 (.readValue 1 (by decide)) {}, .construct 1 4 {}]

def fits (s : State) : Act → Bool
  | .copyAssign i j _ => match s i, s j with
    | some p, some q => decide (q.offset = 0 ∨ p.readPos ≤ q.offset)
    | _, _ => true
  | .moveConstruct _ _ | .moveAssign _ _ => false
  | _ => true

theorem rewound_of_fits (s : State) (x : Act) (hf : fits s x = true) : Rewound s x := by
  cases x with
  | copyAssign i j a =>
      intro p q hp hq
      simpa [fits, hp, hq] using hf
  | moveConstruct | moveAssign => cases hf
  | construct | copyConstruct | call | free => trivial

/-- The packet that has been read is assigned to one that has not. -/
theorem packets_intact_copied : ∃ (s : State) (p : Packet), s 1 = some p ∧ p.offset = 2 ∧ Intact p := by
  obtain ⟨s, hr, hp⟩ := exists_of_run system Rewound fits (fun _ => none) (readOne ++ [.copyAssign 1 0 {}])
    (fun s : State => decide ((s 1).map Packet.offset = some 2)) rewound_of_fits rfl rfl
  obtain ⟨p, hs, ho⟩ := Option.map_eq_some_iff.mp (of_decide_eq_true hp)
  exact ⟨s, p, hs, ho, (packets_intact hr).1 1 p hs⟩

theorem moved_from_behind : ¬ ∀ (s : State) (i : Nat) (p : Packet),
    Reachable system Any s → s i = some p → Intact p := by
  intro hall
  obtain ⟨s, hr, hp⟩ := exists_of_run system Any (fun _ _ => true) (fun _ => none) (readOne ++ [.moveAssign 1 0])
    (fun s : State => decide (s 0 = some { readPos := 1 })) (fun _ _ _ => trivial) rfl rfl
  have hintact := hall s 0 _ hr (of_decide_eq_true hp)
  exact absurd hintact.1 (by decide)

end Runs

end Enigma.PacketLife
