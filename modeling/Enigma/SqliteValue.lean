import Enigma.Sqlite
import Mathlib.Data.List.TakeWhile

namespace Enigma.SqliteValue

open Sqlite

/-- What MakeValue is called with. A blob is the memory its pointer is to, with the size
of it, or a null pointer with size 0. -/
inductive Input
  | longLong (n : Int64)
  | double (d : Dyadic)
  | string (s : List UInt8)
  | blob (data : Option (List UInt8))

inductive Kind
  | longLong
  | double
  | string
  | blob

def Input.kind : Input → Kind
  | .longLong _ => .longLong
  | .double _ => .double
  | .string _ => .string
  | .blob _ => .blob

/-- std::is_convertible_v: the arithmetic types convert into each other, and the others
into themselves. -/
def convertible : Kind → Kind → Bool
  | .longLong, .longLong | .longLong, .double => true
  | .double, .longLong | .double, .double => true
  | .string, .string => true
  | .blob, .blob => true
  | _, _ => false

/-- Towards zero. A number that does not fit is undefined behaviour. -/
def truncate (d : Dyadic) : Option Int64 :=
  let n := d.toRat.num.tdiv d.toRat.den
  if -9223372036854775808 ≤ n ∧ n < 9223372036854775808 then some (Int64.ofInt n) else none

def Input.toLongLong : Input → Option Int64
  | .longLong n => some n
  | .double d => truncate d
  | _ => none

def Input.toDouble : Input → Option Dyadic
  | .double d => some d
  | _ => none

def Input.toString : Input → Option (List UInt8)
  | .string s => some s
  | _ => none

def Input.toBlob : Input → Option Blob
  | .blob data => some ⟨data, (data.getD []).length⟩
  | _ => none

def Input.memory : Input → Option (List UInt8)
  | .string s => some s
  | .blob data => data
  | _ => none

/-- The first type of the list the argument converts to decides. -/
def makeValue (x : Input) : Option Value :=
  if convertible x.kind .longLong then x.toLongLong.map .longLong
  else if convertible x.kind .double then x.toDouble.map .double
  else if convertible x.kind .string then x.toString.map .string
  else if convertible x.kind .blob then x.toBlob.map .blob
  else some .null

def maxLength : Nat := 1000000000

/-- A statement SELECT ?, with what its parameter is bound to and the code of the last call. A text
or a blob is bound by its pointer: `bound` has what is behind it now. -/
structure Select where
  bound : Column := .null
  stepped : Bool := false
  code : Code := .ok

def reread (later : Option (List UInt8)) (n : Nat) : Option (List UInt8) :=
  (later.filter fun m => n ≤ m.length).map (·.take n)

namespace Select

/-- Binding first unbinds, so that what is too long leaves NULL. -/
def bind (e : Select) (code : Code) (column : Column) : Code × Select :=
  (code, { e with bound := column, code := code })

def bindBytes (e : Select) (column : List UInt8 → Column) (s : List UInt8) (n : Nat) : Code × Select :=
  if maxLength < n then e.bind .tooBig .null else e.bind .ok (column (s.take n))

/-- A negative length asks for the text up to its first NUL. -/
def bindText (e : Select) (s : List UInt8) (n : Int) : Code × Select :=
  e.bindBytes .text s (if n < 0 then (s.takeWhile (· ≠ 0)).length else n.toNat)

/-- A null pointer binds NULL, whatever the length. -/
def bindBlob (e : Select) (data : Option (List UInt8)) (n : Int) : Option (Code × Select) :=
  match data with
  | none => some (e.bind .ok .null)
  | some s => if n < 0 then none else some (e.bindBytes .blob s n.toNat)

/-- The memory behind the pointer holds `later` now, or is gone: to read it then is
undefined behaviour. -/
def meanwhile (e : Select) (later : Option (List UInt8)) : Option Select :=
  match e.bound with
  | .text s => (reread later s.length).map fun m => { e with bound := .text m }
  | .blob s => (reread later s.length).map fun m => { e with bound := .blob m }
  | _ => some e

def step (e : Select) : Code × Select :=
  let code := if e.stepped then .done else .row
  (code, { e with stepped := true, code := code })

end Select

def api (name : String) (errstr : Code → String) : Api Select where
  openV2 _ _ e := ((.ok, some 0), e)
  closeV2 _ e := e
  errcode _ e := (e.code, e)
  errstr := errstr
  free _ e := e
  exec _ _ e := (.ok, e)
  prepareV2 _ _ _ e := ((.ok, some 0), e)
  bindInt64 _ _ n e := some (e.bind .ok (.integer n))
  bindDouble _ _ d e := some (e.bind .ok (.float d))
  bindText _ _ s n e := some (e.bindText s n)
  bindBlob _ _ data n e := e.bindBlob data n
  bindNull _ _ e := some (e.bind .ok .null)
  step _ e := e.step
  columns _ e := [(name, e.bound)]
  finalize _ e := (.ok, e)
  malloc _ _ := true

variable (name : String) (errstr : Code → String)

/-- BindValue of MakeValue, then Step, when the string in the Sqlite3Value or the memory of
the blob holds `later`: what is in the column of the parameter, if both went well. -/
def roundTrip (x : Input) (later : Option (List UInt8)) (stmt : Nat) (s : Impl Select) : Option Value :=
  (makeValue x).bind fun v =>
    (bindValue (api name errstr) (some stmt) v s).bind fun b =>
      if b.1.1 then
        (b.2.engine.meanwhile later).bind fun e =>
          let r := step (api name errstr) (some stmt) (fun _ => none) { b.2 with engine := e }
          if r.1.1 then r.2.1 name else none
      else none

/-- The same alternative and the same value; of a blob, the same bytes. -/
def Same : Input → Value → Prop
  | .longLong n, .longLong m => n = m
  | .double d, .double d' => d = d'
  | .string s, .string t => s = t
  | .blob data, .blob b => (b.data.getD []).take b.size = data.getD [] ∧ b.size = (data.getD []).length
  | _, _ => False

/-- What comes back as it was: integers, texts without a NUL and blobs that are somewhere,
up to the length the engine takes, if their memory still holds them. -/
def Kept (later : Option (List UInt8)) : Input → Prop
  | .longLong _ => True
  | .double _ => False
  | .string s => 0 ∉ s ∧ s.length ≤ maxLength ∧ reread later s.length = some s
  | .blob none => False
  | .blob (some m) => m.length ≤ maxLength ∧ reread later m.length = some m

theorem castInt_of_le {n : Nat} (h : n ≤ maxLength) : castInt n = n := by
  refine Int.bmod_eq_of_le_mul_two ?_ ?_
  · simp only [UInt32.size]
    omega
  · simp only [maxLength] at h
    simp only [UInt32.size]
    omega

variable {name errstr} {stmt : Nat} {s : Impl Select} {x : Input} {later : Option (List UInt8)}

theorem step_row (hs : s.engine.stepped = false) (cols : Columns) :
    step (api name errstr) (some stmt) cols s =
      ((true, ""), Function.update (fun _ => none) name (some (readColumn (fun _ => true) s.engine.bound)),
        { s with engine := s.engine.step.2 }) := by
  have hc : ((api name errstr).step (some stmt) s.engine).1 = .row := by simp [api, Select.step, hs]
  rw [step, if_neg (by simp [hc])]
  rfl

theorem length_of_reread {n : Nat} {m : List UInt8} (h : reread later n = some m) : m.length = n := by
  obtain ⟨b, hb, rfl⟩ := Option.map_eq_some_iff.mp h
  have hn := (Option.filter_eq_some_iff.mp hb).2
  exact List.length_take_of_le (by simpa using hn)

/-- What is bound without complaint is read back as its column, as it then is. -/
theorem roundTrip_bound (hs : s.engine.stepped = false) {v : Value} (hv : makeValue x = some v) {c : Column}
    (hb : bind (api name errstr) stmt s.engine v = some (s.engine.bind .ok c)) :
    roundTrip name errstr x later stmt s =
      ((s.engine.bind .ok c).2.meanwhile later).map fun e => readColumn (fun _ => true) e.bound := by
  have hbind : bindValue (api name errstr) (some stmt) v s =
      some ((true, ""), { s with engine := (s.engine.bind .ok c).2 }) := by
    rw [bindValue, hb, Option.map_some, answer, if_pos (by rfl)]
  rw [roundTrip, hv, Option.bind_some, hbind, Option.bind_some, if_pos rfl]
  dsimp only
  cases he : (s.engine.bind .ok c).2.meanwhile later with
  | none => rfl
  | some e =>
      have hs' : e.stepped = false := by
        rw [← hs]
        cases c with
        | text t | blob t =>
            obtain ⟨m, -, rfl⟩ := Option.map_eq_some_iff.mp he
            rfl
        | integer | float | null =>
            cases he
            rfl
      have hrow (cols : Columns) : step (api name errstr) (some stmt) cols { s with engine := e } =
          ((true, ""), Function.update (fun _ => none) name (some (readColumn (fun _ => true) e.bound)),
            { s with engine := e.step.2 }) := step_row hs' cols
      rw [Option.bind_some, Option.map_some]
      simp only [hrow, if_true, Function.update_self]

theorem roundTrip_tooBig {v : Value} (hv : makeValue x = some v)
    (hb : bind (api name errstr) stmt s.engine v = some (s.engine.bind .tooBig .null)) :
    roundTrip name errstr x later stmt s = none := by
  have hne : Code.tooBig ≠ .ok := by decide
  rw [roundTrip, hv, Option.bind_some, bindValue, hb, Option.map_some, answer, Select.bind, if_neg hne]
  rfl

def textLength (t : List UInt8) : Nat :=
  if castInt t.length < 0 then (t.takeWhile (· ≠ 0)).length else (castInt t.length).toNat

theorem textLength_of_le {t : List UInt8} (h : t.length ≤ maxLength) : textLength t = t.length := by
  rw [textLength, castInt_of_le h, if_neg (by omega), Int.toNat_natCast]

theorem roundTrip_string (hs : s.engine.stepped = false) (t : List UInt8) :
    roundTrip name errstr (.string t) later stmt s =
      if maxLength < textLength t then none
      else (reread later (t.take (textLength t)).length).map fun m => .string (m.takeWhile (· ≠ 0)) := by
  have hb : bind (api name errstr) stmt s.engine (.string t) =
      some (s.engine.bindBytes .text t (textLength t)) := rfl
  rw [Select.bindBytes] at hb
  by_cases hn : maxLength < textLength t
  · rw [if_pos hn] at hb
    rw [if_pos hn, roundTrip_tooBig rfl hb]
  · rw [if_neg hn] at hb
    rw [if_neg hn, roundTrip_bound hs rfl hb]
    exact Option.map_map _ _ _

theorem string_kept (hs : s.engine.stepped = false) (t : List UInt8) :
    (∃ v, roundTrip name errstr (.string t) later stmt s = some v ∧ Same (.string t) v) ↔
      0 ∉ t ∧ t.length ≤ maxLength ∧ reread later t.length = some t := by
  rw [roundTrip_string hs t]
  constructor
  · rintro ⟨v, hv, hsame⟩
    by_cases hn : maxLength < textLength t
    · simp [hn] at hv
    rw [if_neg hn] at hv
    obtain ⟨m, hm, rfl⟩ := Option.map_eq_some_iff.mp hv
    -- what comes back is no longer than what was taken, and has no NUL in it
    have hsame : t = m.takeWhile (· ≠ 0) := hsame
    have hpre : m.takeWhile (· ≠ 0) <+: m := List.takeWhile_prefix _
    have hlen := length_of_reread hm
    have htake : (t.take (textLength t)).length ≤ t.length := (List.take_prefix _ t).length_le
    have hle : t.length ≤ m.length := (congrArg List.length hsame).le.trans hpre.length_le
    have hwhole : m.takeWhile (· ≠ 0) = m := hpre.eq_of_length_le (by rw [← hsame]; omega)
    have hmt : t = m := hsame.trans hwhole
    refine ⟨fun h0 => ?_, ?_, ?_⟩
    · rw [hsame] at h0
      simpa using List.mem_takeWhile_imp h0
    · calc t.length ≤ (t.take (textLength t)).length := hle.trans hlen.le
        _ ≤ textLength t := List.length_take_le _ _
        _ ≤ maxLength := Nat.le_of_not_lt hn
    · rw [show t.length = (t.take (textLength t)).length by omega, hm, hmt]
  · rintro ⟨h0, hl, hm⟩
    have hw : t.takeWhile (· ≠ 0) = t := List.takeWhile_eq_self_iff.mpr fun b hb => by
      have hne : b ≠ 0 := fun h => h0 (h ▸ hb)
      simpa using hne
    rw [textLength_of_le hl, if_neg (by omega), List.take_length, hm, Option.map_some, hw]
    exact ⟨_, rfl, rfl⟩

theorem roundTrip_undefined {v : Value} (hv : makeValue x = some v)
    (hb : bind (api name errstr) stmt s.engine v = none) : roundTrip name errstr x later stmt s = none := by
  rw [roundTrip, hv, Option.bind_some, bindValue, hb]
  rfl

theorem roundTrip_blob (hs : s.engine.stepped = false) {m : List UInt8} {n : Nat}
    (hb : bind (api name errstr) stmt s.engine (.blob ⟨some m, m.length⟩) = some (s.engine.bindBytes .blob m n))
    (hn : n ≤ maxLength) : roundTrip name errstr (.blob (some m)) later stmt s =
      (reread later (m.take n).length).map fun b => readColumn (fun _ => true) (.blob b) := by
  rw [Select.bindBytes, if_neg (Nat.not_lt.mpr hn)] at hb
  rw [roundTrip_bound hs rfl hb]
  exact Option.map_map _ _ _

theorem blob_kept (hs : s.engine.stepped = false) (m : List UInt8) :
    (∃ v, roundTrip name errstr (.blob (some m)) later stmt s = some v ∧ Same (.blob (some m)) v) ↔
      m.length ≤ maxLength ∧ reread later m.length = some m := by
  have hb : bind (api name errstr) stmt s.engine (.blob ⟨some m, m.length⟩) =
      if castInt m.length < 0 then none else some (s.engine.bindBytes .blob m (castInt m.length).toNat) := by
    simp only [Sqlite.bind, api, Select.bindBlob]
  have hsame (b : List UInt8) : Same (.blob (some m)) (readColumn (fun _ => true) (.blob b)) ↔ b = m := by
    cases b with
    | nil => simp [Same, readColumn, eq_comm]
    | cons x b =>
        simp only [Same, readColumn, List.length_cons, Nat.succ_pos, and_self, if_true, Option.getD_some]
        rw [List.take_of_length_le (by simp)]
        exact ⟨And.left, fun h => ⟨h, congrArg List.length h⟩⟩
  constructor
  · rintro ⟨v, hv, hsv⟩
    by_cases hneg : castInt m.length < 0
    · rw [if_pos hneg] at hb
      rw [roundTrip_undefined rfl hb] at hv
      cases hv
    rw [if_neg hneg] at hb
    generalize (castInt m.length).toNat = n at hb
    by_cases hn : maxLength < n
    · rw [Select.bindBytes, if_pos hn] at hb
      rw [roundTrip_tooBig rfl hb] at hv
      cases hv
    · have hn := Nat.le_of_not_lt hn
      rw [roundTrip_blob hs hb hn] at hv
      obtain ⟨b, hr, rfl⟩ := Option.map_eq_some_iff.mp hv
      obtain rfl := (hsame b).mp hsv
      have hlen := length_of_reread hr
      rw [← hlen] at hr
      exact ⟨(hlen.le.trans (List.length_take_le _ _)).trans hn, hr⟩
  · rintro ⟨hl, hr⟩
    rw [castInt_of_le hl, if_neg (by omega), Int.toNat_natCast] at hb
    rw [roundTrip_blob hs hb hl, List.take_length, hr, Option.map_some]
    exact ⟨_, rfl, (hsame m).mpr rfl⟩

/-- A double is made an integer, or nothing. -/
theorem double_lost (hs : s.engine.stepped = false) (d : Dyadic) {v : Value}
    (hv : roundTrip name errstr (.double d) later stmt s = some v) : ¬Same (.double d) v := by
  cases ht : truncate d with
  | none =>
      have hm : makeValue (.double d) = none := by simp [makeValue, convertible, Input.kind, Input.toLongLong, ht]
      rw [roundTrip, hm] at hv
      cases hv
  | some n =>
      have hm : makeValue (.double d) = some (.longLong n) := by
        simp [makeValue, convertible, Input.kind, Input.toLongLong, ht]
      rw [roundTrip_bound (c := .integer n) hs hm rfl] at hv
      cases hv
      exact id

/-- A text ends at its NUL, and one in a temporary Sqlite3Value is gone. -/
example : roundTrip "x" (fun _ => "") (.string [97, 0, 98]) (some [97, 0, 98]) 0 ⟨some 0, {}⟩ = some (.string [97]) ∧
    roundTrip "x" (fun _ => "") (.string [97]) none 0 ⟨some 0, {}⟩ = none := by decide

end Enigma.SqliteValue
