import Mathlib.Logic.Function.Basic

namespace Enigma.Sqlite

abbrev Code := Nat

namespace Code

def ok : Code := 0
def busy : Code := 5
def locked : Code := 6
def tooBig : Code := 18
def misuse : Code := 21
def row : Code := 100
def done : Code := 101

end Code

/-- A pointer, with the memory it points to, and a size. -/
structure Blob where
  data : Option (List UInt8) := none
  size : Nat := 0
deriving DecidableEq

/-- The alternatives of Sqlite3Value. Doubles are exact dyadic rationals. -/
inductive Value
  | longLong (n : Int64)
  | double (d : Dyadic)
  | string (s : List UInt8)
  | blob (b : Blob)
  | null
deriving DecidableEq

/-- A column of the current row by its sqlite3_column_type, with what the accessor of
that type gives. -/
inductive Column
  | integer (n : Int64)
  | float (d : Dyadic)
  | text (s : List UInt8)
  | blob (s : List UInt8)
  | null
deriving DecidableEq

abbrev Columns := String → Option Value
abbrev Result := Bool × String

/-- What the wrapper asks of the C interface, on a state of the engine. Connections and
statements are numbers, none the null pointer. No answer to a bind stands for undefined
behaviour. -/
structure Api (ε : Type) where
  openV2 : String → Nat → ε → (Code × Option Nat) × ε
  closeV2 : Option Nat → ε → ε
  errcode : Option Nat → ε → Code × ε
  errstr : Code → String
  free : Option Nat → ε → ε
  exec : Option Nat → String → ε → Code × ε
  prepareV2 : Option Nat → String → Int → ε → (Code × Option Nat) × ε
  bindInt64 : Nat → Nat → Int64 → ε → Option (Code × ε)
  bindDouble : Nat → Nat → Dyadic → ε → Option (Code × ε)
  bindText : Nat → Nat → List UInt8 → Int → ε → Option (Code × ε)
  bindBlob : Nat → Nat → Option (List UInt8) → Int → ε → Option (Code × ε)
  bindNull : Nat → Nat → ε → Option (Code × ε)
  step : Option Nat → ε → Code × ε
  columns : Option Nat → ε → List (String × Column)
  finalize : Option Nat → ε → Code × ε
  malloc : Nat → ε → Bool

variable {ε : Type}

structure Impl (ε : Type) where
  db : Option Nat := none
  engine : ε

def castInt (size : Nat) : Int := Int.bmod size UInt32.size

/-- The connection is given to sqlite3_free and stays in the field. -/
def error (A : Api ε) (s : Impl ε) : String × Impl ε :=
  if s.db = none then ("", s)
  else
    let r := A.errcode s.db s.engine
    if r.1 = .ok then ("", { s with engine := r.2 })
    else (A.errstr r.1, { s with engine := A.free s.db r.2 })

def answer (A : Api ε) (code : Code) (s : Impl ε) : Result × Impl ε :=
  if code = .ok then ((true, ""), s)
  else ((false, (error A s).1), (error A s).2)

def openDb (A : Api ε) (db : String) (flags : Nat) (s : Impl ε) : Result × Impl ε :=
  if db = "" then ((false, "invalid file"), s)
  else
    let r := A.openV2 db flags s.engine
    answer A r.1.1 ⟨r.1.2, r.2⟩

def close (A : Api ε) (s : Impl ε) : Impl ε :=
  if s.db = none then s else ⟨none, A.closeV2 s.db s.engine⟩

def transaction (A : Api ε) (sql : String) (s : Impl ε) : Result × Impl ε :=
  if s.db = none then ((false, "invalid db"), s)
  else
    let r := A.exec s.db sql s.engine
    answer A r.1 { s with engine := r.2 }

def begin (A : Api ε) : Impl ε → Result × Impl ε := transaction A "BEGIN"
def commit (A : Api ε) : Impl ε → Result × Impl ε := transaction A "COMMIT"
def rollback (A : Api ε) : Impl ε → Result × Impl ε := transaction A "ROLLBACK"

/-- A text ends at its first NUL, a blob where its size says. -/
def readColumn (malloc : Nat → Bool) : Column → Value
  | .integer n => .longLong n
  | .float d => .double d
  | .text s => .string (s.takeWhile (· ≠ 0))
  | .blob s => .blob ⟨if 0 < s.length ∧ malloc s.length then some s else none, s.length⟩
  | .null => .null

def readRow (malloc : Nat → Bool) (cs : List (String × Column)) : Columns :=
  cs.foldl (fun m c => Function.update m c.1 (some (readColumn malloc c.2))) fun _ => none

/-- No answer when the call does not return: the loop steps the statement once, before its
first round, and so leaves only if that step was the last. -/
def exec (A : Api ε) (sql : String) (rows : List Columns) (s : Impl ε) :
    Option (Result × List Columns × Impl ε) :=
  if sql = "" then some ((false, "invalid sql"), rows, s)
  else if s.db = none then some ((false, "invalid db"), rows, s)
  else
    let p := A.prepareV2 s.db sql (castInt sql.utf8ByteSize) s.engine
    if p.1.1 ≠ .ok then
      let r := error A { s with engine := p.2 }
      some ((false, r.1), rows, r.2)
    else
      let t := A.step p.1.2 p.2
      if t.1 = .locked ∨ t.1 = .busy then none
      else if t.1 = .done then some ((true, ""), [], { s with engine := (A.finalize p.1.2 t.2).2 })
      else none

def prepare (A : Api ε) (sql : String) (ctx : Option Nat) (s : Impl ε) : Result × Option Nat × Impl ε :=
  if sql = "" then ((false, "invalid sql"), ctx, s)
  else
    let p := A.prepareV2 s.db sql (castInt sql.utf8ByteSize) s.engine
    let r := answer A p.1.1 { s with engine := p.2 }
    (r.1, p.1.2, r.2)

def bind (A : Api ε) (stmt : Nat) (e : ε) : Value → Option (Code × ε)
  | .longLong n => A.bindInt64 stmt 1 n e
  | .double d => A.bindDouble stmt 1 d e
  | .string s => A.bindText stmt 1 s (castInt s.length) e
  | .blob b => A.bindBlob stmt 1 b.data (castInt b.size) e
  | .null => A.bindNull stmt 1 e

def bindValue (A : Api ε) (ctx : Option Nat) (v : Value) (s : Impl ε) : Option (Result × Impl ε) :=
  match ctx with
  | none => some ((false, "invalid context"), s)
  | some stmt => (bind A stmt s.engine v).map fun r => answer A r.1 { s with engine := r.2 }

/-- Every value goes to the first parameter. -/
def bindValues (A : Api ε) (ctx : Option Nat) : List Value → Impl ε → Option (Result × Impl ε)
  | [], s => some ((true, ""), s)
  | v :: vs, s => (bindValue A ctx v s).bind fun r => if r.1.1 then bindValues A ctx vs r.2 else some r

def step (A : Api ε) (ctx : Option Nat) (cols : Columns) (s : Impl ε) : Result × Columns × Impl ε :=
  match ctx with
  | none => ((false, "invalid context"), cols, s)
  | some stmt =>
    let t := A.step (some stmt) s.engine
    if t.1 ≠ .row then
      let r := error A { s with engine := t.2 }
      ((false, r.1), fun _ => none, r.2)
    else
      let cs := readRow (A.malloc · t.2) (A.columns (some stmt) t.2)
      ((true, ""), cs, { s with engine := t.2 })

/-- The statement is forgotten whatever the engine says of it. -/
def finalize (A : Api ε) (ctx : Option Nat) (s : Impl ε) : Result × Option Nat × Impl ε :=
  match ctx with
  | none => ((false, "invalid context"), none, s)
  | some stmt =>
    let f := A.finalize (some stmt) s.engine
    let r := answer A f.1 { s with engine := f.2 }
    (r.1, none, r.2)

def still (code : ε → Code) (errstr : Code → String) : Api ε where
  openV2 _ _ e := ((.ok, some 0), e)
  closeV2 _ e := e
  errcode _ e := (code e, e)
  errstr := errstr
  free _ e := e
  exec _ _ e := (.ok, e)
  prepareV2 _ _ _ e := ((.ok, some 0), e)
  bindInt64 _ _ _ e := some (.ok, e)
  bindDouble _ _ _ e := some (.ok, e)
  bindText _ _ _ _ e := some (.ok, e)
  bindBlob _ _ _ _ e := some (.ok, e)
  bindNull _ _ e := some (.ok, e)
  step _ e := (.done, e)
  columns _ _ := []
  finalize _ e := (.ok, e)
  malloc _ _ := true

end Enigma.Sqlite
