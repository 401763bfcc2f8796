import Enigma.Directory
import Enigma.Logger

namespace Enigma.FileSink

open Directory Logger

abbrev Name := List Char
abbrev Bytes := List UInt8

abbrev Folder := Dir Name Bytes

inductive Mode
  | append
  | truncate
deriving DecidableEq

structure Config where
  appName : Name
  maxFileSize : UInt64 := 0
  maxFileCount : UInt32 := 1
  mode : Mode := .append

structure LogFile where
  isOpen : Bool := false
  curSize : Nat := 0
  index : Nat
deriving DecidableEq

structure State where
  file : Option LogFile
  dir : Folder

/-- What goes wrong in a call: opening a file, listing the directory, renaming to an index. -/
structure Faults where
  list : Bool := false
  rename : Nat → Bool := fun _ => false
  create : Bool := false

/-- What a call leaves to the standard library: the match of a file name against a pattern that is
more than plain text, none if it is refused, and the local time of a timestamp. -/
structure Env where
  special : Name → Option (Name → Option Name)
  clock : Nat → String

inductive Outcome
  | returned (r : Bool)
  | threw
deriving DecidableEq

def logName (app : Name) (index : Nat) : Name :=
  if index = 0 then app ++ ".log".toList
  else app ++ '.' :: Nat.toDigits 10 index ++ ".log".toList

namespace LogFile

/-- True is also the answer when the stream did not open, which then tells its position
as -1. -/
def openFile (f : LogFile) (app : Name) (fails trunc : Bool) (d : Folder) : Bool × LogFile × Folder :=
  if f.isOpen then (true, f, d)
  else match fails, d.lookup (logName app f.index) with
    | false, none => (true, { f with isOpen := true, curSize := 0 }, d.insert (logName app f.index) (.file []))
    | false, some (.file c) =>
        let kept := if trunc then [] else c
        (true, { f with isOpen := true, curSize := kept.length % UInt64.size },
          d.insert (logName app f.index) (.file kept))
    | _, _ => (true, { f with curSize := UInt64.size - 1 }, d)

def close (f : LogFile) : LogFile := { f with isOpen := false }

end LogFile

def bytes (s : String) : Bytes := s.toUTF8.data.toList

def record (data : String) : Bytes := bytes data ++ [10]

/-- An open stream writes to its file even if that is no longer there. -/
def extend (d : Folder) (name : Name) (b : Bytes) : Folder :=
  match d.lookup name with
  | some (.file c) => d.insert name (.file (c ++ b))
  | _ => d

namespace LogFile

/-- The newline is not counted. -/
def write (f : LogFile) (app : Name) (data : String) (d : Folder) : LogFile × Folder :=
  if f.isOpen then
    ({ f with curSize := (f.curSize + data.utf8ByteSize) % UInt64.size }, extend d (logName app f.index) (record data))
  else (f, d)

def renameIndex (fails : Nat → Bool) (app : Name) (f : LogFile) (index : Nat) (d : Folder) :
    Option (LogFile × Folder) :=
  if fails index then none
  else (Directory.rename d (logName app f.index) (logName app index)).map fun d' => ({ f with index := index }, d')

end LogFile

def severity : LogLevel → Nat
  | .trace => 0
  | .traceError => 1
  | .debug => 2
  | .info => 3
  | .warn => 4
  | .error => 5
  | .fatal => 6

/-- The cases of the two most unusual levels run on into the last one. -/
def levelText : LogLevel → String
  | .debug => "DEBUG"
  | .info => "INFO"
  | .warn => "WARN"
  | .error => "ERROR"
  | .fatal | .trace | .traceError => "TRACE ERROR"

def millis (t : Nat) : String :=
  let ds := Nat.toDigits 10 (t % 1000)
  String.ofList (List.replicate (3 - ds.length) '0' ++ ds)

def text (env : Env) (msg : Message) : String :=
  let start := env.clock msg.time ++ "." ++ millis msg.time ++ " [" ++ toString msg.thread ++ "] [" ++
    levelText msg.level ++ "]"
  match msg.moduleName with
  | some m => start ++ " [" ++ m ++ "]> " ++ msg.content
  | none => start ++ "> " ++ msg.content

/-- The std::map of the rotation, in the order of its keys. -/
abbrev Logs := List (Nat × LogFile)

def assign : Logs → Nat → LogFile → Logs
  | [], k, f => [(k, f)]
  | e :: logs, k, f =>
      if k < e.1 then (k, f) :: e :: logs
      else if k = e.1 then (k, f) :: logs
      else e :: assign logs k f

/-- Where the key is there already the map keeps its element and `_file` keeps its own,
as it does with libstdc++ since GCC 12; another library may move from the argument. -/
def emplace : Logs → Nat → LogFile → Logs
  | [], k, f => [(k, f)]
  | e :: logs, k, f =>
      if k < e.1 then (k, f) :: e :: logs
      else if k = e.1 then e :: logs
      else e :: emplace logs k f

def metacharacters : Name :=
  ['^', '$', '\\', '.', '*', '+', '?', '(', ')', '[', ']', '{', '}', '|', '/']

def Plain (app : Name) : Prop := ∀ c ∈ app, c ∉ metacharacters

instance (app : Name) : Decidable (Plain app) := List.decidableBAll (· ∉ metacharacters) app

/-- The digits between a plain app name and the end of a log name. -/
def matchLog (app name : Name) : Option Name :=
  let digits := (name.drop (app.length + 1)).take (name.length - (app.length + 5))
  if digits ≠ [] ∧ digits.all Char.isDigit ∧ name = app ++ '.' :: digits ++ ".log".toList then some digits
  else none

def regex (env : Env) (app : Name) : Option (Name → Option Name) :=
  if Plain app then some (matchLog app) else env.special app

def longLongEnd : Nat := 9223372036854775808

/-- The white space of the "C" locale. -/
def isSpace (c : Char) : Bool := c = ' ' || (9 ≤ c.toNat && c.toNat ≤ 13)

/-- The number at the front of a text, or an exception. -/
def stoll (t : Name) : Option Int :=
  let rest := t.dropWhile isSpace
  let digits := (if rest.head? = some '-' ∨ rest.head? = some '+' then rest.tail else rest).takeWhile Char.isDigit
  let n := Nat.ofDigitChars 10 digits 0
  if digits = [] then none
  else if rest.head? = some '-' then if n ≤ longLongEnd then some (-n) else none
  else if n < longLongEnd then some n else none

def visit (found : Name → Option Name) (d : Folder) (logs : Logs) (name : Name) : Option Logs :=
  match d.lookup name with
  | some (.file _) => match found name with
    | some digits => (stoll digits).map fun n : Int =>
        assign logs (n % UInt64.size).toNat ⟨false, 0, (n % UInt64.size).toNat⟩
    | none => some logs
  | _ => some logs

/-- None stands for an exception. -/
def listLogs (env : Env) (cfg : Config) (fails : Bool) (d : Folder) : Option Logs :=
  (regex env cfg.appName).bind fun found =>
    if fails then none else (d.keys.filter ('/' ∉ ·)).foldlM (visit found d) []

/-- The loop over the map, from its last entry on, with the index it counts down. -/
def renameLogs (fails : Nat → Bool) (app : Name) : List LogFile → Nat → Folder → Option (List LogFile) × Folder
  | [], _, d => (some [], d)
  | f :: fs, index, d => match f.renameIndex fails app index d with
    | none => (none, d)
    | some r =>
        let t := renameLogs fails app fs (index - 1) r.2
        (t.1.map (r.1 :: ·), t.2)

def backward (logs : Logs) : List LogFile := (logs.map Prod.snd).reverse

/-- What follows the loop over so many files. An early end of it takes the map along, and
with it the file of the sink. -/
def settle (cfg : Config) (faults : Faults) (n : Nat) : Option (List LogFile) × Folder → Outcome × State
  | (some (last :: _), d) =>
    if n < cfg.maxFileCount.toNat then
      let o := (⟨false, 0, 0⟩ : LogFile).openFile cfg.appName faults.create true d
      (.returned o.2.1.isOpen, ⟨some o.2.1, o.2.2⟩)
    else match last.renameIndex faults.rename cfg.appName 0 d with
      | none => (.returned false, ⟨some last, d⟩)
      | some r =>
        let o := r.1.openFile cfg.appName faults.create true r.2
        (.returned o.1, ⟨some o.2.1, o.2.2⟩)
  | (_, d) => (.returned false, ⟨none, d⟩)

def routingLogs (env : Env) (cfg : Config) (faults : Faults) (s : State) : Outcome × State :=
  match s.file with
  | none => (.returned false, s)
  | some f =>
    if cfg.maxFileCount = 1 then
      let o := f.close.openFile cfg.appName faults.create true s.dir
      (.returned o.1, ⟨some o.2.1, o.2.2⟩)
    else match listLogs env cfg faults.list s.dir with
      | none => (.threw, { s with file := some f.close })
      | some listed =>
        let logs := emplace listed 0 f.close
        settle cfg faults logs.length (renameLogs faults.rename cfg.appName (backward logs) logs.length s.dir)

def written (env : Env) (cfg : Config) (f : LogFile) (msg : Message) (d : Folder) : LogFile × Folder :=
  f.write cfg.appName (text env msg) d

def full (cfg : Config) (f : LogFile) : Prop :=
  cfg.maxFileSize ≠ 0 ∧ cfg.maxFileSize.toNat ≤ f.curSize

instance (cfg : Config) (f : LogFile) : Decidable (full cfg f) :=
  inferInstanceAs (Decidable (_ ∧ _))

def log (env : Env) (cfg : Config) (faults : Faults) (lvl : LogLevel) (msg : Message) (s : State) :
    Outcome × State :=
  match s.file with
  | none => (.returned false, s)
  | some f =>
    if ¬f.isOpen then (.returned false, s)
    else if severity msg.level < severity lvl then (.returned true, s)
    else
      let w := written env cfg f msg s.dir
      if ¬full cfg w.1 then (.returned true, ⟨some w.1, w.2⟩)
      else routingLogs env cfg faults ⟨some w.1.close, w.2⟩

/-- Nothing is opened if the directory had to be made and was. -/
def init (cfg : Config) (fails present made : Bool) (s : State) : Bool × State :=
  if ¬present ∧ made then (false, s)
  else
    let o := (⟨false, 0, 0⟩ : LogFile).openFile cfg.appName fails (cfg.mode = .truncate) s.dir
    (o.2.1.isOpen, ⟨some o.2.1, o.2.2⟩)

def uninit (s : State) : State := { s with file := s.file.map LogFile.close }

end Enigma.FileSink
