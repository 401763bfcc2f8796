import Enigma.FileSinkRuns

namespace Enigma.ConsoleSink

open Logger FileSink FileSinkRuns

inductive Color
  | green
  | blue
  | yellow
  | red
  | magenta
  | white
deriving DecidableEq

structure Config where
  color : Bool := true

inductive Out
  | text (s : String)
  | attribute (c : Color)
deriving DecidableEq

def label : LogLevel → Color × String
  | .debug => (.green, "DEBUG")
  | .info => (.blue, "INFO")
  | .warn => (.yellow, "WARN")
  | .error => (.red, "ERROR")
  | .fatal => (.red, "FATAL")
  | .trace => (.magenta, "TRACE")
  | .traceError => (.red, "TRACE ERROR")

def paint (cfg : Config) (c : Color) : List Out := if cfg.color then [.attribute c] else []

/-- Log, as it is built for Windows. -/
def log (env : Env) (cfg : Config) (lvl : LogLevel) (msg : Message) : Bool × List Out :=
  if severity msg.level < severity lvl then (true, [])
  else
    let start := env.clock msg.time ++ "." ++ millis msg.time ++ " [" ++ toString msg.thread ++ "]"
    (true, [.text (start ++ " [")] ++ paint cfg (label msg.level).1 ++ [.text (label msg.level).2] ++
      paint cfg .white ++ [.text "] "] ++
      (match msg.moduleName with
        | some m => [.text ("[" ++ m ++ "]")]
        | none => []) ++
      [.text ("> " ++ msg.content ++ "\n")])

def shown : List Out → String
  | [] => ""
  | .text s :: out => s ++ shown out
  | .attribute _ :: out => shown out

structure Fields where
  timestamp : String
  millis : String
  thread : String
  label : String
  moduleName : Option String
  content : String

def fields (env : Env) (label : String) (msg : Message) : Fields :=
  ⟨env.clock msg.time, millis msg.time, toString msg.thread, label, msg.moduleName, msg.content⟩

namespace Fields

def start (x : Fields) : String := x.timestamp ++ "." ++ x.millis ++ " [" ++ x.thread ++ "] [" ++ x.label ++ "]"

def inFile (x : Fields) : String := match x.moduleName with
  | some m => x.start ++ " [" ++ m ++ "]> " ++ x.content
  | none => x.start ++ "> " ++ x.content

/-- The line of a console sink: a space stands before the end of it also where no module does. -/
def onConsole (x : Fields) : String := match x.moduleName with
  | some m => x.start ++ " " ++ "[" ++ m ++ "]" ++ "> " ++ x.content
  | none => x.start ++ " " ++ "> " ++ x.content

end Fields

variable {env : Env} {cfg : Config} {lvl : LogLevel} {msg : Message} {s : State} {f : LogFile}

theorem text_fields (env : Env) (msg : Message) : text env msg = (fields env (levelText msg.level) msg).inFile := by
  rw [text, Fields.inFile, fields]
  cases msg.moduleName <;> simp [Fields.start, String.append_assoc]

theorem shown_append (out out' : List Out) : shown (out ++ out') = shown out ++ shown out' := by
  induction out with
  | nil => simp [shown]
  | cons x out ih => cases x <;> simp [shown, ih, String.append_assoc]

theorem shown_paint (cfg : Config) (c : Color) : shown (paint cfg c) = "" := by
  rw [paint]
  split <;> rfl

theorem shown_fields (hl : ¬severity msg.level < severity lvl) (cfg : Config) :
    shown (log env cfg lvl msg).2 = (fields env (label msg.level).2 msg).onConsole ++ "\n" := by
  have hgap : "] " = "]" ++ " " := rfl
  have hnext : "] [" = "]" ++ " [" := rfl
  rw [log, if_neg hl, Fields.onConsole, fields]
  cases msg.moduleName <;>
    simp only [shown, shown_append, shown_paint, Fields.start, String.append_assoc, String.append_empty,
      hgap, hnext]

theorem emits_iff (cfg : Config) : (log env cfg lvl msg).2 ≠ [] ↔ ¬severity msg.level < severity lvl := by
  rw [log]
  split
  case isTrue h => simp [h]
  case isFalse h => simp [h]

theorem lineOf_open (hf : s.file = some f) (ho : f.isOpen = true) :
    lineOf env s (lvl, msg) = if severity msg.level < severity lvl then none else some (text env msg) := by
  rw [lineOf, hf]
  by_cases hl : severity msg.level < severity lvl <;> simp [hl, ho]

/-- The labels of both sinks, but for the two whose cases run on in the one of the file sink. -/
theorem levelText_iff : levelText msg.level = (label msg.level).2 ↔ msg.level ≠ .fatal ∧ msg.level ≠ .trace := by
  cases msg.level <;> decide

theorem length_onConsole (x : Fields) :
    x.inFile.length ≤ x.onConsole.length ∧ x.onConsole.length ≤ x.inFile.length + 1 := by
  have hspace : " ".length = 1 := rfl
  have hopen : " [".length = 2 := rfl
  have hbracket : "[".length = 1 := rfl
  have hclose : "]> ".length = 3 := rfl
  have hclosed : "]".length = 1 := rfl
  have hend : "> ".length = 2 := rfl
  rw [Fields.inFile, Fields.onConsole]
  cases x.moduleName <;> simp only [String.length_append] <;> omega

theorem length_relabel (x : Fields) (l : String) :
    ({ x with label := l } : Fields).inFile.length + x.label.length = x.inFile.length + l.length := by
  rw [Fields.inFile, Fields.inFile]
  cases x.moduleName <;> simp only [Fields.start, String.length_append] <;> omega

/-- Where the labels are not the same, the line in the file is too long for the fields of the one on
the console. -/
theorem same_fields_iff (hl : ¬severity msg.level < severity lvl) (env : Env) (cfg : Config) :
    (∃ x : Fields, text env msg = x.inFile ∧ shown (log env cfg lvl msg).2 = x.onConsole ++ "\n") ↔
      msg.level ≠ .fatal ∧ msg.level ≠ .trace := by
  rw [text_fields, shown_fields hl]
  constructor
  · rintro ⟨x, hfile, hconsole⟩
    by_contra hn
    rw [not_and_or, not_not, not_not] at hn
    have hlong : (levelText msg.level).length = 11 := by obtain hn | hn := hn <;> rw [hn] <;> rfl
    have hshort : (label msg.level).2.length = 5 := by obtain hn | hn := hn <;> rw [hn] <;> rfl
    have hrelabel := length_relabel (fields env (label msg.level).2 msg) (levelText msg.level)
    have hx := length_onConsole x
    have hx' := length_onConsole (fields env (label msg.level).2 msg)
    have hfile := congrArg String.length hfile
    have hconsole := congrArg String.length hconsole
    simp only [String.length_append] at hconsole
    change (fields env (levelText msg.level) msg).inFile.length + (label msg.level).2.length = _ at hrelabel
    omega
  · intro h
    exact ⟨_, rfl, by rw [levelText_iff.mpr h]⟩

end Enigma.ConsoleSink
