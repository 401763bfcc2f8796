import Enigma.FileSinkFaults

namespace Enigma.FileSinkInit

open Directory FileSink FileSinkFaults

/-- What is at the path of the log directory: nothing, a directory, or something else. -/
inductive Site
  | missing
  | directory (d : Folder)
  | blocked

structure Result where
  outcome : Outcome
  file : Option LogFile
  site : Site

/-- Init, with a sink that may have a file from before. A directory that cannot be made is an
exception, and below what is not a directory nothing can be opened. -/
def initAt (cfg : Config) (creatable fails : Bool) (o : Option LogFile) : Site → Result
  | .missing =>
      if creatable then
        let r := init cfg fails false true ⟨o, ∅⟩
        ⟨.returned r.1, r.2.file, .directory r.2.dir⟩
      else ⟨.threw, o, .missing⟩
  | .directory d =>
      let r := init cfg fails true false ⟨o, d⟩
      ⟨.returned r.1, r.2.file, .directory r.2.dir⟩
  | .blocked =>
      let r := init cfg true true false ⟨o, ∅⟩
      ⟨.returned r.1, r.2.file, .blocked⟩

def CanOpen (cfg : Config) (creatable fails : Bool) : Site → Prop
  | .missing => creatable = true ∧ fails = false
  | .directory d => fails = false ∧ d.lookup (logName cfg.appName 0) ≠ some .other
  | .blocked => False

def HasOpen (o : Option LogFile) : Prop := ∃ f, o = some f ∧ f.isOpen = true

/-- The answer is whether the sink has app.log open, and yes whenever that can be. -/
structure Answers (cfg : Config) (creatable fails : Bool) (site : Site) (r : Result) : Prop where
  honest : r.outcome = .returned true ↔ HasOpen r.file
  willing : CanOpen cfg creatable fails site → r.outcome = .returned true

variable {cfg : Config} {creatable fails : Bool} {o : Option LogFile} {d : Folder} {site : Site}

theorem hasOpen_some (f : LogFile) : HasOpen (some f) ↔ f.isOpen = true := by
  constructor
  · rintro ⟨g, ⟨⟩, hg⟩
    exact hg
  · exact fun h => ⟨f, rfl, h⟩

theorem returned_iff (b : Bool) : Outcome.returned b = .returned true ↔ b = true := by
  rw [Outcome.returned.injEq]

theorem init_present (cfg : Config) (fails made : Bool) (o : Option LogFile) (d : Folder) :
    ((init cfg fails true made ⟨o, d⟩).1 = true ↔ HasOpen (init cfg fails true made ⟨o, d⟩).2.file) ∧
      ((init cfg fails true made ⟨o, d⟩).1 = true ↔
        fails = false ∧ d.lookup (logName cfg.appName 0) ≠ some .other) := by
  have ho (faults : Faults) : ((⟨false, 0, 0⟩ : LogFile).openFile cfg.appName faults.create
      (cfg.mode = .truncate) d).2.1.isOpen = true ↔ Opens faults d (logName cfg.appName 0) := openFile_isOpen rfl _
  rw [init, if_neg (by simp)]
  exact ⟨(hasOpen_some _).symm, ho { create := fails }⟩

/-- Init answers as it should except where the directory is missing, and either it can be made and has
room for the file, or the sink still has a file open. -/
theorem init_answers_iff (cfg : Config) (creatable fails : Bool) (o : Option LogFile) (site : Site) :
    Answers cfg creatable fails site (initAt cfg creatable fails o site) ↔
      ¬(site = .missing ∧ (creatable = true ∧ fails = false ∨ HasOpen o)) := by
  cases site with
  | missing =>
      have hr : (initAt cfg creatable fails o .missing).outcome ≠ .returned true := by
        cases creatable with
        | true => exact fun h => by cases h
        | false => exact fun h => by cases h
      have hf : (initAt cfg creatable fails o .missing).file = o := by cases creatable <;> rfl
      constructor
      · rintro h ⟨_, hcan | hopen⟩
        · exact hr (h.willing hcan)
        · exact hr (h.honest.mpr (by rw [hf]; exact hopen))
      · intro hn
        refine ⟨?_, fun hcan => absurd ⟨rfl, .inl hcan⟩ hn⟩
        rw [hf]
        exact iff_of_false hr fun hopen => hn ⟨rfl, .inr hopen⟩
  | directory d =>
      obtain ⟨hhonest, hopen⟩ := init_present cfg fails false o d
      refine iff_of_true ⟨(returned_iff _).trans hhonest, fun hw => ?_⟩ fun h => by cases h.1
      exact (returned_iff _).mpr (hopen.mpr hw)
  | blocked =>
      obtain ⟨hhonest, _⟩ := init_present cfg true false o ∅
      exact iff_of_true ⟨(returned_iff _).trans hhonest, fun hw => hw.elim⟩ fun h => by cases h.1

/-- The first run: the directory is made, and Init says no. -/
theorem first_run_refused :
    ¬Answers { appName := "app".toList } true false .missing
      (initAt { appName := "app".toList } true false none .missing) := by
  intro h
  have hw := h.willing ⟨rfl, rfl⟩
  cases hw

end Enigma.FileSinkInit
