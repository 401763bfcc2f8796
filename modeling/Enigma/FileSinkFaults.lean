import Enigma.FileSinkListing

namespace Enigma.FileSinkFaults

open Directory Logger FileSink FileSinkListing

variable {env : Env} {cfg : Config} {faults : Faults} {app : Name} {d d' : Folder} {f g : LogFile} {s : State}

/-- After a call that returned, there is a file, and an open one if the call was a success. -/
def Owns (r : Outcome × State) : Prop :=
  match r.1 with
  | .returned ok => ∃ f, r.2.file = some f ∧ (ok = true → f.isOpen = true)
  | .threw => True

def Opens (faults : Faults) (d : Folder) (name : Name) : Prop :=
  faults.create = false ∧ d.lookup name ≠ some .other

inductive Renames (fails : Nat → Bool) (app : Name) : List Nat → Nat → Folder → Folder → Prop
  | nil (n : Nat) (d : Folder) : Renames fails app [] n d d
  | cons (i n : Nat) (is : List Nat) (d e d' : Folder) (hok : fails n = false)
      (hr : rename d (logName app i) (logName app n) = some e) (ht : Renames fails app is (n - 1) e d') :
      Renames fails app (i :: is) n d d'

theorem openFile_result (f : LogFile) (app : Name) (fails trunc : Bool) (d : Folder) :
    (f.openFile app fails trunc d).1 = true := by
  unfold LogFile.openFile
  split
  · rfl
  · split <;> rfl

theorem openFile_isOpen (hc : f.isOpen = false) (trunc : Bool) :
    (f.openFile app faults.create trunc d).2.1.isOpen = true ↔ Opens faults d (logName app f.index) := by
  rw [Opens]
  cases hl : d.lookup (logName app f.index) with
  | none => cases hf : faults.create <;> simp [LogFile.openFile, hc, hl]
  | some x => cases x <;> cases hf : faults.create <;> simp [LogFile.openFile, hc, hl]

theorem renameIndex_some {fails : Nat → Bool} {n : Nat} {r : LogFile × Folder} :
    g.renameIndex fails app n d = some r ↔
      fails n = false ∧ rename d (logName app g.index) (logName app n) = some r.2 ∧ r.1 = { g with index := n } := by
  rw [LogFile.renameIndex]
  by_cases hf : fails n = true
  · simp [hf]
  · rw [if_neg hf, Option.map_eq_some_iff]
    constructor
    · rintro ⟨e, he, rfl⟩
      exact ⟨by simpa using hf, he, rfl⟩
    · rintro ⟨_, hr, h⟩
      exact ⟨r.2, hr, by rw [← h]⟩

/-- The loop gets through exactly if there is such a way, and then ends where it leads. -/
theorem renameLogs_renames {fails : Nat → Bool} {fs : List LogFile} {n : Nat} :
    (∃ gs, renameLogs fails app fs n d = (some gs, d')) ↔ Renames fails app (fs.map LogFile.index) n d d' := by
  induction fs generalizing n d with
  | nil =>
      constructor
      · rintro ⟨gs, h⟩
        cases h
        exact .nil _ _
      · intro h
        cases h
        exact ⟨[], rfl⟩
  | cons f fs ih =>
      rw [List.map_cons, renameLogs]
      constructor
      · rintro ⟨gs, h⟩
        split at h
        case h_1 => cases h
        case h_2 r hr =>
            obtain ⟨hok, hr, _⟩ := renameIndex_some.mp hr
            rw [Prod.mk.injEq, Option.map_eq_some_iff] at h
            obtain ⟨⟨hs, hhs, _⟩, hd⟩ := h
            exact .cons _ _ _ _ _ _ hok hr (ih.mp ⟨hs, Prod.ext hhs hd⟩)
      · intro h
        cases h with
        | cons i n is d e d' hok hr ht =>
            obtain ⟨gs, hgs⟩ := ih.mpr ht
            have hri : f.renameIndex fails app n d = some ({ f with index := n }, e) :=
              renameIndex_some.mpr ⟨hok, hr, rfl⟩
            exact ⟨{ f with index := n } :: gs, by simp only [hri, hgs, Option.map_some]⟩

theorem renameLogs_head {fails : Nat → Bool} {fs gs : List LogFile} {n : Nat}
    (h : renameLogs fails app (f :: fs) n d = (some gs, d')) : ∃ rest, gs = { f with index := n } :: rest := by
  rw [renameLogs] at h
  split at h
  case h_1 => cases h
  case h_2 r hr =>
      obtain ⟨_, _, hr⟩ := renameIndex_some.mp hr
      rw [Prod.mk.injEq, Option.map_eq_some_iff] at h
      obtain ⟨⟨hs, _, rfl⟩, _⟩ := h
      exact ⟨hs, by rw [hr]⟩

theorem listLogs_closed {fails : Bool} {listed : Logs} (h : listLogs env cfg fails d = some listed) :
    ∀ e ∈ listed, e.2.isOpen = false := by
  rw [listLogs] at h
  obtain ⟨found, _, h⟩ := Option.bind_eq_some_iff.mp h
  split at h
  case isTrue => cases h
  case isFalse =>
      have hall : ∀ name ∈ d.keys.filter ('/' ∉ ·), probe found d name ≠ none := by
        intro name hn hp
        rw [foldlM_visit_threw hn hp] at h
        cases h
      obtain ⟨ks, hks, _, _⟩ := foldlM_visit List.Pairwise.nil hall
      have he : some (entries ks) = some listed := hks.symm.trans h
      cases he
      intro e he
      obtain ⟨k, _, rfl⟩ := List.mem_map.mp he
      rfl

theorem mem_emplace {logs : Logs} {k : Nat} {e : Nat × LogFile} (h : e ∈ emplace logs k f) :
    e = (k, f) ∨ e ∈ logs := by
  induction logs with
  | nil => simpa [emplace] using h
  | cons e' logs ih =>
      rw [emplace] at h
      split at h
      · simpa using h
      · split at h
        · exact Or.inr h
        · simp only [List.mem_cons] at h ⊢
          obtain rfl | h := h
          · exact Or.inr (Or.inl rfl)
          · exact (ih h).imp_right Or.inr

theorem emplace_ne_nil (logs : Logs) (k : Nat) (f : LogFile) : emplace logs k f ≠ [] := by
  cases logs with
  | nil => simp [emplace]
  | cons e logs =>
      rw [emplace]
      split
      · simp
      · split <;> simp

theorem backward_closed {fails : Bool} {listed : Logs} (h : listLogs env cfg fails d = some listed) :
    ∀ g ∈ backward (emplace listed 0 f.close), g.isOpen = false := by
  intro g hg
  rw [backward, List.mem_reverse, List.mem_map] at hg
  obtain ⟨e, he, rfl⟩ := hg
  obtain rfl | he := mem_emplace he
  · rfl
  · exact listLogs_closed h e he

/-- What a rotation needs to leave the sink with a file and an honest answer, after the line has
been written to the directory. -/
def Recovers (env : Env) (cfg : Config) (faults : Faults) (f : LogFile) (d : Folder) : Prop :=
  if cfg.maxFileCount = 1 then Opens faults d (logName cfg.appName f.index)
  else ∀ listed, listLogs env cfg faults.list d = some listed →
    ∃ e, Renames faults.rename cfg.appName ((backward (emplace listed 0 f.close)).map LogFile.index)
        (emplace listed 0 f.close).length d e ∧
      ((emplace listed 0 f.close).length < cfg.maxFileCount.toNat ∨
        ∀ d', faults.rename 0 = false →
          rename e (logName cfg.appName (emplace listed 0 f.close).length) (logName cfg.appName 0) = some d' →
          Opens faults d' (logName cfg.appName 0))

theorem settle_owns_iff {fs : List LogFile} {n : Nat} (hne : fs ≠ []) (hc : ∀ g ∈ fs, g.isOpen = false) :
    Owns (settle cfg faults n (renameLogs faults.rename cfg.appName fs n d)) ↔
      ∃ e, Renames faults.rename cfg.appName (fs.map LogFile.index) n d e ∧
        (n < cfg.maxFileCount.toNat ∨ ∀ d', faults.rename 0 = false →
          rename e (logName cfg.appName n) (logName cfg.appName 0) = some d' →
          Opens faults d' (logName cfg.appName 0)) := by
  cases hr : renameLogs faults.rename cfg.appName fs n d with
  | mk o e =>
  cases o with
  | none =>
      constructor
      · rintro ⟨g, hg, _⟩
        cases hg
      · rintro ⟨e', he, _⟩
        obtain ⟨gs, hgs⟩ := renameLogs_renames.mpr he
        rw [hr] at hgs
        cases hgs
  | some gs =>
      obtain ⟨g, fs, rfl⟩ := List.exists_cons_of_ne_nil hne
      obtain ⟨rest, rfl⟩ := renameLogs_head hr
      have hway : Renames faults.rename cfg.appName ((g :: fs).map LogFile.index) n d e :=
        renameLogs_renames.mp ⟨_, hr⟩
      have honly : ∀ e', Renames faults.rename cfg.appName ((g :: fs).map LogFile.index) n d e' → e' = e := by
        intro e' he
        obtain ⟨gs, hgs⟩ := renameLogs_renames.mpr he
        rw [hr] at hgs
        cases hgs
        rfl
      have hreduce : ∀ q : Folder → Prop, (∃ e', Renames faults.rename cfg.appName ((g :: fs).map LogFile.index) n d e' ∧
          q e') ↔ q e := fun q => ⟨fun ⟨e', he, hq⟩ => honly e' he ▸ hq, fun hq => ⟨e, hway, hq⟩⟩
      rw [hreduce, settle]
      by_cases hroom : n < cfg.maxFileCount.toNat
      · simp [Owns, hroom]
      rw [if_neg hroom, or_iff_right hroom]
      cases hri : ({ g with index := n } : LogFile).renameIndex faults.rename cfg.appName 0 e with
      | none =>
          constructor
          · intro _ d' hok he
            have hsome : ({ g with index := n } : LogFile).renameIndex faults.rename cfg.appName 0 e =
                some ({ g with index := 0 }, d') := renameIndex_some.mpr ⟨hok, he, rfl⟩
            rw [hri] at hsome
            cases hsome
          · exact fun _ => ⟨_, rfl, fun h => by cases h⟩
      | some r =>
          obtain ⟨hok, he, hlast⟩ := renameIndex_some.mp hri
          have hclosed : r.1.isOpen = false := by
            rw [hlast]
            exact hc g (by simp)
          have hopen : (r.1.openFile cfg.appName faults.create true r.2).2.1.isOpen = true ↔
              Opens faults r.2 (logName cfg.appName r.1.index) := openFile_isOpen hclosed true
          rw [show r.1.index = 0 by rw [hlast]] at hopen
          constructor
          · rintro ⟨g', hg', ht⟩ d' _ he'
            cases hg'
            rw [← Option.some.inj (he.symm.trans he')]
            exact hopen.mp (ht (openFile_result _ _ _ _ _))
          · intro h
            exact ⟨_, rfl, fun _ => hopen.mpr (h r.2 hok he)⟩

theorem routing_owns_iff (hf : s.file = some f) :
    Owns (routingLogs env cfg faults s) ↔ Recovers env cfg faults f s.dir := by
  rw [routingLogs, hf, Recovers]
  dsimp only
  by_cases hone : cfg.maxFileCount = 1
  · have hc : f.close.isOpen = false := rfl
    rw [if_pos hone, if_pos hone, ← show f.close.index = f.index from rfl, ← openFile_isOpen hc true]
    simp [Owns, openFile_result]
  rw [if_neg hone, if_neg hone]
  cases hl : listLogs env cfg faults.list s.dir with
  | none => simp [Owns]
  | some listed =>
      have hne : backward (emplace listed 0 f.close) ≠ [] := by simp [backward, emplace_ne_nil]
      simp only [Option.some.injEq, forall_eq']
      exact settle_owns_iff hne (backward_closed hl)

/-- Log leaves the sink with a file and an honest answer exactly if no rotation is due, or the
rotation recovers. -/
theorem log_owns_iff {lvl : LogLevel} {msg : Message} (hf : s.file = some f) :
    Owns (log env cfg faults lvl msg s) ↔
      f.isOpen = false ∨ severity msg.level < severity lvl ∨ ¬full cfg (written env cfg f msg s.dir).1 ∨
        Recovers env cfg faults (written env cfg f msg s.dir).1.close (written env cfg f msg s.dir).2 := by
  rw [log, hf]
  dsimp only
  by_cases ho : f.isOpen = true
  · rw [if_neg (by simp [ho]), or_iff_right (by simp [ho])]
    by_cases hl : severity msg.level < severity lvl
    · simp [Owns, hl, hf, ho]
    · have hw : (written env cfg f msg s.dir).1.isOpen = true := by simp [written, LogFile.write, ho]
      rw [if_neg hl, or_iff_right hl]
      by_cases hfull : full cfg (written env cfg f msg s.dir).1
      · rw [if_neg (not_not.mpr hfull), or_iff_right (not_not.mpr hfull)]
        exact routing_owns_iff rfl
      · simp [Owns, hfull, hw]
  · simp [Owns, ho, hf]

theorem log_owns_truncating : Owns (log ⟨fun _ => none, fun _ => ""⟩ { appName := "app".toList, maxFileSize := 1 } {}
    .trace ⟨.info, 0, 0, none, "a"⟩
    ⟨some ⟨true, 0, 0⟩, (∅ : Folder).insert "app.log".toList (.file [])⟩) := by
  refine (log_owns_iff (f := ⟨true, 0, 0⟩) rfl).mpr (Or.inr (Or.inr (Or.inr ?_)))
  rw [Recovers, if_pos rfl]
  exact ⟨rfl, by decide⟩

/-- With no way to open it again, the only file there may be is closed, and Log says it went well. -/
example :
    let r := log ⟨fun _ => none, fun _ => ""⟩ { appName := "app".toList, maxFileSize := 1 } { create := true } .trace
      ⟨.info, 0, 0, none, "a"⟩ ⟨some ⟨true, 0, 0⟩, (∅ : Folder).insert "app.log".toList (.file [])⟩
    r.1 = .returned true ∧ r.2.file.map LogFile.isOpen = some false := by
  decide

/-- A rename that fails leaves the sink without a file. -/
theorem failed_rename_loses_file :
    ¬∀ env cfg faults lvl msg s, (∃ f, s.file = some f ∧ f.isOpen = true) →
      Owns (log env cfg faults lvl msg s) := by
  intro h
  obtain ⟨f, hf, _⟩ : Owns (.returned false, ⟨none, _⟩) := h ⟨fun _ => none, fun _ => ""⟩
    { appName := "app".toList, maxFileSize := 1, maxFileCount := 3 } { rename := fun i => i = 1 } .trace
    ⟨.info, 0, 0, none, "a"⟩ ⟨some ⟨true, 0, 0⟩, (∅ : Folder).insert "app.log".toList (.file [])⟩
    ⟨_, rfl, rfl⟩
  cases hf

end Enigma.FileSinkFaults
