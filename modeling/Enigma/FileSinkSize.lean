import Enigma.FileSinkFaults
import Enigma.FileSinkRuns

namespace Enigma.FileSinkSize

open Directory Logger FileSink FileSinkListing FileSinkRuns FileSinkFaults Transition

variable {env : Env} {cfg : Config} {app : Name} {d d' : Folder} {f : LogFile} {k : Nat}

inductive Op
  | openFile (trunc : Bool)
  | write (data : String)
  | close
  | renameIndex (index : Nat)

/-- A rename that the directory does not allow changes nothing. -/
def apply (app : Name) (p : LogFile × Folder) : Op → LogFile × Folder
  | .openFile trunc => (p.1.openFile app false trunc p.2).2
  | .write data => p.1.write app data p.2
  | .close => (p.1.close, p.2)
  | .renameIndex index => (p.1.renameIndex (fun _ => false) app index p.2).getD p

def applyAll (app : Name) (p : LogFile × Folder) (ops : List Op) : LogFile × Folder := ops.foldl (apply app) p

/-- While the file is open, its size is that of the file on disk less so many bytes. -/
def Lags (app : Name) (k : Nat) (f : LogFile) (d : Folder) : Prop :=
  f.isOpen = true → ∃ c, d.lookup (logName app f.index) = some (.file c) ∧ k ≤ c.length ∧
    f.curSize = (c.length - k) % UInt64.size

def Exact (app : Name) (p : LogFile × Folder) : Prop := Lags app 0 p.1 p.2

theorem Lags.of_closed (hc : f.isOpen = false) (app : Name) (k : Nat) (d : Folder) : Lags app k f d := by
  intro ho
  rw [hc] at ho
  cases ho

theorem Lags.close (app : Name) (k : Nat) (f : LogFile) (d : Folder) : Lags app k f.close d :=
  .of_closed rfl app k d

theorem openFile_open (ho : f.isOpen = true) (fails trunc : Bool) (d : Folder) :
    f.openFile app fails trunc d = (true, f, d) := if_pos ho

theorem Lags.opened (hc : f.isOpen = false) (fails trunc : Bool) (d : Folder) :
    Lags app 0 (f.openFile app fails trunc d).2.1 (f.openFile app fails trunc d).2.2 := by
  have hne : ¬f.isOpen = true := by simp [hc]
  have hshut : Lags app 0 { f with curSize := UInt64.size - 1 } d :=
    Lags.of_closed (f := { f with curSize := UInt64.size - 1 }) hc app 0 d
  unfold LogFile.openFile
  rw [if_neg hne]
  cases hl : d.lookup (logName app f.index) with
  | none =>
      cases fails with
      | false => exact fun _ => ⟨[], AList.lookup_insert _, Nat.zero_le _, rfl⟩
      | true => exact hshut
  | some x =>
      cases fails with
      | false =>
          cases x with
          | file c => exact fun _ => ⟨_, AList.lookup_insert _, Nat.zero_le _, rfl⟩
          | other => exact hshut
      | true => exact hshut

theorem length_record (data : String) : (record data).length = data.utf8ByteSize + 1 := by
  rw [record, List.length_append, List.length_singleton]
  rfl

/-- A line adds one byte more to the file than to the size. -/
theorem Lags.write (h : Lags app k f d) (data : String) :
    Lags app (k + 1) (f.write app data d).1 (f.write app data d).2 := by
  by_cases ho : f.isOpen = true
  · obtain ⟨c, hc, hk, hsize⟩ := h ho
    rw [LogFile.write, if_pos ho, extend, hc]
    dsimp only
    refine fun _ => ⟨c ++ record data, AList.lookup_insert _, ?_, ?_⟩
    · rw [List.length_append, length_record]
      omega
    · change (f.curSize + data.utf8ByteSize) % UInt64.size = _
      rw [List.length_append, length_record, hsize, Nat.mod_add_mod]
      congr 1
      omega
  · have hc : f.isOpen = false := by simpa using ho
    rw [LogFile.write, if_neg ho]
    exact .of_closed hc app (k + 1) d

theorem Lags.renamed {r : LogFile × Folder} {fails : Nat → Bool} {index : Nat} (h : Lags app k f d)
    (hr : f.renameIndex fails app index d = some r) : Lags app k r.1 r.2 := by
  obtain ⟨_, hd, hf⟩ := renameIndex_some.mp hr
  rw [hf]
  intro ho
  obtain ⟨c, hc, hk, hsize⟩ := h ho
  exact ⟨c, by rw [rename_lookup hd, if_pos rfl, hc], hk, hsize⟩

section operations

variable {p : LogFile × Folder} {data : String} {ops : List Op}

theorem apply_exact (h : Exact app p) {op : Op} (hop : ∀ data, op = .write data → p.1.isOpen = false) :
    Exact app (apply app p op) := by
  cases op with
  | openFile trunc =>
      by_cases ho : p.1.isOpen = true
      · rw [apply, openFile_open ho]
        exact h
      · exact .opened (by simpa using ho) false trunc p.2
  | write data =>
      have hc := hop data rfl
      rw [apply, LogFile.write, if_neg (by simp [hc])]
      exact h
  | close => exact .close app 0 p.1 p.2
  | renameIndex index =>
      rw [apply]
      cases hr : p.1.renameIndex (fun _ => false) app index p.2 with
      | none => exact h
      | some r => exact h.renamed hr

theorem not_exact_write (h : Exact app p) (ho : p.1.isOpen = true) : ¬Exact app (apply app p (.write data)) := by
  intro h'
  have ho' : (apply app p (.write data)).1.isOpen = true := by rw [apply, LogFile.write, if_pos ho]; exact ho
  obtain ⟨c, hc, _, hsize⟩ := h' ho'
  obtain ⟨c', hc', hk, hsize'⟩ := (Lags.write h data : Lags app 1 _ _) ho'
  rw [apply] at hc hsize
  cases hc.symm.trans hc'
  rw [hsize'] at hsize
  simp only [UInt64.size] at hsize
  omega

theorem applyAll_append (ops : List Op) (op : Op) :
    applyAll app p (ops ++ [op]) = apply app (applyAll app p ops) op := by
  rw [applyAll, List.foldl_append]
  rfl

/-- In a run of operations the size is always that of the file exactly if nothing is ever written
to the file while it is open. -/
theorem operations_exact_iff (hc : p.1.isOpen = false) (ops : List Op) :
    (∀ pre, pre <+: ops → Exact app (applyAll app p pre)) ↔
      ∀ pre data, pre ++ [.write data] <+: ops → (applyAll app p pre).1.isOpen = false := by
  constructor
  · intro h pre data hpre
    by_contra ho
    rw [Bool.not_eq_false] at ho
    have hafter := h _ hpre
    rw [applyAll_append] at hafter
    exact not_exact_write (h pre ((List.prefix_append _ _).trans hpre)) ho hafter
  · intro h pre
    induction pre using List.reverseRecOn with
    | nil => exact fun _ => .of_closed hc app 0 p.2
    | append_singleton pre op ih =>
        intro hpre
        rw [applyAll_append]
        refine apply_exact (ih ((List.prefix_append _ _).trans hpre)) ?_
        rintro data rfl
        exact h pre data hpre

end operations

section sink

structure Run where
  sink : State
  lines : Nat := 0

inductive Call
  | init (fails present made : Bool)
  | log (faults : Faults) (a : Act)
  | uninit

def next (env : Env) (cfg : Config) (r : Run) : Call → Option Run
  | .init fails present made =>
      some ⟨(init cfg fails present made r.sink).2, if ¬present ∧ made then r.lines else 0⟩
  | .log faults a =>
      some ⟨(log env cfg faults a.1 a.2 r.sink).2,
        if due env cfg r.sink a then 0 else r.lines + (lineOf env r.sink a).toList.length⟩
  | .uninit => some ⟨uninit r.sink, r.lines⟩

def calls (env : Env) (cfg : Config) (d : Folder) : System Run Call := ⟨(· = ⟨⟨none, d⟩, 0⟩), next env cfg⟩

def SinkLags (app : Name) (k : Nat) (s : State) : Prop := ∀ f, s.file = some f → Lags app k f s.dir

theorem sinkLags_some (app : Name) (k : Nat) (f : LogFile) (d : Folder) :
    SinkLags app k ⟨some f, d⟩ ↔ Lags app k f d := by
  constructor
  · exact fun h => h f rfl
  · rintro h g ⟨⟩
    exact h

variable {faults : Faults} {s : State}

theorem settle_lags {fs : List LogFile} {n : Nat} (hc : ∀ g ∈ fs, g.isOpen = false) :
    SinkLags cfg.appName 0 (settle cfg faults n (renameLogs faults.rename cfg.appName fs n d)).2 := by
  cases fs with
  | nil => exact fun f hf => by cases hf
  | cons g fs =>
      cases hr : renameLogs faults.rename cfg.appName (g :: fs) n d with
      | mk o e =>
      cases o with
      | none => exact fun f hf => by cases hf
      | some gs =>
          obtain ⟨rest, rfl⟩ := renameLogs_head hr
          have hg : g.isOpen = false := hc g (by simp)
          rw [settle]
          split
          case isTrue => exact (sinkLags_some _ _ _ _).mpr (.opened rfl _ true e)
          case isFalse =>
              cases hri : ({ g with index := n } : LogFile).renameIndex faults.rename cfg.appName 0 e with
              | none => exact (sinkLags_some _ _ _ _).mpr (Lags.of_closed (f := { g with index := n }) hg _ _ _)
              | some r =>
                  obtain ⟨_, _, hlast⟩ := renameIndex_some.mp hri
                  exact (sinkLags_some _ _ _ _).mpr (.opened (by rw [hlast]; exact hg) _ true r.2)

theorem routing_lags (env : Env) (cfg : Config) (faults : Faults) (s : State) :
    SinkLags cfg.appName 0 (routingLogs env cfg faults s).2 := by
  rw [routingLogs]
  cases hf : s.file with
  | none =>
      intro f hs
      rw [hf] at hs
      cases hs
  | some f =>
      dsimp only
      split
      case isTrue => exact (sinkLags_some _ _ _ _).mpr (.opened rfl _ true s.dir)
      case isFalse =>
          cases hl : listLogs env cfg faults.list s.dir with
          | none => exact (sinkLags_some _ _ _ _).mpr (.close _ _ f s.dir)
          | some listed => exact settle_lags (backward_closed hl)

theorem lineOf_some {a : Act} {l : String} (hl : lineOf env s a = some l) :
    ∃ f, s.file = some f ∧ f.isOpen = true ∧ ¬severity a.2.level < severity a.1 := by
  rw [lineOf] at hl
  split at hl
  case h_1 => cases hl
  case h_2 f hf =>
      split at hl
      case isTrue h => exact ⟨f, hf, h⟩
      case isFalse => cases hl

theorem log_lags (h : SinkLags cfg.appName k s) (a : Act) :
    SinkLags cfg.appName (if due env cfg s a then 0 else k + (lineOf env s a).toList.length)
      (log env cfg faults a.1 a.2 s).2 := by
  cases hl : lineOf env s a with
  | none =>
      have hlog : (log env cfg faults a.1 a.2 s).2 = s := by
        cases hf : s.file with
        | none => rw [log, hf]
        | some f =>
            have hn : ¬(f.isOpen = true ∧ ¬severity a.2.level < severity a.1) := by
              intro hn
              rw [lineOf, hf] at hl
              simp [hn] at hl
            rw [log, hf]
            by_cases ho : f.isOpen = true
            · rw [not_and_not_right] at hn
              simp [ho, hn ho]
            · simp [ho]
      rw [due_of_none cfg hl, hlog]
      exact h
  | some l =>
      obtain ⟨f, hf, ho, hlvl⟩ := lineOf_some hl
      have hw : Lags cfg.appName (k + 1) (written env cfg f a.2 s.dir).1 (written env cfg f a.2 s.dir).2 :=
        (h f hf).write _
      have hdue : due env cfg s a = decide (full cfg (written env cfg f a.2 s.dir).1) := by rw [due, hf, hl]
      rw [log, hf]
      simp only [ho, not_true, if_false, if_neg hlvl]
      by_cases hfull : full cfg (written env cfg f a.2 s.dir).1
      · rw [if_pos (hdue.trans (decide_eq_true hfull)), if_neg (not_not.mpr hfull)]
        exact routing_lags _ _ _ _
      · rw [if_neg (by simp [hdue, hfull]), if_pos hfull]
        exact (sinkLags_some _ _ _ _).mpr hw

theorem run_lags {r : Run} (hr : Reachable (calls env cfg d) Any r) : SinkLags cfg.appName r.lines r.sink := by
  refine hr.invariant (P := fun r => SinkLags cfg.appName r.lines r.sink) ?_ ?_
  · rintro r rfl f hf
    cases hf
  · rintro r call r' _ h _ hn
    cases call with
    | init fails present made =>
        cases hn
        rw [init]
        split
        case isTrue => exact h
        case isFalse => exact (sinkLags_some _ _ _ _).mpr (.opened rfl fails _ r.sink.dir)
    | log faults a =>
        cases hn
        exact log_lags h a
    | uninit =>
        cases hn
        intro f hf
        obtain ⟨g, _, rfl⟩ := Option.map_eq_some_iff.mp hf
        exact .close _ _ g _

def Reached (cfg : Config) (n : Nat) : Prop := cfg.maxFileSize ≠ 0 ∧ cfg.maxFileSize.toNat ≤ n

instance (cfg : Config) (n : Nat) : Decidable (Reached cfg n) := inferInstanceAs (Decidable (_ ∧ _))

/-- A call that writes a line rotates exactly when the file has reached its limit, unless it has
only with the newlines that were written since it was opened. -/
theorem due_iff {r : Run} (hr : Reachable (calls env cfg d) Any r) {a : Act} {l : String} {c : Bytes}
    (hf : r.sink.file = some f) (hl : lineOf env r.sink a = some l)
    (hc : (withLine env cfg r.sink a).lookup (logName cfg.appName f.index) = some (.file c))
    (hlen : c.length < UInt64.size) :
    (due env cfg r.sink a = true ↔ Reached cfg c.length) ↔
      (Reached cfg c.length → Reached cfg (c.length - (r.lines + 1))) := by
  obtain ⟨g, hg, ho, _⟩ := lineOf_some hl
  cases hf.symm.trans hg
  have hw := (run_lags hr f hf).write (text env a.2)
  obtain ⟨c', hc', hk, hsize⟩ := hw (by rw [LogFile.write, if_pos ho]; exact ho)
  have hindex : (f.write cfg.appName (text env a.2) r.sink.dir).1.index = f.index := by
    rw [LogFile.write, if_pos ho]
  rw [withLine, hf, hl] at hc
  rw [hindex] at hc'
  cases hc.symm.trans hc'
  have hdue : due env cfg r.sink a = true ↔ Reached cfg (c.length - (r.lines + 1)) := by
    rw [due, hf, hl, decide_eq_true_iff, full, written, hsize, Nat.mod_eq_of_lt (by omega), Reached]
  rw [hdue]
  constructor
  · exact fun h => h.mpr
  · exact fun h => ⟨fun hle => ⟨hle.1, by have := hle.2; omega⟩, h⟩

end sink

/-- Size tells the bytes in the file exactly if nothing is written to an open file, and Log rotates
by them exactly if the newlines since the file was opened make no difference. -/
theorem size_exact_iff {p : LogFile × Folder} (hp : p.1.isOpen = false) (app : Name) (ops : List Op) :
    ((∀ pre, pre <+: ops → Exact app (applyAll app p pre)) ↔
      ∀ pre data, pre ++ [.write data] <+: ops → (applyAll app p pre).1.isOpen = false) ∧
    ∀ env cfg d r, Reachable (calls env cfg d) Any r → ∀ a f l c, r.sink.file = some f →
      lineOf env r.sink a = some l →
      (withLine env cfg r.sink a).lookup (logName cfg.appName f.index) = some (.file c) →
      c.length < UInt64.size →
      ((due env cfg r.sink a = true ↔ Reached cfg c.length) ↔
        (Reached cfg c.length → Reached cfg (c.length - (r.lines + 1)))) :=
  ⟨operations_exact_iff hp ops, fun _ _ _ _ hr _ _ _ _ hf hl hc hlen => due_iff hr hf hl hc hlen⟩

theorem size_exact_opened :
    (∀ pre, pre <+: [.openFile true, .close] → Exact "app".toList (applyAll "app".toList (⟨false, 0, 0⟩, ∅) pre)) ∧
      (due ⟨fun _ => none, fun _ => ""⟩ { appName := "app".toList, maxFileSize := 1 }
          ⟨some ⟨true, 0, 0⟩, (∅ : Folder).insert "app.log".toList (.file [])⟩ (.trace, ⟨.info, 0, 0, none, "a"⟩) = true ↔
        Reached { appName := "app".toList, maxFileSize := 1 } 19) := by
  have hr : Reachable (calls ⟨fun _ => none, fun _ => ""⟩ { appName := "app".toList, maxFileSize := 1 } ∅) Any
      ⟨⟨some ⟨true, 0, 0⟩, (∅ : Folder).insert "app.log".toList (.file [])⟩, 0⟩ :=
    .step (a := .init false true false) (.init rfl) trivial rfl
  have hsize := size_exact_iff (p := (⟨false, 0, 0⟩, ∅)) rfl "app".toList [.openFile true, .close]
  refine ⟨hsize.1.mpr fun pre data hpre => ?_, ?_⟩
  · have hmem := hpre.subset (List.mem_append_right pre (List.mem_singleton_self _))
    simp at hmem
  · exact (hsize.2 _ _ _ _ hr (.trace, ⟨.info, 0, 0, none, "a"⟩) ⟨true, 0, 0⟩ _
      (record (text ⟨fun _ => none, fun _ => ""⟩ ⟨.info, 0, 0, none, "a"⟩)) rfl rfl rfl (by decide)).mpr
      fun _ => by decide

/-- One line of one byte: two bytes in the file. -/
theorem line_outgrows_size :
    ¬Exact "app".toList (applyAll "app".toList (⟨false, 0, 0⟩, ∅) [.openFile true, .write "a"]) := by
  intro h
  obtain ⟨c, hc, _, hsize⟩ := h rfl
  have htwo : (applyAll "app".toList (⟨false, 0, 0⟩, ∅) [.openFile true, .write "a"]).2.lookup
      (logName "app".toList 0) = some (.file [97, 10]) := by decide
  cases hc.symm.trans htwo
  exact absurd hsize (by decide)

end Enigma.FileSinkSize
