import Enigma.FileSinkNames
import Enigma.FileSinkSessions

namespace Enigma.FileSinkShared

open Directory Logger FileSink FileSinkListing FileSinkRotation FileSinkRuns FileSinkSessions Transition
open FileSinkNames (matchLog_some)

variable {env : Env} {cfg : Config} {app name : Name} {d d' : Folder} {f : LogFile} {faults : Faults}

def Foreign (app name : Name) : Prop := ∀ i, name ≠ logName app i

theorem openFile_frame (hn : Foreign app name) (f : LogFile) (fails trunc : Bool) (d : Folder) :
    (f.openFile app fails trunc d).2.2.lookup name = d.lookup name := by
  unfold LogFile.openFile
  split
  · rfl
  · split
    · exact (lookup_put _ _ _ _).trans (if_neg (hn f.index))
    · exact (lookup_put _ _ _ _).trans (if_neg (hn f.index))
    · rfl

theorem extend_frame {q : Name} (hn : name ≠ q) (d : Folder) (b : Bytes) :
    (extend d q b).lookup name = d.lookup name := by
  rw [extend]
  split
  · exact (lookup_put _ _ _ _).trans (if_neg hn)
  · rfl

theorem write_frame (hn : Foreign app name) (f : LogFile) (data : String) (d : Folder) :
    (f.write app data d).2.lookup name = d.lookup name := by
  rw [LogFile.write]
  split
  · exact extend_frame (hn f.index) d _
  · rfl

theorem renameIndex_frame (hn : Foreign app name) {fails : Nat → Bool} {n : Nat} {r : LogFile × Folder}
    (h : f.renameIndex fails app n d = some r) : r.2.lookup name = d.lookup name := by
  rw [LogFile.renameIndex] at h
  split at h
  · cases h
  · obtain ⟨e, he, rfl⟩ := Option.map_eq_some_iff.mp h
    exact (rename_lookup he name).trans ((if_neg (hn n)).trans (if_neg (hn f.index)))

theorem renameLogs_frame (hn : Foreign app name) (fails : Nat → Bool) (fs : List LogFile) (n : Nat) (d : Folder) :
    (renameLogs fails app fs n d).2.lookup name = d.lookup name := by
  induction fs generalizing n d with
  | nil => rfl
  | cons f fs ih =>
      rw [renameLogs]
      split
      case h_1 => rfl
      case h_2 r hr => exact (ih (n - 1) r.2).trans (renameIndex_frame hn hr)

theorem settle_frame (hn : Foreign cfg.appName name) (faults : Faults) (n : Nat) (t : Option (List LogFile) × Folder) :
    (settle cfg faults n t).2.dir.lookup name = t.2.lookup name := by
  obtain ⟨fs, d⟩ := t
  cases fs with
  | none => rfl
  | some fs =>
      cases fs with
      | nil => rfl
      | cons last rest =>
          rw [settle]
          split
          · exact openFile_frame hn _ _ _ _
          · split
            case h_1 => rfl
            case h_2 r hr => exact (openFile_frame hn _ _ _ _).trans (renameIndex_frame hn hr)

theorem routingLogs_frame (hn : Foreign cfg.appName name) (env : Env) (faults : Faults) (s : State) :
    (routingLogs env cfg faults s).2.dir.lookup name = s.dir.lookup name := by
  rw [routingLogs]
  split
  case h_1 => rfl
  case h_2 f hf =>
      split
      · exact openFile_frame hn _ _ _ _
      · split
        · rfl
        · exact (settle_frame hn _ _ _).trans (renameLogs_frame hn _ _ _ _)

/-- Whatever goes wrong in it, a call of Log touches no file of another app. -/
theorem log_frame (hn : Foreign cfg.appName name) (env : Env) (faults : Faults) (lvl : LogLevel) (msg : Message)
    (s : State) : (log env cfg faults lvl msg s).2.dir.lookup name = s.dir.lookup name := by
  rw [log]
  split
  case h_1 => rfl
  case h_2 f hf =>
      have hwrite := write_frame hn f (text env msg) s.dir
      split
      · rfl
      · split
        · rfl
        · dsimp only
          split
          · exact hwrite
          · exact (routingLogs_frame hn _ _ _).trans hwrite

theorem init_frame (hn : Foreign cfg.appName name) (fails present made : Bool) (s : State) :
    (init cfg fails present made s).2.dir.lookup name = s.dir.lookup name := by
  rw [init]
  split
  · rfl
  · exact openFile_frame hn _ _ _ _

theorem next_frame (hn : Foreign cfg.appName name) {r r' : Run} {c : Call}
    (h : FileSinkSessions.next env cfg r c = some r') : r'.sink.dir.lookup name = r.sink.dir.lookup name := by
  cases c with
  | init =>
      cases h
      exact init_frame hn _ _ _ _
  | log a =>
      have hlog := log_frame hn env fair a.1 a.2 r.sink
      rw [FileSinkSessions.next, FileSinkRuns.next] at h
      split at h
      case h_1 b s he =>
          cases h
          rw [he] at hlog
          exact hlog
      case h_2 => cases h
  | uninit =>
      cases h
      rfl

theorem not_dot_of_plain (hp : Plain app) : ∀ c ∈ app, (c != '.') = true := by
  intro c hc
  rw [bne_iff_ne]
  rintro rfl
  exact hp _ hc (by decide)

theorem stem_append (hp : Plain app) (rest : Name) : (app ++ '.' :: rest).takeWhile (· != '.') = app := by
  rw [List.takeWhile_append_of_pos (not_dot_of_plain hp), List.takeWhile_cons_of_neg (by simp), List.append_nil]

theorem stem_logName (hp : Plain app) (i : Nat) : (logName app i).takeWhile (· != '.') = app := by
  rw [logName]
  split
  · exact stem_append hp _
  · rw [List.append_assoc, List.cons_append]
    exact stem_append hp _

theorem stem_of_isLog (hp : Plain app) (h : IsLog app name) : name.takeWhile (· != '.') = app := by
  rcases h with rfl | ⟨ds, hm⟩
  · exact stem_logName hp 0
  · obtain ⟨-, -, rfl⟩ := matchLog_some hm
    rw [List.append_assoc, List.cons_append]
    exact stem_append hp _

theorem foreign_of_isLog {app' : Name} (hp : Plain app) (hp' : Plain app') (hne : app ≠ app') (h : IsLog app name) :
    Foreign app' name := by
  rintro i rfl
  exact hne ((stem_of_isLog hp h).symm.trans (stem_logName hp' i))

theorem settled_frame {r r' : Run} {ls : List (List String)} (h : Settled cfg r ls)
    (hfile : r'.sink.file = r.sink.file) (hlines : r'.lines = r.lines) (hrot : r'.rotations = r.rotations)
    (hdir : ∀ name, IsLog cfg.appName name → r'.sink.dir.lookup name = r.sink.dir.lookup name) :
    Settled cfg r' ls where
  shows := by
    refine ⟨fun i hi => ?_, fun i hi him => ?_, fun name b hb hlog => ?_⟩
    · rw [hdir _ (isLog_logName cfg.appName i)]
      exact h.shows.held i hi
    · rw [hdir _ (isLog_logName cfg.appName i)]
      exact h.shows.free i hi him
    · rw [hdir name hlog] at hb
      exact h.shows.only name b hb hlog
  room := h.room
  file f hf := h.file f (hfile ▸ hf)
  fresh he := by
    rw [hlines, hrot]
    exact h.fresh he
  kept hne := by
    rw [hlines, hrot]
    exact h.kept hne

section Shared

variable {ι : Type} [DecidableEq ι] {cfgs : ι → Config}

/-- Sinks of different apps for one directory, with what each of them has written. -/
structure Shared (ι : Type) where
  file : ι → Option LogFile
  dir : Folder
  lines : ι → List String
  rotations : ι → Nat

omit [DecidableEq ι] in
def view (s : Shared ι) (i : ι) : Run := ⟨⟨s.file i, s.dir⟩, s.lines i, s.rotations i⟩

def store (s : Shared ι) (i : ι) (r : Run) : Shared ι :=
  ⟨Function.update s.file i r.sink.file, r.sink.dir, Function.update s.lines i r.lines,
    Function.update s.rotations i r.rotations⟩

def sharedNext (env : Env) (cfgs : ι → Config) (s : Shared ι) (a : ι × Call) : Option (Shared ι) :=
  (FileSinkSessions.next env (cfgs a.1) (view s a.1) a.2).map (store s a.1)

def shared (env : Env) (cfgs : ι → Config) (d : Folder) : System (Shared ι) (ι × Call) :=
  ⟨(· = ⟨fun _ => none, d, fun _ => [], fun _ => 0⟩), sharedNext env cfgs⟩

theorem view_store (s : Shared ι) (i : ι) (r : Run) : view (store s i r) i = r := by
  simp [view, store]

theorem reachable_each (hp : ∀ i, Plain (cfgs i).appName) (hne : ∀ i j, i ≠ j → (cfgs i).appName ≠ (cfgs j).appName)
    (hmode : ∀ i, (cfgs i).mode = .append) (hshows : ∀ i, Shows (cfgs i).appName (limit (cfgs i)) d [])
    {s : Shared ι} (hr : Reachable (shared env cfgs d) Any s) (i : ι) : ∃ ls, Settled (cfgs i) (view s i) ls := by
  refine hr.invariant (P := fun s => ∀ i, ∃ ls, Settled (cfgs i) (view s i) ls) ?_ ?_ i
  · rintro s rfl i
    exact ⟨[], hshows i, Nat.zero_le _, fun f hf => (by cases hf), fun _ => ⟨rfl, rfl⟩, fun he => absurd rfl he⟩
  · rintro s ⟨j, c⟩ s' _ hs _ hn i
    obtain ⟨r, hr, rfl⟩ := Option.map_eq_some_iff.mp hn
    by_cases hij : i = j
    · subst hij
      obtain ⟨ls, hi⟩ := hs i
      obtain ⟨r', ls', hr', hsettled, -⟩ := next_settled env (hp i) (hmode i) hi c
      cases hr.symm.trans hr'
      rw [view_store]
      exact ⟨ls', hsettled⟩
    · obtain ⟨ls, hi⟩ := hs i
      refine ⟨ls, settled_frame hi ?_ ?_ ?_ fun name hlog => ?_⟩
      · simp [view, store, hij]
      · simp [view, store, hij]
      · simp [view, store, hij]
      · have hforeign := foreign_of_isLog (hp i) (hp j) (hne i j hij) hlog
        have hkeep : r.sink.dir.lookup name = s.dir.lookup name := next_frame hforeign hr
        exact hkeep

/-- Sinks of different plain app names in one directory do not get in each other's way: in every
interleaving of the calls of their sessions, the files of each hold its own lines in order. -/
theorem shared_in_order (env : Env) (hp : ∀ i, Plain (cfgs i).appName)
    (hne : ∀ i j, i ≠ j → (cfgs i).appName ≠ (cfgs j).appName) (hmode : ∀ i, (cfgs i).mode = .append)
    (hfree : ∀ i k, k ≤ limit (cfgs i) → d.lookup (logName (cfgs i).appName k) = none)
    (honly : ∀ i name b, d.lookup name = some (.file b) → ¬IsLog (cfgs i).appName name)
    {s : Shared ι} (hr : Reachable (shared env cfgs d) Any s) (i : ι) :
    InOrder (cfgs i) (view s i) ∧
      ∀ c, ∃ s', sharedNext env cfgs s (i, c) = some s' ∧ Grows (cfgs i) (view s i) (view s' i) := by
  obtain ⟨ls, hs⟩ := reachable_each hp hne hmode (fun i => shows_nil (hfree i) (honly i)) hr i
  refine ⟨hs.inOrder, fun c => ?_⟩
  obtain ⟨r', ls', hn, hs', new, hlines, hext⟩ := next_settled env (hp i) (hmode i) hs c
  refine ⟨_, Option.map_eq_some_iff.mpr ⟨r', hn, rfl⟩, ?_⟩
  rw [view_store]
  exact hs.grows hs' hlines hext

def twoApps (b : Bool) : Config := { appName := if b then "ab".toList else "a".toList, maxFileSize := 1, maxFileCount := 2 }

theorem shared_in_order_two : ∃ s : Shared Bool,
    Reachable (shared ⟨fun _ => none, fun _ => ""⟩ twoApps ∅) Any s ∧ s.rotations true = 1 ∧ s.rotations false = 1 ∧
      InOrder (twoApps true) (view s true) := by
  obtain ⟨s, hr, hp⟩ := exists_of_run (shared ⟨fun _ => none, fun _ => ""⟩ twoApps ∅) Any (fun _ _ => true)
    ⟨fun _ => none, ∅, fun _ => [], fun _ => 0⟩
    [(true, .init), (false, .init), (true, .log (.trace, ⟨.info, 0, 0, none, "x"⟩)),
      (false, .log (.trace, ⟨.info, 0, 0, none, "y"⟩))]
    (fun s => decide (s.rotations true = 1 ∧ s.rotations false = 1)) (fun _ _ _ => trivial) rfl (by decide)
  obtain ⟨ht, hf⟩ := of_decide_eq_true hp
  have horder := shared_in_order ⟨fun _ => none, fun _ => ""⟩ (by intro i; cases i <;> decide)
    (by intro i j hij; cases i <;> cases j <;> first | exact absurd rfl hij | decide) (fun _ => rfl)
    (fun _ _ _ => rfl) (fun _ _ _ h => by cases h) hr true
  exact ⟨s, hr, ht, hf, horder.1⟩

end Shared

end Enigma.FileSinkShared
