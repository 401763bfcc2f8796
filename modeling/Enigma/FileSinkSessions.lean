import Enigma.FileSinkRuns

namespace Enigma.FileSinkSessions

open Directory Logger FileSink FileSinkListing FileSinkRotation FileSinkRuns Transition

variable {env : Env} {cfg : Config} {app : Name} {d : Folder} {s : State} {r r' : Run} {m : Nat}
  {ls : List (List String)}

/-- A call on a sink, or on the next one that is made for the same directory. -/
inductive Call
  | init
  | log (a : Act)
  | uninit

/-- The directory is there, and no call meets with a fault. -/
def next (env : Env) (cfg : Config) (r : Run) : Call → Option Run
  | .init => some { r with sink := (init cfg false true false r.sink).2 }
  | .log a => FileSinkRuns.next env cfg r a
  | .uninit => some { r with sink := uninit r.sink }

def sessions (env : Env) (cfg : Config) (d : Folder) : System Run Call :=
  ⟨(· = ⟨⟨none, d⟩, [], 0⟩), next env cfg⟩

/-- The shelf that a session finds, with a first piece if there was none. -/
def resume : List (List String) → List (List String)
  | [] => [[]]
  | l :: ls => l :: ls

theorem init_resumes (hmode : cfg.mode = .append) (h : Shows cfg.appName (limit cfg) s.dir (ls.map piece))
    (hroom : ls.length ≤ limit cfg) (made : Bool) :
    ∃ s', init cfg false true made s = (true, s') ∧ Stands cfg s' (resume ls) := by
  rw [init, if_neg (by simp)]
  cases ls with
  | nil =>
      have hfree := h.free 0 (by simp) (Nat.zero_le _)
      have ho : (⟨false, 0, 0⟩ : LogFile).openFile cfg.appName false (cfg.mode = .truncate) s.dir =
          (true, ⟨true, 0, 0⟩, s.dir.insert (logName cfg.appName 0) (.file [])) := by
        simp [LogFile.openFile, hfree]
      dsimp only
      rw [ho]
      exact ⟨_, rfl, ⟨0, rfl⟩, h.set [], limit_pos cfg, by simp [resume]⟩
  | cons l ls =>
      have hheld := h.held 0 (by simp)
      rw [List.getElem_map, List.getElem_cons_zero] at hheld
      have ho : (⟨false, 0, 0⟩ : LogFile).openFile cfg.appName false (cfg.mode = .truncate) s.dir =
          (true, ⟨true, (piece l).length % UInt64.size, 0⟩, s.dir.insert (logName cfg.appName 0) (.file (piece l))) := by
        simp [LogFile.openFile, hheld, hmode]
      dsimp only
      rw [ho]
      exact ⟨_, rfl, ⟨_, rfl⟩, h.set (piece l), hroom, by simp [resume]⟩

/-- Between two calls: the directory is a shelf of all the lines of all sessions, with
nothing on it before the first of them. -/
structure Settled (cfg : Config) (r : Run) (ls : List (List String)) : Prop where
  shows : Shows cfg.appName (limit cfg) r.sink.dir (ls.map piece)
  room : ls.length ≤ limit cfg
  file : ∀ f, r.sink.file = some f → f.index = 0 ∧ ls ≠ []
  fresh : ls = [] → r.lines = [] ∧ r.rotations = 0
  kept : ls ≠ [] → Shelf.Keeps (limit cfg) ls r.lines r.rotations

theorem Settled.stands (h : Settled cfg r ls) {f : LogFile} (hf : r.sink.file = some f)
    (hopen : f.isOpen = true) : Stands cfg r.sink ls := by
  obtain ⟨hindex, hne⟩ := h.file f hf
  obtain ⟨_, size, _⟩ := f
  cases hindex
  cases hopen
  exact ⟨⟨size, hf⟩, h.shows, h.room, hne⟩

theorem settled_of_stands (h : Stands cfg r.sink ls) (hk : Shelf.Keeps (limit cfg) ls r.lines r.rotations) :
    Settled cfg r ls where
  shows := h.shows
  room := h.room
  file := by
    intro f hf
    obtain ⟨size, hfile⟩ := h.file
    rw [hfile] at hf
    cases hf
    exact ⟨rfl, h.ne⟩
  fresh he := absurd he h.ne
  kept _ := hk

theorem log_closed (env : Env) (hclosed : ∀ f, r.sink.file = some f → f.isOpen = false) (a : Act) :
    log env cfg fair a.1 a.2 r.sink = (.returned false, r.sink) ∧ FileSinkRuns.next env cfg r a = some r := by
  have hlog : log env cfg fair a.1 a.2 r.sink = (.returned false, r.sink) := by
    rw [log]
    cases hf : r.sink.file with
    | none => rfl
    | some f => simp [hclosed f hf]
  have hline : lineOf env r.sink a = none := by
    rw [lineOf]
    cases hf : r.sink.file with
    | none => rfl
    | some f => simp [hclosed f hf]
  refine ⟨hlog, ?_⟩
  rw [FileSinkRuns.next, hlog, hline, due_of_none cfg hline]
  simp

theorem next_lines {a : Act} (hn : FileSinkRuns.next env cfg r a = some r') :
    r'.lines = r.lines ++ (lineOf env r.sink a).toList := by
  rw [FileSinkRuns.next] at hn
  split at hn
  · cases hn
    rfl
  · cases hn

theorem extends_shelve (env : Env) (h : Stands cfg s ls) (a : Act) :
    Shelf.Extends (limit cfg) ls (shelve env cfg s a ls) (lineOf env s a).toList := by
  rw [shelve]
  cases lineOf env s a with
  | none => exact .same _ ls
  | some l =>
      dsimp only
      split
      · refine .of_put h.ne (Shelf.extends_turn (limit_pos cfg) ?_)
        rw [Shelf.length_put h.ne]
        exact h.room
      · exact Shelf.extends_put _ ls l

theorem extends_resume (m : Nat) (ls : List (List String)) : Shelf.Extends m ls (resume ls) [] := by
  cases ls with
  | nil => exact ⟨[], by simp [resume, Shelf.all], .inl rfl⟩
  | cons l ls => exact .same m _

theorem next_settled (env : Env) (hp : Plain cfg.appName) (hmode : cfg.mode = .append) (h : Settled cfg r ls)
    (c : Call) : ∃ r' ls', next env cfg r c = some r' ∧ Settled cfg r' ls' ∧
      ∃ new, r'.lines = r.lines ++ new ∧ Shelf.Extends (limit cfg) ls ls' new := by
  cases c with
  | init =>
      obtain ⟨s', hinit, hst⟩ := init_resumes hmode h.shows h.room false
      refine ⟨_, resume ls, rfl, settled_of_stands (by rw [hinit]; exact hst) ?_, [], (List.append_nil _).symm,
        extends_resume _ ls⟩
      cases ls with
      | nil =>
          obtain ⟨hlines, hrot⟩ := h.fresh rfl
          rw [hlines, hrot]
          exact .start (limit_pos cfg)
      | cons l ls => exact h.kept (by simp)
  | log a =>
      by_cases hopen : ∃ f, r.sink.file = some f ∧ f.isOpen = true
      · obtain ⟨f, hf, hopen⟩ := hopen
        have hst := h.stands hf hopen
        obtain ⟨r', hn, -, hst', hk'⟩ := next_shelves env hp hst (h.kept hst.ne) a
        exact ⟨r', _, hn, settled_of_stands hst' hk', _, next_lines hn, extends_shelve env hst a⟩
      · have hclosed : ∀ f, r.sink.file = some f → f.isOpen = false := by
          intro f hf
          cases ho : f.isOpen with
          | false => rfl
          | true => exact absurd ⟨f, hf, ho⟩ hopen
        exact ⟨r, ls, (log_closed env hclosed a).2, h, [], (List.append_nil _).symm, .same _ ls⟩
  | uninit =>
      refine ⟨_, ls, rfl, ⟨h.shows, h.room, fun f hf => ?_, h.fresh, h.kept⟩, [], (List.append_nil _).symm, .same _ ls⟩
      obtain ⟨f₀, hf₀, rfl⟩ := Option.map_eq_some_iff.mp hf
      exact h.file f₀ hf₀

theorem reachable_settled (hp : Plain cfg.appName) (hmode : cfg.mode = .append)
    (hshows : Shows cfg.appName (limit cfg) d []) (hr : Reachable (sessions env cfg d) Any r) :
    ∃ ls, Settled cfg r ls := by
  refine hr.invariant (P := fun r => ∃ ls, Settled cfg r ls) ?_ ?_
  · rintro r rfl
    exact ⟨[], hshows, Nat.zero_le _, fun f hf => (by cases hf), fun _ => ⟨rfl, rfl⟩, fun he => absurd rfl he⟩
  · rintro r c r' _ ⟨ls, hs⟩ _ hn
    obtain ⟨r'', ls', hn', hs', -⟩ := next_settled env hp hmode hs c
    cases hn.symm.trans hn'
    exact ⟨ls', hs'⟩

theorem shows_nil (hfree : ∀ i, i ≤ m → d.lookup (logName app i) = none)
    (honly : ∀ name b, d.lookup name = some (.file b) → ¬IsLog app name) : Shows app m d [] := by
  refine ⟨fun i h => absurd h (by simp), fun i _ hi => hfree i hi, fun name b hb hlog => ?_⟩
  exact absurd hlog (honly name b hb)

def Files (cfg : Config) (r : Run) (n : Nat) : Prop := ∀ name, IsLog cfg.appName name →
  ((∃ b, r.sink.dir.lookup name = some (.file b)) ↔ ∃ i, i < n ∧ name = logName cfg.appName i)

theorem Settled.files (h : Settled cfg r ls) : Files cfg r ls.length := by
  intro name hlog
  have hlen : (ls.map piece).length = ls.length := List.length_map _
  constructor
  · rintro ⟨b, hb⟩
    obtain ⟨i, hi, hname⟩ := h.shows.only name b hb hlog
    exact ⟨i, hlen ▸ hi, hname⟩
  · rintro ⟨i, hi, rfl⟩
    exact ⟨_, h.shows.held i (hlen.symm ▸ hi)⟩

/-- The log files hold the end of all the lines written, and all of them before the first
rotation with every file in use. -/
def InOrder (cfg : Config) (r : Run) : Prop :=
  ∃ n, n ≤ limit cfg ∧ n ≤ r.rotations + 1 ∧ Files cfg r n ∧
    ∃ k, joined cfg.appName r.sink.dir n = (r.lines.drop k).flatMap record ∧ (r.rotations < limit cfg → k = 0)

theorem Settled.inOrder (h : Settled cfg r ls) : InOrder cfg r := by
  refine ⟨ls.length, h.room, ?_, h.files, ?_⟩
  · by_cases hnil : ls = []
    · simp [hnil]
    · have hlen := (h.kept hnil).length
      omega
  · rw [h.shows.joined]
    by_cases hnil : ls = []
    · exact ⟨0, by simp [hnil, (h.fresh hnil).1, Shelf.all], fun _ => rfl⟩
    · obtain ⟨k, -, hall, hzero⟩ := (h.kept hnil).suffix
      exact ⟨k, by rw [hall], hzero⟩

/-- What a call has done to the files: its line comes last, and if there are as many as
there may be, the oldest of them can go. -/
def Grows (cfg : Config) (r r' : Run) : Prop :=
  ∃ n n' new old, Files cfg r n ∧ Files cfg r' n' ∧ r'.lines = r.lines ++ new ∧
    old ++ joined cfg.appName r'.sink.dir n' = joined cfg.appName r.sink.dir n ++ new.flatMap record ∧
    (old = [] ∨ limit cfg ≤ n ∧
      old = content cfg.appName r.sink.dir (n - 1) ++ if n = 1 then new.flatMap record else [])

theorem Settled.content_oldest (h : Settled cfg r ls) (hne : ls ≠ []) :
    content cfg.appName r.sink.dir (ls.length - 1) = (Shelf.oldest ls).flatMap record := by
  have hlt : ls.length - 1 < (ls.map piece).length := by
    rw [List.length_map]
    exact Nat.sub_lt (List.length_pos_iff.mpr hne) Nat.one_pos
  rw [h.shows.content hlt, List.getElem_map, Shelf.oldest, List.getLast?_eq_getLast_of_ne_nil hne, Option.getD_some,
    List.getLast_eq_getElem]
  rfl

theorem Settled.grows {ls' : List (List String)} {new : List String} (h : Settled cfg r ls) (h' : Settled cfg r' ls')
    (hlines : r'.lines = r.lines ++ new) (hext : Shelf.Extends (limit cfg) ls ls' new) : Grows cfg r r' := by
  obtain ⟨old, hold, hcase⟩ := hext
  refine ⟨ls.length, ls'.length, new, old.flatMap record, h.files, h'.files, hlines, ?_, ?_⟩
  · rw [h.shows.joined, h'.shows.joined, ← List.flatMap_append, hold, List.flatMap_append]
  · rcases hcase with rfl | ⟨hfull, rfl⟩
    · exact .inl rfl
    · have hne : ls ≠ [] := List.ne_nil_of_length_pos (Nat.lt_of_lt_of_le (limit_pos cfg) hfull)
      rw [h.content_oldest hne, List.flatMap_append]
      exact .inr ⟨hfull, by split <;> rfl⟩

theorem Settled.log_answer (env : Env) (hp : Plain cfg.appName) (h : Settled cfg r ls) (a : Act) :
    (log env cfg fair a.1 a.2 r.sink).1 = .returned (r.sink.file.any (·.isOpen)) := by
  cases hf : r.sink.file with
  | none => rw [(log_closed env (fun f he => by rw [hf] at he; cases he) a).1]; rfl
  | some f =>
      cases ho : f.isOpen with
      | false =>
          have hclosed : ∀ f', r.sink.file = some f' → f'.isOpen = false := by
            intro f' he
            rw [hf] at he
            cases he
            exact ho
          rw [(log_closed env hclosed a).1, Option.any_some, ho]
      | true =>
          obtain ⟨s', hlog, -⟩ := log_shelves env hp (h.stands hf ho) a
          rw [hlog, Option.any_some, ho]

/-- However a process ends and starts again: in append mode, in a directory that had no log of the
app in it, the log files hold the end of the lines of all sessions, in order. -/
theorem sessions_in_order (env : Env) (hp : Plain cfg.appName) (hmode : cfg.mode = .append)
    (hfree : ∀ i, i ≤ limit cfg → d.lookup (logName cfg.appName i) = none)
    (honly : ∀ name b, d.lookup name = some (.file b) → ¬IsLog cfg.appName name)
    (hr : Reachable (sessions env cfg d) Any r) :
    InOrder cfg r ∧ (init cfg false true false r.sink).1 = true ∧
    (∀ a : Act, (log env cfg fair a.1 a.2 r.sink).1 = .returned (r.sink.file.any (·.isOpen))) ∧
    ∀ c, ∃ r', next env cfg r c = some r' ∧ Grows cfg r r' := by
  obtain ⟨ls, hs⟩ := reachable_settled hp hmode (shows_nil hfree honly) hr
  refine ⟨hs.inOrder, ?_, hs.log_answer env hp, fun c => ?_⟩
  · obtain ⟨s', hinit, -⟩ := init_resumes hmode hs.shows hs.room false
    rw [hinit]
  · obtain ⟨r', ls', hn, hs', new, hlines, hext⟩ := next_settled env hp hmode hs c
    exact ⟨r', hn, hs.grows hs' hlines hext⟩

theorem sessions_in_order_twice :
    ∃ r, Reachable (sessions ⟨fun _ => none, fun _ => ""⟩ { appName := "app".toList } ∅) Any r ∧ r.lines.length = 2 ∧
      InOrder { appName := "app".toList } r := by
  obtain ⟨r, hr, htwo⟩ := exists_of_run (sessions ⟨fun _ => none, fun _ => ""⟩ { appName := "app".toList } ∅) Any
    (fun _ _ => true) ⟨⟨none, ∅⟩, [], 0⟩
    [.init, .log (.trace, ⟨.info, 0, 0, none, "a"⟩), .uninit, .init, .log (.trace, ⟨.warn, 0, 0, none, "b"⟩)]
    (fun r => r.lines.length = 2) (fun _ _ _ => trivial) rfl (by decide)
  have horder := sessions_in_order ⟨fun _ => none, fun _ => ""⟩ (by decide) rfl (fun _ _ => rfl)
    (fun _ _ h => by cases h) hr
  exact ⟨r, hr, by simpa using htwo, horder.1⟩

end Enigma.FileSinkSessions
