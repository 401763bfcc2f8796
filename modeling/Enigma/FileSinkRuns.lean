import Enigma.FileSinkRotation
import Enigma.Shelf
import Enigma.Transition
import Mathlib.Data.List.GetD

namespace Enigma.FileSinkRuns

open Directory Logger FileSink FileSinkListing FileSinkRotation

variable {env : Env} {cfg : Config} {app name : Name} {d e : Folder} {f : LogFile} {s : State} {m : Nat}

def IsLog (app name : Name) : Prop := name = logName app 0 ∨ ∃ ds, matchLog app name = some ds

def limit (cfg : Config) : Nat := max 1 cfg.maxFileCount.toNat

/-- The log files there are, newest first, with a free place for every other one up to m. -/
structure Shows (app : Name) (m : Nat) (d : Folder) (cs : List Bytes) : Prop where
  held : ∀ i, ∀ h : i < cs.length, d.lookup (logName app i) = some (.file cs[i])
  free : ∀ i, cs.length ≤ i → i ≤ m → d.lookup (logName app i) = none
  only : ∀ name b, d.lookup name = some (.file b) → IsLog app name → ∃ i, i < cs.length ∧ name = logName app i

variable {c b : Bytes} {cs : List Bytes}

theorem isLog_logName (app : Name) (i : Nat) : IsLog app (logName app i) := by
  by_cases hi : i = 0
  · exact Or.inl (by rw [hi])
  · exact Or.inr ⟨_, matchLog_logName app (by omega)⟩

theorem Shows.set (h : Shows app m d cs) (b : Bytes) :
    Shows app m (d.insert (logName app 0) (.file b)) (b :: cs.tail) := by
  have hlen : (b :: cs.tail).length = max 1 cs.length := by
    rw [List.length_cons, List.length_tail]
    omega
  refine ⟨fun i hi => ?_, fun i hi him => ?_, fun name b' hb' hlog => ?_⟩
  · rw [lookup_put]
    cases i with
    | zero => rw [if_pos rfl, List.getElem_cons_zero]
    | succ i =>
        have hi' : i + 1 < cs.length := by omega
        rw [if_neg ((logName_injective app).ne (by omega)), h.held (i + 1) hi', List.getElem_cons_succ,
          List.getElem_tail]
  · rw [lookup_put, if_neg ((logName_injective app).ne (by omega))]
    exact h.free i (by omega) him
  · rw [lookup_put] at hb'
    by_cases hn : name = logName app 0
    · exact ⟨0, by omega, hn⟩
    · rw [if_neg hn] at hb'
      obtain ⟨i, hi, hname⟩ := h.only name b' hb' hlog
      exact ⟨i, by omega, hname⟩

theorem Shows.extend (h : Shows app m d (c :: cs)) (b : Bytes) :
    Shows app m (extend d (logName app 0) b) ((c ++ b) :: cs) := by
  have hc : d.lookup (logName app 0) = some (.file c) := h.held 0 (by simp)
  rw [FileSink.extend, hc]
  exact h.set (c ++ b)

theorem Shows.finds (h : Shows app m d cs) (hp : Plain app) : Finds env app d (matchLog app) := by
  refine finds_plain hp fun name b ds hl hm => ?_
  obtain ⟨i, _, rfl⟩ := h.only name b hl (Or.inr ⟨ds, hm⟩)
  exact ⟨i, pos_of_matchLog hm, rfl⟩

theorem range_cons (n : Nat) : 0 :: List.range' 1 n = List.range (n + 1) := by
  rw [List.range_eq_range', List.range'_succ]

theorem Shows.holds (h : Shows app m d (c :: cs)) :
    Holds app d (List.range' 1 cs.length) fun i => (c :: cs).getD i [] := by
  refine ⟨?_, fun i hi => ?_, fun i b hb => ?_⟩
  · rw [range_cons]
    exact List.pairwise_lt_range
  · rw [range_cons, List.mem_range] at hi
    rw [h.held i hi, List.getD_eq_getElem _ _ hi]
  · obtain ⟨j, hj, he⟩ := h.only _ b hb (isLog_logName app i)
    rw [range_cons, List.mem_range, logName_injective app he]
    exact hj

theorem safe_range (n : Nat) : Safe (List.range n) := by
  intro k hk
  rw [List.getElem_range]
  omega

structure Behind (app : Name) (m : Nat) (d : Folder) (cs : List Bytes) : Prop where
  held : ∀ i, ∀ h : i < cs.length, d.lookup (logName app (i + 1)) = some (.file cs[i])
  free : ∀ i, cs.length < i → i ≤ m → d.lookup (logName app i) = none
  only : ∀ name b, d.lookup name = some (.file b) → IsLog app name → ∃ i, i ≤ cs.length ∧ name = logName app i

/-- The moves leave every content one further, and app.log gone. -/
theorem Shows.moved (h : Shows app m d (c :: cs)) (hm : cs.length + 1 ≤ m) :
    ∃ e, renameAll d (moves app (0 :: List.range' 1 cs.length)) = some e ∧ e.lookup (logName app 0) = none ∧
      Behind app m e (c :: cs) := by
  have hplaces : ∀ i, 1 ≤ i → i ≤ (List.range' 1 cs.length).length + 1 → d.lookup (logName app i) ≠ some .other := by
    intro i _ hi
    rw [List.length_range'] at hi
    by_cases hlt : i < (c :: cs).length
    · simp [h.held i hlt]
    · simp [h.free i (by omega) (by omega)]
  have hsafe : Safe (0 :: List.range' 1 cs.length) := by
    rw [range_cons]
    exact safe_range _
  obtain ⟨e, he, hzero⟩ := h.holds.moved hplaces
  -- the moves touch no name but those of the files
  have hrest : ∀ name, (∀ i, i ≤ cs.length + 1 → name ≠ logName app i) → e.lookup name = d.lookup name := by
    intro name hn
    refine renameAll_of_notMem he (fun hmem => ?_) fun hmem => ?_
    all_goals
      obtain ⟨p, hp, rfl⟩ := List.mem_map.mp hmem
      obtain ⟨k, hk, rfl⟩ := mem_moves.mp hp
      rw [List.length_cons, List.length_range'] at hk
    · simp only [range_cons, List.getElem_range] at hn
      exact hn k (by omega) rfl
    · exact hn (k + 1) (by omega) rfl
  refine ⟨e, he, hzero, fun i hi => ?_, fun i hlt hle => ?_, fun name b hb hlog => ?_⟩
  · have hs := h.holds.shifted hsafe he (k := i) (by simpa using hi)
    simp only [range_cons, List.getElem_range] at hs
    rw [hs, List.getD_eq_getElem _ _ hi]
  · rw [List.length_cons] at hlt
    rw [hrest _ fun j hj => (logName_injective app).ne (by omega)]
    exact h.free i (by rw [List.length_cons]; omega) hle
  · by_contra hnone
    have hsame := hrest name fun i hle hname => hnone ⟨i, hle, hname⟩
    obtain ⟨i, hlt, hname⟩ := h.only name b (hsame ▸ hb) hlog
    exact hnone ⟨i, Nat.le_of_lt hlt, hname⟩

theorem Behind.shows (h : Behind app m e cs) : Shows app m (e.insert (logName app 0) (.file [])) ([] :: cs) := by
  refine ⟨fun i hi => ?_, fun i hi him => ?_, fun name b hb hlog => ?_⟩
  · cases i with
    | zero => exact AList.lookup_insert e
    | succ i => exact (lookup_new app e i).trans (h.held i (by simpa using hi))
  · rw [List.length_cons] at hi
    rw [lookup_put, if_neg ((logName_injective app).ne (by omega))]
    exact h.free i (by omega) him
  · rw [lookup_put] at hb
    by_cases hn : name = logName app 0
    · exact ⟨0, by simp, hn⟩
    · rw [if_neg hn] at hb
      obtain ⟨i, hi, hname⟩ := h.only name b hb hlog
      exact ⟨i, by rw [List.length_cons]; omega, hname⟩

theorem Behind.recycled {n : Nat} {e' : Folder} (h : Behind app (n + 1) e cs) (hlen : cs.length = n + 1)
    (hr : rename e (logName app (n + 1)) (logName app 0) = some e') : Behind app (n + 1) e' (cs.take n) := by
  have hlook := rename_lookup hr
  have hlen' : (cs.take n).length = n := by rw [List.length_take, hlen]; omega
  refine ⟨fun i hi => ?_, fun i hlt hle => ?_, fun name b hb hlog => ?_⟩
  · rw [hlen'] at hi
    rw [hlook, if_neg ((logName_injective app).ne (by omega)), if_neg ((logName_injective app).ne (by omega)),
      h.held i (by omega), List.getElem_take]
  · rw [hlen'] at hlt
    rw [hlook, if_neg ((logName_injective app).ne (by omega)), if_pos (by rw [show i = n + 1 by omega])]
  · rw [hlen']
    rw [hlook] at hb
    by_cases hn : name = logName app 0
    · exact ⟨0, Nat.zero_le n, hn⟩
    rw [if_neg hn] at hb
    by_cases hn' : name = logName app (n + 1)
    · rw [if_pos hn'] at hb
      cases hb
    · rw [if_neg hn'] at hb
      obtain ⟨i, hle, rfl⟩ := h.only name b hb hlog
      have hne : i ≠ n + 1 := fun he => hn' (by rw [he])
      exact ⟨i, by omega, rfl⟩

theorem rotate_one (hone : cfg.maxFileCount = 1) (hf : s.file = some f) (hi : f.index = 0)
    (h : Shows cfg.appName (limit cfg) s.dir (c :: cs)) (hlen : cs.length + 1 ≤ limit cfg) :
    ∃ d', routingLogs env cfg fair s = (.returned true, ⟨some ⟨true, 0, 0⟩, d'⟩) ∧
      Shows cfg.appName (limit cfg) d' (([] :: c :: cs).take (limit cfg)) := by
  have hm : limit cfg = 1 := by simp [limit, hone]
  have hcs : cs = [] := List.eq_nil_of_length_eq_zero (by omega)
  subst hcs
  have hc : s.dir.lookup (logName cfg.appName f.close.index) ≠ some .other := by
    rw [show f.close.index = 0 from hi, h.held 0 (by simp)]
    simp
  have ho : f.close.openFile cfg.appName false true s.dir =
      (true, ⟨true, 0, 0⟩, s.dir.insert (logName cfg.appName 0) (.file [])) := by
    rw [openFile_empty rfl hc, show f.close.index = 0 from hi]
  refine ⟨s.dir.insert (logName cfg.appName 0) (.file []), ?_, ?_⟩
  · rw [routingLogs, hf]
    simp only [if_pos hone, show fair.create = false from rfl, ho]
  · have hset := h.set []
    rw [hm] at hset ⊢
    exact hset

theorem rotate_shows (hp : Plain cfg.appName) (hf : s.file = some f) (hi : f.index = 0)
    (h : Shows cfg.appName (limit cfg) s.dir (c :: cs)) (hlen : cs.length + 1 ≤ limit cfg) :
    ∃ d', routingLogs env cfg fair s = (.returned true, ⟨some ⟨true, 0, 0⟩, d'⟩) ∧
      Shows cfg.appName (limit cfg) d' (([] :: c :: cs).take (limit cfg)) := by
  by_cases hone : cfg.maxFileCount = 1
  · exact rotate_one hone hf hi h hlen
  have hcount : cfg.maxFileCount.toNat ≠ 1 := fun h => hone (UInt32.toNat_inj.mp h)
  have hbound : cfg.maxFileCount.toNat < 2 ^ 32 := cfg.maxFileCount.toNat_lt
  have hsmall : ∀ i ∈ List.range' 1 cs.length, i < longLongEnd := by
    intro i hmem
    rw [List.mem_range'_1] at hmem
    rw [limit] at hlen
    rw [longLongEnd]
    omega
  obtain ⟨e, he, hzero, hbehind⟩ := h.moved hlen
  have hplace : e.lookup (logName cfg.appName 0) ≠ some .other := by simp [hzero]
  have hrot : Rotates env cfg s f (List.range' 1 cs.length) e :=
    ⟨hf, hi, hone, h.holds.listed (h.finds hp) hsmall, h.holds.pos, he⟩
  by_cases hroom : cs.length + 1 < cfg.maxFileCount.toNat
  · refine ⟨_, hrot.adds (by simpa using hroom) hplace, ?_⟩
    rw [List.take_of_length_le (by rw [limit]; simp; omega)]
    exact hbehind.shows
  · -- the file that went beyond the others comes back as the first
    have hm : limit cfg = cs.length + 1 := by
      rw [limit] at hlen ⊢
      omega
    rw [hm] at hbehind ⊢
    have hlast : e.lookup (logName cfg.appName (cs.length + 1)) = some (.file ((c :: cs)[cs.length])) :=
      hbehind.held cs.length (by simp)
    obtain ⟨d', hd'⟩ := rename_file hlast hplace
    have hfirst : d'.lookup (logName cfg.appName 0) ≠ some .other := by simp [rename_lookup hd', hlast]
    refine ⟨_, hrot.recycles (by simpa using hroom) (by simpa using hd') hfirst, ?_⟩
    rw [List.take_succ_cons]
    exact (hbehind.recycled rfl hd').shows

section runs

open Transition

structure Run where
  sink : State
  lines : List String := []
  rotations : Nat := 0

abbrev Act := LogLevel × Message

variable {r r' : Run} {a : Act} {ls : List (List String)}

def lineOf (env : Env) (s : State) (a : Act) : Option String :=
  match s.file with
  | none => none
  | some f => if f.isOpen ∧ ¬severity a.2.level < severity a.1 then some (text env a.2) else none

/-- The directory once the line of the call is written, before any rotation. -/
def withLine (env : Env) (cfg : Config) (s : State) (a : Act) : Folder :=
  match s.file, lineOf env s a with
  | some f, some _ => (written env cfg f a.2 s.dir).2
  | _, _ => s.dir

def due (env : Env) (cfg : Config) (s : State) (a : Act) : Bool :=
  match s.file, lineOf env s a with
  | some f, some _ => decide (full cfg (written env cfg f a.2 s.dir).1)
  | _, _ => false

def next (env : Env) (cfg : Config) (r : Run) (a : Act) : Option Run :=
  match log env cfg fair a.1 a.2 r.sink with
  | (.returned _, s) => some ⟨s, r.lines ++ (lineOf env r.sink a).toList,
      r.rotations + if due env cfg r.sink a then 1 else 0⟩
  | (.threw, _) => none

def runs (env : Env) (cfg : Config) (s : State) : System Run Act := ⟨(· = ⟨s, [], 0⟩), next env cfg⟩

def content (app : Name) (d : Folder) (i : Nat) : Bytes :=
  match d.lookup (logName app i) with
  | some (.file b) => b
  | _ => []

def joined (app : Name) (d : Folder) (n : Nat) : Bytes := (List.range n).reverse.flatMap (content app d)

def piece (l : List String) : Bytes := l.flatMap record

theorem Shows.content (h : Shows app m d cs) {i : Nat} (hi : i < cs.length) : content app d i = cs[i] := by
  rw [FileSinkRuns.content, h.held i hi]

theorem Shows.joined (h : Shows app m d (ls.map piece)) : joined app d ls.length = (Shelf.all ls).flatMap record := by
  have hmap : (List.range ls.length).map (FileSinkRuns.content app d) = ls.map piece := by
    refine List.ext_getElem (by simp) fun i h₁ h₂ => ?_
    rw [List.getElem_map, List.getElem_range, h.content h₂]
  calc (List.range ls.length).reverse.flatMap (FileSinkRuns.content app d)
      = ((List.range ls.length).map (FileSinkRuns.content app d)).reverse.flatten := by
        rw [List.flatMap_def, List.map_reverse]
    _ = (ls.map piece).reverse.flatten := by rw [hmap]
    _ = (Shelf.all ls).flatMap record := by
        simp only [Shelf.all, List.flatMap_def, List.map_flatten, List.flatten_flatten, List.map_reverse,
          List.map_map]
        rfl

/-- The sink stands with app.log open, and the directory is a shelf of lines. -/
structure Stands (cfg : Config) (s : State) (ls : List (List String)) : Prop where
  file : ∃ size, s.file = some ⟨true, size, 0⟩
  shows : Shows cfg.appName (limit cfg) s.dir (ls.map piece)
  room : ls.length ≤ limit cfg
  ne : ls ≠ []

theorem limit_pos (cfg : Config) : 0 < limit cfg := by
  rw [limit]
  omega

theorem Stands.withLine (h : Stands cfg s ls) {l : String} (hl : lineOf env s a = some l) :
    Shows cfg.appName (limit cfg) (withLine env cfg s a) ((Shelf.put l ls).map piece) := by
  obtain ⟨size, hf⟩ := h.file
  obtain ⟨x, xs, rfl⟩ := List.exists_cons_of_ne_nil h.ne
  have htext : l = text env a.2 := by
    rw [lineOf, hf] at hl
    dsimp only at hl
    split at hl
    · exact (Option.some.inj hl).symm
    · cases hl
  have hext := h.shows.extend (record l)
  rw [FileSinkRuns.withLine, hf, hl, htext]
  rw [htext] at hext
  simpa [Shelf.put, piece, written, LogFile.write] using hext

def shelve (env : Env) (cfg : Config) (s : State) (a : Act) (ls : List (List String)) : List (List String) :=
  match lineOf env s a with
  | none => ls
  | some l => if due env cfg s a then Shelf.turn (limit cfg) (Shelf.put l ls) else Shelf.put l ls

theorem due_of_none (cfg : Config) (hl : lineOf env s a = none) : due env cfg s a = false := by
  rw [due, hl]
  cases s.file <;> rfl

theorem room_put (h : Stands cfg s ls) (l : String) : (Shelf.put l ls).length ≤ limit cfg :=
  (Shelf.length_put h.ne l).trans_le h.room

theorem put_ne_nil (l : String) (ls : List (List String)) : Shelf.put l ls ≠ [] := by
  cases ls <;> simp [Shelf.put]

theorem turn_ne_nil (cfg : Config) (ls : List (List String)) : Shelf.turn (limit cfg) ls ≠ [] := by
  have hl := Shelf.length_turn (limit cfg) ls
  have hpos := limit_pos cfg
  intro he
  rw [he, List.length_nil] at hl
  omega

theorem log_shelves (env : Env) (hp : Plain cfg.appName) (h : Stands cfg s ls) (a : Act) :
    ∃ s', log env cfg fair a.1 a.2 s = (.returned true, s') ∧ Stands cfg s' (shelve env cfg s a ls) := by
  obtain ⟨size, hf⟩ := h.file
  rw [log, hf, shelve]
  dsimp only
  rw [if_neg (by simp)]
  by_cases hlow : severity a.2.level < severity a.1
  · have hline : lineOf env s a = none := by simp [lineOf, hf, hlow]
    rw [if_pos hlow, hline]
    exact ⟨s, rfl, h⟩
  have hline : lineOf env s a = some (text env a.2) := by simp [lineOf, hf, hlow]
  have hshows := h.withLine hline
  have hdir : withLine env cfg s a = (written env cfg ⟨true, size, 0⟩ a.2 s.dir).2 := by
    rw [FileSinkRuns.withLine, hf, hline]
  have hdue : due env cfg s a = decide (full cfg (written env cfg ⟨true, size, 0⟩ a.2 s.dir).1) := by
    rw [due, hf, hline]
  rw [hdir] at hshows
  rw [if_neg hlow, hline]
  dsimp only
  rw [hdue]
  by_cases hfull : full cfg (written env cfg ⟨true, size, 0⟩ a.2 s.dir).1
  · rw [if_neg (not_not.mpr hfull), if_pos (by simpa using hfull)]
    obtain ⟨x, xs, hx⟩ := List.exists_cons_of_ne_nil (put_ne_nil (text env a.2) ls)
    have hroom := room_put h (text env a.2)
    rw [hx, List.map_cons] at hshows
    rw [hx, List.length_cons] at hroom
    obtain ⟨d', hr, hs⟩ := rotate_shows (s := ⟨some (written env cfg ⟨true, size, 0⟩ a.2 s.dir).1.close, _⟩) hp rfl
      (by simp [written, LogFile.write, LogFile.close]) hshows (by simpa using hroom)
    refine ⟨_, hr, ⟨0, rfl⟩, ?_, ?_, turn_ne_nil cfg _⟩
    · rw [hx, Shelf.turn, List.map_take]
      exact hs
    · rw [Shelf.length_turn]
      omega
  · rw [if_pos hfull, if_neg (by simpa using hfull)]
    refine ⟨_, rfl, ⟨(written env cfg ⟨true, size, 0⟩ a.2 s.dir).1.curSize, ?_⟩, hshows, room_put h _,
      put_ne_nil _ ls⟩
    simp [written, LogFile.write]

theorem init_stands (hfree : ∀ i, i ≤ limit cfg → d.lookup (logName cfg.appName i) = none)
    (honly : ∀ name b, d.lookup name = some (.file b) → ¬IsLog cfg.appName name) {made : Bool} {o : Option LogFile}
    (hi : init cfg false true made ⟨o, d⟩ = (true, s)) : Stands cfg s [[]] := by
  have hempty : Shows cfg.appName (limit cfg) d [] := by
    refine ⟨fun i h => absurd h (by simp), fun i _ hi => hfree i hi, fun name b hb hlog => ?_⟩
    exact absurd hlog (honly name b hb)
  have ho : (⟨false, 0, 0⟩ : LogFile).openFile cfg.appName false (cfg.mode = .truncate) d =
      (true, ⟨true, 0, 0⟩, d.insert (logName cfg.appName 0) (.file [])) := by
    simp [LogFile.openFile, hfree 0 (Nat.zero_le _)]
  rw [init, if_neg (by simp)] at hi
  dsimp only at hi
  rw [ho, Prod.mk.injEq] at hi
  obtain ⟨_, rfl⟩ := hi
  exact ⟨⟨0, rfl⟩, hempty.set [], limit_pos cfg, by simp⟩

theorem next_shelves (env : Env) (hp : Plain cfg.appName) (h : Stands cfg r.sink ls)
    (hk : Shelf.Keeps (limit cfg) ls r.lines r.rotations) (a : Act) :
    ∃ r', next env cfg r a = some r' ∧ (log env cfg fair a.1 a.2 r.sink).1 = .returned true ∧
      Stands cfg r'.sink (shelve env cfg r.sink a ls) ∧
      Shelf.Keeps (limit cfg) (shelve env cfg r.sink a ls) r'.lines r'.rotations := by
  obtain ⟨s', hlog, hst⟩ := log_shelves env hp h a
  refine ⟨⟨s', r.lines ++ (lineOf env r.sink a).toList, r.rotations + if due env cfg r.sink a then 1 else 0⟩,
    by rw [next, hlog], by rw [hlog], hst, ?_⟩
  rw [shelve]
  cases hl : lineOf env r.sink a with
  | none =>
      rw [due_of_none cfg hl]
      simpa using hk
  | some l =>
      have hput := hk.put (limit_pos cfg) l
      cases hd : due env cfg r.sink a with
      | false => simpa using hput
      | true => simpa using hput.turn (limit_pos cfg)

theorem run_shelf (hp : Plain cfg.appName) (hs : Stands cfg s [[]]) (hr : Reachable (runs env cfg s) Any r) :
    ∃ ls, Stands cfg r.sink ls ∧ Shelf.Keeps (limit cfg) ls r.lines r.rotations := by
  refine hr.invariant (P := fun r => ∃ ls, Stands cfg r.sink ls ∧ Shelf.Keeps (limit cfg) ls r.lines r.rotations) ?_ ?_
  · rintro r rfl
    exact ⟨[[]], hs, .start (limit_pos cfg)⟩
  · rintro r a r' _ ⟨ls, hst, hk⟩ _ hn
    obtain ⟨r'', hn', _, hst', hk'⟩ := next_shelves env hp hst hk a
    cases hn.symm.trans hn'
    exact ⟨_, hst', hk'⟩

def count (cfg : Config) (r : Run) : Nat := min (r.rotations + 1) (limit cfg)

/-- What a call takes away: at a rotation with every file in use, the oldest one as it is then. -/
def dropped (env : Env) (cfg : Config) (r : Run) (a : Act) : Bytes :=
  if due env cfg r.sink a ∧ limit cfg ≤ r.rotations + 1 then
    content cfg.appName (withLine env cfg r.sink a) (count cfg r - 1)
  else []

theorem content_oldest (h : Shows app m d (ls.map piece)) (hne : ls ≠ []) :
    content app d (ls.length - 1) = piece (Shelf.oldest ls) := by
  have hpos : 0 < ls.length := List.length_pos_of_ne_nil hne
  have hi : ls.length - 1 < (ls.map piece).length := by
    rw [List.length_map]
    omega
  rw [h.content hi, List.getElem_map, Shelf.oldest, List.getLast?_eq_getElem?,
    List.getElem?_eq_getElem (by omega), Option.getD_some]

theorem dropped_joined (h : Stands cfg r.sink ls) (hk : Shelf.Keeps (limit cfg) ls r.lines r.rotations) (a : Act) :
    dropped env cfg r a ++ (Shelf.all (shelve env cfg r.sink a ls)).flatMap record =
      (Shelf.all ls).flatMap record ++ (lineOf env r.sink a).toList.flatMap record := by
  rw [dropped, shelve]
  cases hl : lineOf env r.sink a with
  | none =>
      rw [due_of_none cfg hl]
      simp
  | some l =>
      have hput : (Shelf.all (Shelf.put l ls)).flatMap record = (Shelf.all ls).flatMap record ++ record l := by
        rw [Shelf.all_put, List.flatMap_append, List.flatMap_singleton]
      cases hd : due env cfg r.sink a with
      | false => simpa using hput
      | true =>
          have hlen := Shelf.length_put h.ne l
          have hcount : count cfg r = ls.length := hk.length.symm
          have hlength := hk.length
          by_cases hfull : limit cfg ≤ r.rotations + 1
          · have hold : Shelf.oldest (Shelf.put l ls) ++ Shelf.all (Shelf.turn (limit cfg) (Shelf.put l ls)) =
                Shelf.all (Shelf.put l ls) := Shelf.oldest_turn (by omega) (limit_pos cfg)
            have hcontent := content_oldest (h.withLine hl) (put_ne_nil l ls)
            rw [hlen] at hcontent
            simp only [if_true, true_and, if_pos hfull, hcount, hcontent, Option.toList_some, List.flatMap_singleton]
            rw [← hput, ← hold, List.flatMap_append]
            rfl
          · have hturn : Shelf.all (Shelf.turn (limit cfg) (Shelf.put l ls)) = Shelf.all (Shelf.put l ls) :=
              Shelf.all_turn_of_lt (by omega)
            simpa [hfull, hturn] using hput

theorem shows_iff (h : Stands cfg s ls) (hlog : IsLog cfg.appName name) :
    (∃ b, s.dir.lookup name = some (.file b)) ↔ ∃ i, i < ls.length ∧ name = logName cfg.appName i := by
  have hlen : (ls.map piece).length = ls.length := List.length_map _
  constructor
  · rintro ⟨b, hb⟩
    obtain ⟨i, hi, hname⟩ := h.shows.only name b hb hlog
    exact ⟨i, hlen ▸ hi, hname⟩
  · rintro ⟨i, hi, rfl⟩
    exact ⟨_, h.shows.held i (hlen.symm ▸ hi)⟩

/-- After each call the log files hold, from the oldest on, the end of all the lines written; a call
takes away nothing but the oldest file, at a rotation with every file in use. -/
theorem logs_in_order (hp : Plain cfg.appName) {o : Option LogFile} {made : Bool}
    (hfree : ∀ i, i ≤ limit cfg → d.lookup (logName cfg.appName i) = none)
    (honly : ∀ name b, d.lookup name = some (.file b) → ¬IsLog cfg.appName name)
    (hinit : init cfg false true made ⟨o, d⟩ = (true, s)) (hr : Reachable (runs env cfg s) Any r) :
    (∀ name, IsLog cfg.appName name →
      ((∃ b, r.sink.dir.lookup name = some (.file b)) ↔ ∃ i, i < count cfg r ∧ name = logName cfg.appName i)) ∧
    (∃ k, joined cfg.appName r.sink.dir (count cfg r) = (r.lines.drop k).flatMap record ∧
      (r.rotations < limit cfg → k = 0)) ∧
    ∀ a, ∃ r', next env cfg r a = some r' ∧ (log env cfg fair a.1 a.2 r.sink).1 = .returned true ∧
      dropped env cfg r a ++ joined cfg.appName r'.sink.dir (count cfg r') =
        joined cfg.appName r.sink.dir (count cfg r) ++ (lineOf env r.sink a).toList.flatMap record := by
  have hs : Stands cfg s [[]] := init_stands hfree honly hinit
  obtain ⟨ls, hst, hk⟩ := run_shelf hp hs hr
  have hlen : count cfg r = ls.length := hk.length.symm
  refine ⟨fun name hlog => ?_, ?_, fun a => ?_⟩
  · rw [hlen]
    exact shows_iff hst hlog
  · obtain ⟨k, _, hall, hzero⟩ := hk.suffix
    refine ⟨k, ?_, hzero⟩
    rw [hlen, hst.shows.joined, hall]
  · obtain ⟨r', hn, hlog, hst', hk'⟩ := next_shelves env hp hst hk a
    refine ⟨r', hn, hlog, ?_⟩
    rw [show count cfg r' = (shelve env cfg r.sink a ls).length from hk'.length.symm, hlen, hst'.shows.joined,
      hst.shows.joined]
    exact dropped_joined hst hk a

theorem logs_in_order_once :
    ∃ r, Reachable (runs ⟨fun _ => none, fun _ => ""⟩ { appName := "app".toList, maxFileSize := 1, maxFileCount := 3 }
        ⟨some ⟨true, 0, 0⟩, (∅ : Folder).insert "app.log".toList (.file [])⟩) Any r ∧ r.rotations = 1 ∧
      ∃ k, joined "app".toList r.sink.dir (min 2 3) = (r.lines.drop k).flatMap record ∧ (r.rotations < 3 → k = 0) := by
  obtain ⟨r, hr, hone⟩ := exists_of_run (runs ⟨fun _ => none, fun _ => ""⟩
    { appName := "app".toList, maxFileSize := 1, maxFileCount := 3 } ⟨some ⟨true, 0, 0⟩,
    (∅ : Folder).insert "app.log".toList (.file [])⟩) Any (fun _ _ => true)
    ⟨⟨some ⟨true, 0, 0⟩, (∅ : Folder).insert "app.log".toList (.file [])⟩, [], 0⟩
    [(.trace, ⟨.info, 0, 0, none, "a"⟩)] (fun r => r.rotations = 1) (fun _ _ _ => trivial) rfl (by decide)
  have hone : r.rotations = 1 := by simpa using hone
  have hinit : init { appName := "app".toList, maxFileSize := 1, maxFileCount := 3 } false true false ⟨none, ∅⟩ =
      (true, ⟨some ⟨true, 0, 0⟩, (∅ : Folder).insert "app.log".toList (.file [])⟩) := rfl
  obtain ⟨k, hj, hk⟩ := (logs_in_order (by decide) (fun _ _ => rfl) (fun _ _ h => by cases h) hinit hr).2.1
  rw [count, hone] at hj
  exact ⟨r, hr, hone, k, hj, hk⟩

end runs

end Enigma.FileSinkRuns
