import Enigma.FileSinkListing
import Mathlib.Data.List.Induction

namespace Enigma.FileSinkRotation

open Directory FileSink FileSinkListing

variable {env : Env} {cfg : Config} {app : Name} {found : Name → Option Name} {d d' : Folder} {L : List Nat}
  {k n : Nat} {f : LogFile}

/-- Nothing goes wrong but what the directory itself stands in the way of. -/
def fair : Faults := {}

/-- Where the files with these indices go, the last one first. -/
def moves (app : Name) (L : List Nat) : List (Name × Name) :=
  ((L.zipIdx 1).map fun p => (logName app p.1, logName app p.2)).reverse

theorem moves_concat (app : Name) (L : List Nat) (i : Nat) :
    moves app (L ++ [i]) = (logName app i, logName app (L.length + 1)) :: moves app L := by
  simp [moves, List.zipIdx_append, Nat.add_comm]

theorem mem_moves {m : Name × Name} :
    m ∈ moves app L ↔ ∃ k, ∃ h : k < L.length, m = (logName app L[k], logName app (k + 1)) := by
  rw [moves, List.mem_reverse, List.mem_map]
  constructor
  · rintro ⟨p, hp, rfl⟩
    obtain ⟨k, hk, rfl⟩ := List.mem_iff_getElem.mp hp
    refine ⟨k, by simpa using hk, ?_⟩
    simp [Nat.add_comm]
  · rintro ⟨k, hk, rfl⟩
    refine ⟨(L[k], k + 1), ?_, rfl⟩
    rw [List.mem_iff_getElem]
    exact ⟨k, by simpa using hk, by simp [Nat.add_comm]⟩

def renumber (fs : List LogFile) : List LogFile :=
  ((fs.zipIdx 1).map fun p => { p.1 with index := p.2 }).reverse

theorem renumber_concat (fs : List LogFile) (f : LogFile) :
    renumber (fs ++ [f]) = { f with index := fs.length + 1 } :: renumber fs := by
  simp [renumber, List.zipIdx_append, Nat.add_comm]

theorem renameLogs_moves (fs : List LogFile) (h : renameAll d (moves app (fs.map LogFile.index)) = some d') :
    renameLogs fair.rename app fs.reverse fs.length d = (some (renumber fs), d') := by
  induction fs using List.reverseRecOn generalizing d with
  | nil =>
      cases h
      rfl
  | append_singleton fs f ih =>
      rw [List.map_append, List.map_singleton, moves_concat, List.length_map] at h
      obtain ⟨e, he, h⟩ := renameAll_cons h
      have hr : f.renameIndex fair.rename app (fs.length + 1) d = some ({ f with index := fs.length + 1 }, e) := by
        rw [LogFile.renameIndex, if_neg (by simp [fair]), he]
        rfl
      rw [List.reverse_append, List.length_append, List.length_singleton, List.reverse_singleton,
        List.singleton_append, renameLogs, hr, renumber_concat]
      simp only [Nat.add_sub_cancel, ih h, Option.map_some]

theorem renumber_head {fs : List LogFile} (hne : fs ≠ []) (hc : ∀ f ∈ fs, f.isOpen = false) :
    ∃ last rest, renumber fs = last :: rest ∧ last.index = fs.length ∧ last.isOpen = false := by
  obtain ⟨init, g, rfl⟩ := List.eq_nil_or_concat' fs |>.resolve_left hne
  refine ⟨_, _, renumber_concat init g, by simp, hc g (by simp)⟩

/-- No file is on the way of one that comes after it: an index goes up, or comes down from
above all the others. -/
def Safe (L : List Nat) : Prop := ∀ k, ∀ h : k < L.length, L[k] ≤ k + 1 ∨ L.length < L[k]

instance (L : List Nat) : Decidable (Safe L) :=
  inferInstanceAs (Decidable (∀ k, ∀ _ : k < L.length, _))

theorem moves_apart (hL : L.Pairwise (· < ·)) (hs : Safe L) : Apart (moves app L) := by
  rw [Apart, moves, List.pairwise_reverse, List.pairwise_map, List.pairwise_iff_getElem]
  intro a b ha hb hab
  rw [List.length_zipIdx] at ha hb
  have hlt : L[a] < L[b] := List.pairwise_iff_getElem.mp hL a b ha hb hab
  have hsafe := hs a ha
  simp only [List.getElem_zipIdx, (logName_injective app).ne_iff]
  omega

theorem moves_sources (app : Name) (L : List Nat) :
    (moves app L).map Prod.fst = (L.map (logName app)).reverse := by
  have hz : (L.zipIdx 1).map (logName app ∘ Prod.fst) = L.map (logName app) := by
    rw [← List.map_map, List.zipIdx_map_fst]
  rw [moves, List.map_reverse, List.map_map, ← hz]
  rfl

theorem moves_succeed (hL : L.Pairwise (· < ·)) (hfile : ∀ i ∈ L, ∃ c, d.lookup (logName app i) = some (.file c))
    (hfree : ∀ i, 1 ≤ i → i ≤ L.length → d.lookup (logName app i) ≠ some .other) :
    ∃ d', renameAll d (moves app L) = some d' := by
  refine renameAll_files ?_ ?_ ?_
  · intro m hm
    obtain ⟨k, hk, rfl⟩ := mem_moves.mp hm
    exact hfile _ (List.getElem_mem hk)
  · intro m hm
    obtain ⟨k, hk, rfl⟩ := mem_moves.mp hm
    exact hfree (k + 1) (by omega) (by omega)
  · rw [moves_sources, List.nodup_reverse]
    refine List.Nodup.map (logName_injective app) ?_
    exact hL.imp fun h => Nat.ne_of_lt h

theorem moves_split (app : Name) (A B : List Nat) (i : Nat) :
    ∃ pre, moves app (A ++ i :: B) = pre ++ (logName app i, logName app (A.length + 1)) :: moves app A := by
  refine ⟨((B.zipIdx (A.length + 2)).map fun p => (logName app p.1, logName app p.2)).reverse, ?_⟩
  rw [moves, moves, List.zipIdx_append, List.zipIdx_cons, List.map_append, List.reverse_append, List.map_cons,
    List.reverse_cons, List.append_assoc, Nat.add_comm 1]
  rfl

/-- A file whose index goes down leaves its name to nobody. -/
theorem moves_gone (h : renameAll d (moves app L) = some d') (hk : k < L.length) (hne : L[k] = 0 ∨ k + 1 < L[k]) :
    d'.lookup (logName app L[k]) = none := by
  have hsplit : L = L.take k ++ L[k] :: L.drop (k + 1) := by simp
  obtain ⟨pre, hpre⟩ := moves_split app (L.take k) (L.drop (k + 1)) L[k]
  rw [← hsplit, List.length_take_of_le (by omega)] at hpre
  rw [hpre] at h
  refine renameAll_gone h ?_ ?_
  · rw [(logName_injective app).ne_iff]
    omega
  · intro hm
    obtain ⟨m, hm, he⟩ := List.mem_map.mp hm
    obtain ⟨j, hj, rfl⟩ := mem_moves.mp hm
    have hj' : j + 1 = L[k] := logName_injective app he
    rw [List.length_take] at hj
    omega

section routing

variable {s : State} {K : List Nat} {c : Nat → Bytes} {e : Folder}

theorem emplace_entries (hK : ∀ i ∈ K, 1 ≤ i) (f : LogFile) : emplace (entries K) 0 f = (0, f) :: entries K := by
  cases K with
  | nil => rfl
  | cons i K =>
      have hi : 0 < i := hK i (by simp)
      rw [entries, List.map_cons, emplace, if_pos hi]

theorem openFile_empty (hc : f.isOpen = false) (hl : e.lookup (logName app f.index) ≠ some .other) :
    f.openFile app false true e =
      (true, { f with isOpen := true, curSize := 0 }, e.insert (logName app f.index) (.file [])) := by
  cases hq : e.lookup (logName app f.index) with
  | none => simp [LogFile.openFile, hc, hq]
  | some x =>
      cases x with
      | file b => simp [LogFile.openFile, hc, hq]
      | other => exact absurd hq hl

theorem length_emplace (hK : ∀ i ∈ K, 1 ≤ i) (f : LogFile) : (emplace (entries K) 0 f).length = K.length + 1 := by
  rw [emplace_entries hK, List.length_cons, entries, List.length_map]

/-- The files the rotation works on, by what the directory lists, and where its moves lead. -/
structure Rotates (env : Env) (cfg : Config) (s : State) (f : LogFile) (K : List Nat) (e : Folder) : Prop where
  file : s.file = some f
  index : f.index = 0
  count : cfg.maxFileCount ≠ 1
  listed : listLogs env cfg false s.dir = some (entries K)
  pos : ∀ i ∈ K, 1 ≤ i
  moved : renameAll s.dir (moves cfg.appName (0 :: K)) = some e

theorem Rotates.loop (h : Rotates env cfg s f K e) : ∃ last rest,
    renameLogs fair.rename cfg.appName (backward (emplace (entries K) 0 f.close)) (K.length + 1) s.dir = (some (last :: rest), e) ∧
    last.index = K.length + 1 ∧ last.isOpen = false := by
  have hmap : (emplace (entries K) 0 f.close).map Prod.snd = f.close :: K.map fresh := by
    rw [emplace_entries h.pos, entries, List.map_cons, List.map_map]
    rfl
  have hindex : (f.close :: K.map fresh).map LogFile.index = 0 :: K := by
    rw [List.map_cons, List.map_map, show f.close.index = 0 from h.index]
    simp [Function.comp_def, fresh]
  have hclosed : ∀ g ∈ f.close :: K.map fresh, g.isOpen = false := by
    intro g hg
    rw [List.mem_cons, List.mem_map] at hg
    obtain rfl | ⟨i, _, rfl⟩ := hg <;> rfl
  obtain ⟨last, rest, hl, hi, ho⟩ := renumber_head (by simp) hclosed
  have hlen : K.length + 1 = (f.close :: K.map fresh).length := by simp
  refine ⟨last, rest, ?_, by simpa using hi, ho⟩
  rw [backward, hmap, hlen, ← hl]
  exact renameLogs_moves _ (hindex ▸ h.moved)

theorem Rotates.adds (h : Rotates env cfg s f K e) (hroom : K.length + 1 < cfg.maxFileCount.toNat)
    (hfree : e.lookup (logName cfg.appName 0) ≠ some .other) :
    routingLogs env cfg fair s =
      (.returned true, ⟨some ⟨true, 0, 0⟩, e.insert (logName cfg.appName 0) (.file [])⟩) := by
  obtain ⟨last, rest, hl, _, _⟩ := h.loop
  have ho : (⟨false, 0, 0⟩ : LogFile).openFile cfg.appName false true e =
      (true, ⟨true, 0, 0⟩, e.insert (logName cfg.appName 0) (.file [])) := openFile_empty rfl hfree
  rw [routingLogs, h.file]
  simp only [if_neg h.count, show fair.list = false from rfl, h.listed, length_emplace h.pos, hl, settle, if_pos hroom,
    show fair.create = false from rfl, ho]

theorem Rotates.recycles (h : Rotates env cfg s f K e) (hfull : ¬K.length + 1 < cfg.maxFileCount.toNat)
    (hr : rename e (logName cfg.appName (K.length + 1)) (logName cfg.appName 0) = some d')
    (hfree : d'.lookup (logName cfg.appName 0) ≠ some .other) :
    routingLogs env cfg fair s =
      (.returned true, ⟨some ⟨true, 0, 0⟩, d'.insert (logName cfg.appName 0) (.file [])⟩) := by
  obtain ⟨last, rest, hl, hi, ho⟩ := h.loop
  have hre : last.renameIndex fair.rename cfg.appName 0 e = some ({ last with index := 0 }, d') := by
    rw [LogFile.renameIndex, if_neg (by simp [fair]), hi, hr]
    rfl
  have hop : ({ last with index := 0 } : LogFile).openFile cfg.appName false true d' =
      (true, ⟨true, 0, 0⟩, d'.insert (logName cfg.appName 0) (.file [])) := openFile_empty ho hfree
  rw [routingLogs, h.file]
  simp only [if_neg h.count, show fair.list = false from rfl, h.listed, length_emplace h.pos, hl, settle, if_neg hfull, hre,
    show fair.create = false from rfl, hop]

structure Holds (app : Name) (d : Folder) (K : List Nat) (c : Nat → Bytes) : Prop where
  ascending : (0 :: K).Pairwise (· < ·)
  content : ∀ i ∈ 0 :: K, d.lookup (logName app i) = some (.file (c i))
  only : ∀ i b, d.lookup (logName app i) = some (.file b) → i ∈ 0 :: K

theorem Holds.pos (h : Holds app d K c) : ∀ i ∈ K, 1 ≤ i := (List.pairwise_cons.mp h.ascending).1

theorem Holds.listed (h : Holds cfg.appName d K c) (hf : Finds env cfg.appName d found) (hs : ∀ i ∈ K, i < longLongEnd) :
    listLogs env cfg false d = some (entries K) := by
  refine listLogs_finds hf (List.pairwise_cons.mp h.ascending).2 (fun i => ⟨fun hi => ?_, fun hi => ?_⟩) hs
  · exact ⟨h.pos i hi, c i, h.content i (List.mem_cons_of_mem 0 hi)⟩
  · obtain ⟨hpos, b, hb⟩ := hi
    have hm := h.only i b hb
    rw [List.mem_cons] at hm
    exact hm.resolve_left (by omega)

theorem Holds.moved (h : Holds app d K c) (hfree : ∀ i, 1 ≤ i → i ≤ K.length + 1 → d.lookup (logName app i) ≠ some .other) :
    ∃ e, renameAll d (moves app (0 :: K)) = some e ∧ e.lookup (logName app 0) = none := by
  obtain ⟨e, he⟩ := moves_succeed h.ascending (fun i hi => ⟨c i, h.content i hi⟩) (by simpa using hfree)
  exact ⟨e, he, moves_gone (k := 0) he (by simp) (Or.inl rfl)⟩

theorem lookup_new (app : Name) (e : Folder) (k : Nat) :
    (e.insert (logName app 0) (.file [])).lookup (logName app (k + 1)) = e.lookup (logName app (k + 1)) := by
  rw [lookup_put, if_neg ((logName_injective app).ne (by omega))]

theorem Holds.shifted (h : Holds app d K c) (hs : Safe (0 :: K)) (he : renameAll d (moves app (0 :: K)) = some e)
    {k : Nat} (hk : k < (0 :: K).length) : e.lookup (logName app (k + 1)) = some (.file (c (0 :: K)[k])) := by
  have hm := renameAll_lookup he (moves_apart h.ascending hs) _ (mem_moves.mpr ⟨k, hk, rfl⟩)
  exact hm.trans (h.content _ (List.getElem_mem hk))

/-- A rotation that leaves the files with the indices L at the indices from 1 on, in their
order, and a new one at 0. -/
def Keeps (env : Env) (cfg : Config) (s : State) (L : List Nat) (c : Nat → Bytes) : Prop :=
  ∃ s', routingLogs env cfg fair s = (.returned true, s') ∧
    s'.dir.lookup (logName cfg.appName 0) = some (.file []) ∧
    ∀ k, ∀ h : k < L.length, s'.dir.lookup (logName cfg.appName (k + 1)) = some (.file (c L[k]))

/-- With room for one more file, a rotation keeps every file exactly if none is on the way of
another and their indices fit a long long. -/
theorem rotation_keeps_iff {s : State} (hf : s.file = some f) (hi : f.index = 0)
    (hfind : Finds env cfg.appName s.dir found) (hold : Holds cfg.appName s.dir K c)
    (hfree : ∀ i, 1 ≤ i → i ≤ K.length + 1 → s.dir.lookup (logName cfg.appName i) ≠ some .other)
    (hroom : K.length + 1 < cfg.maxFileCount.toNat) :
    Keeps env cfg s (0 :: K) c ↔ Safe (0 :: K) ∧ ∀ i ∈ K, i < longLongEnd := by
  have hcount : cfg.maxFileCount ≠ 1 := fun h => by simp [h] at hroom
  by_cases hsmall : ∀ i ∈ K, i < longLongEnd
  · obtain ⟨e, he, hzero⟩ := hold.moved hfree
    have hrot : Rotates env cfg s f K e := ⟨hf, hi, hcount, hold.listed hfind hsmall, hold.pos, he⟩
    rw [Keeps, hrot.adds hroom (by simp [hzero])]
    constructor
    · rintro ⟨s', hs', _, hkept⟩
      cases hs'
      refine ⟨fun k hk => ?_, hsmall⟩
      by_contra hbad
      rw [not_or, not_le, not_lt] at hbad
      -- the name the file was under should have been taken by another
      obtain ⟨j, hj⟩ : ∃ j, (0 :: K)[k] = j + 1 := ⟨(0 :: K)[k] - 1, by omega⟩
      have hgone : e.lookup (logName cfg.appName (j + 1)) = none := hj ▸ moves_gone he hk (Or.inr hbad.1)
      have hk' := hkept j (by omega)
      simp only [lookup_new, hgone] at hk'
      cases hk'
    · rintro ⟨hs, _⟩
      refine ⟨_, rfl, AList.lookup_insert e, fun k hk => ?_⟩
      exact (lookup_new cfg.appName e k).trans (hold.shifted hs he hk)
  · obtain ⟨i, hiK, hbig⟩ : ∃ i ∈ K, longLongEnd ≤ i := by
      simpa only [not_forall, not_lt, exists_prop] using hsmall
    have ht : listLogs env cfg false s.dir = none :=
      listLogs_threw hfind hbig (hold.content i (List.mem_cons_of_mem 0 hiK))
    refine ⟨fun ⟨s', hs', _⟩ => ?_, fun h => absurd h.2 hsmall⟩
    rw [routingLogs, hf] at hs'
    simp only [if_neg hcount, show fair.list = false from rfl, ht] at hs'
    cases hs'

def folder (app : Name) : List (Nat × Bytes) → Folder
  | [] => ∅
  | p :: ps => (folder app ps).insert (logName app p.1) (.file p.2)

theorem folder_lookup (app : Name) (ps : List (Nat × Bytes)) (i : Nat) :
    (folder app ps).lookup (logName app i) = (ps.lookup i).map .file := by
  induction ps with
  | nil => rfl
  | cons p ps ih =>
      rw [folder, lookup_put, List.lookup_cons, ih]
      by_cases h : i = p.1
      · simp [h]
      · rw [if_neg ((logName_injective app).ne h), beq_false_of_ne h]

theorem folder_names {ps : List (Nat × Bytes)} {name : Name} {x : Node Bytes}
    (h : (folder app ps).lookup name = some x) : ∃ i, name = logName app i := by
  induction ps with
  | nil => cases h
  | cons p ps ih =>
      rw [folder, lookup_put] at h
      by_cases hn : name = logName app p.1
      · exact ⟨p.1, hn⟩
      · exact ih (by rwa [if_neg hn] at h)

theorem folder_finds (env : Env) (hp : Plain app) (ps : List (Nat × Bytes)) :
    Finds env app (folder app ps) (matchLog app) := by
  refine finds_plain hp fun name b ds hl hm => ?_
  obtain ⟨i, rfl⟩ := folder_names hl
  exact ⟨i, pos_of_matchLog hm, rfl⟩

theorem folder_holds (app : Name) (K : List Nat) (hK : (0 :: K).Pairwise (· < ·)) (c : Nat → Bytes) :
    Holds app (folder app ((0 :: K).map fun i => (i, c i))) K c := by
  have hl : ∀ L : List Nat, ∀ i, (L.map fun i => (i, c i)).lookup i = if i ∈ L then some (c i) else none := by
    intro L i
    induction L with
    | nil => rfl
    | cons j L ih =>
        rw [List.map_cons, List.lookup_cons, ih]
        by_cases h : i = j
        · simp [h]
        · simp [beq_false_of_ne h, h]
  refine ⟨hK, fun i hi => ?_, fun i b h => ?_⟩
  · rw [folder_lookup, hl, if_pos hi]
    rfl
  · rw [folder_lookup, hl] at h
    by_contra hn
    rw [if_neg hn] at h
    cases h

theorem folder_free (app : Name) (ps : List (Nat × Bytes)) (i : Nat) :
    (folder app ps).lookup (logName app i) ≠ some .other := by
  rw [folder_lookup]
  cases ps.lookup i <;> simp

theorem rotation_keeps_two : Keeps ⟨fun _ => none, fun _ => ""⟩ { appName := "app".toList, maxFileCount := 4 }
    ⟨some ⟨false, 0, 0⟩, folder "app".toList [(0, [0]), (1, [1])]⟩ [0, 1] (fun i => [i.toUInt8]) :=
  (rotation_keeps_iff (K := [1]) (f := ⟨false, 0, 0⟩) rfl rfl (folder_finds _ (by decide) _)
    (folder_holds "app".toList [1] (by decide) fun i => [i.toUInt8]) (fun i _ _ => folder_free _ _ i)
    (by decide)).mpr ⟨by decide, by decide⟩

/-- With app.log, app.3.log and app.5.log, what was in app.3.log is nowhere any more. -/
theorem rotation_loses_third :
    ¬∀ s K c, s.file = some ⟨false, 0, 0⟩ → Holds "app".toList s.dir K c →
      Finds ⟨fun _ => none, fun _ => ""⟩ "app".toList s.dir (matchLog "app".toList) →
      (∀ i, s.dir.lookup (logName "app".toList i) ≠ some .other) → K.length + 1 < 9 →
      Keeps ⟨fun _ => none, fun _ => ""⟩ { appName := "app".toList, maxFileCount := 9 } s (0 :: K) c := by
  intro h
  obtain ⟨s', hr, _, hk⟩ := h ⟨some ⟨false, 0, 0⟩, folder "app".toList [(0, [0]), (3, [3]), (5, [5])]⟩ [3, 5]
    (fun i => [i.toUInt8]) rfl (folder_holds "app".toList [3, 5] (by decide) fun i => [i.toUInt8])
    (folder_finds _ (by decide) _) (fun i => folder_free _ _ i) (by decide)
  have hlost : (routingLogs ⟨fun _ => none, fun _ => ""⟩ { appName := "app".toList, maxFileCount := 9 } fair
      ⟨some ⟨false, 0, 0⟩, folder "app".toList [(0, [0]), (3, [3]), (5, [5])]⟩).2.dir.lookup
      (logName "app".toList 3) = none := by
    decide
  rw [hr] at hlost
  have hthird := hk 2 (by decide)
  rw [hlost] at hthird
  cases hthird

end routing

end Enigma.FileSinkRotation
