import Enigma.FileSinkFaults
import Enigma.FileSinkNames
import Enigma.FileSinkRotation

namespace Enigma.FileSinkCount

open Decimal Directory FileSink FileSinkListing FileSinkNames FileSinkRotation FileSinkFaults

variable {env : Env} {cfg : Config} {app name : Name} {found : Name → Option Name} {d e : Folder} {L K : List Nat}
  {f : LogFile} {s s' : State} {c : Nat → Bytes} {i q : Nat}

def isLogName (app name : Name) : Bool :=
  decide (name = logName app 0) || (matchLog app name).any fun ds => decide (ds.head? ≠ some '0')

def logFiles (app : Name) (d : Folder) : List Name :=
  d.keys.filter fun name => isLogName app name && (d.lookup name).any Node.isFile

theorem isLogName_iff : isLogName app name = true ↔ ∃ i, name = logName app i := by
  rw [isLogName, Bool.or_eq_true, decide_eq_true_iff, Option.any_eq_true]
  constructor
  · rintro (rfl | ⟨ds, hm, hz⟩)
    · exact ⟨0, rfl⟩
    · obtain ⟨hne, hall, hname⟩ := matchLog_some hm
      have hds := toDigits_value hne hall (by simpa using hz)
      have hpos : 1 ≤ value ds := by
        by_contra hv
        rw [show value ds = 0 by omega, Nat.toDigits_zero] at hds
        simp [← hds] at hz
      exact ⟨value ds, by rw [hname, logName_of_pos app hpos, hds]⟩
  · rintro ⟨i, rfl⟩
    by_cases hi : i = 0
    · exact Or.inl (by rw [hi])
    · exact Or.inr ⟨_, matchLog_logName app (by omega), by simpa using head?_toDigits (by omega)⟩

theorem isFile_iff : IsFile d name ↔ (d.lookup name).any Node.isFile = true := by
  rw [IsFile]
  cases d.lookup name with
  | none => simp
  | some x => cases x <;> simp [Node.isFile]

theorem mem_logFiles : name ∈ logFiles app d ↔ ∃ i, name = logName app i ∧ IsFile d (logName app i) := by
  rw [logFiles, List.mem_filter, Bool.and_eq_true, isLogName_iff, ← isFile_iff]
  constructor
  · rintro ⟨_, ⟨i, rfl⟩, hf⟩
    exact ⟨i, rfl, hf⟩
  · rintro ⟨i, rfl, c, hc⟩
    refine ⟨?_, ⟨i, rfl⟩, c, hc⟩
    rw [← AList.mem_keys, ← AList.lookup_isSome, hc]
    rfl

theorem length_logFiles {I : List Nat} (hn : I.Nodup) (hm : ∀ i, i ∈ I ↔ IsFile d (logName app i)) :
    (logFiles app d).length = I.length := by
  have hnodup : (logFiles app d).Nodup := d.keys_nodup.filter _
  have hperm : (logFiles app d).Perm (I.map (logName app)) := by
    rw [List.perm_ext_iff_of_nodup hnodup (hn.map (logName_injective app))]
    intro name
    rw [mem_logFiles, List.mem_map]
    constructor
    · rintro ⟨i, rfl, hf⟩
      exact ⟨i, (hm i).mpr hf, rfl⟩
    · rintro ⟨i, hi, rfl⟩
      exact ⟨i, rfl, (hm i).mp hi⟩
  rw [hperm.length_eq, List.length_map]

/-! ### Where the files are after the moves -/

/-- The indices in use after the moves: each of the new ones, unless a file of that index was
still to be moved. -/
def landed (L : List Nat) : List Nat := ((List.range L.length).filter fun j => j + 1 ∉ L.take j).map (· + 1)

theorem mem_landed : q ∈ landed L ↔ ∃ j, j < L.length ∧ j + 1 ∉ L.take j ∧ j + 1 = q := by
  simp [landed, and_assoc]

theorem landed_concat (L : List Nat) (i : Nat) :
    q ∈ landed (L ++ [i]) ↔ q ∈ landed L ∨ q = L.length + 1 ∧ q ∉ L := by
  rw [mem_landed, mem_landed]
  constructor
  · rintro ⟨j, hj, hn, rfl⟩
    rw [List.length_append, List.length_singleton] at hj
    rw [List.take_append_of_le_length (by omega)] at hn
    by_cases hlt : j < L.length
    · exact Or.inl ⟨j, hlt, hn, rfl⟩
    · rw [List.take_of_length_le (by omega)] at hn
      exact Or.inr ⟨by omega, hn⟩
  · rintro (⟨j, hj, hn, rfl⟩ | ⟨rfl, hn⟩)
    · refine ⟨j, by simp; omega, ?_, rfl⟩
      rwa [List.take_append_of_le_length (by omega)]
    · exact ⟨L.length, by simp, by simpa using hn, rfl⟩

theorem nodup_landed (L : List Nat) : (landed L).Nodup :=
  (List.nodup_range.filter _).map fun _ _ h => Nat.succ.inj h

theorem length_landed_le (L : List Nat) : (landed L).length ≤ L.length := by
  rw [landed, List.length_map]
  exact (List.length_filter_le _ _).trans_eq List.length_range

theorem length_landed (h : Safe L) : (landed L).length = L.length := by
  have hall : ∀ j ∈ List.range L.length, decide (j + 1 ∉ L.take j) = true := by
    intro j hj
    rw [List.mem_range] at hj
    rw [decide_eq_true_iff]
    intro hm
    obtain ⟨k, hk, he⟩ := List.mem_take_iff_getElem.mp hm
    have hsafe := h k (by omega)
    omega
  rw [landed, List.filter_eq_self.mpr hall, List.length_map, List.length_range]

theorem moves_files (he : renameAll d (moves app L) = some e) (hL : L.Nodup)
    (hfile : ∀ i ∈ L, IsFile d (logName app i)) (q : Nat) :
    IsFile e (logName app q) ↔ q ∈ landed L ∨ q ∉ L ∧ ¬(1 ≤ q ∧ q ≤ L.length) ∧ IsFile d (logName app q) := by
  induction L using List.reverseRecOn generalizing d with
  | nil =>
      cases he
      rw [mem_landed]
      simp
      omega
  | append_singleton L i ih =>
      rw [moves_concat] at he
      obtain ⟨d₁, hr, he⟩ := renameAll_cons he
      rw [List.nodup_append] at hL
      have hi : i ∉ L := fun hm => hL.2.2 i hm i (by simp) rfl
      have hlook : ∀ q, d₁.lookup (logName app q) = if q = L.length + 1 then d.lookup (logName app i)
          else if q = i then none else d.lookup (logName app q) := by
        intro q
        simp only [rename_lookup hr, (logName_injective app).eq_iff]
      have hone : IsFile d (logName app i) := hfile i (by simp)
      have hfile₁ : ∀ j ∈ L, IsFile d₁ (logName app j) := by
        intro j hj
        rw [IsFile, hlook]
        split
        case isTrue => exact hone
        case isFalse =>
            rw [if_neg fun h : j = i => hi (h ▸ hj)]
            exact hfile j (by simp [hj])
      rw [ih he hL.1 hfile₁, landed_concat, IsFile, hlook]
      by_cases hq : q = L.length + 1
      · have hdone : ∃ c, d.lookup (logName app i) = some (.file c) := hone
        subst hq
        rw [if_pos rfl, List.length_append, List.length_singleton]
        simp [hdone]
      · by_cases hqi : q = i
        · subst hqi
          rw [if_neg hq, if_pos rfl]
          simp [hq]
        · rw [if_neg hq, if_neg hqi]
          simp only [List.mem_append, List.mem_singleton, hqi, or_false, hq, false_and, List.length_append,
            List.length_singleton, IsFile]
          have hrange : q ≤ L.length + 1 ↔ q ≤ L.length := by omega
          rw [hrange]

theorem rename_file_only {old new : Name} (hr : rename d old new = some e) (hsrc : d.lookup old ≠ some .other)
    (hn : d.lookup name ≠ some .other) : e.lookup name ≠ some .other := by
  rw [rename_lookup hr]
  split
  · exact hsrc
  · split
    · simp
    · exact hn

theorem renameAll_file {ms : List (Name × Name)} (h : renameAll d ms = some e)
    (hs : ∀ m ∈ ms, d.lookup m.1 ≠ some .other) (hq : d.lookup name ≠ some .other) : e.lookup name ≠ some .other := by
  induction ms generalizing d with
  | nil =>
      cases h
      exact hq
  | cons m ms ih =>
      obtain ⟨d₁, hr, h⟩ := renameAll_cons h
      have hsrc : d.lookup m.1 ≠ some .other := hs m (by simp)
      exact ih h (fun m' hm' => rename_file_only hr hsrc (hs m' (by simp [hm']))) (rename_file_only hr hsrc hq)

/-! ### A rotation that returns true -/

theorem renames_moves {fails : Nat → Bool} (h : Renames fails app L.reverse L.length d e) :
    renameAll d (moves app L) = some e := by
  induction L using List.reverseRecOn generalizing d with
  | nil =>
      cases h
      rfl
  | append_singleton L i ih =>
      rw [List.reverse_append, List.length_append, List.length_singleton] at h
      cases h with
      | cons i n is d d₁ e hok hr ht =>
          rw [moves_concat, renameAll, hr, Option.bind_some]
          exact ih ht

theorem backward_index (hpos : ∀ i ∈ K, 1 ≤ i) (hi : f.index = 0) :
    (backward (emplace (entries K) 0 f.close)).map LogFile.index = (0 :: K).reverse := by
  have hz : f.close.index = 0 := hi
  rw [emplace_entries hpos, backward, List.map_reverse, List.map_map, List.map_cons]
  simp [entries, Function.comp_def, fresh, hz]

theorem rotates_of_returned (hf : s.file = some f) (hi : f.index = 0) (hfind : Finds env cfg.appName s.dir found)
    (hold : Holds cfg.appName s.dir K c) (hne : cfg.maxFileCount ≠ 1)
    (hr : routingLogs env cfg fair s = (.returned true, s')) : ∃ e, Rotates env cfg s f K e := by
  have hsmall : ∀ i ∈ K, i < longLongEnd := by
    intro i hK
    by_contra hbig
    have ht : listLogs env cfg false s.dir = none :=
      listLogs_threw hfind (Nat.not_lt.mp hbig) (hold.content i (List.mem_cons_of_mem 0 hK))
    rw [routingLogs, hf] at hr
    simp only [if_neg hne, show fair.list = false from rfl, ht] at hr
    cases hr
  have hlist := hold.listed hfind hsmall
  rw [routingLogs, hf] at hr
  simp only [if_neg hne, show fair.list = false from rfl, hlist, length_emplace hold.pos] at hr
  cases hl : renameLogs fair.rename cfg.appName (backward (emplace (entries K) 0 f.close)) (K.length + 1) s.dir with
  | mk o e =>
      cases o with
      | none =>
          rw [hl] at hr
          cases hr
      | some gs =>
          have hway := renameLogs_renames.mp ⟨gs, hl⟩
          rw [backward_index hold.pos hi] at hway
          exact ⟨e, hf, hi, hne, hlist, hold.pos, renames_moves hway⟩

theorem holds_files (h : Holds app d K c) (q : Nat) : IsFile d (logName app q) ↔ q ∈ 0 :: K :=
  ⟨fun ⟨b, hb⟩ => h.only q b hb, fun hq => ⟨c q, h.content q hq⟩⟩

theorem moved_files (hold : Holds app d K c) (he : renameAll d (moves app (0 :: K)) = some e) (q : Nat) :
    IsFile e (logName app q) ↔ q ∈ landed (0 :: K) := by
  have hn : (0 :: K).Nodup := hold.ascending.imp fun h => Nat.ne_of_lt h
  rw [moves_files he hn (fun i hi => (holds_files hold i).mpr hi) q, holds_files hold]
  constructor
  · rintro (h | ⟨h, _, h'⟩)
    · exact h
    · exact absurd h' h
  · exact Or.inl

theorem zero_notMem_landed (L : List Nat) : 0 ∉ landed L := by
  rw [mem_landed]
  rintro ⟨j, _, _, hj⟩
  omega

theorem insert_files (e : Folder) (b : Bytes) (q : Nat) :
    IsFile (e.insert (logName app 0) (.file b)) (logName app q) ↔ q = 0 ∨ IsFile e (logName app q) := by
  rw [IsFile, lookup_put]
  by_cases hq : q = 0
  · simp [hq]
  · rw [if_neg ((logName_injective app).ne hq), IsFile]
    simp [hq]

theorem rotates_gone (h : Rotates env cfg s f K e) : e.lookup (logName cfg.appName 0) = none :=
  moves_gone (k := 0) h.moved (by simp) (Or.inl rfl)

/-- The place that the last file goes to has no entry but a file. -/
theorem last_place (hold : Holds app d K c) (he : renameAll d (moves app (0 :: K)) = some e) :
    e.lookup (logName app (K.length + 1)) ≠ some .other := by
  obtain ⟨L, i, hL⟩ := (List.eq_nil_or_concat' (0 :: K)).resolve_left (by simp)
  have hlen : L.length = K.length := by simpa using (congrArg List.length hL).symm
  have hfile : ∀ j ∈ 0 :: K, d.lookup (logName app j) ≠ some .other := by
    intro j hj
    rw [hold.content j hj]
    simp
  rw [hL, moves_concat, hlen] at he
  obtain ⟨d₁, hr, he⟩ := renameAll_cons he
  have hsrc : d.lookup (logName app i) ≠ some .other := hfile i (by simp [hL])
  refine renameAll_file he (fun m hm => ?_) ?_
  · obtain ⟨k, hk, rfl⟩ := mem_moves.mp hm
    exact rename_file_only hr hsrc (hfile _ (by rw [hL]; exact List.mem_append_left _ (List.getElem_mem hk)))
  · rw [rename_lookup hr, if_pos rfl]
    exact hsrc

theorem count_added (hold : Holds cfg.appName s.dir K c) (hrot : Rotates env cfg s f K e)
    (hroom : K.length + 1 < cfg.maxFileCount.toNat) (hr : routingLogs env cfg fair s = (.returned true, s')) :
    (logFiles cfg.appName s'.dir).length = (landed (0 :: K)).length + 1 := by
  rw [hrot.adds hroom (by simp [rotates_gone hrot])] at hr
  cases hr
  rw [← List.length_cons (a := 0)]
  refine length_logFiles (List.nodup_cons.mpr ⟨zero_notMem_landed _, nodup_landed _⟩) fun q => ?_
  rw [insert_files, moved_files hold hrot.moved, List.mem_cons]

theorem count_recycled (hold : Holds cfg.appName s.dir K c) (hrot : Rotates env cfg s f K e)
    (hfull : ¬K.length + 1 < cfg.maxFileCount.toNat) (hr : routingLogs env cfg fair s = (.returned true, s')) :
    (logFiles cfg.appName s'.dir).length = (landed (0 :: K)).length := by
  have hlast := last_place hold hrot.moved
  cases hn : rename e (logName cfg.appName (K.length + 1)) (logName cfg.appName 0) with
  | none =>
      obtain ⟨last, rest, hl, hi, _⟩ := hrot.loop
      have hre : last.renameIndex fair.rename cfg.appName 0 e = none := by
        rw [LogFile.renameIndex, if_neg (by simp [fair]), hi, hn]
        rfl
      rw [routingLogs, hrot.file] at hr
      simp only [if_neg hrot.count, show fair.list = false from rfl, hrot.listed, length_emplace hrot.pos, hl, settle,
        if_neg hfull, hre] at hr
      cases hr
  | some d' =>
      have hlook := rename_lookup hn
      rw [hrot.recycles hfull hn (by rw [hlook, if_pos rfl]; exact hlast)] at hr
      cases hr
      have hthere : K.length + 1 ∈ landed (0 :: K) := by
        rw [← moved_files hold hrot.moved, IsFile]
        cases hl : e.lookup (logName cfg.appName (K.length + 1)) with
        | none => simp [rename, hl] at hn
        | some x =>
            cases x with
            | file b => exact ⟨b, rfl⟩
            | other => exact absurd hl hlast
      have hlen : (0 :: (landed (0 :: K)).erase (K.length + 1)).length = (landed (0 :: K)).length := by
        rw [List.length_cons, List.length_erase_add_one hthere]
      rw [← hlen]
      refine length_logFiles (List.nodup_cons.mpr ⟨fun h => zero_notMem_landed _ (List.mem_of_mem_erase h),
        (nodup_landed _).erase _⟩) fun q => ?_
      rw [insert_files, List.mem_cons, (nodup_landed _).mem_erase_iff, ← moved_files hold hrot.moved]
      by_cases hq : q = 0
      · simp [hq]
      · rw [IsFile, IsFile, hlook, if_neg ((logName_injective _).ne hq)]
        by_cases hq' : q = K.length + 1
        · simp [hq']
        · rw [if_neg ((logName_injective _).ne hq')]
          simp [hq']

theorem count_single (hf : s.file = some f) (hi : f.index = 0) (hold : Holds cfg.appName s.dir K c)
    (hone : cfg.maxFileCount = 1) (hr : routingLogs env cfg fair s = (.returned true, s')) :
    (logFiles cfg.appName s'.dir).length = K.length + 1 := by
  have hz : f.close.index = 0 := hi
  have hc : s.dir.lookup (logName cfg.appName f.close.index) ≠ some .other := by
    rw [hz, hold.content 0 (by simp)]
    simp
  have ho : f.close.openFile cfg.appName false true s.dir =
      (true, ⟨true, 0, 0⟩, s.dir.insert (logName cfg.appName 0) (.file [])) := by
    rw [openFile_empty rfl hc, hz]
  rw [routingLogs, hf] at hr
  simp only [if_pos hone, show fair.create = false from rfl, ho] at hr
  cases hr
  refine length_logFiles (I := 0 :: K) (hold.ascending.imp fun h => Nat.ne_of_lt h) fun q => ?_
  rw [insert_files, holds_files hold]
  simp

/-- A rotation that returns true leaves no more log files than the limit exactly if, with a limit of
one, no file had a number, and otherwise no more files landed than that. -/
theorem rotation_bounds_iff (hf : s.file = some f) (hi : f.index = 0) (hfind : Finds env cfg.appName s.dir found)
    (hold : Holds cfg.appName s.dir K c) (hr : routingLogs env cfg fair s = (.returned true, s')) :
    ((logFiles cfg.appName s'.dir).length ≤ cfg.maxFileCount.toNat ↔
      if cfg.maxFileCount = 1 then K = [] else (landed (0 :: K)).length ≤ cfg.maxFileCount.toNat) ∧
    (Safe (0 :: K) → (landed (0 :: K)).length = K.length + 1) := by
  refine ⟨?_, fun h => length_landed h⟩
  by_cases hone : cfg.maxFileCount = 1
  · rw [if_pos hone, count_single hf hi hold hone hr, hone, ← List.length_eq_zero_iff]
    change K.length + 1 ≤ 1 ↔ _
    omega
  · rw [if_neg hone]
    obtain ⟨e, hrot⟩ := rotates_of_returned hf hi hfind hold hone hr
    by_cases hroom : K.length + 1 < cfg.maxFileCount.toNat
    · have hle := length_landed_le (0 :: K)
      rw [List.length_cons] at hle
      rw [count_added hold hrot hroom hr]
      omega
    · rw [count_recycled hold hrot hroom hr]

theorem rotation_bounds_two :
    (logFiles "app".toList (routingLogs ⟨fun _ => none, fun _ => ""⟩ { appName := "app".toList, maxFileCount := 2 } fair
      ⟨some ⟨false, 0, 0⟩, folder "app".toList [(0, [0]), (1, [1])]⟩).2.dir).length ≤ 2 := by
  have hr : routingLogs ⟨fun _ => none, fun _ => ""⟩ { appName := "app".toList, maxFileCount := 2 } fair
      ⟨some ⟨false, 0, 0⟩, folder "app".toList [(0, [0]), (1, [1])]⟩ = (.returned true, (routingLogs
        ⟨fun _ => none, fun _ => ""⟩ { appName := "app".toList, maxFileCount := 2 } fair
        ⟨some ⟨false, 0, 0⟩, folder "app".toList [(0, [0]), (1, [1])]⟩).2) := Prod.ext (by decide) rfl
  exact (rotation_bounds_iff (K := [1]) (f := ⟨false, 0, 0⟩) rfl rfl (folder_finds _ (by decide) _)
    (folder_holds "app".toList [1] (by decide) fun i => [i.toUInt8]) hr).1.mpr (by decide)

/-- Three files, as a larger limit has left them, under a limit of two: they are still three. -/
theorem three_files_stay :
    (routingLogs ⟨fun _ => none, fun _ => ""⟩ { appName := "app".toList, maxFileCount := 2 } fair
        ⟨some ⟨false, 0, 0⟩, folder "app".toList [(0, [0]), (1, [1]), (2, [2])]⟩).1 = .returned true ∧
      ¬(logFiles "app".toList (routingLogs ⟨fun _ => none, fun _ => ""⟩ { appName := "app".toList, maxFileCount := 2 }
        fair ⟨some ⟨false, 0, 0⟩, folder "app".toList [(0, [0]), (1, [1]), (2, [2])]⟩).2.dir).length ≤ 2 := by
  decide

end Enigma.FileSinkCount
