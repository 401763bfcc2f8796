import Enigma.Decimal
import Enigma.FileSinkListing

namespace Enigma.FileSinkNames

open Decimal Directory FileSink FileSinkListing

variable {env : Env} {cfg : Config} {app name ds : Name} {found : Name → Option Name} {d : Folder} {i k : Nat}

def indexOf (digits : Name) : Option Nat := (stoll digits).map fun n : Int => (n % UInt64.size).toNat

def IsFile (d : Folder) (name : Name) : Prop := ∃ c, d.lookup name = some (.file c)

/-- The listing is of the indices whose names are there, and every name that the pattern accepts is
the one that its index prints. -/
structure Lists (env : Env) (cfg : Config) (d : Folder) (listed : Logs) : Prop where
  returned : listLogs env cfg false d = some listed
  numbers : ∀ i, i ∈ listed.map Prod.fst ↔ 1 ≤ i ∧ i < UInt64.size ∧ IsFile d (logName cfg.appName i)
  named : ∀ e ∈ listed, e.2.index = e.1
  inverse : ∀ found name ds, regex env cfg.appName = some found → IsFile d name → '/' ∉ name →
    found name = some ds → ∃ i, indexOf ds = some i ∧ logName cfg.appName i = name

/-- What the pattern accepts is a name that LogFile prints for an index from 1 on, and it accepts
every such name of a file in the directory. -/
structure Reads (env : Env) (app : Name) (d : Folder) (found : Name → Option Name) : Prop where
  pattern : regex env app = some found
  accepted : ∀ name ds, IsFile d name → '/' ∉ name → found name = some ds →
    ∃ i, indexOf ds = some i ∧ 1 ≤ i ∧ name = logName app i
  numbered : ∀ i, 1 ≤ i → i < UInt64.size → IsFile d (logName app i) →
    '/' ∉ logName app i ∧ ∃ ds, found (logName app i) = some ds

theorem indexOf_lt (h : indexOf ds = some i) : i < UInt64.size := by
  obtain ⟨n, _, rfl⟩ := Option.map_eq_some_iff.mp h
  simp only [UInt64.size]
  omega

theorem probe_file {c : Bytes} (hc : d.lookup name = some (.file c)) (hf : found name = some ds) :
    probe found d name = (indexOf ds).map some := by
  rw [probe, hc]
  simp only [hf, indexOf, Option.map_map]
  rfl

theorem probe_other (h : probe found d name ≠ some none) :
    IsFile d name ∧ ∃ ds, found name = some ds ∧ probe found d name = (indexOf ds).map some := by
  cases hl : d.lookup name with
  | none => exact absurd (by rw [probe, hl]) h
  | some x =>
      cases x with
      | other => exact absurd (by rw [probe, hl]) h
      | file c =>
          cases hf : found name with
          | none => exact absurd (by rw [probe, hl]; simp only [hf]) h
          | some ds => exact ⟨⟨c, hl⟩, ds, rfl, probe_file hl hf⟩

theorem mem_listing (hl : IsFile d name) (hs : '/' ∉ name) : name ∈ d.keys.filter ('/' ∉ ·) := by
  obtain ⟨c, hc⟩ := hl
  rw [List.mem_filter, ← AList.mem_keys, ← AList.lookup_isSome, hc]
  exact ⟨rfl, by simpa using hs⟩

theorem slash_of_mem (h : name ∈ d.keys.filter ('/' ∉ ·)) : '/' ∉ name := by
  simpa using (List.mem_filter.mp h).2

theorem listLogs_returned {listed : Logs} (h : listLogs env cfg false d = some listed) :
    ∃ found, regex env cfg.appName = some found ∧ (∀ name ∈ d.keys.filter ('/' ∉ ·), probe found d name ≠ none) ∧
      (∀ e ∈ listed, e.2.index = e.1) ∧
      ∀ j, j ∈ listed.map Prod.fst ↔ ∃ name ∈ d.keys.filter ('/' ∉ ·), probe found d name = some (some j) := by
  obtain ⟨found, hp, h⟩ := Option.bind_eq_some_iff.mp h
  rw [if_neg (by simp)] at h
  have hall : ∀ name ∈ d.keys.filter ('/' ∉ ·), probe found d name ≠ none := by
    intro name hn hnone
    rw [foldlM_visit_threw hn hnone] at h
    cases h
  obtain ⟨ks, hks, _, hm⟩ := foldlM_visit List.Pairwise.nil hall
  have he : some (entries ks) = some listed := hks.symm.trans h
  cases he
  refine ⟨found, hp, hall, fun e he => ?_, fun j => ?_⟩
  · obtain ⟨k, _, rfl⟩ := List.mem_map.mp he
    rfl
  · have hfst : (entries ks).map Prod.fst = ks := by simp [entries, Function.comp_def]
    rw [hfst, hm j]
    simp

theorem Lists.reads {listed : Logs} (h : Lists env cfg d listed) : ∃ found, Reads env cfg.appName d found := by
  obtain ⟨found, hp, _, _, hm⟩ := listLogs_returned h.returned
  refine ⟨found, hp, fun name ds hl hs hf => ?_, fun i hi hlt hl => ?_⟩
  · obtain ⟨i, hi, hname⟩ := h.inverse found name ds hp hl hs hf
    obtain ⟨c, hc⟩ := hl
    have hj : i ∈ listed.map Prod.fst := (hm i).mpr ⟨name, mem_listing ⟨c, hc⟩ hs, by rw [probe_file hc hf, hi]; rfl⟩
    exact ⟨i, hi, ((h.numbers i).mp hj).1, hname.symm⟩
  · obtain ⟨name, hn, hprobe⟩ := (hm i).mp ((h.numbers i).mpr ⟨hi, hlt, hl⟩)
    obtain ⟨hl', ds, hf, he⟩ := probe_other (by simp [hprobe] : probe found d name ≠ some none)
    obtain ⟨j, hj, rfl⟩ := h.inverse found name ds hp hl' (slash_of_mem hn) hf
    rw [hprobe, hj, Option.map_some, Option.some.injEq, Option.some.injEq] at he
    exact he ▸ ⟨slash_of_mem hn, ds, hf⟩

theorem Reads.lists (h : Reads env cfg.appName d found) : ∃ listed, Lists env cfg d listed := by
  have hacc : ∀ name ∈ d.keys.filter ('/' ∉ ·), probe found d name ≠ some none →
      ∃ i, 1 ≤ i ∧ i < UInt64.size ∧ name = logName cfg.appName i ∧ probe found d name = some (some i) := by
    intro name hn hne
    obtain ⟨hl, ds, hf, he⟩ := probe_other hne
    obtain ⟨i, hi, hpos, hname⟩ := h.accepted name ds hl (slash_of_mem hn) hf
    exact ⟨i, hpos, indexOf_lt hi, hname, by rw [he, hi]; rfl⟩
  have hall : ∀ name ∈ d.keys.filter ('/' ∉ ·), probe found d name ≠ none := by
    intro name hn hnone
    obtain ⟨i, _, _, _, he⟩ := hacc name hn (by simp [hnone])
    rw [hnone] at he
    cases he
  obtain ⟨ks, hks, _, _⟩ := foldlM_visit List.Pairwise.nil hall
  have hret : listLogs env cfg false d = some (entries ks) := by
    rw [listLogs, h.pattern]
    exact hks
  obtain ⟨found', hp', _, hnamed, hm⟩ := listLogs_returned hret
  cases h.pattern.symm.trans hp'
  refine ⟨entries ks, hret, fun i => (hm i).trans ⟨?_, ?_⟩, hnamed, fun found' name ds hp' hl hs hf => ?_⟩
  · rintro ⟨name, hn, hprobe⟩
    obtain ⟨j, hpos, hlt, rfl, he⟩ := hacc name hn (by simp [hprobe])
    rw [hprobe, Option.some.injEq, Option.some.injEq] at he
    have hl := (probe_other (by simp [hprobe] : probe found d (logName cfg.appName j) ≠ some none)).1
    exact he ▸ ⟨hpos, hlt, hl⟩
  · rintro ⟨hpos, hlt, hl⟩
    obtain ⟨hs, ds, hf⟩ := h.numbered i hpos hlt hl
    obtain ⟨j, hj, _, hname⟩ := h.accepted _ ds hl hs hf
    obtain ⟨c, hc⟩ := hl
    refine ⟨logName cfg.appName i, mem_listing ⟨c, hc⟩ hs, ?_⟩
    rw [probe_file hc hf, hj, logName_injective _ hname]
    rfl
  · cases h.pattern.symm.trans hp'
    obtain ⟨i, hi, _, hname⟩ := h.accepted name ds hl hs hf
    exact ⟨i, hi, hname.symm⟩

section plain

/-- Among the files of the application, none has zeros before its number or one beyond a long long. -/
def Canonical (app : Name) (d : Folder) : Prop :=
  ∀ name ds, IsFile d name → matchLog app name = some ds → ds.head? ≠ some '0' ∧ value ds < longLongEnd

theorem matchLog_some (h : matchLog app name = some ds) :
    ds ≠ [] ∧ (∀ c ∈ ds, c.isDigit = true) ∧ name = app ++ '.' :: ds ++ ".log".toList := by
  rw [matchLog] at h
  split at h
  case isTrue hd =>
      cases h
      exact ⟨hd.1, List.all_eq_true.mp hd.2.1, hd.2.2⟩
  case isFalse => cases h

theorem indexOf_toDigits (i : Nat) : indexOf (Nat.toDigits 10 i) = if i < longLongEnd then some i else none := by
  rw [indexOf, stoll_digits]
  by_cases h : i < longLongEnd
  · rw [if_pos h, if_pos h, Option.map_some]
    rw [longLongEnd] at h
    simp only [UInt64.size, Option.some.injEq]
    omega
  · rw [if_neg h, if_neg h, Option.map_none]

/-- The digits of a name go to an index and back exactly if they are those of a number that a
long long holds. -/
theorem reads_digits (h : matchLog app name = some ds) :
    (∃ i, indexOf ds = some i ∧ 1 ≤ i ∧ name = logName app i) ↔ ds.head? ≠ some '0' ∧ value ds < longLongEnd := by
  obtain ⟨hne, hall, hname⟩ := matchLog_some h
  constructor
  · rintro ⟨i, hi, hpos, hlog⟩
    rw [hlog, logName_of_pos app hpos] at hname
    have hds : Nat.toDigits 10 i = ds := List.cons_injective (List.append_cancel_left (List.append_cancel_right hname))
    subst hds
    rw [indexOf_toDigits] at hi
    refine ⟨head?_toDigits hpos, ?_⟩
    rw [value, Nat.ofDigitChars_ten_toDigits]
    by_contra hbig
    rw [if_neg hbig] at hi
    cases hi
  · rintro ⟨hz, hlt⟩
    have hds := toDigits_value hne hall hz
    have hpos : 1 ≤ value ds := by
      by_contra hv
      rw [show value ds = 0 by omega, Nat.toDigits_zero] at hds
      exact hz (by rw [← hds]; rfl)
    refine ⟨value ds, ?_, hpos, ?_⟩
    · rw [← hds, indexOf_toDigits, hds, if_pos hlt]
    · rw [hname, logName_of_pos app hpos, hds]

theorem slash_of_matchLog (hp : Plain app) (h : matchLog app name = some ds) : '/' ∉ name := by
  obtain ⟨_, hall, rfl⟩ := matchLog_some h
  have happ : '/' ∉ app := fun hm => hp '/' hm (by decide)
  have hdigits : '/' ∉ ds := fun hm => by simpa using hall '/' hm
  simp [happ, hdigits]

theorem reads_iff (hp : Plain app) : (∃ found, Reads env app d found) ↔ Canonical app d := by
  have hpat : regex env app = some (matchLog app) := if_pos hp
  constructor
  · rintro ⟨found, hpattern, hacc, _⟩ name ds hl hm
    cases hpat.symm.trans hpattern
    exact (reads_digits hm).mp (hacc name ds hl (slash_of_matchLog hp hm) hm)
  · intro h
    exact ⟨matchLog app, hpat, fun name ds hl _ hm => (reads_digits hm).mpr (h name ds hl hm),
      fun i hi _ _ => ⟨slash_notMem hp i, _, matchLog_logName app hi⟩⟩

end plain

/-- ListLogs gives the indices of the files there are exactly if the pattern of the application
reads what LogFile prints and nothing else in the directory. -/
theorem listLogs_inverse_iff (env : Env) (cfg : Config) (d : Folder) :
    ((∃ listed, Lists env cfg d listed) ↔ ∃ found, Reads env cfg.appName d found) ∧
      (Plain cfg.appName → ((∃ listed, Lists env cfg d listed) ↔ Canonical cfg.appName d)) := by
  have h : (∃ listed, Lists env cfg d listed) ↔ ∃ found, Reads env cfg.appName d found :=
    ⟨fun ⟨_, h⟩ => h.reads, fun ⟨_, h⟩ => h.lists⟩
  exact ⟨h, fun hp => h.trans (reads_iff hp)⟩

theorem listLogs_inverse_one : ∃ listed, Lists ⟨fun _ => none, fun _ => ""⟩ { appName := "app".toList }
    ((∅ : Folder).insert "app.1.log".toList (.file [])) listed := by
  refine ((listLogs_inverse_iff _ _ _).2 (by decide)).mpr ?_
  rintro name ds ⟨c, hc⟩ hm
  rw [lookup_put] at hc
  split at hc
  case isTrue h =>
      have hone : matchLog "app".toList "app.1.log".toList = some ['1'] := rfl
      rw [h, hone, Option.some.injEq] at hm
      subst hm
      decide
  case isFalse => cases hc

/-- The file app.03.log is listed as index 3, and there is no app.3.log. -/
theorem zero_before_number :
    ¬∃ listed, Lists ⟨fun _ => none, fun _ => ""⟩ { appName := "app".toList }
      ((∅ : Folder).insert "app.03.log".toList (.file [])) listed := by
  rintro ⟨listed, h⟩
  obtain ⟨i, hi, hname⟩ := h.inverse (matchLog "app".toList) "app.03.log".toList "03".toList rfl ⟨[], rfl⟩
    (by decide) rfl
  cases hi
  exact absurd hname (by decide)

end Enigma.FileSinkNames
