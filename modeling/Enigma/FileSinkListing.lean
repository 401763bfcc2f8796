import Enigma.FileSink
import Mathlib.Data.List.Sort
import Mathlib.Data.List.TakeWhile

namespace Enigma.FileSinkListing

open Directory FileSink

section names

variable {app name ds : Name} {i j : Nat}

theorem logName_of_pos (app : Name) (hi : 1 ≤ i) :
    logName app i = app ++ '.' :: Nat.toDigits 10 i ++ ".log".toList := by
  rw [logName, if_neg (by omega)]

theorem toDigits_injective : Function.Injective (Nat.toDigits 10) := by
  intro i j h
  calc i = Nat.ofDigitChars 10 (Nat.toDigits 10 i) 0 := Nat.ofDigitChars_ten_toDigits.symm
    _ = Nat.ofDigitChars 10 (Nat.toDigits 10 j) 0 := by rw [h]
    _ = j := Nat.ofDigitChars_ten_toDigits

theorem isDigit_of_mem (hc : c ∈ Nat.toDigits 10 i) : Char.isDigit c = true :=
  Nat.isDigit_of_mem_toDigits (by omega) (by omega) hc

theorem logName_zero_ne (app : Name) (hi : 1 ≤ i) : logName app 0 ≠ logName app i := by
  rw [logName_of_pos app hi, logName, if_pos rfl]
  intro h
  have hl := congrArg List.length h
  simp at hl

theorem logName_injective (app : Name) : Function.Injective (logName app) := by
  intro i j h
  by_cases hi : i = 0
  · by_cases hj : j = 0
    · rw [hi, hj]
    · exact absurd (hi ▸ h) (logName_zero_ne app (by omega))
  · by_cases hj : j = 0
    · exact absurd (hj ▸ h).symm (logName_zero_ne app (by omega))
    · rw [logName_of_pos app (by omega), logName_of_pos app (by omega)] at h
      have hd := List.append_cancel_left (List.append_cancel_right h)
      exact toDigits_injective (List.cons_injective hd)

theorem matchLog_logName (app : Name) (hi : 1 ≤ i) : matchLog app (logName app i) = some (Nat.toDigits 10 i) := by
  rw [logName_of_pos app hi, matchLog]
  have hd : ((app ++ '.' :: Nat.toDigits 10 i ++ ".log".toList).drop (app.length + 1)).take
      ((app ++ '.' :: Nat.toDigits 10 i ++ ".log".toList).length - (app.length + 5)) = Nat.toDigits 10 i := by
    have hl : (app ++ '.' :: Nat.toDigits 10 i ++ ".log".toList).length - (app.length + 5) =
        (Nat.toDigits 10 i).length := by
      simp
      omega
    have hnil : app.drop (app.length + 1) = [] := List.drop_eq_nil_of_le (by omega)
    rw [hl]
    simp [List.drop_append, hnil]
  rw [hd, if_pos]
  refine ⟨Nat.toDigits_ne_nil, ?_, rfl⟩
  rw [List.all_eq_true]
  exact fun c hc => isDigit_of_mem hc

theorem matchLog_app (app : Name) : matchLog app (logName app 0) = none := by
  rw [logName, if_pos rfl, matchLog, if_neg]
  rintro ⟨hne, _, h⟩
  have hl := congrArg List.length h
  simp at hl

theorem pos_of_matchLog (h : matchLog app (logName app i) = some ds) : 1 ≤ i := by
  by_contra hi
  rw [show i = 0 by omega, matchLog_app] at h
  cases h

theorem slash_notMem (hp : Plain app) (i : Nat) : '/' ∉ logName app i := by
  have happ : '/' ∉ app := fun h => hp '/' h (by decide)
  have hdigits : '/' ∉ Nat.toDigits 10 i := fun h => by
    have hd := isDigit_of_mem h
    simp at hd
  rw [logName]
  split <;> simp [happ, hdigits]

theorem isSpace_of_isDigit {c : Char} (h : c.isDigit = true) : isSpace c = false := by
  have hc : 48 ≤ c.toNat := by
    simp only [Char.isDigit, Bool.and_eq_true, decide_eq_true_eq] at h
    exact h.1
  have hne : c ≠ ' ' := by
    rintro rfl
    exact absurd hc (by decide)
  simp [isSpace, hne]
  omega

/-- Digits have no space before them and no sign. -/
theorem stoll_of_digits {c : Char} {cs : Name} (h : ∀ x ∈ c :: cs, Char.isDigit x = true) :
    stoll (c :: cs) = if Nat.ofDigitChars 10 (c :: cs) 0 < longLongEnd
      then some (Nat.ofDigitChars 10 (c :: cs) 0 : Int) else none := by
  have hc : c.isDigit = true := h c (by simp)
  have hminus : c ≠ '-' := fun he => by simp [he] at hc
  have hplus : c ≠ '+' := fun he => by simp [he] at hc
  have hdrop : (c :: cs).dropWhile isSpace = c :: cs :=
    List.dropWhile_cons_of_neg (by simp [isSpace_of_isDigit hc])
  have htake : (c :: cs).takeWhile Char.isDigit = c :: cs := List.takeWhile_eq_self_iff.mpr h
  rw [stoll, hdrop]
  simp only [List.head?_cons, Option.some.injEq, hminus, hplus, or_self, if_false, htake, reduceCtorEq]

theorem stoll_digits (i : Nat) : stoll (Nat.toDigits 10 i) = if i < longLongEnd then some (i : Int) else none := by
  obtain ⟨c, cs, hds⟩ := List.exists_cons_of_ne_nil (Nat.toDigits_ne_nil (n := i) (b := 10))
  have hall : ∀ x ∈ c :: cs, Char.isDigit x = true := fun x hx => isDigit_of_mem (hds ▸ hx)
  have hval : Nat.ofDigitChars 10 (c :: cs) 0 = i := hds ▸ Nat.ofDigitChars_ten_toDigits
  rw [hds, stoll_of_digits hall, hval]

end names

section listing

variable {env : Env} {cfg : Config} {app : Name} {found : Name → Option Name} {d : Folder} {names : List Name}
  {ks K : List Nat} {k : Nat}

def fresh (k : Nat) : LogFile := ⟨false, 0, k⟩

def entries (ks : List Nat) : Logs := ks.map fun k => (k, fresh k)

/-- What the loop makes of a name: an index, nothing, or an exception. -/
def probe (found : Name → Option Name) (d : Folder) (name : Name) : Option (Option Nat) :=
  match d.lookup name with
  | some (.file _) => match found name with
    | some digits => (stoll digits).map fun n : Int => some (n % UInt64.size).toNat
    | none => some none
  | _ => some none

theorem visit_eq (found : Name → Option Name) (d : Folder) (logs : Logs) (name : Name) :
    visit found d logs name = (probe found d name).map fun o => o.elim logs fun k => assign logs k (fresh k) := by
  unfold visit probe
  cases d.lookup name with
  | none => rfl
  | some x =>
      cases x with
      | other => rfl
      | file c =>
          cases found name with
          | none => rfl
          | some digits => cases hn : stoll digits <;> simp [hn, fresh]

theorem assign_entries (h : ks.Pairwise (· < ·)) (k : Nat) :
    ∃ ks', assign (entries ks) k (fresh k) = entries ks' ∧ ks'.Pairwise (· < ·) ∧ ∀ j, j ∈ ks' ↔ j = k ∨ j ∈ ks := by
  induction ks with
  | nil => exact ⟨[k], rfl, List.pairwise_singleton _ _, by simp⟩
  | cons i ks ih =>
      obtain ⟨hi, hks⟩ := List.pairwise_cons.mp h
      rw [entries, List.map_cons, assign]
      by_cases hlt : k < i
      · refine ⟨k :: i :: ks, by rw [if_pos hlt]; rfl, ?_, by simp⟩
        refine List.pairwise_cons.mpr ⟨fun j hj => ?_, h⟩
        rw [List.mem_cons] at hj
        obtain rfl | hj := hj
        · exact hlt
        · exact hlt.trans (hi j hj)
      by_cases heq : k = i
      · exact ⟨i :: ks, by rw [if_neg hlt, if_pos heq, heq]; rfl, h, by simp [heq]⟩
      obtain ⟨ks', he, hp, hm⟩ := ih hks
      refine ⟨i :: ks', by rw [if_neg hlt, if_neg heq, ← entries, he]; rfl, ?_, fun j => ?_⟩
      · refine List.pairwise_cons.mpr ⟨fun j hj => ?_, hp⟩
        obtain rfl | hj := (hm j).mp hj
        · omega
        · exact hi j hj
      · rw [List.mem_cons, List.mem_cons, hm j]
        tauto

theorem foldlM_visit (h : ks.Pairwise (· < ·)) (hp : ∀ name ∈ names, probe found d name ≠ none) :
    ∃ ks', names.foldlM (visit found d) (entries ks) = some (entries ks') ∧ ks'.Pairwise (· < ·) ∧
      ∀ j, j ∈ ks' ↔ j ∈ ks ∨ ∃ name ∈ names, probe found d name = some (some j) := by
  induction names generalizing ks with
  | nil => exact ⟨ks, rfl, h, by simp⟩
  | cons name names ih =>
      have hrest : ∀ name ∈ names, probe found d name ≠ none := fun name hn => hp name (by simp [hn])
      obtain ⟨o, ho⟩ := Option.ne_none_iff_exists'.mp (hp name (by simp))
      cases o with
      | none =>
          obtain ⟨ks', he, hs, hm⟩ := ih h hrest
          refine ⟨ks', ?_, hs, fun j => ?_⟩
          · rw [List.foldlM_cons, visit_eq, ho]
            exact he
          · rw [hm j]
            simp [ho]
      | some k =>
          obtain ⟨ks₁, he₁, hs₁, hm₁⟩ := assign_entries h k
          obtain ⟨ks', he, hs, hm⟩ := ih hs₁ hrest
          refine ⟨ks', ?_, hs, fun j => ?_⟩
          · rw [List.foldlM_cons, visit_eq, ho, Option.map_some, Option.elim_some, he₁]
            exact he
          · rw [hm j, hm₁ j]
            simp only [List.mem_cons, exists_eq_or_imp, ho, Option.some.injEq, eq_comm (a := j)]
            tauto

theorem foldlM_visit_threw {name : Name} (hn : name ∈ names) (hp : probe found d name = none) (logs : Logs) :
    names.foldlM (visit found d) logs = none := by
  induction names generalizing logs with
  | nil => cases hn
  | cons name' names ih =>
      rw [List.foldlM_cons, visit_eq]
      rw [List.mem_cons] at hn
      obtain rfl | hn := hn
      · rw [hp]
        rfl
      · cases probe found d name' with
        | none => rfl
        | some o => exact ih hn _

/-- The pattern of the application finds, among the files there are, those with an index
in their names and no others. -/
structure Finds (env : Env) (app : Name) (d : Folder) (found : Name → Option Name) : Prop where
  pattern : regex env app = some found
  numbered : ∀ i c, 1 ≤ i → d.lookup (logName app i) = some (.file c) →
    '/' ∉ logName app i ∧ found (logName app i) = some (Nat.toDigits 10 i)
  only : ∀ name c ds, d.lookup name = some (.file c) → found name = some ds → ∃ i, 1 ≤ i ∧ name = logName app i

/-- A plain app name is found by its pattern, as long as no index is written with zeros before it. -/
theorem finds_plain (hp : Plain app) (hc : ∀ name c ds, d.lookup name = some (.file c) →
    matchLog app name = some ds → ∃ i, 1 ≤ i ∧ name = logName app i) : Finds env app d (matchLog app) where
  pattern := if_pos hp
  numbered i _ hi _ := ⟨slash_notMem hp i, matchLog_logName app hi⟩
  only := hc

theorem probe_numbered (hf : Finds env app d found) {i : Nat} {c : Bytes} (hi : 1 ≤ i)
    (hc : d.lookup (logName app i) = some (.file c)) :
    probe found d (logName app i) = if i < longLongEnd then some (some i) else none := by
  rw [probe, hc]
  simp only [(hf.numbered i c hi hc).2, stoll_digits]
  by_cases h : i < longLongEnd
  · rw [if_pos h, if_pos h, Option.map_some]
    have hm : ((i : Int) % UInt64.size).toNat = i := by
      rw [longLongEnd] at h
      simp only [UInt64.size]
      omega
    rw [hm]
  · rw [if_neg h, if_neg h, Option.map_none]

theorem probe_other (hf : Finds env app d found) {name : Name} (hn : probe found d name ≠ some none) :
    ∃ i c, 1 ≤ i ∧ name = logName app i ∧ d.lookup (logName app i) = some (.file c) := by
  rw [probe] at hn
  split at hn
  case h_1 c hl =>
      split at hn
      case h_1 ds hd =>
          obtain ⟨i, hi, rfl⟩ := hf.only name c ds hl hd
          exact ⟨i, c, hi, rfl, hl⟩
      case h_2 => exact absurd rfl hn
  case h_2 => exact absurd rfl hn

theorem mem_listed (hf : Finds env app d found) {i : Nat} {c : Bytes} (hi : 1 ≤ i)
    (hc : d.lookup (logName app i) = some (.file c)) : logName app i ∈ d.keys.filter ('/' ∉ ·) := by
  rw [List.mem_filter]
  refine ⟨?_, by simpa using (hf.numbered i c hi hc).1⟩
  rw [← AList.mem_keys, ← AList.lookup_isSome, hc]
  rfl

theorem listLogs_finds (hf : Finds env cfg.appName d found) (hK : K.Pairwise (· < ·))
    (hmem : ∀ i, i ∈ K ↔ 1 ≤ i ∧ ∃ c, d.lookup (logName cfg.appName i) = some (.file c))
    (hsmall : ∀ i ∈ K, i < longLongEnd) : listLogs env cfg false d = some (entries K) := by
  have hprobe : ∀ i c, 1 ≤ i → d.lookup (logName cfg.appName i) = some (.file c) →
      probe found d (logName cfg.appName i) = some (some i) := by
    intro i c hi hc
    rw [probe_numbered hf hi hc, if_pos (hsmall i ((hmem i).mpr ⟨hi, c, hc⟩))]
  have hall : ∀ name ∈ d.keys.filter ('/' ∉ ·), probe found d name ≠ none := by
    intro name _ hn
    obtain ⟨i, c, hi, rfl, hc⟩ := probe_other hf (by simp [hn] : probe found d name ≠ some none)
    rw [hprobe i c hi hc] at hn
    cases hn
  obtain ⟨ks, he, hs, hm⟩ := foldlM_visit List.Pairwise.nil hall
  have hks : ks = K := by
    refine hs.eq_of_mem_iff hK fun j => ?_
    rw [hm j, hmem j]
    constructor
    · rintro (hj | ⟨name, _, hj⟩)
      · cases hj
      · obtain ⟨i, c, hi, rfl, hc⟩ := probe_other hf (by simp [hj] : probe found d name ≠ some none)
        rw [hprobe i c hi hc, Option.some.injEq, Option.some.injEq] at hj
        exact hj ▸ ⟨hi, c, hc⟩
    · rintro ⟨hj, c, hc⟩
      exact Or.inr ⟨logName cfg.appName j, mem_listed hf hj hc, hprobe j c hj hc⟩
  rw [listLogs, hf.pattern, ← hks, ← he]
  rfl

theorem listLogs_threw (hf : Finds env cfg.appName d found) {i : Nat} {c : Bytes} (hi : longLongEnd ≤ i)
    (hc : d.lookup (logName cfg.appName i) = some (.file c)) : listLogs env cfg false d = none := by
  have hpos : 1 ≤ i := le_trans (by decide) hi
  have hp : probe found d (logName cfg.appName i) = none := by
    rw [probe_numbered hf hpos hc, if_neg (Nat.not_lt.mpr hi)]
  have ht := foldlM_visit_threw (mem_listed hf hpos hc) hp []
  rw [listLogs, hf.pattern, ← ht]
  rfl

end listing

end Enigma.FileSinkListing
