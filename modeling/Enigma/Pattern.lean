import Mathlib.Data.List.Infix

namespace Enigma.Pattern

variable {α β : Type}

theorem intercalate_concat {ts : List (List α)} (h : ts ≠ []) (d t : List α) :
    List.intercalate d (ts ++ [t]) = List.intercalate d ts ++ d ++ t := by
  induction ts with
  | nil => exact absurd rfl h
  | cons u us ih =>
      cases us with
      | nil => simp
      | cons v vs =>
          have hvs : v :: vs ≠ [] := List.cons_ne_nil v vs
          rw [List.cons_append, List.intercalate_cons_of_ne_nil (List.append_ne_nil_of_left_ne_nil hvs _),
            ih hvs, List.intercalate_cons_of_ne_nil hvs]
          simp only [List.append_assoc]

variable [DecidableEq α]

def find (d : List α) : List α → Option Nat
  | [] => if d = [] then some 0 else none
  | c :: s => if d <+: c :: s then some 0 else (find d s).map (· + 1)

/-- What is before the first occurrence of the pattern, and what is after it. -/
def cut (d s : List α) : Option (List α × List α) :=
  (find d s).map fun i => (s.take i, s.drop (i + d.length))

variable {d s pre post : List α} {i : Nat}

theorem find_some (hd : d ≠ []) (h : find d s = some i) :
    s = s.take i ++ (d ++ s.drop (i + d.length)) ∧ ¬d <:+: s.take i := by
  induction s generalizing i with
  | nil => simp [find, hd] at h
  | cons c s ih =>
      rw [find] at h
      by_cases hp : d <+: c :: s
      · rw [if_pos hp, Option.some.injEq] at h
        subst h
        obtain ⟨t, ht⟩ := hp
        refine ⟨?_, by simpa using hd⟩
        rw [← ht, Nat.zero_add, List.drop_left]
        rfl
      · rw [if_neg hp, Option.map_eq_some_iff] at h
        obtain ⟨j, hj, rfl⟩ := h
        obtain ⟨hs, hfirst⟩ := ih hj
        refine ⟨?_, fun hin => ?_⟩
        · rw [show j + 1 + d.length = j + d.length + 1 by omega, List.take_succ_cons, List.drop_succ_cons,
            List.cons_append, ← hs]
        · rw [List.take_succ_cons, List.infix_cons_iff] at hin
          rcases hin with hpre | hin
          · have hle : c :: s.take j <+: c :: s := by simpa using List.take_prefix j s
            exact hp (hpre.trans hle)
          · exact hfirst hin

theorem find_none (h : find d s = none) : ¬d <:+: s := by
  induction s with
  | nil =>
      rw [find] at h
      split at h
      case isTrue => cases h
      case isFalse hd => simpa using hd
  | cons c s ih =>
      rw [find] at h
      split at h
      case isTrue => cases h
      case isFalse hp =>
          rw [List.infix_cons_iff, not_or]
          exact ⟨hp, ih (by simpa using h)⟩

theorem find_le (h : find d s = some i) : i ≤ s.length := by
  induction s generalizing i with
  | nil =>
      rw [find] at h
      split at h
      case isTrue =>
          cases h
          exact Nat.zero_le _
      case isFalse => cases h
  | cons c s ih =>
      rw [find] at h
      split at h
      case isTrue =>
          cases h
          exact Nat.zero_le _
      case isFalse =>
          obtain ⟨j, hj, rfl⟩ := Option.map_eq_some_iff.mp h
          exact Nat.succ_le_succ (ih hj)

theorem cut_some (hd : d ≠ []) (h : cut d s = some (pre, post)) : s = pre ++ (d ++ post) ∧ ¬d <:+: pre := by
  obtain ⟨i, hi, he⟩ := Option.map_eq_some_iff.mp h
  cases he
  exact find_some hd hi

theorem cut_none (h : cut d s = none) : ¬d <:+: s := find_none (by simpa [cut] using h)

theorem cut_shorter (hd : d ≠ []) {p : List α × List α} (h : cut d s = some p) : p.2.length < s.length := by
  have hs := congrArg List.length (cut_some hd (h : cut d s = some (p.1, p.2))).1
  have hpos := List.length_pos_iff.mpr hd
  simp only [List.length_append] at hs
  omega

def scan (d : List α) (last : List α → β) (piece : List α → β → β) (s : List α) : β :=
  if hd : d = [] then last s
  else match h : cut d s with
    | none => last s
    | some p =>
        have : p.2.length < s.length := cut_shorter hd h
        piece p.1 (scan d last piece p.2)
termination_by s.length

variable {last : List α → β} {piece : List α → β → β}

theorem scan_none (h : cut d s = none) : scan d last piece s = last s := by
  rw [scan]
  split
  case isTrue => rfl
  case isFalse =>
      split
      case h_1 => rfl
      case h_2 p hp =>
          rw [h] at hp
          cases hp

theorem scan_some (hd : d ≠ []) (h : cut d s = some (pre, post)) :
    scan d last piece s = piece pre (scan d last piece post) := by
  rw [scan, dif_neg hd]
  split
  case h_1 hn =>
      rw [h] at hn
      cases hn
  case h_2 p hp =>
      rw [h] at hp
      cases hp
      rfl

theorem cut_induction (hd : d ≠ []) {P : List α → Prop} (hnone : ∀ s, cut d s = none → P s)
    (hsome : ∀ s pre post, cut d s = some (pre, post) → P post → P s) (s : List α) : P s := by
  induction hn : s.length using Nat.strong_induction_on generalizing s with
  | _ n ih =>
      cases h : cut d s with
      | none => exact hnone s h
      | some p =>
          exact hsome s p.1 p.2 h (ih p.2.length (hn ▸ cut_shorter hd h) p.2 rfl)

def pieces (d : List α) : List α → List (List α) := scan d (fun s => [s]) List.cons

def occurrences (d : List α) : List α → Nat := scan d (fun _ => 0) fun _ n => n + 1

def tail (d : List α) : List α → List α := scan d id fun _ r => r

def substitute (d t : List α) : List α → List α := scan d id fun pre r => pre ++ t ++ r

theorem length_pieces (hd : d ≠ []) (s : List α) : (pieces d s).length = occurrences d s + 1 := by
  induction s using cut_induction hd with
  | hnone s h => rw [pieces, occurrences, scan_none h, scan_none h, List.length_singleton]
  | hsome s pre post h ih =>
      rw [pieces, occurrences, scan_some hd h, scan_some hd h, List.length_cons]
      exact congrArg (· + 1) ih

theorem pieces_ne_nil (hd : d ≠ []) (s : List α) : pieces d s ≠ [] := by
  have hl := length_pieces hd s
  exact List.ne_nil_of_length_pos (by omega)

theorem getLast?_pieces (hd : d ≠ []) (s : List α) : (pieces d s).getLast? = some (tail d s) := by
  induction s using cut_induction hd with
  | hnone s h =>
      rw [pieces, tail, scan_none h, scan_none h]
      rfl
  | hsome s pre post h ih =>
      rw [pieces, tail, scan_some hd h, scan_some hd h, ← pieces, ← tail, ← ih]
      exact List.getLast?_cons_of_ne_nil (pieces_ne_nil hd post)

theorem dropLast_pieces (hd : d ≠ []) (s : List α) : (pieces d s).dropLast ++ [tail d s] = pieces d s :=
  List.dropLast_append_getLast? _ (getLast?_pieces hd s)

theorem intercalate_pieces (hd : d ≠ []) (t s : List α) :
    List.intercalate t (pieces d s) = substitute d t s := by
  induction s using cut_induction hd with
  | hnone s h =>
      rw [pieces, substitute, scan_none h, scan_none h]
      simp
  | hsome s pre post h ih =>
      rw [pieces, substitute, scan_some hd h, scan_some hd h, ← pieces, ← substitute,
        List.intercalate_cons_of_ne_nil (pieces_ne_nil hd post), ih]

theorem substitute_self (hd : d ≠ []) (s : List α) : substitute d d s = s := by
  induction s using cut_induction hd with
  | hnone s h =>
      rw [substitute, scan_none h]
      rfl
  | hsome s pre post h ih =>
      rw [substitute, scan_some hd h, ← substitute, ih, List.append_assoc, ← (cut_some hd h).1]

theorem intercalate_pieces_self (hd : d ≠ []) (s : List α) : List.intercalate d (pieces d s) = s := by
  rw [intercalate_pieces hd, substitute_self hd]

theorem not_infix_of_mem_pieces (hd : d ≠ []) {t : List α} (ht : t ∈ pieces d s) : ¬d <:+: t := by
  induction s using cut_induction hd with
  | hnone s h =>
      rw [pieces, scan_none h, List.mem_singleton] at ht
      exact ht ▸ cut_none h
  | hsome s pre post h ih =>
      rw [pieces, scan_some hd h, List.mem_cons] at ht
      obtain rfl | ht := ht
      · exact (cut_some hd h).2
      · exact ih ht

end Enigma.Pattern
