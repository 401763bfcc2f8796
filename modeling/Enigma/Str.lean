import Enigma.Loop
import Enigma.Pattern

namespace Enigma.Str

open Loop Pattern

abbrev Bytes := List UInt8

def find (s d : Bytes) (pos : Nat) : Option Nat :=
  if pos ≤ s.length then (Pattern.find d (s.drop pos)).map (pos + ·) else none

/-- std::string::substr; no answer stands for std::out_of_range. -/
def substr (s : Bytes) (pos n : Nat) : Option Bytes :=
  if pos ≤ s.length then some ((s.drop pos).take n) else none

structure SplitState where
  prev : Nat
  tokens : List Bytes

/-- A round of the loop of split, with its test at the end. -/
def splitBody (s d : Bytes) (keepEmpty : Bool) (st : SplitState) : SplitState ⊕ Option (List Bytes) :=
  let pos := (find s d st.prev).getD s.length
  match substr s st.prev (pos - st.prev) with
  | none => .inr none
  | some token =>
    let tokens := if token ≠ [] ∨ keepEmpty then st.tokens ++ [token] else st.tokens
    let prev := pos + d.length
    if pos < s.length ∧ prev < s.length then .inl ⟨prev, tokens⟩ else .inr (some tokens)

def split (fuel : Nat) (s d : Bytes) (keepEmpty : Bool) : Option (Option (List Bytes)) :=
  if s = [] then some (some []) else iterate (splitBody s d keepEmpty) fuel ⟨0, []⟩

structure ReplaceState where
  str : Bytes
  startPos : Nat

def replaceBody (old new : Bytes) (st : ReplaceState) : ReplaceState ⊕ Bytes :=
  match find st.str old st.startPos with
  | none => .inr st.str
  | some pos =>
    .inl ⟨st.str.take pos ++ new ++ st.str.drop (pos + old.length), pos + new.length⟩

def replace (fuel : Nat) (s old new : Bytes) : Option Bytes := iterate (replaceBody old new) fuel ⟨s, 0⟩

variable {s d old new t : Bytes} {keepEmpty : Bool} {fuel pos : Nat}

theorem find_eq (h : pos ≤ s.length) : find s d pos = (cut d (s.drop pos)).map fun p => pos + p.1.length := by
  rw [find, if_pos h, cut, Option.map_map]
  refine Option.map_congr fun i hi => ?_
  rw [Function.comp_apply, List.length_take_of_le (find_le hi)]

theorem find_none (h : pos ≤ s.length) (hc : cut d (s.drop pos) = none) : find s d pos = none := by
  rw [find_eq h, hc]
  rfl

theorem find_some {post : Bytes} (h : pos ≤ s.length) (hc : cut d (s.drop pos) = some (t, post)) :
    find s d pos = some (pos + t.length) := by
  rw [find_eq h, hc]
  rfl

section Cut

variable {post : Bytes} (hd : d ≠ []) (hc : cut d (s.drop pos) = some (t, post))
include hd hc

theorem drop_cut : s.drop pos = t ++ (d ++ post) := (cut_some hd hc).1

theorem length_cut : pos + t.length + d.length + post.length = s.length := by
  have hl := congrArg List.length (drop_cut hd hc)
  have hpos := List.length_pos_iff.mpr hd
  simp only [List.length_drop, List.length_append] at hl
  omega

theorem take_cut : s.take (pos + t.length) = s.take pos ++ t := by
  rw [List.take_add, drop_cut hd hc, List.take_left]

theorem drop_after_cut : s.drop (pos + t.length + d.length) = post := by
  rw [← List.drop_drop, ← List.drop_drop, drop_cut hd hc, List.drop_left, List.drop_left]

end Cut

/-- The piece before an occurrence is kept when it is not empty, or when all are. -/
def keep (keepEmpty : Bool) (token : Bytes) : List Bytes := if token ≠ [] ∨ keepEmpty then [token] else []

/-- What the loop of split keeps, from the left; what is after the last delimiter is there
only when it is not empty. -/
def kept (d : Bytes) (keepEmpty : Bool) : Bytes → List Bytes :=
  scan d (fun s => if s = [] then [] else [s]) fun token tokens => keep keepEmpty token ++ tokens

theorem append_keep (tokens : List Bytes) :
    (if t ≠ [] ∨ keepEmpty then tokens ++ [t] else tokens) = tokens ++ keep keepEmpty t := by
  rw [keep]
  split <;> simp

theorem splitBody_none {st : SplitState} (h : st.prev < s.length) (hc : cut d (s.drop st.prev) = none) :
    splitBody s d keepEmpty st = .inr (some (st.tokens ++ [s.drop st.prev])) := by
  have hne : s.drop st.prev ≠ [] := by simpa using h
  have hall : (s.drop st.prev).take (s.length - st.prev) = s.drop st.prev := by simp
  simp [splitBody, find_none h.le hc, substr, h.le, hall, hne]

theorem splitBody_some {st : SplitState} {post : Bytes} (hd : d ≠ []) (h : st.prev < s.length)
    (hc : cut d (s.drop st.prev) = some (t, post)) :
    splitBody s d keepEmpty st =
      if post = [] then .inr (some (st.tokens ++ keep keepEmpty t))
      else .inl ⟨st.prev + t.length + d.length, st.tokens ++ keep keepEmpty t⟩ := by
  have hl := length_cut hd hc
  have hpos := List.length_pos_iff.mpr hd
  have hpost : st.prev + t.length < s.length ∧ st.prev + t.length + d.length < s.length ↔ ¬post = [] := by
    rw [← List.length_eq_zero_iff]
    omega
  have htoken : (s.drop st.prev).take t.length = t := by rw [drop_cut hd hc, List.take_left]
  rw [splitBody, find_some h.le hc, substr, if_pos h.le]
  simp only [Option.getD_some, Nat.add_sub_cancel_left, htoken, append_keep, hpost, ite_not]

theorem kept_nil (hd : d ≠ []) : kept d keepEmpty [] = [] := by
  rw [kept, scan_none (by simp [cut, Pattern.find, hd])]
  rfl

def splitRest (s d : Bytes) (keepEmpty : Bool) (st : SplitState) : Option (List Bytes) :=
  some (st.tokens ++ kept d keepEmpty (s.drop st.prev))

theorem splitBody_next {st st' : SplitState} (hd : d ≠ []) (h : st.prev < s.length)
    (hb : splitBody s d keepEmpty st = .inl st') :
    st'.prev < s.length ∧ st.prev < st'.prev ∧ splitRest s d keepEmpty st' = splitRest s d keepEmpty st := by
  cases hc : cut d (s.drop st.prev) with
  | none =>
      rw [splitBody_none h hc] at hb
      cases hb
  | some p =>
      obtain ⟨token, post⟩ := p
      rw [splitBody_some hd h hc] at hb
      split at hb
      case isTrue => cases hb
      case isFalse hpost =>
          cases hb
          have hl := length_cut hd hc
          have hpos := List.length_pos_iff.mpr hd
          have hne := List.length_pos_iff.mpr hpost
          have hlt : st.prev + token.length + d.length < s.length := by omega
          have hgt : st.prev < st.prev + token.length + d.length := by omega
          refine ⟨hlt, hgt, ?_⟩
          rw [splitRest, splitRest, drop_after_cut hd hc, kept, scan_some hd hc, List.append_assoc]

theorem splitBody_exit {st : SplitState} {r : Option (List Bytes)} (hd : d ≠ []) (h : st.prev < s.length)
    (hb : splitBody s d keepEmpty st = .inr r) : r = splitRest s d keepEmpty st := by
  cases hc : cut d (s.drop st.prev) with
  | none =>
      have hne : s.drop st.prev ≠ [] := by simpa using h
      rw [splitBody_none h hc] at hb
      cases hb
      rw [splitRest, kept, scan_none hc, if_neg hne]
  | some p =>
      obtain ⟨token, post⟩ := p
      rw [splitBody_some hd h hc] at hb
      split at hb
      case isTrue hpost =>
          cases hb
          rw [splitRest, kept, scan_some hd hc, ← kept, hpost, kept_nil hd, List.append_nil]
      case isFalse => cases hb

theorem split_eq (hd : d ≠ []) (hf : s.length < fuel) :
    split fuel s d keepEmpty = some (some (kept d keepEmpty s)) := by
  by_cases hs : s = []
  · rw [split, if_pos hs, hs, kept_nil hd]
  · rw [split, if_neg hs]
    refine iterate_eq (I := fun st => st.prev < s.length) (f := splitRest s d keepEmpty)
      (fun st => s.length - st.prev) (fun st st' hst hb => ?_) (fun st r hst hb => splitBody_exit hd hst hb)
      (List.length_pos_iff.mpr hs) hf
    obtain ⟨hst', hlt, hr⟩ := splitBody_next hd hst hb
    exact ⟨hst', by omega, hr⟩

/-! ### Without the empty tokens -/

/-- The recursive reference: what is before the first delimiter, when it is not empty, and
then the tokens after it. -/
def tokens (d : Bytes) : Bytes → List Bytes :=
  scan d (fun s => if s = [] then [] else [s]) fun pre ts => if pre = [] then ts else pre :: ts

theorem kept_false : kept d false s = tokens d s := by
  rw [kept, tokens]
  congr 1
  funext pre ts
  by_cases h : pre = [] <;> simp [keep, h]

theorem tokens_eq_filter (hd : d ≠ []) (s : Bytes) : tokens d s = (pieces d s).filter (· ≠ []) := by
  induction s using cut_induction hd with
  | hnone s h =>
      rw [tokens, pieces, scan_none h, scan_none h]
      by_cases hs : s = [] <;> simp [hs]
  | hsome s pre post h ih =>
      rw [tokens, pieces, scan_some hd h, scan_some hd h, ← tokens, ← pieces, ih]
      by_cases hp : pre = [] <;> simp [hp]

theorem mem_tokens (hd : d ≠ []) (ht : t ∈ tokens d s) : t ≠ [] ∧ ¬d <:+: t := by
  rw [tokens_eq_filter hd, List.mem_filter] at ht
  exact ⟨by simpa using ht.2, not_infix_of_mem_pieces hd ht.1⟩

/-- Split gives the tokens of the reference, and with every fuel beyond the length. -/
theorem split_tokens (hd : d ≠ []) (hf : s.length < fuel) :
    split fuel s d false = some (some (tokens d s)) ∧ tokens d s = (pieces d s).filter (· ≠ []) ∧
      ∀ t ∈ tokens d s, t ≠ [] ∧ ¬d <:+: t :=
  ⟨by rw [split_eq hd hf, kept_false], tokens_eq_filter hd s, fun _ ht => mem_tokens hd ht⟩

theorem split_tokens_overlap :
    split 6 [97, 97, 97, 98, 97] [97, 97] false = some (some (tokens [97, 97] [97, 97, 97, 98, 97])) ∧
      tokens [97, 97] [97, 97, 97, 98, 97] = (pieces [97, 97] [97, 97, 97, 98, 97]).filter (· ≠ []) ∧
      ∀ t ∈ tokens [97, 97] [97, 97, 97, 98, 97], t ≠ [] ∧ ¬[97, 97] <:+: t :=
  split_tokens (by decide) (by decide)

/-! ### With the empty tokens -/

theorem kept_true (hd : d ≠ []) (s : Bytes) :
    kept d true s = if tail d s = [] then (pieces d s).dropLast else pieces d s := by
  induction s using cut_induction hd with
  | hnone s h =>
      rw [kept, pieces, tail, scan_none h, scan_none h, scan_none h]
      rfl
  | hsome s pre post h ih =>
      rw [kept, pieces, tail, scan_some hd h, scan_some hd h, scan_some hd h, ← kept, ← pieces, ← tail, ih,
        List.dropLast_cons_of_ne_nil (pieces_ne_nil hd post)]
      split <;> simp [keep]

/-- Without the empty last piece the tokens do not make the text again: a delimiter is missing. -/
theorem intercalate_dropLast_ne (hs : s ≠ []) (hd : d ≠ []) (h : tail d s = []) :
    List.intercalate d (pieces d s).dropLast ≠ s := by
  intro he
  have hp := dropLast_pieces hd s
  have hj := intercalate_pieces_self hd s
  by_cases hn : (pieces d s).dropLast = []
  · rw [← hp, hn, h] at hj
    exact hs (by simpa using hj.symm)
  · rw [← hp, intercalate_concat hn, h, he, List.append_nil] at hj
    exact hd (by simpa using hj)

/-- The tokens with the delimiter between them are the text, and one more than the delimiters,
exactly when the text does not end with the last delimiter of the scan. -/
theorem split_joined (hs : s ≠ []) (hd : d ≠ []) (hf : s.length < fuel) :
    ∃ ts, split fuel s d true = some (some ts) ∧ (List.intercalate d ts = s ↔ tail d s ≠ []) ∧
      (ts.length = occurrences d s + 1 ↔ tail d s ≠ []) := by
  refine ⟨kept d true s, split_eq hd hf, ?_⟩
  have hl := length_pieces hd s
  rw [kept_true hd]
  split
  case isTrue h =>
      refine ⟨iff_of_false (intercalate_dropLast_ne hs hd h) (not_not.mpr h),
        iff_of_false ?_ (not_not.mpr h)⟩
      rw [List.length_dropLast]
      omega
  case isFalse h => exact ⟨iff_of_true (intercalate_pieces_self hd s) h, iff_of_true hl h⟩

theorem split_joined_inner : ∃ ts, split 5 [97, 44, 44, 98] [44] true = some (some ts) ∧
    (List.intercalate [44] ts = [97, 44, 44, 98] ↔ tail [(44 : UInt8)] [97, 44, 44, 98] ≠ []) ∧
      (ts.length = occurrences [(44 : UInt8)] [97, 44, 44, 98] + 1 ↔ tail [(44 : UInt8)] [97, 44, 44, 98] ≠ []) :=
  split_joined (by decide) (by decide) (by decide)

theorem split_loses_last : split 3 [97, 44] [44] true = some (some [[97]]) ∧
    List.intercalate [44] [[(97 : UInt8)]] ≠ [97, 44] := by decide

/-! ### Replacing -/

def replaceRest (old new : Bytes) (st : ReplaceState) : Bytes :=
  st.str.take st.startPos ++ substitute old new (st.str.drop st.startPos)

theorem replaceBody_exit {st : ReplaceState} {r : Bytes} (h : st.startPos ≤ st.str.length)
    (hb : replaceBody old new st = .inr r) : r = replaceRest old new st := by
  cases hc : cut old (st.str.drop st.startPos) with
  | none =>
      rw [replaceBody, find_none h hc] at hb
      cases hb
      rw [replaceRest, substitute, scan_none hc]
      exact (List.take_append_drop _ _).symm
  | some p =>
      rw [replaceBody, find_some h hc] at hb
      cases hb

theorem replaceBody_next {st st' : ReplaceState} (hold : old ≠ []) (h : st.startPos ≤ st.str.length)
    (hb : replaceBody old new st = .inl st') :
    st'.startPos ≤ st'.str.length ∧
      (st'.str.drop st'.startPos).length < (st.str.drop st.startPos).length ∧
      replaceRest old new st' = replaceRest old new st := by
  cases hc : cut old (st.str.drop st.startPos) with
  | none =>
      rw [replaceBody, find_none h hc] at hb
      cases hb
  | some p =>
      obtain ⟨pre, post⟩ := p
      rw [replaceBody, find_some h hc] at hb
      cases hb
      have hl := length_cut hold hc
      have hpos := List.length_pos_iff.mpr hold
      have hdone : (st.str.take (st.startPos + pre.length) ++ new).length =
          st.startPos + pre.length + new.length := by
        rw [List.length_append, List.length_take_of_le (by omega)]
      rw [drop_after_cut hold hc, replaceRest, replaceRest, substitute, scan_some hold hc, ← substitute]
      dsimp only
      rw [← hdone, List.drop_left, List.take_left, @List.length_append _ _ post, List.length_drop]
      refine ⟨Nat.le_add_right _ _, by omega, ?_⟩
      rw [take_cut hold hc]
      simp only [List.append_assoc]

theorem find_nil (h : pos ≤ s.length) : find s [] pos = some pos := by
  rw [find, if_pos h]
  cases s.drop pos <;> simp [Pattern.find]

theorem split_nil (hs : s ≠ []) : split fuel s [] keepEmpty = none := by
  rw [split, if_neg hs]
  refine iterate_eq_none (I := fun st => st.prev < s.length) (fun st hst => ?_)
    (List.length_pos_iff.mpr hs) fuel
  rw [splitBody, find_nil hst.le, substr, if_pos hst.le]
  simp [hst]

theorem replace_nil : replace fuel s [] new = none := by
  refine iterate_eq_none (I := fun st => st.startPos ≤ st.str.length) (fun st hst => ?_) (Nat.zero_le _) fuel
  rw [replaceBody, find_nil hst]
  refine ⟨_, rfl, ?_⟩
  simp only [List.length_append, List.length_take, List.length_drop]
  omega

end Enigma.Str
