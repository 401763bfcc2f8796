import Mathlib.Data.List.Basic

namespace Enigma.Shelf

variable {α : Type} {m turns : Nat} {a : α} {ls : List (List α)} {done : List α}

/-- What is on the shelf, piece after piece. The newest piece comes first in the list. -/
def all (ls : List (List α)) : List α := ls.reverse.flatten

def put (a : α) : List (List α) → List (List α)
  | [] => [[a]]
  | l :: ls => (l ++ [a]) :: ls

/-- A new piece, and room for m in all. -/
def turn (m : Nat) (ls : List (List α)) : List (List α) := ([] :: ls).take m

def oldest (ls : List (List α)) : List α := ls.getLast?.getD []

theorem length_put (hne : ls ≠ []) (a : α) : (put a ls).length = ls.length := by
  cases ls with
  | nil => exact absurd rfl hne
  | cons l ls => rfl

theorem length_turn (m : Nat) (ls : List (List α)) : (turn m ls).length = min m (ls.length + 1) := by
  rw [turn, List.length_take, List.length_cons]

theorem all_put (a : α) (ls : List (List α)) : all (put a ls) = all ls ++ [a] := by
  cases ls with
  | nil => rfl
  | cons l ls => simp [all, put]

theorem all_turn_of_lt (h : ls.length < m) : all (turn m ls) = all ls := by
  rw [turn, List.take_of_length_le (by rw [List.length_cons]; omega), all, all, List.reverse_cons,
    List.flatten_append]
  simp

theorem oldest_turn (h : ls.length = m) (hm : 0 < m) : oldest ls ++ all (turn m ls) = all ls := by
  obtain ⟨init, l, rfl⟩ := List.eq_nil_or_concat' ls |>.resolve_left fun he => by
    rw [he, List.length_nil] at h
    omega
  have ht : turn m (init ++ [l]) = [] :: init := by
    rw [turn, ← h, List.length_append, List.length_singleton, ← List.cons_append,
      List.take_left' (by rw [List.length_cons])]
  rw [ht]
  simp [oldest, all]

theorem oldest_put (hne : ls ≠ []) (a : α) : oldest (put a ls) = oldest ls ++ if ls.length = 1 then [a] else [] := by
  cases ls with
  | nil => exact absurd rfl hne
  | cons l ls =>
      cases ls with
      | nil => rfl
      | cons l' ls => simp [oldest, put]

/-- What is new comes last, and if there are m pieces, the oldest of them can go. -/
def Extends (m : Nat) (ls ls' : List (List α)) (new : List α) : Prop :=
  ∃ old, old ++ all ls' = all ls ++ new ∧
    (old = [] ∨ m ≤ ls.length ∧ old = oldest ls ++ if ls.length = 1 then new else [])

theorem Extends.same (m : Nat) (ls : List (List α)) : Extends m ls ls [] := ⟨[], by simp, .inl rfl⟩

theorem extends_put (m : Nat) (ls : List (List α)) (a : α) : Extends m ls (put a ls) [a] :=
  ⟨[], by rw [all_put, List.nil_append], .inl rfl⟩

theorem extends_turn (hm : 0 < m) (hroom : ls.length ≤ m) : Extends m ls (turn m ls) [] := by
  by_cases hlt : ls.length < m
  · exact ⟨[], by rw [all_turn_of_lt hlt, List.nil_append, List.append_nil], .inl rfl⟩
  · have hfull : ls.length = m := by omega
    exact ⟨oldest ls, by rw [oldest_turn hfull hm, List.append_nil], .inr ⟨Nat.le_of_eq hfull.symm, by simp⟩⟩

theorem Extends.suffix {ls' : List (List α)} {new : List α} (h : Extends m ls ls' new) {k : Nat} (hk : k ≤ done.length)
    (hall : all ls = done.drop k) : ∃ k', k' ≤ (done ++ new).length ∧ all ls' = (done ++ new).drop k' := by
  obtain ⟨old, hold, -⟩ := h
  have hwhole : old ++ all ls' = (done ++ new).drop k := by rw [hold, hall, List.drop_append_of_le_length hk]
  have hlen := congrArg List.length hwhole
  rw [List.length_append, List.length_drop] at hlen
  rw [List.length_append] at hlen
  refine ⟨k + old.length, ?_, by rw [← List.drop_drop, ← hwhole, List.drop_left]⟩
  rw [List.length_append]
  omega

theorem Extends.of_put {ls' : List (List α)} (hne : ls ≠ []) (h : Extends m (put a ls) ls' []) : Extends m ls ls' [a] := by
  obtain ⟨old, hold, hcase⟩ := h
  refine ⟨old, by rw [hold, all_put, List.append_nil], ?_⟩
  rcases hcase with hnil | ⟨hfull, holdest⟩
  · exact .inl hnil
  · rw [length_put hne] at hfull
    rw [oldest_put hne] at holdest
    exact .inr ⟨hfull, by simpa using holdest⟩

/-- The shelf holds the end of what was ever put there, and all of it before the first piece
had to go. -/
structure Keeps (m : Nat) (ls : List (List α)) (done : List α) (turns : Nat) : Prop where
  length : ls.length = min (turns + 1) m
  suffix : ∃ k, k ≤ done.length ∧ all ls = done.drop k ∧ (turns < m → k = 0)

theorem Keeps.start (hm : 0 < m) : Keeps m [[]] ([] : List α) 0 where
  length := by rw [List.length_singleton]; omega
  suffix := ⟨0, by simp, rfl, fun _ => rfl⟩

theorem Keeps.ne_nil (h : Keeps m ls done turns) (hm : 0 < m) : ls ≠ [] := by
  have hl := h.length
  rintro rfl
  rw [List.length_nil] at hl
  omega

theorem Keeps.put (h : Keeps m ls done turns) (hm : 0 < m) (a : α) :
    Keeps m (put a ls) (done ++ [a]) turns := by
  obtain ⟨k, hk, hall, hzero⟩ := h.suffix
  refine ⟨(length_put (h.ne_nil hm) a).trans h.length, k, ?_, ?_, hzero⟩
  · rw [List.length_append]
    omega
  · rw [all_put, hall, List.drop_append_of_le_length hk]

theorem Keeps.turn (h : Keeps m ls done turns) (hm : 0 < m) : Keeps m (turn m ls) done (turns + 1) := by
  have hl := h.length
  obtain ⟨k, hk, hall, hzero⟩ := h.suffix
  refine ⟨by rw [length_turn, hl]; omega, ?_⟩
  by_cases hlt : ls.length < m
  · exact ⟨k, hk, by rw [all_turn_of_lt hlt, hall], fun ht => hzero (by omega)⟩
  · obtain ⟨k', hk', hall'⟩ := (extends_turn hm (Nat.le_of_eq (by omega))).suffix hk hall
    rw [List.append_nil] at hk' hall'
    exact ⟨k', hk', hall', fun ht => by omega⟩

end Enigma.Shelf
