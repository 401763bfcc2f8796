import Mathlib.Data.List.Basic

namespace Enigma.Fifo

variable {T : Type}

/-- What can happen to a queue of values: one is appended, the oldest one is
handed out, or the oldest one is destroyed. -/
inductive Event (T : Type)
  | push (v : T)
  | pop (v : T)
  | drop (v : T)
  deriving DecidableEq, Repr

/-- A first-in first-out queue goes through the events from the first
content to the last one. -/
inductive Replays : List T → List (Event T) → List T → Prop
  | nil (q : List T) : Replays q [] q
  | push {q q' : List T} {v : T} {es : List (Event T)} (h : Replays (q ++ [v]) es q') :
      Replays q (.push v :: es) q'
  | pop {q q' : List T} {v : T} {es : List (Event T)} (h : Replays q es q') :
      Replays (v :: q) (.pop v :: es) q'
  | drop {q q' : List T} {v : T} {es : List (Event T)} (h : Replays q es q') :
      Replays (v :: q) (.drop v :: es) q'

def pushes (es : List (Event T)) : List T := es.filterMap fun
  | .push v => some v
  | _ => none

def pops (es : List (Event T)) : List T := es.filterMap fun
  | .pop v => some v
  | _ => none

def drops (es : List (Event T)) : List T := es.filterMap fun
  | .drop v => some v
  | _ => none

def removals (es : List (Event T)) : List T := es.filterMap fun
  | .push _ => none
  | .pop v | .drop v => some v

theorem Replays.append {q q' q'' : List T} {es es' : List (Event T)} (h : Replays q es q')
    (h' : Replays q' es' q'') : Replays q (es ++ es') q'' := by
  induction h with
  | nil => exact h'
  | push _ ih => exact .push (ih h')
  | pop _ ih => exact .pop (ih h')
  | drop _ ih => exact .drop (ih h')

theorem Replays.drop_all (q : List T) : Replays q (q.map .drop) [] := by
  induction q with
  | nil => exact .nil []
  | cons v q ih => exact .drop ih

/-- No value is lost, duplicated or overtaken. -/
theorem Replays.conserves {q q' : List T} {es : List (Event T)} (h : Replays q es q') :
    q ++ pushes es = removals es ++ q' := by
  induction h with
  | nil => simp [pushes, removals]
  | push _ ih => simpa [pushes, removals] using ih
  | pop _ ih => simpa [pushes, removals] using ih
  | drop _ ih => simpa [pushes, removals] using ih

theorem pops_sublist_removals (es : List (Event T)) : (pops es).Sublist (removals es) := by
  induction es with
  | nil => exact List.Sublist.refl _
  | cons e es ih =>
      cases e with
      | push v => simpa [pops, removals] using ih
      | pop v => simpa [pops, removals] using ih
      | drop v => simpa [pops, removals] using ih.trans (List.sublist_cons_self v _)

theorem count_removals [DecidableEq T] (es : List (Event T)) (v : T) :
    (removals es).count v = (pops es).count v + (drops es).count v := by
  induction es with
  | nil => rfl
  | cons e es ih =>
      cases e with
      | push u => simpa [pops, drops, removals] using ih
      | pop u =>
          simp only [pops, drops, removals, List.filterMap_cons, List.count_cons] at ih ⊢
          omega
      | drop u =>
          simp only [pops, drops, removals, List.filterMap_cons, List.count_cons] at ih ⊢
          omega

theorem Replays.count_pushes [DecidableEq T] {q' : List T} {es : List (Event T)}
    (h : Replays [] es q') (v : T) :
    (pushes es).count v = (pops es).count v + (drops es).count v + q'.count v := by
  have hc := congrArg (List.count v) h.conserves
  rw [List.nil_append, List.count_append, count_removals] at hc
  exact hc

theorem Replays.pops_sublist_pushes {q' : List T} {es : List (Event T)} (h : Replays [] es q') :
    (pops es).Sublist (pushes es) := by
  have hc := h.conserves
  rw [List.nil_append] at hc
  rw [hc]
  exact (pops_sublist_removals es).trans (List.sublist_append_left _ _)

theorem Replays.pop_oldest {q q' : List T} {es es' : List (Event T)} {v : T}
    (h : Replays q (es ++ .pop v :: es') q') :
    ∃ rest, q ++ pushes es = removals es ++ v :: rest := by
  induction es generalizing q with
  | nil =>
      cases h with
      | @pop q _ _ _ h => exact ⟨q, by simp [pushes, removals]⟩
  | cons e es ih =>
      cases h with
      | push h => simpa [pushes, removals] using ih h
      | pop h => simpa [pushes, removals] using ih h
      | drop h => simpa [pushes, removals] using ih h

end Enigma.Fifo
