import Mathlib.Data.List.Nodup
import Enigma.Transition

namespace Enigma.Linearization

open Transition

variable {ι O R A σ α : Type}

inductive Event (ι O R : Type)
  | invoked (t : ι) (op : O)
  | returned (t : ι) (r : R)
  deriving DecidableEq, Repr

def Event.thread : Event ι O R → ι
  | .invoked t _ | .returned t _ => t

variable {h : List (Event ι O R)} {act : A → O → R → A → Prop}

/-- A call goes by the position of its invocation. The next event of its
thread, if there is one, is its return. -/
def Completes (h : List (Event ι O R)) (i j : Nat) (r : R) : Prop :=
  ∃ t op, h[i]? = some (.invoked t op) ∧ h[j]? = some (.returned t r) ∧ i < j ∧
    ∀ k e, i < k → k < j → h[k]? = some e → e.thread ≠ t

def Precedes (h : List (Event ι O R)) (i k : Nat) : Prop := ∃ j r, Completes h i j r ∧ j < k

/-- Calls of a history made one at a time, each with its result. -/
inductive Serial (act : A → O → R → A → Prop) (h : List (Event ι O R)) : A → List (Nat × R) → A → Prop
  | nil (a : A) : Serial act h a [] a
  | snoc {a b c : A} {calls : List (Nat × R)} {i : Nat} {t : ι} {op : O} {r : R}
      (hs : Serial act h a calls b) (hi : h[i]? = some (.invoked t op)) (ha : act b op r c) :
      Serial act h a (calls ++ [(i, r)]) c

/-- Made one at a time in the order `calls`, calls return what they return in a concurrent history,
and one that returned before another was made comes first. A call under way may take part. -/
structure Linearizes (act : A → O → R → A → Prop) (a : A) (h : List (Event ι O R))
    (calls : List (Nat × R)) (b : A) : Prop where
  nodup : (calls.map Prod.fst).Nodup
  legal : Serial act h a calls b
  complete : ∀ i j r, Completes h i j r → (i, r) ∈ calls
  order : calls.Pairwise fun c d => ¬ Precedes h d.1 c.1

inductive Phase (O R : Type)
  | outside
  | called (op : O)
  | answered (r : R)

variable [DecidableEq ι]

/-- What one step of an implementation may look like: nothing happens, a call
is made, one takes effect, or one returns the answer that it got. -/
inductive Moves (act : A → O → R → A → Prop) (a : A) (p : ι → Phase O R) :
    List (Event ι O R) → A → (ι → Phase O R) → Prop
  | silent : Moves act a p [] a p
  | invoke (t : ι) (op : O) (h : p t = .outside) :
      Moves act a p [.invoked t op] a (Function.update p t (.called op))
  | effect {b : A} (t : ι) (op : O) (r : R) (h : p t = .called op) (ha : act a op r b) :
      Moves act a p [] b (Function.update p t (.answered r))
  | respond (t : ι) (r : R) (h : p t = .answered r) :
      Moves act a p [.returned t r] a (Function.update p t .outside)

def Latest (h : List (Event ι O R)) (t : ι) (i : Nat) (op : O) : Prop :=
  h[i]? = some (.invoked t op) ∧ ∀ k e, i < k → h[k]? = some e → e.thread ≠ t

def Accounts (h : List (Event ι O R)) (calls : List (Nat × R)) (t : ι) : Phase O R → Prop
  | .outside => True
  | .called op => ∃ i, Latest h t i op ∧ i ∉ calls.map Prod.fst
  | .answered r => ∃ i op, Latest h t i op ∧ (i, r) ∈ calls

omit [DecidableEq ι] in
theorem getElem_concat {e e' : Event ι O R} {k : Nat} (hk : (h ++ [e])[k]? = some e') :
    h[k]? = some e' ∨ (k = h.length ∧ e' = e) := by
  rcases Nat.lt_or_ge k h.length with hlt | hge
  · exact .inl (by rwa [List.getElem?_append_left hlt] at hk)
  · obtain ⟨d, rfl⟩ := Nat.exists_eq_add_of_le hge
    rw [List.getElem?_append_right hge, Nat.add_sub_cancel_left] at hk
    cases d with
    | zero => exact .inr ⟨rfl, by simpa using hk.symm⟩
    | succ d => simp at hk

omit [DecidableEq ι] in
theorem getElem_keep {e e' : Event ι O R} {k : Nat} (hk : h[k]? = some e') :
    (h ++ [e])[k]? = some e' := by
  rw [List.getElem?_append_left (List.getElem?_eq_some_iff.mp hk).1, hk]

omit [DecidableEq ι] in
theorem lt_of_getElem {e : Event ι O R} {k : Nat} (hk : h[k]? = some e) : k < h.length :=
  (List.getElem?_eq_some_iff.mp hk).1

omit [DecidableEq ι] in
theorem completes_of_concat {e : Event ι O R} {i j : Nat} {r : R}
    (hc : Completes (h ++ [e]) i j r) : Completes h i j r ∨ (j = h.length ∧
      ∃ t op, e = .returned t r ∧ Latest h t i op) := by
  obtain ⟨t, op, hi, hj, hij, hbetween⟩ := hc
  rcases getElem_concat hj with hj | ⟨rfl, rfl⟩
  · have hlt := hij.trans (lt_of_getElem hj)
    refine .inl ⟨t, op, by rwa [List.getElem?_append_left hlt] at hi, hj, hij, ?_⟩
    intro k e' hik hkj hk
    exact hbetween k e' hik hkj (getElem_keep hk)
  · refine .inr ⟨rfl, t, op, rfl, by rwa [List.getElem?_append_left hij] at hi, ?_⟩
    intro k e' hik hk
    exact hbetween k e' hik (lt_of_getElem hk) (getElem_keep hk)

omit [DecidableEq ι] in
theorem not_completes_latest {t : ι} {i j : Nat} {op : O} {r : R} (hl : Latest h t i op) :
    ¬ Completes h i j r := by
  rintro ⟨t', op', hi, hj, hij, -⟩
  have he := Option.some.inj (hi.symm.trans hl.1)
  cases he
  exact hl.2 j _ hij hj rfl

omit [DecidableEq ι] in
theorem latest_unique {t : ι} {i i' : Nat} {op op' : O} (hl : Latest h t i op)
    (hl' : Latest h t i' op') : i = i' := by
  rcases Nat.lt_trichotomy i i' with hlt | he | hlt
  · exact (hl.2 i' _ hlt hl'.1 rfl).elim
  · exact he
  · exact (hl'.2 i _ hlt hl.1 rfl).elim

omit [DecidableEq ι] in
theorem Latest.concat {t : ι} {i : Nat} {op : O} {e : Event ι O R} (hl : Latest h t i op)
    (hne : e.thread ≠ t) : Latest (h ++ [e]) t i op := by
  refine ⟨getElem_keep hl.1, fun k e' hik hk => ?_⟩
  rcases getElem_concat hk with hk | ⟨-, rfl⟩
  · exact hl.2 k e' hik hk
  · exact hne

omit [DecidableEq ι] in
theorem Serial.concat {a b : A} {calls : List (Nat × R)} (e : Event ι O R)
    (hs : Serial act h a calls b) : Serial act (h ++ [e]) a calls b := by
  induction hs with
  | nil => exact .nil _
  | snoc _ hi ha ih => exact .snoc ih (getElem_keep hi) ha

omit [DecidableEq ι] in
theorem Serial.mem {a b : A} {calls : List (Nat × R)} (hs : Serial act h a calls b) {i : Nat}
    (hi : i ∈ calls.map Prod.fst) : i < h.length := by
  induction hs with
  | nil => cases hi
  | snoc _ hj _ ih =>
      rw [List.map_append, List.mem_append] at hi
      rcases hi with hi | hi
      · exact ih hi
      · rw [List.map_singleton, List.mem_singleton] at hi
        exact hi ▸ lt_of_getElem hj

omit [DecidableEq ι] in
theorem Accounts.concat {calls : List (Nat × R)} {t : ι} {p : Phase O R} {e : Event ι O R}
    (ha : Accounts h calls t p) (hne : e.thread ≠ t) : Accounts (h ++ [e]) calls t p := by
  cases p with
  | outside => trivial
  | called op =>
      obtain ⟨i, hl, hi⟩ := ha
      exact ⟨i, hl.concat hne, hi⟩
  | answered r =>
      obtain ⟨i, op, hl, hi⟩ := ha
      exact ⟨i, op, hl.concat hne, hi⟩

omit [DecidableEq ι] in
theorem Linearizes.concat {a b : A} {calls : List (Nat × R)} {e : Event ι O R}
    (hl : Linearizes act a h calls b)
    (he : ∀ t r, e = .returned t r → ∃ i op, Latest h t i op ∧ (i, r) ∈ calls) :
    Linearizes act a (h ++ [e]) calls b where
  nodup := hl.nodup
  legal := hl.legal.concat e
  complete := by
    intro i j r hc
    rcases completes_of_concat hc with hc | ⟨-, t, op, he', hi⟩
    · exact hl.complete i j r hc
    · obtain ⟨i', op', hi', hm⟩ := he t r he'
      rwa [latest_unique hi hi']
  order := by
    refine hl.order.imp_of_mem fun {c d} hc _ hcd hp => hcd ?_
    -- what precedes a call of the order ended before the new event
    obtain ⟨j, r, hcomp, hj⟩ := hp
    have hlt := hl.legal.mem (List.mem_map_of_mem hc)
    rcases completes_of_concat hcomp with hcomp | ⟨rfl, -⟩
    · exact ⟨j, r, hcomp, hj⟩
    · omega

omit [DecidableEq ι] in
theorem Linearizes.effect {a b c : A} {calls : List (Nat × R)} {t : ι} {i : Nat} {op : O} {r : R}
    (hl : Linearizes act a h calls b) (hi : Latest h t i op) (hn : i ∉ calls.map Prod.fst)
    (ha : act b op r c) : Linearizes act a h (calls ++ [(i, r)]) c where
  nodup := by
    rw [List.map_append, List.map_singleton]
    exact hl.nodup.append (List.nodup_singleton i) (by simpa using hn)
  legal := .snoc hl.legal hi.1 ha
  complete := fun k j r' hc => List.mem_append_left _ (hl.complete k j r' hc)
  order := by
    refine List.pairwise_append.mpr ⟨hl.order, List.pairwise_singleton _ _, ?_⟩
    rintro d - e he ⟨j, r', hc, -⟩
    rw [List.mem_singleton.mp he] at hc
    exact not_completes_latest hi hc

omit [DecidableEq ι] in
theorem Accounts.effect {calls : List (Nat × R)} {t u : ι} {i : Nat} {op : O} {r : R} {p : Phase O R}
    (ha : Accounts h calls u p) (hi : Latest h t i op) (hu : u ≠ t) :
    Accounts h (calls ++ [(i, r)]) u p := by
  cases p with
  | outside => trivial
  | called op' =>
      obtain ⟨k, hk, hmem⟩ := ha
      refine ⟨k, hk, fun hm => ?_⟩
      rw [List.map_append, List.mem_append] at hm
      refine hm.elim hmem fun hki => ?_
      rw [List.map_singleton, List.mem_singleton] at hki
      subst hki
      have he := Option.some.inj (hk.1.symm.trans hi.1)
      cases he
      exact hu rfl
  | answered r' =>
      obtain ⟨k, op', hk, hmem⟩ := ha
      exact ⟨k, op', hk, List.mem_append_left _ hmem⟩

def Explained (act : A → O → R → A → Prop) (a : A) (h : List (Event ι O R)) (b : A)
    (p : ι → Phase O R) : Prop :=
  ∃ calls, Linearizes act a h calls b ∧ ∀ t, Accounts h calls t (p t)

theorem explained_moves {a b b' : A} {p p' : ι → Phase O R} {es : List (Event ι O R)}
    (he : Explained act a h b p) (hm : Moves act b p es b' p') : Explained act a (h ++ es) b' p' := by
  obtain ⟨calls, hl, hacc⟩ := he
  cases hm with
  | silent => exact ⟨calls, by simpa using hl, by simpa using hacc⟩
  | invoke t op ht =>
      refine ⟨calls, hl.concat (fun t r he => by cases he), fun u => ?_⟩
      by_cases hu : u = t
      · subst hu
        rw [Function.update_self]
        refine ⟨h.length, ⟨by simp, fun k e hk he => ?_⟩, fun hmem => (hl.legal.mem hmem).false⟩
        have hlt := lt_of_getElem he
        simp only [List.length_append, List.length_singleton] at hlt
        omega
      · rw [Function.update_of_ne hu]
        exact (hacc u).concat (Ne.symm hu)
  | effect t op r ht ha =>
      have hcall := hacc t
      rw [ht] at hcall
      obtain ⟨i, hlatest, hnot⟩ := hcall
      rw [List.append_nil]
      refine ⟨calls ++ [(i, r)], hl.effect hlatest hnot ha, fun u => ?_⟩
      by_cases hu : u = t
      · subst hu
        rw [Function.update_self]
        exact ⟨i, op, hlatest, by simp⟩
      · rw [Function.update_of_ne hu]
        exact (hacc u).effect hlatest hu
  | respond t r ht =>
      have hcall := hacc t
      rw [ht] at hcall
      refine ⟨calls, hl.concat ?_, fun u => ?_⟩
      · rintro t' r' he
        cases he
        exact hcall
      · by_cases hu : u = t
        · subst hu
          rw [Function.update_self]
          trivial
        · rw [Function.update_of_ne hu]
          exact (hacc u).concat (Ne.symm hu)

/-- Linearization points: an implementation whose every step is one of the
moves only has histories that its specification explains. -/
theorem moves_linearizes {S : System σ α} {obs : σ → α → List (Event ι O R)}
    {ok : σ × List (Event ι O R) → α → Prop} (a : A) (abs : σ → A) (phase : σ → ι → Phase O R)
    (hi : ∀ s, S.init s → abs s = a ∧ ∀ t, phase s t = .outside)
    (hm : ∀ s h x s', Reachable (logged S obs) ok (s, h) → ok (s, h) x → S.next s x = some s' →
      Moves act (abs s) (phase s) (obs s x) (abs s') (phase s'))
    {s : σ} {h : List (Event ι O R)} (hr : Reachable (logged S obs) ok (s, h)) :
    ∃ calls, Linearizes act a h calls (abs s) := by
  have hinv : Explained act a h (abs s) (phase s) := by
    refine hr.logged_invariant (P := fun s h => Explained act a h (abs s) (phase s)) ?_ ?_
    · intro s hs
      obtain ⟨ha, hp⟩ := hi s hs
      refine ⟨[], ⟨List.nodup_nil, ha ▸ .nil _, ?_, .nil⟩, fun t => ?_⟩
      · rintro i j r ⟨t, op, hi, -⟩
        simp at hi
      · rw [hp t]
        trivial
    · intro s h x s' hr he hok hn
      exact explained_moves he (hm s h x s' hr hok hn)
  obtain ⟨calls, hl, -⟩ := hinv
  exact ⟨calls, hl⟩

end Enigma.Linearization
