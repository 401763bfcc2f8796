import Mathlib.Algebra.Order.Ring.Nat
import Mathlib.Data.List.Basic

namespace Enigma.Transition

variable {σ α ε : Type}

/-- A transition system whose nondeterminism is carried by the action:
which thread moves, and what the environment answers to it. -/
structure System (σ α : Type) where
  init : σ → Prop
  next : σ → α → Option σ

/-- States of the runs all of whose steps meet the condition `ok`. -/
inductive Reachable (S : System σ α) (ok : σ → α → Prop) : σ → Prop
  | init {s : σ} (h : S.init s) : Reachable S ok s
  | step {s s' : σ} {a : α} (hr : Reachable S ok s) (hok : ok s a) (hn : S.next s a = some s') :
      Reachable S ok s'

def Any : σ → α → Prop := fun _ _ => True

variable {S : System σ α} {ok ok' : σ → α → Prop}

theorem Reachable.mono (h : ∀ s a, ok s a → ok' s a) {s : σ} (hr : Reachable S ok s) :
    Reachable S ok' s := by
  induction hr with
  | init hi => exact .init hi
  | step _ hok hn ih => exact .step ih (h _ _ hok) hn

theorem Reachable.any {s : σ} (hr : Reachable S ok s) : Reachable S Any s :=
  hr.mono fun _ _ _ => trivial

/-- The invariant rule. The step obligation may use that the state it starts
from is itself reachable, hence any invariant proved before. -/
theorem Reachable.invariant {P : σ → Prop} (hi : ∀ s, S.init s → P s)
    (hs : ∀ s a s', Reachable S ok s → P s → ok s a → S.next s a = some s' → P s')
    {s : σ} (hr : Reachable S ok s) : P s := by
  induction hr with
  | init h => exact hi _ h
  | step hr hok hn ih => exact hs _ _ _ hr ih hok hn

def run (S : System σ α) : σ → List α → Option σ
  | s, [] => some s
  | s, a :: as => (S.next s a).bind fun s' => run S s' as

theorem run_reachable {s s' : σ} {as : List α} (hr : Reachable S Any s) (h : run S s as = some s') :
    Reachable S Any s' := by
  induction as generalizing s with
  | nil =>
      cases h
      exact hr
  | cons a as ih =>
      obtain ⟨t, hn, ht⟩ := Option.bind_eq_some_iff.mp h
      exact ih (.step hr trivial hn) ht

def guarded (S : System σ α) (g : σ → α → Bool) : System σ α where
  init := S.init
  next s a := if g s a then S.next s a else none

theorem Reachable.of_guarded {g : σ → α → Bool} (hg : ∀ s a, g s a = true → ok s a) {s : σ}
    (hr : Reachable (guarded S g) Any s) : Reachable S ok s := by
  induction hr with
  | init h => exact .init h
  | @step s s' a _ _ hn ih =>
      by_cases h : g s a = true
      · exact .step ih (hg s a h) (by simpa [guarded, h] using hn)
      · simp [guarded, h] at hn

theorem exists_of_run (S : System σ α) (ok : σ → α → Prop) (g : σ → α → Bool) (s : σ)
    (as : List α) (p : σ → Bool) (hg : ∀ s a, g s a = true → ok s a) (hi : S.init s)
    (h : (run (guarded S g) s as).any p = true) : ∃ s', Reachable S ok s' ∧ p s' = true := by
  cases hr : run (guarded S g) s as with
  | none => simp [hr] at h
  | some s' =>
      have hi' : Reachable (guarded S g) Any s := .init hi
      exact ⟨s', (run_reachable hi' hr).of_guarded hg, by simpa [hr] using h⟩

def startingAt (S : System σ α) (s : σ) : System σ α := ⟨(· = s), S.next⟩

theorem Reachable.trans {s s' : σ} (hr : Reachable S ok s) (hs : Reachable (startingAt S s) ok s') :
    Reachable S ok s' := by
  induction hs with
  | init hi =>
      cases hi
      exact hr
  | step _ hok hn ih => exact .step ih hok hn

/-- The system with a history variable: each step appends what `obs` sees of it. -/
def logged (S : System σ α) (obs : σ → α → List ε) : System (σ × List ε) α where
  init p := S.init p.1 ∧ p.2 = []
  next p a := (S.next p.1 a).map fun s' => (s', p.2 ++ obs p.1 a)

variable {obs : σ → α → List ε}

theorem logged_next {p q : σ × List ε} {a : α} (h : (logged S obs).next p a = some q) :
    S.next p.1 a = some q.1 ∧ q.2 = p.2 ++ obs p.1 a := by
  obtain ⟨s', hn, he⟩ := Option.map_eq_some_iff.mp h
  subst he
  exact ⟨hn, rfl⟩

theorem Reachable.logged_step {okL : σ × List ε → α → Prop} {s s' : σ} {h : List ε} {a : α}
    (hr : Reachable (logged S obs) okL (s, h)) (hok : okL (s, h) a) (hn : S.next s a = some s') :
    Reachable (logged S obs) okL (s', h ++ obs s a) :=
  .step hr hok (by simp only [logged, hn, Option.map_some])

theorem Reachable.logged_invariant {okL : σ × List ε → α → Prop} {P : σ → List ε → Prop}
    (hi : ∀ s, S.init s → P s [])
    (hs : ∀ s h a s', Reachable (logged S obs) okL (s, h) → P s h → okL (s, h) a →
      S.next s a = some s' → P s' (h ++ obs s a))
    {s : σ} {h : List ε} (hr : Reachable (logged S obs) okL (s, h)) : P s h := by
  refine hr.invariant (P := fun p => P p.1 p.2) ?_ ?_
  · rintro ⟨s, h⟩ ⟨hs, rfl⟩
    exact hi s hs
  · rintro ⟨s, h⟩ a ⟨s', h'⟩ hr hp hok hn
    obtain ⟨hn, rfl⟩ := logged_next hn
    exact hs s h a s' hr hp hok hn

theorem Reachable.forget {p : σ × List ε}
    (hr : Reachable (logged S obs) (fun q a => ok q.1 a) p) : Reachable S ok p.1 := by
  induction hr with
  | init h => exact .init h.1
  | step _ hok hn ih => exact .step ih hok (logged_next hn).1

theorem Reachable.forget_any {okL : σ × List ε → α → Prop} {s : σ} {h : List ε}
    (hr : Reachable (logged S obs) okL (s, h)) : Reachable S Any s := by
  have hf : Reachable (logged S obs) (fun q a => Any q.1 a) (s, h) := hr.any
  exact hf.forget

end Enigma.Transition
