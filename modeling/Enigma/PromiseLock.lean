import Enigma.PromiseCalls
import Enigma.Transition
import Enigma.Indexed

namespace Enigma.PromiseLock

open Promise PromiseCalls
open Transition hiding run

variable {V : Side → Type} {C E : Type}

inductive Instr (V : Side → Type) (C E : Type)
  | call (r : Request V C E)
  | unlock

/-- Any number of threads that use one shared state. Its std::mutex is not
recursive: `mutex` is the thread that holds it. -/
structure State (V : Side → Type) (C E : Type) where
  shared : SharedState V C := {}
  mutex : Option Nat := none
  threads : List (List (Instr V C E))

def nested (body : Call V C → List (Request V C E)) (calls : List (Call V C)) : List (Instr V C E) :=
  (calls.flatMap body).map .call

/-- An operation locks the mutex, and what the callbacks it invokes call on the
same state comes before the end of its lock_guard. -/
def enter (τ : Traits V C) (body : Call V C → List (Request V C E)) (s : State V C E) (t : Nat)
    (r : Request V C E) (rest : List (Instr V C E)) : State V C E where
  shared := (apply τ s.shared r).1
  mutex := some t
  threads := s.threads.set t (nested body (apply τ s.shared r).2 ++ .unlock :: rest)

def leave (s : State V C E) (t : Nat) (rest : List (Instr V C E)) : State V C E :=
  { s with mutex := none, threads := s.threads.set t rest }

def next (τ : Traits V C) (body : Call V C → List (Request V C E)) (s : State V C E) (t : Nat) :
    Option (State V C E) :=
  match s.threads[t]? with
  | some (.call r :: rest) =>
      if s.mutex.isNone then some (enter τ body s t r rest) else none
  | some (.unlock :: rest) => some (leave s t rest)
  | _ => none

def initial (programs : List (List (Request V C E))) : State V C E where
  threads := programs.map fun p => p.map .call

def system (τ : Traits V C) (body : Call V C → List (Request V C E)) (programs : List (List (Request V C E))) :
    System (State V C E) Nat :=
  ⟨(· = initial programs), next τ body⟩

def entered (s : State V C E) (t : Nat) : List (Request V C E) :=
  match s.threads[t]? with
  | some (.call r :: _) => [r]
  | _ => []

/-- A thread is about to lock the mutex that it holds. -/
def Relocks (s : State V C E) : Prop :=
  ∃ t r rest, s.mutex = some t ∧ s.threads[t]? = some (.call r :: rest)

def plain (p : List (Instr V C E)) : Prop := ∀ i ∈ p, ∃ r, i = .call r

theorem plain_calls (rs : List (Request V C E)) : plain (rs.map .call) := by
  intro i hi
  obtain ⟨r, -, rfl⟩ := List.mem_map.mp hi
  exact ⟨r, rfl⟩

theorem plain_cons {i : Instr V C E} {p : List (Instr V C E)} (h : plain (i :: p)) : plain p :=
  fun j hj => h j (List.mem_cons_of_mem _ hj)

theorem not_plain_unlock {p rest : List (Instr V C E)} : ¬ plain (p ++ .unlock :: rest) := by
  intro h
  obtain ⟨r, hr⟩ := h .unlock (by simp)
  cases hr

variable {τ : Traits V C} {body : Call V C → List (Request V C E)} {programs : List (List (Request V C E))}

theorem next_cases {s s' : State V C E} {t : Nat} (h : next τ body s t = some s') :
    (∃ r rest, s.threads[t]? = some (.call r :: rest) ∧ s.mutex = none ∧ entered s t = [r] ∧
      s' = enter τ body s t r rest) ∨
    (∃ rest, s.threads[t]? = some (.unlock :: rest) ∧ entered s t = [] ∧ s' = leave s t rest) := by
  unfold next at h
  split at h
  case h_1 r rest ht =>
      split at h
      case isTrue hm => exact .inl ⟨r, rest, ht, by simpa using hm, by simp [entered, ht], by simpa using h.symm⟩
      case isFalse => cases h
  case h_2 rest ht => exact .inr ⟨rest, ht, by simp [entered, ht], by simpa using h.symm⟩
  case h_3 => cases h

/-- Outside the thread that holds the mutex there is no lock_guard to leave. The
holder has run everything its callbacks call, unless they call something. -/
structure Locked (τ : Traits V C) (body : Call V C → List (Request V C E)) (s : State V C E)
    (h : List (Request V C E)) : Prop where
  shared : s.shared = (run τ {} h).1
  others : ∀ t p, s.threads[t]? = some p → s.mutex ≠ some t → plain p
  free : s.mutex = none → nested body (run τ {} h).2 = []
  holder : ∀ t, s.mutex = some t → ∃ rest, plain rest ∧
    s.threads[t]? = some (nested body (run τ {} h).2 ++ .unlock :: rest)

theorem nested_append (calls calls' : List (Call V C)) :
    nested body (calls ++ calls') = nested body calls ++ nested body calls' := by
  simp [nested]

theorem locked_enter {s : State V C E} {h : List (Request V C E)} {t : Nat} {r : Request V C E}
    {rest : List (Instr V C E)} (hs : Locked τ body s h) (ht : s.threads[t]? = some (.call r :: rest))
    (hm : s.mutex = none) :
    Locked τ body (enter τ body s t r rest) (h ++ [r]) where
  shared := by
    rw [run_append, ← hs.shared]
    rfl
  others u p hp hu := by
    rcases Indexed.set_cases hp with ⟨rfl, -, -⟩ | ⟨-, hp⟩
    · exact absurd rfl hu
    · exact hs.others u p hp (by simp [hm])
  free hfree := by cases hfree
  holder u hu := by
    cases hu
    refine ⟨rest, plain_cons (hs.others t _ ht (by simp [hm])), ?_⟩
    rw [run_append, nested_append, hs.free hm, List.nil_append, ← hs.shared]
    simp [enter, run, List.getElem?_set_self (List.getElem?_eq_some_iff.mp ht).1]

theorem locked_leave {s : State V C E} {h : List (Request V C E)} {t : Nat} {rest : List (Instr V C E)}
    (hs : Locked τ body s h) (ht : s.threads[t]? = some (.unlock :: rest)) :
    Locked τ body (leave s t rest) h := by
  -- only the holder has a lock_guard to leave, and it has nothing nested left
  have hm : s.mutex = some t := by
    by_contra hm
    exact not_plain_unlock (p := []) (hs.others t _ ht hm)
  obtain ⟨rest', hplain, hholder⟩ := hs.holder t hm
  have hdone : nested body (run τ {} h).2 = [] ∧ rest = rest' := by
    rw [ht] at hholder
    cases hn : nested body (run τ {} h).2 with
    | nil => simpa [hn] using hholder
    | cons i l =>
        rw [hn, List.cons_append, Option.some.injEq, List.cons.injEq] at hholder
        obtain ⟨r, hr⟩ := plain_calls ((run τ {} h).2.flatMap body) i (by
          rw [← nested, hn]
          exact List.mem_cons_self)
        rw [hr] at hholder
        cases hholder.1
  refine ⟨hs.shared, fun u p hp _ => ?_, fun _ => hdone.1, fun u hu => by cases hu⟩
  rcases Indexed.set_cases hp with ⟨rfl, rfl, -⟩ | ⟨hne, hp⟩
  · rw [hdone.2]
    exact hplain
  · exact hs.others u p hp (by
      rw [hm]
      exact fun he => hne (Option.some.inj he).symm)

theorem locked {s : State V C E} {h : List (Request V C E)}
    (hr : Reachable (logged (system τ body programs) entered) Any (s, h)) : Locked τ body s h := by
  refine hr.logged_invariant (P := Locked τ body) ?_ ?_
  · rintro s rfl
    refine ⟨rfl, fun t p hp _ => ?_, fun _ => rfl, fun t ht => by cases ht⟩
    obtain ⟨rs, -, rfl⟩ := List.mem_map.mp (List.mem_of_getElem? hp)
    exact plain_calls rs
  · intro s h t s' _ hs _ hn
    rcases next_cases hn with ⟨r, rest, ht, hm, he, rfl⟩ | ⟨rest, ht, he, rfl⟩
    · rw [he]
      exact locked_enter hs ht hm
    · rw [he, List.append_nil]
      exact locked_leave hs ht

/-- The mutex is locked again by the thread that holds it if and only if some
callback that the operations come to uses the promise it is a callback of. -/
theorem relocks_iff (τ : Traits V C) (body : Call V C → List (Request V C E))
    (programs : List (List (Request V C E))) {s : State V C E} {h : List (Request V C E)}
    (hr : Reachable (logged (system τ body programs) entered) Any (s, h)) :
    Relocks s ↔ ∃ call ∈ answered τ [] h, body call ≠ [] := by
  have hs := locked hr
  have hcalls : nested body (run τ {} h).2 = [] ↔ ∀ call ∈ answered τ [] h, body call = [] := by
    have hnone : ∀ r ∈ ([] : List (Request V C E)), settles r = false := fun r hr => by cases hr
    have hlog := run_answered τ hnone h
    rw [List.nil_append] at hlog
    simp [nested, hlog, List.flatMap_eq_nil_iff]
  have hnot : (∃ call ∈ answered τ [] h, body call ≠ []) ↔ nested body (run τ {} h).2 ≠ [] := by
    simp [hcalls]
  rw [hnot]
  constructor
  · rintro ⟨t, r, rest, hm, ht⟩ hnil
    obtain ⟨rest', -, hholder⟩ := hs.holder t hm
    rw [ht, hnil] at hholder
    cases hholder
  · intro hne
    cases hm : s.mutex with
    | none => exact absurd (hs.free hm) hne
    | some t =>
        obtain ⟨rest, -, hholder⟩ := hs.holder t hm
        cases hc : (run τ {} h).2.flatMap body with
        | nil => exact absurd (by rw [nested, hc]; rfl) hne
        | cons r rs =>
            rw [nested, hc] at hholder
            exact ⟨t, r, _, hm, hholder⟩

section Reentry

def registerAndSettle : List (List (Request (fun _ => Nat) Nat Unit)) :=
  [[.register .success 1], [.settle .success (.ok 42), .isFinished]]

def inert : Traits (fun _ => Nat) Nat := ⟨fun _ => false, fun _ _ x => x⟩

def relocking (s : State (fun _ => Nat) Nat Unit) : Bool :=
  s.mutex.any fun t => match s.threads[t]? with
    | some (.call _ :: _) => true
    | _ => false

theorem relocks_of_relocking {s : State (fun _ => Nat) Nat Unit} (h : relocking s = true) : Relocks s := by
  cases hm : s.mutex with
  | none => simp [relocking, hm] at h
  | some t =>
      simp only [relocking, hm, Option.any_some] at h
      split at h
      case h_1 r rest ht => exact ⟨t, r, rest, hm, ht⟩
      case h_2 => cases h

theorem relocks_iff_settled : ∃ s h,
    Reachable (logged (system inert (fun _ => []) registerAndSettle) entered) Any (s, h) ∧
      (answered inert [] h).length = 1 ∧ ¬ Relocks s := by
  obtain ⟨⟨s, h⟩, hr, hp⟩ := exists_of_run (logged (system inert (fun _ => []) registerAndSettle) entered) Any
    (fun _ _ => true) (initial registerAndSettle, []) [0, 0, 1]
    (fun q => decide ((answered inert [] q.2).length = 1)) (fun _ _ _ => trivial) ⟨rfl, rfl⟩ rfl
  refine ⟨s, h, hr, by simpa using hp, fun hs => ?_⟩
  obtain ⟨call, -, hbody⟩ := (relocks_iff inert (fun _ => []) registerAndSettle hr).mp hs
  exact hbody rfl

/-- The callback asks whether its own promise is finished. -/
theorem callback_relocks : ¬ ∀ (body : Call (fun _ => Nat) Nat → List (Request (fun _ => Nat) Nat Unit))
    (s : State (fun _ => Nat) Nat Unit), Reachable (system inert body registerAndSettle) Any s → ¬ Relocks s := by
  intro hall
  obtain ⟨s, hr, hp⟩ := exists_of_run (system inert (fun _ => [.isFinished]) registerAndSettle) Any
    (fun _ _ => true) (initial registerAndSettle) [0, 0, 1] relocking
    (fun _ _ _ => trivial) rfl rfl
  exact hall _ s hr (relocks_of_relocking hp)

end Reentry

end Enigma.PromiseLock
