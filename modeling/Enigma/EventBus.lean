import Mathlib.Logic.Function.Basic
import Mathlib.Data.List.Sort

namespace Enigma.EventBus

variable {M P K A : Type}

/-- A value of a message type; `M` stands for the types. -/
structure Value (M P : Type) where
  type : M
  data : P
  deriving DecidableEq, Repr

abbrev Any (M P : Type) := Option (Value M P)

def anyCast [DecidableEq M] (m : M) (ev : Any M P) : Option P :=
  ev.bind fun v => if v.type = m then some v.data else none

structure Event (M P A : Type) where
  type : String
  ev : Any M P
  ack : Option A
  deriving DecidableEq, Repr

/-- What is stored in _event_handles: the wrapper that On<T> makes of a function,
or the function that OnType is given. -/
inductive Callback (M K : Type)
  | on (m : M) (callback : K)
  | onType (callback : K)
  deriving DecidableEq, Repr

/-- The unordered_map _event_handles. -/
abbrev Handles (M K : Type) := List (String × Callback M K)

def find (t : Handles M K) (type : String) : Option (Callback M K) := t.lookup type

def contains (t : Handles M K) (type : String) : Bool := (find t type).isSome

def emplace (t : Handles M K) (type : String) (c : Callback M K) : Handles M K × Bool :=
  if contains t type then (t, false) else ((type, c) :: t, true)

def erase (t : Handles M K) (type : String) : Handles M K := t.filter fun x => x.1 != type

section Registration

variable (name : M → String)

def on (m : M) (callback : Option K) (t : Handles M K) : Handles M K × Bool :=
  match callback with
  | none => (t, false)
  | some k => emplace t (name m) (.on m k)

def onType (type : String) (callback : Option K) (t : Handles M K) : Handles M K × Bool :=
  match callback with
  | none => (t, false)
  | some k => if type.isEmpty then (t, false) else emplace t type (.onType k)

def cancel (m : M) (t : Handles M K) : Handles M K := erase t (name m)

end Registration

/-- The std::set _handlers: pointers in the order of their addresses. -/
structure HandlerSet where
  items : List Nat
  sorted : items.Pairwise (· < ·)

def HandlerSet.empty : HandlerSet := ⟨[], .nil⟩

theorem pairwise_orderedInsert {l : List Nat} {h : Nat} (hl : l.Pairwise (· < ·)) (hm : h ∉ l) :
    (l.orderedInsert (· ≤ ·) h).Pairwise (· < ·) := by
  have hle : (l.orderedInsert (· ≤ ·) h).Pairwise (· ≤ ·) :=
    List.Pairwise.orderedInsert h l (hl.imp Nat.le_of_lt)
  have hne : (l.orderedInsert (· ≤ ·) h).Nodup :=
    (List.perm_orderedInsert _ h l).nodup_iff.mpr (List.nodup_cons.mpr ⟨hm, hl.imp Nat.ne_of_lt⟩)
  exact (hle.and hne).imp fun hab => Nat.lt_of_le_of_ne hab.1 hab.2

def HandlerSet.insert (s : HandlerSet) (h : Nat) : HandlerSet × Bool :=
  if hm : h ∈ s.items then (s, false)
  else (⟨s.items.orderedInsert (· ≤ ·) h, pairwise_orderedInsert s.sorted hm⟩, true)

def HandlerSet.erase (s : HandlerSet) (h : Nat) : HandlerSet :=
  ⟨s.items.erase h, s.sorted.sublist List.erase_sublist⟩

structure Handler (M P K A : Type) where
  events : List (Event M P A) := []
  handles : Handles M K := []

theorem HandlerSet.mem_insert {s : HandlerSet} {h x : Nat} :
    x ∈ (s.insert h).1.items ↔ x = h ∨ x ∈ s.items := by
  unfold HandlerSet.insert
  split
  case isTrue hm =>
      constructor
      · exact .inr
      · rintro (rfl | hx)
        · exact hm
        · exact hx
  case isFalse => exact List.mem_orderedInsert _

theorem HandlerSet.mem_erase {s : HandlerSet} {h x : Nat} : x ∈ (s.erase h).items ↔ x ≠ h ∧ x ∈ s.items :=
  List.Nodup.mem_erase_iff (s.sorted.imp Nat.ne_of_lt)

theorem HandlerSet.insert_new {s : HandlerSet} {h : Nat} : (s.insert h).2 = true ↔ h ∉ s.items := by
  unfold HandlerSet.insert
  split
  case isTrue hm => simp [hm]
  case isFalse hm => simp [hm]

structure Bus (M P K A : Type) where
  handlers : HandlerSet := .empty
  handler : Nat → Handler M P K A := fun _ => {}

def hasType (s : Bus M P K A) (type : String) (h : Nat) : Bool := contains (s.handler h).handles type

def deliver (s : Bus M P K A) (ev : Event M P A) (h : Nat) : Bus M P K A :=
  { s with handler := Function.update s.handler h { s.handler h with events := (s.handler h).events ++ [ev] } }

/-- The loop of Publish<T>: each handler gets a copy of the message. -/
def publishTo (type : String) (msg : Any M P) (ack : Option A) : List Nat → Bus M P K A → Bus M P K A × Bool
  | [], s => (s, false)
  | h :: hs, s =>
      if hasType s type h then ((publishTo type msg ack hs (deliver s ⟨type, msg, ack⟩ h)).1, true)
      else publishTo type msg ack hs s

def publish (name : M → String) (m : M) (msg : P) (ack : Option A) (s : Bus M P K A) : Bus M P K A × Bool :=
  publishTo (name m) (some ⟨m, msg⟩) ack s.handlers.items s

/-- The loop of the other Publish: each handler gets what is in the argument, and
`moved` is what the move leaves there. -/
def publishAnyTo (moved : Any M P → Any M P) (type : String) (ack : Option A) :
    List Nat → Any M P → Bus M P K A → Bus M P K A × Bool
  | [], _, s => (s, false)
  | h :: hs, any, s =>
      if hasType s type h then
        ((publishAnyTo moved type ack hs (moved any) (deliver s ⟨type, any, ack⟩ h)).1, true)
      else publishAnyTo moved type ack hs any s

def publishAny (moved : Any M P → Any M P) (type : String) (any : Any M P) (ack : Option A)
    (s : Bus M P K A) : Bus M P K A × Bool :=
  publishAnyTo moved type ack s.handlers.items any s

def subscribe (handler : Option Nat) (s : Bus M P K A) : Bus M P K A × Bool :=
  match handler with
  | none => (s, false)
  | some h => ({ s with handlers := (s.handlers.insert h).1 }, (s.handlers.insert h).2)

def unsubscribe (handler : Option Nat) (s : Bus M P K A) : Bus M P K A :=
  match handler with
  | none => s
  | some h => { s with handlers := s.handlers.erase h }

end Enigma.EventBus
