import Mathlib.Data.List.Induction
import Enigma.EventBus

namespace Enigma.BusRouting

open EventBus

variable {M P K A : Type} {s : Bus M P K A} {type : String} {ack : Option A}

@[simp]
theorem hasType_deliver (s : Bus M P K A) (ev : Event M P A) (h : Nat) :
    hasType (deliver s ev h) type = hasType s type := by
  funext h'
  by_cases he : h' = h
  · subst he
    simp [hasType, deliver]
  · simp [hasType, deliver, he]

theorem deliver_events_ne (s : Bus M P K A) (ev : Event M P A) {h h' : Nat} (hne : h' ≠ h) :
    (deliver s ev h).handler h' = s.handler h' := by
  simp [deliver, hne]

theorem deliver_events_self (s : Bus M P K A) (ev : Event M P A) (h : Nat) :
    ((deliver s ev h).handler h).events = (s.handler h).events ++ [ev] := by
  simp [deliver]

theorem publishTo_handler {hs : List Nat} (hn : hs.Nodup) (s : Bus M P K A) (msg : Any M P) (h : Nat) :
    (publishTo type msg ack hs s).1.handler h =
      if h ∈ hs ∧ hasType s type h = true then
        { s.handler h with events := (s.handler h).events ++ [⟨type, msg, ack⟩] }
      else s.handler h := by
  induction hs generalizing s with
  | nil => simp [publishTo]
  | cons h' hs ih =>
      obtain ⟨hnew, hn⟩ := List.nodup_cons.mp hn
      by_cases ht : hasType s type h' = true
      · simp only [publishTo, ht, if_true, ih hn, hasType_deliver]
        by_cases he : h = h'
        · subst he
          simp [hnew, ht, deliver]
        · simp [he, deliver_events_ne s _ he]
      · simp only [publishTo, ht, Bool.false_eq_true, if_false, ih hn]
        by_cases he : h = h'
        · subst he
          simp [hnew, ht]
        · simp [he]

theorem publishTo_handlers (hs : List Nat) (s : Bus M P K A) (msg : Any M P) :
    (publishTo type msg ack hs s).1.handlers = s.handlers := by
  induction hs generalizing s with
  | nil => rfl
  | cons h hs ih =>
      simp only [publishTo]
      split
      · exact ih (deliver s _ h)
      · exact ih s

theorem publishTo_result (hs : List Nat) (s : Bus M P K A) (msg : Any M P) :
    (publishTo type msg ack hs s).2 = hs.any (hasType s type) := by
  induction hs with
  | nil => rfl
  | cons h hs ih =>
      by_cases ht : hasType s type h = true
      · simp [publishTo, ht]
      · simp [publishTo, ht, ih]

section Moved

variable {moved : Any M P → Any M P}

theorem publishAnyTo_of_fixed {p : Any M P} (hp : moved p = p) (hs : List Nat) (s : Bus M P K A) :
    publishAnyTo moved type ack hs p s = publishTo type p ack hs s := by
  induction hs generalizing s with
  | nil => rfl
  | cons h hs ih => simp only [publishAnyTo, publishTo, hp, ih]

theorem publishAnyTo_of_none {hs : List Nat} (hnone : ∀ h ∈ hs, hasType s type h = false) (p : Any M P) :
    publishAnyTo moved type ack hs p s = (s, false) := by
  induction hs with
  | nil => rfl
  | cons h hs ih =>
      rw [publishAnyTo, if_neg (by simp [hnone h List.mem_cons_self])]
      exact ih fun h' hh => hnone h' (List.mem_cons_of_mem _ hh)

theorem publishTo_of_none {hs : List Nat} (hnone : ∀ h ∈ hs, hasType s type h = false) (p : Any M P) :
    publishTo type p ack hs s = (s, false) := by
  have hid : id p = p := rfl
  rw [← publishAnyTo_of_fixed hid]
  exact publishAnyTo_of_none hnone p

theorem publishAnyTo_of_single {hs : List Nat} (h1 : (hs.filter (hasType s type)).length ≤ 1) (p : Any M P) :
    publishAnyTo moved type ack hs p s = publishTo type p ack hs s := by
  induction hs with
  | nil => rfl
  | cons h hs ih =>
      by_cases ht : hasType s type h = true
      · have hnone : ∀ h' ∈ hs, hasType s type h' = false := by
          simpa [List.filter_cons_of_pos ht] using h1
        simp only [publishAnyTo, publishTo, ht, if_true]
        rw [publishAnyTo_of_none (by simpa using hnone), publishTo_of_none (by simpa using hnone)]
      · rw [publishAnyTo, publishTo, if_neg ht, if_neg ht]
        exact ih (by simpa [List.filter_cons_of_neg ht] using h1)

theorem publishAnyTo_other {hs : List Nat} {h : Nat} (hne : h ∉ hs) (p : Any M P) (s : Bus M P K A) :
    (publishAnyTo moved type ack hs p s).1.handler h = s.handler h := by
  induction hs generalizing p s with
  | nil => rfl
  | cons h' hs ih =>
      obtain ⟨he, hne⟩ : h ≠ h' ∧ h ∉ hs := by simpa using hne
      simp only [publishAnyTo]
      split
      · rw [ih hne, deliver_events_ne s _ he]
      · exact ih hne p s

def Handed (s s' : Bus M P K A) (type : String) (p : Any M P) (ack : Option A) (hs : List Nat) : Prop :=
  ∀ h ∈ hs, hasType s type h = true → (s'.handler h).events = (s.handler h).events ++ [⟨type, p, ack⟩]

theorem handed_first {hs : List Nat} (hn : hs.Nodup) {p q : Any M P}
    (hall : Handed s (publishAnyTo moved type ack hs q s).1 type p ack hs)
    (hsome : ∃ h ∈ hs, hasType s type h = true) : q = p := by
  induction hs with
  | nil =>
      obtain ⟨h, hm, -⟩ := hsome
      cases hm
  | cons h hs ih =>
      obtain ⟨hnew, hn⟩ := List.nodup_cons.mp hn
      by_cases ht : hasType s type h = true
      · have hev := hall h List.mem_cons_self ht
        simp only [publishAnyTo, ht, if_true] at hev
        rw [publishAnyTo_other hnew, deliver_events_self] at hev
        simpa using hev
      · rw [publishAnyTo, if_neg ht] at hall
        refine ih hn (fun h' hh => hall h' (List.mem_cons_of_mem _ hh)) ?_
        obtain ⟨h', hm, ht'⟩ := hsome
        rcases List.mem_cons.mp hm with rfl | hm
        · exact absurd ht' ht
        · exact ⟨h', hm, ht'⟩

theorem handed_iff {hs : List Nat} (hn : hs.Nodup) (p : Any M P) :
    Handed s (publishAnyTo moved type ack hs p s).1 type p ack hs ↔
      (hs.filter (hasType s type)).length ≤ 1 ∨ moved p = p := by
  constructor
  · intro hall
    induction hs with
    | nil => simp
    | cons h hs ih =>
        obtain ⟨hnew, hn⟩ := List.nodup_cons.mp hn
        by_cases ht : hasType s type h = true
        · by_cases hmore : ∃ h' ∈ hs, hasType s type h' = true
          · -- the next one is handed what the move has left
            right
            have hrest : Handed (deliver s ⟨type, p, ack⟩ h)
                (publishAnyTo moved type ack hs (moved p) (deliver s ⟨type, p, ack⟩ h)).1 type p ack hs := by
              intro h' hm ht'
              have hne : h' ≠ h := fun he => hnew (he ▸ hm)
              have hev := hall h' (List.mem_cons_of_mem _ hm) (by simpa using ht')
              simp only [publishAnyTo, ht, if_true] at hev
              rw [hev, deliver_events_ne s _ hne]
            exact handed_first hn hrest (by simpa using hmore)
          · left
            have hnone : hs.filter (hasType s type) = [] := by
              rw [List.filter_eq_nil_iff]
              exact fun h' hm ht' => hmore ⟨h', hm, ht'⟩
            rw [List.filter_cons_of_pos ht, hnone]
            exact Nat.le_refl _
        · rw [publishAnyTo, if_neg ht] at hall
          rw [List.filter_cons_of_neg ht]
          exact ih hn fun h' hm => hall h' (List.mem_cons_of_mem _ hm)
  · intro hc h hm ht
    have heq : publishAnyTo moved type ack hs p s = publishTo type p ack hs s := by
      rcases hc with hc | hc
      · exact publishAnyTo_of_single hc p
      · exact publishAnyTo_of_fixed hc hs s
    rw [heq, publishTo_handler hn, if_pos ⟨hm, ht⟩]

/-- The Publish of a std::any reaches every handler with the payload it was given if and only if it
reaches at most one or the move leaves the payload in place. -/
theorem publish_any_iff [DecidableEq M] (name : M → String) (moved : Any M P → Any M P) (type : String)
    (p : Any M P) (ack : Option A) (s : Bus M P K A) :
    (Handed s (publishAny moved type p ack s).1 type p ack s.handlers.items ∧
      (∀ m v, p = some ⟨m, v⟩ → type = name m →
        publishAny moved type p ack s = publish name m v ack s ∧
        ∀ h ∈ s.handlers.items, hasType s type h = true →
          ((((publishAny moved type p ack s).1.handler h).events.getLast?).bind fun e => anyCast m e.ev) =
            some v)) ↔
      (s.handlers.items.filter (hasType s type)).length ≤ 1 ∨ moved p = p := by
  have hn : s.handlers.items.Nodup := s.handlers.sorted.imp Nat.ne_of_lt
  constructor
  · rintro ⟨hall, -⟩
    exact (handed_iff hn p).mp hall
  · intro hc
    have hall : Handed s (publishAnyTo moved type ack s.handlers.items p s).1 type p ack s.handlers.items :=
      (handed_iff hn p).mpr hc
    refine ⟨hall, ?_⟩
    rintro m v rfl rfl
    refine ⟨?_, fun h hm ht => ?_⟩
    · rcases hc with hc | hc
      · exact publishAnyTo_of_single hc _
      · exact publishAnyTo_of_fixed hc _ s
    · rw [publishAny, hall h hm ht]
      simp [anyCast]

/-- Two handlers of one type, with a move that leaves a std::any empty: the
second one is handed nothing. -/
theorem second_handler_empty : ¬ ∀ (s : Bus Unit Nat Nat Nat) (p : Any Unit Nat) (ack : Option Nat),
    Handed s (publishAny (fun _ => none) "T" p ack s).1 "T" p ack s.handlers.items := by
  intro hall
  let s : Bus Unit Nat Nat Nat := ⟨⟨[0, 1], by decide⟩, fun _ => ⟨[], [("T", .on () 5)]⟩⟩
  have hsecond := hall s (some ⟨(), 42⟩) none 1 (by decide) (by decide)
  revert hsecond
  decide

end Moved

inductive Op (M P K A : Type)
  | subscribe (h : Option Nat)
  | unsubscribe (h : Option Nat)
  | on (h : Nat) (m : M) (callback : Option K)
  | onType (h : Nat) (type : String) (callback : Option K)
  | cancel (h : Nat) (m : M)
  | publish (m : M) (msg : P) (ack : Option A)

def setHandles (s : Bus M P K A) (h : Nat) (t : Handles M K) : Bus M P K A :=
  { s with handler := Function.update s.handler h { s.handler h with handles := t } }

def apply (name : M → String) (s : Bus M P K A) : Op M P K A → Bus M P K A × Option Bool
  | .subscribe h => ((subscribe h s).1, some (subscribe h s).2)
  | .unsubscribe h => (unsubscribe h s, none)
  | .on h m k => (setHandles s h (on name m k (s.handler h).handles).1, some (on name m k (s.handler h).handles).2)
  | .onType h type k =>
      (setHandles s h (onType type k (s.handler h).handles).1, some (onType type k (s.handler h).handles).2)
  | .cancel h m => (setHandles s h (cancel name m (s.handler h).handles), none)
  | .publish m msg ack => ((publish name m msg ack s).1, some (publish name m msg ack s).2)

def after (name : M → String) (ops : List (Op M P K A)) : Bus M P K A :=
  ops.foldl (fun s op => (apply name s op).1) {}

def lastSet (f : Op M P K A → Option Bool) (ops : List (Op M P K A)) : Bool :=
  (ops.filterMap f).getLast?.getD false

def subscription (h : Nat) : Op M P K A → Option Bool
  | .subscribe h' => if h' = some h then some true else none
  | .unsubscribe h' => if h' = some h then some false else none
  | _ => none

def registration (name : M → String) (h : Nat) (type : String) : Op M P K A → Option Bool
  | .on h' m k => if h' = h ∧ name m = type ∧ k.isSome then some true else none
  | .onType h' type' k => if h' = h ∧ type' = type ∧ type' ≠ "" ∧ k.isSome then some true else none
  | .cancel h' m => if h' = h ∧ name m = type then some false else none
  | _ => none

/-- Whether a handler is subscribed, and whether it has a callback, as told by
what was done before. -/
def subscribed (h : Nat) (ops : List (Op M P K A)) : Bool := lastSet (subscription h) ops

def typed (name : M → String) (h : Nat) (type : String) (ops : List (Op M P K A)) : Bool :=
  lastSet (registration name h type) ops

/-- The event that an operation enqueues to a handler, given what was done
before. -/
def reaches (name : M → String) (h : Nat) (pre : List (Op M P K A)) : Op M P K A → Option (Event M P A)
  | .publish m msg ack =>
      if subscribed h pre && typed name h (name m) pre then some ⟨name m, some ⟨m, msg⟩, ack⟩ else none
  | _ => none

def enqueued (name : M → String) (h : Nat) (pre : List (Op M P K A)) : List (Op M P K A) → List (Event M P A)
  | [] => []
  | op :: ops => (reaches name h pre op).toList ++ enqueued name h (pre ++ [op]) ops

variable {name : M → String}

theorem after_concat (ops : List (Op M P K A)) (op : Op M P K A) :
    after name (ops ++ [op]) = (apply name (after name ops) op).1 := by
  simp [after]

theorem lastSet_concat (f : Op M P K A → Option Bool) (ops : List (Op M P K A)) (op : Op M P K A) :
    lastSet f (ops ++ [op]) = (f op).getD (lastSet f ops) := by
  cases h : f op with
  | none => simp [lastSet, List.filterMap_append, h]
  | some b => simp [lastSet, List.filterMap_append, h]

theorem lastSet_concat_iff (f : Op M P K A → Option Bool) (ops : List (Op M P K A)) (op : Op M P K A) :
    lastSet f (ops ++ [op]) = true ↔ f op = some true ∨ (f op = none ∧ lastSet f ops = true) := by
  rw [lastSet_concat]
  cases f op <;> simp

theorem apply_subscription (s : Bus M P K A) (op : Op M P K A) (h : Nat) :
    h ∈ (apply name s op).1.handlers.items ↔
      subscription h op = some true ∨ (subscription h op = none ∧ h ∈ s.handlers.items) := by
  cases op with
  | subscribe h' =>
      cases h' with
      | none => simp [apply, subscribe, subscription]
      | some h' =>
          simp only [apply, subscribe, subscription, HandlerSet.mem_insert, Option.some.injEq]
          by_cases he : h' = h
          · simp [he]
          · simp [he, Ne.symm he]
  | unsubscribe h' =>
      cases h' with
      | none => simp [apply, unsubscribe, subscription]
      | some h' =>
          simp only [apply, unsubscribe, subscription, HandlerSet.mem_erase, Option.some.injEq]
          by_cases he : h' = h
          · simp [he]
          · simp [he, Ne.symm he]
  | publish m msg ack => simp [apply, publish, publishTo_handlers, subscription]
  | on h' m k | onType h' type k | cancel h' m => simp [apply, setHandles, subscription]

theorem mem_handlers_iff (ops : List (Op M P K A)) (h : Nat) :
    h ∈ (after name ops).handlers.items ↔ subscribed h ops = true := by
  induction ops using List.reverseRecOn with
  | nil => simp [after, subscribed, lastSet, HandlerSet.empty]
  | append_singleton ops op ih =>
      rw [after_concat, apply_subscription, ih]
      exact (lastSet_concat_iff _ ops op).symm

theorem contains_iff {t : Handles M K} {type : String} : contains t type = true ↔ ∃ c, (type, c) ∈ t := by
  simp [contains, find]

theorem contains_emplace (t : Handles M K) (type type' : String) (c : Callback M K) :
    contains (emplace t type c).1 type' = true ↔ type = type' ∨ contains t type' = true := by
  unfold emplace
  split
  case isTrue hc =>
      refine ⟨.inr, ?_⟩
      rintro (rfl | h)
      · exact hc
      · exact h
  case isFalse => simp [contains_iff, exists_or, @eq_comm _ type']

theorem contains_erase (t : Handles M K) (type type' : String) :
    contains (erase t type) type' = true ↔ type ≠ type' ∧ contains t type' = true := by
  simp only [contains_iff, erase, List.mem_filter, bne_iff_ne, exists_and_right, ne_eq, @eq_comm _ type']
  exact and_comm

theorem hasType_setHandles (s : Bus M P K A) (h h' : Nat) (t : Handles M K) (type : String) :
    hasType (setHandles s h' t) type h = if h' = h then contains t type else hasType s type h := by
  by_cases he : h' = h
  · simp [hasType, setHandles, he]
  · simp [hasType, setHandles, he, Ne.symm he]

theorem setHandles_events (s : Bus M P K A) (h h' : Nat) (t : Handles M K) :
    ((setHandles s h' t).handler h).events = (s.handler h).events := by
  by_cases he : h = h'
  · subst he
    simp [setHandles]
  · simp [setHandles, he]

theorem apply_registration (s : Bus M P K A) (op : Op M P K A) (h : Nat) (type : String) :
    hasType (apply name s op).1 type h = true ↔
      registration name h type op = some true ∨ (registration name h type op = none ∧ hasType s type h = true) := by
  cases op with
  | subscribe h' => cases h' <;> simp [apply, subscribe, registration, hasType]
  | unsubscribe h' => cases h' <;> simp [apply, unsubscribe, registration, hasType]
  | publish m msg ack =>
      simp only [apply, publish, registration, hasType]
      rw [publishTo_handler (s.handlers.sorted.imp Nat.ne_of_lt)]
      split <;> simp
  | on h' m k =>
      simp only [apply, hasType_setHandles, registration]
      by_cases he : h' = h
      · subst he
        cases k with
        | none => simp [on, hasType]
        | some k => by_cases hn : name m = type <;> simp [on, contains_emplace, hn, hasType]
      · simp [he]
  | onType h' type' k =>
      simp only [apply, hasType_setHandles, registration]
      by_cases he : h' = h
      · subst he
        cases k with
        | none => simp [onType, hasType]
        | some k =>
            by_cases hempty : type' = ""
            · simp [onType, hempty, hasType]
            · simp only [onType, String.isEmpty_iff, hempty, if_false, if_true, contains_emplace, hasType]
              by_cases hn : type' = type
              · subst hn
                simp [hempty]
              · simp [hn]
      · simp [he]
  | cancel h' m =>
      simp only [apply, hasType_setHandles, registration]
      by_cases he : h' = h
      · subst he
        by_cases hn : name m = type <;> simp [cancel, contains_erase, hn, hasType]
      · simp [he]

theorem hasType_iff (ops : List (Op M P K A)) (h : Nat) (type : String) :
    hasType (after name ops) type h = true ↔ typed name h type ops = true := by
  induction ops using List.reverseRecOn with
  | nil => simp [after, typed, lastSet, hasType, contains, find]
  | append_singleton ops op ih =>
      rw [after_concat, apply_registration, ih]
      exact (lastSet_concat_iff _ ops op).symm

theorem apply_events (pre : List (Op M P K A)) (op : Op M P K A) (h : Nat) :
    ((apply name (after name pre) op).1.handler h).events =
      ((after name pre).handler h).events ++ (reaches name h pre op).toList := by
  cases op with
  | subscribe h' => cases h' <;> simp [apply, subscribe, reaches]
  | unsubscribe h' => cases h' <;> simp [apply, unsubscribe, reaches]
  | on h' m k | onType h' type' k | cancel h' m => simp [apply, setHandles_events, reaches]
  | publish m msg ack =>
      simp only [apply, publish, reaches]
      rw [publishTo_handler ((after name pre).handlers.sorted.imp Nat.ne_of_lt)]
      simp only [hasType_iff, mem_handlers_iff, Bool.and_eq_true]
      split <;> simp

theorem events_enqueued (pre ops : List (Op M P K A)) (h : Nat) :
    ((after name (pre ++ ops)).handler h).events =
      ((after name pre).handler h).events ++ enqueued name h pre ops := by
  induction ops generalizing pre with
  | nil => simp [enqueued]
  | cons op ops ih =>
      rw [List.append_cons, ih, after_concat, apply_events, enqueued, List.append_assoc]

theorem publish_result_iff (pre : List (Op M P K A)) (m : M) (msg : P) (ack : Option A) :
    (publish name m msg ack (after name pre)).2 = true ↔
      ∃ h, subscribed h pre = true ∧ typed name h (name m) pre = true := by
  simp only [publish, publishTo_result, List.any_eq_true, mem_handlers_iff, hasType_iff]

theorem subscribe_result_iff (pre : List (Op M P K A)) (h : Option Nat) :
    (subscribe h (after name pre)).2 = true ↔ ∃ x, h = some x ∧ subscribed x pre = false := by
  cases h with
  | none => simp [subscribe]
  | some x =>
      simp only [subscribe, HandlerSet.insert_new, mem_handlers_iff]
      simp

theorem lastSet_eq_false {f : Op M P K A → Option Bool} {pre post : List (Op M P K A)}
    (hpre : lastSet f pre = false) (hpost : ∀ op ∈ post, f op ≠ some true) : lastSet f (pre ++ post) = false := by
  induction post using List.reverseRecOn with
  | nil => simpa using hpre
  | append_singleton post op ih =>
      rw [← List.append_assoc, lastSet_concat, ih fun op hop => hpost op (List.mem_append_left _ hop)]
      have hop := hpost op (by simp)
      cases hf : f op with
      | none => rfl
      | some b => cases b with
        | false => rfl
        | true => exact absurd hf hop

theorem enqueued_unsubscribed (h : Nat) (pre post : List (Op M P K A)) (hpre : subscribed h pre = false)
    (hpost : ∀ op ∈ post, op ≠ .subscribe (some h)) : enqueued name h pre post = [] := by
  induction post generalizing pre with
  | nil => rfl
  | cons op post ih =>
      have hnew : subscribed h (pre ++ [op]) = false := by
        refine lastSet_eq_false hpre fun op' hop' he => ?_
        rw [List.mem_singleton.mp hop'] at he
        cases op with
        | subscribe h' =>
            have hne := hpost _ List.mem_cons_self
            simp only [subscription, Option.ite_none_right_eq_some] at he
            exact hne (by rw [he.1])
        | unsubscribe h' => simp [subscription] at he
        | on | onType | cancel | publish => cases he
      rw [enqueued, ih _ hnew fun op' hop' => hpost op' (List.mem_cons_of_mem _ hop')]
      cases op with
      | publish m msg ack => simp [reaches, hpre]
      | subscribe | unsubscribe | on | onType | cancel => rfl

/-- The routing of a bus, for every history: what Publish and Subscribe return,
and what a handler is ever sent. -/
theorem bus_routes (name : M → String) (ops : List (Op M P K A)) :
    (∀ h, ((after name ops).handler h).events = enqueued name h [] ops) ∧
    (∀ pre m msg ack post, ops = pre ++ .publish m msg ack :: post →
      ((apply name (after name pre) (.publish m msg ack)).2 = some true ↔
        ∃ h, subscribed h pre = true ∧ typed name h (name m) pre = true)) ∧
    (∀ pre h post, ops = pre ++ .subscribe h :: post →
      ((apply name (after name pre) (.subscribe h)).2 = some true ↔
        ∃ x, h = some x ∧ subscribed x pre = false)) ∧
    (∀ pre h post, ops = pre ++ .unsubscribe (some h) :: post → (∀ op ∈ post, op ≠ .subscribe (some h)) →
      ((after name ops).handler h).events = ((after name pre).handler h).events) := by
  refine ⟨fun h => ?_, fun pre m msg ack post _ => ?_, fun pre h post _ => ?_, ?_⟩
  · have hev : ((after name ([] ++ ops)).handler h).events = [] ++ enqueued name h [] ops :=
      events_enqueued [] ops h
    rwa [List.nil_append, List.nil_append] at hev
  · simp only [apply, Option.some.injEq]
    exact publish_result_iff pre m msg ack
  · simp only [apply, Option.some.injEq]
    exact subscribe_result_iff pre h
  · rintro pre h post rfl hpost
    have hleft : subscribed h (pre ++ [.unsubscribe (some h)]) = false := by
      simp [subscribed, lastSet_concat, subscription]
    rw [List.append_cons, events_enqueued, enqueued_unsubscribed h _ post hleft hpost, List.append_nil,
      after_concat, apply_events]
    simp [reaches]

/-- A message before the callback is there is lost, the next one arrives, and
after Unsubscribe none does. -/
theorem bus_routes_one_event :
    let ops : List (Op Unit Nat Nat Nat) := [.subscribe (some 0), .publish () 1 none, .on 0 () (some 7),
      .publish () 2 (some 9), .unsubscribe (some 0), .publish () 3 none]
    ((after (fun _ => "T") ops).handler 0).events = [⟨"T", some ⟨(), 2⟩, some 9⟩] := by
  intro ops
  rw [(bus_routes (fun _ => "T") ops).1]
  rfl

end Enigma.BusRouting
