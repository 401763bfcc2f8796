import Enigma.BusOrder
import Enigma.BusCancel

namespace Enigma.BusCopies

open Transition SyncQueue QueueStep EventBus BusThreads BusStep BusCalls BusLocks BusOrder
open BusCancel (changes)

variable {M P K A : Type} {ρ : Runtime M P}

/-- What is seen of a run: the bus-mutex section of a Publish, a change of a handler's table, the
callback found for an event, how that came out, and an ack that is called. -/
inductive Seen (M P K A : Type)
  | published (ev : Event M P A)
  | changed (h : Nat) (x : BusCancel.Entry M K)
  | looked (h : Nat) (ev : Event M P A) (f : Option (Callback M K))
  | ended (h : Nat) (ev : Event M P A) (returned : Bool)
  | acked (h : Nat) (ev : Event M P A)

section Observed

variable [DecidableEq M]

def callSeen (ρ : Runtime M P) (s : Shared M P K A) : OpPc M P K A → List (Seen M P K A)
  | .lockBus (.publish x) => [.published x.event]
  | .table h x => (changes ρ (s.cell h).handles x).map (.changed h)
  | _ => []

def loopSeen (h : Nat) (s : Shared M P K A) : LoopPc M P K A → List (Seen M P K A)
  | .find ev => [.looked h ev (find (s.cell h).handles ev.type)]
  | .call ev (.on m _) => if (anyCast m ev.ev).isNone then [.ended h ev false] else []
  | _ => []

def endSeen (h : Nat) (ev : Event M P A) (throws : Bool) : Code P K → List (Seen M P K A)
  | .on _ _ => [.ended h ev (!throws)]
  | _ => []

def ackSeen (h : Nat) : Option (LoopPc M P K A) → List (Seen M P K A)
  | some (.user ev .ack none) => [.acked h ev]
  | _ => []

def seen (ρ : Runtime M P) (s : State M P K A) : Action M P K A → List (Seen M P K A)
  | .finish h throws => match s.thread h with
    | some ⟨.user ev y none, _⟩ => endSeen h ev throws y ++ ackSeen h (y.finish ev throws)
    | _ => []
  | .step (.thread h) _ => (inCall s (.thread h)).elim [] (callSeen ρ s.shared) ++
      (s.thread h).elim [] fun l => loopSeen h s.shared l.pc
  | .step a _ => (inCall s a).elim [] (callSeen ρ s.shared)
  | _ => []

end Observed

def looked : Seen M P K A → Option (Nat × Event M P A)
  | .looked h ev _ => some (h, ev)
  | _ => none

def returned : Seen M P K A → Option (Nat × Event M P A)
  | .ended h ev true => some (h, ev)
  | _ => none

/-- No callback returned for the event: it or the cast threw, or none was found. -/
def failed : Seen M P K A → Option (Nat × Event M P A)
  | .looked h ev none | .ended h ev false => some (h, ev)
  | _ => none

def acked : Seen M P K A → Option (Nat × Event M P A)
  | .acked h ev => some (h, ev)
  | _ => none

def Seen.place : Seen M P K A → Option Nat
  | .published _ => none
  | .changed h _ | .looked h _ _ | .ended h _ _ | .acked h _ => some h

def Placing (what : Seen M P K A → Option (Nat × Event M P A)) : Prop := ∀ e x, what e = some x → e.place = some x.1

theorem placing_looked : Placing (looked : Seen M P K A → _) := by
  rintro (_ | _ | _ | _ | _) x hx <;> cases hx
  rfl

theorem placing_returned : Placing (returned : Seen M P K A → _) := by
  rintro (_ | _ | _ | ⟨h, ev, _ | _⟩ | _) x hx <;> cases hx
  rfl

theorem placing_failed : Placing (failed : Seen M P K A → _) := by
  rintro (_ | _ | ⟨h, ev, _ | _⟩ | ⟨h, ev, _ | _⟩ | _) x hx <;> cases hx <;> rfl

section Counting

variable [DecidableEq A] (k : A) (h : Nat)

def handlers (what : Seen M P K A → Option (Nat × Event M P A)) (log : List (Seen M P K A)) : List Nat :=
  log.filterMap fun e => (what e).bind fun x => if x.2.ack = some k then some x.1 else none

def carrying (evs : List (Event M P A)) : Nat := evs.countP fun ev => decide (ev.ack = some k)

def publishes (log : List (Seen M P K A)) : Nat := log.countP fun
  | .published ev => decide (ev.ack = some k)
  | _ => false

/-- The copies of the event that a Publish may still push to handler `h`. -/
def aimed : OpPc M P K A → Nat
  | .visit v => if h ∈ v.rest then carrying k [v.sending.event] else 0
  | .lockType h' v | .readType h' v | .unlockType h' _ v =>
      if h' = h ∨ h ∈ v.rest then carrying k [v.sending.event] else 0
  | .deliver h' p v => if h' = h then carrying k (held p) else if h ∈ v.rest then carrying k [v.sending.event] else 0
  | _ => 0

def aimedOf (o : Option Agent) (calls : Agent → Option (OpPc M P K A)) : Nat := (o.bind calls).elim 0 (aimed k h)

/-- What the thread of a handler has popped and has not looked up. -/
def fetched : LoopPc M P K A → List (Event M P A)
  | .pop p => held p
  | .lock ev | .find ev => [ev]
  | _ => []

def looks : LoopPc M P K A → List (Event M P A)
  | .find ev => [ev]
  | _ => []

def fetchedBy (s : State M P K A) : List (Event M P A) := (s.thread h).elim [] fun l => fetched l.pc

/-- The copies on the way to the moment where the callback is looked up. -/
def copies (s : State M P K A) : Nat :=
  carrying k (fetchedBy h s) + carrying k (s.shared.cell h).events.queue + aimedOf k h s.shared.mutex (inCall s)

def running : LoopPc M P K A → List (Event M P A)
  | .call ev _ | .user ev (.on _ _) _ | .user ev (.onType _) _ => [ev]
  | _ => []

def busy (s : State M P K A) : List (Event M P A) := (s.thread h).elim [] fun l => running l.pc

end Counting

section Steps

variable [DecidableEq A] {k : A} {h : Nat}

theorem handlers_append (what : Seen M P K A → Option (Nat × Event M P A)) (log es : List (Seen M P K A)) :
    handlers k what (log ++ es) = handlers k what log ++ handlers k what es := List.filterMap_append

theorem publishes_append (log es : List (Seen M P K A)) :
    publishes k (log ++ es) = publishes k log + publishes k es := List.countP_append

theorem carrying_append (evs evs' : List (Event M P A)) :
    carrying k (evs ++ evs') = carrying k evs + carrying k evs' := List.countP_append

theorem carrying_sublist {evs evs' : List (Event M P A)} (hs : evs.Sublist evs') : carrying k evs ≤ carrying k evs' :=
  hs.countP_le

theorem carrying_sent (x : Sending M P A) : carrying k [(x.sent ρ).event] = carrying k [x.event] := by
  have hack : (x.sent ρ).event.ack = x.event.ack := by
    unfold Sending.sent
    split <;> rfl
  simp [carrying, hack]

theorem step_sublist {ι T : Type} [DecidableEq ι] {cond : Bool} {t : ι} {q q' : Queue ι T} {p p' : Pc T}
    (hs : Step cond t q p q' p') (hp : ∀ v, p ≠ .push v) : q'.queue.Sublist q.queue := by
  cases hs with
  | push v => exact absurd rfl (hp v)
  | take c v rest hq | clearOne v rest hq =>
      rw [hq]
      exact List.sublist_cons_self _ _
  | _ => exact List.Sublist.refl _

theorem aimedOf_update {o : Option Agent} {calls : Agent → Option (OpPc M P K A)} {a : Agent}
    {x : Option (OpPc M P K A)} (hx : x.elim 0 (aimed k h) = (calls a).elim 0 (aimed k h)) :
    aimedOf k h o (Function.update calls a x) = aimedOf k h o calls := by
  cases o with
  | none => rfl
  | some b =>
      by_cases hb : b = a
      · subst hb
        simpa [aimedOf] using hx
      · simp [aimedOf, hb]

/-- Inside its bus-mutex section a Publish makes no second copy for a handler. -/
theorem opStep_aimed {a : Agent} {s s' : Shared M P K A} {pc pc' : OpPc M P K A} (hs : OpStep ρ a s pc s' pc')
    (hp : InPlace pc) (hb : Lock.bus ∈ holds pc) :
    carrying k (s'.cell h).events.queue + aimed k h pc' ≤ carrying k (s.cell h).events.queue + aimed k h pc := by
  cases hs with
  | visited x r => exact Nat.add_le_add_left (Nat.zero_le _) _
  | visit x h' rest r =>
      apply Nat.le_of_eq
      simp [aimed, eq_comm]
  | lockType h' v => rw [(setMutex_cell s h' _).1]; exact Nat.le_refl _
  | readType h' v => exact Nat.le_refl _
  | found h' v =>
      rw [(setMutex_cell s h' _).1]
      by_cases he : h' = h
      · simp [aimed, he, held]
      · simp only [aimed, he, if_false, false_or, carrying_sent]
        exact Nat.le_refl _
  | notFound h' v =>
      rw [(setMutex_cell s h' _).1]
      simp only [aimed]
      split
      case isTrue hm => rw [if_pos (.inr hm)]
      case isFalse => exact Nat.add_le_add_left (Nat.zero_le _) _
  | deliver h' p p' q v hs =>
      rw [(setEvents_cell s h' q).1]
      by_cases he : h' = h
      · subst he
        obtain ⟨-, ev, hw⟩ := hp
        have horder := step_push_order hs hw
        simp only [aimed, if_true, ← carrying_append, horder]
        exact Nat.le_refl _
      · simp [aimed, he]
  | delivered h' r v =>
      by_cases he : h' = h
      · subst he
        simp [aimed, not_mem_rest hp.1]
      · simp [aimed, he]
  | insert h' | erase h' => exact Nat.le_refl _
  | unlockBus r => exact Nat.le_refl _
  | lockBus | lockTable | clear | cleared => cases hb
  | table h' x | unlockTable h' r => simp [holds] at hb

theorem publishes_callSeen [DecidableEq M] (s : Shared M P K A) (pc : OpPc M P K A) :
    publishes k (callSeen ρ s pc) = carrying k (announces pc) := by
  cases pc with
  | lockBus x =>
      cases x with
      | publish x => simp [callSeen, announces, publishes, carrying]
      | subscribe | unsubscribe => rfl
  | table h x => simp [callSeen, announces, publishes, carrying, List.countP_map, Function.comp_def]
  | _ => rfl

theorem opStep_copies {a : Agent} {s s' : Shared M P K A} {pc pc' : OpPc M P K A}
    {calls : Agent → Option (OpPc M P K A)} (hs : OpStep ρ a s pc s' pc') (hp : InPlace pc) (hc : calls a = some pc)
    (ho : Lock.bus ∈ holds pc ↔ s.mutex = some a) :
    carrying k (s'.cell h).events.queue + aimedOf k h s'.mutex (Function.update calls a (some pc')) ≤
      carrying k (s.cell h).events.queue + aimedOf k h s.mutex calls + carrying k (announces pc) := by
  -- a step inside the section, with the bus mutex kept
  have hinside (hb : Lock.bus ∈ holds pc) (hm : s'.mutex = s.mutex) :
      carrying k (s'.cell h).events.queue + aimedOf k h s'.mutex (Function.update calls a (some pc')) ≤
        carrying k (s.cell h).events.queue + aimedOf k h s.mutex calls + carrying k (announces pc) := by
    have haimed := opStep_aimed (k := k) (h := h) hs hp hb
    simp only [aimedOf, hm, ho.mp hb, hc, Option.bind_some, Function.update_self, Option.elim_some]
    exact Nat.le_trans haimed (Nat.le_add_right _ _)
  -- a step of a thread that is not in the section
  have houtside (hq : (s'.cell h).events.queue.Sublist (s.cell h).events.queue) (hm : s'.mutex = s.mutex)
      (hnone : aimed k h pc' = aimed k h pc) :
      carrying k (s'.cell h).events.queue + aimedOf k h s'.mutex (Function.update calls a (some pc')) ≤
        carrying k (s.cell h).events.queue + aimedOf k h s.mutex calls + carrying k (announces pc) := by
    rw [hm, aimedOf_update (by simpa [hc] using hnone)]
    have hle := carrying_sublist (k := k) hq
    omega
  cases hs with
  | lockBus x hfree =>
      rw [hfree]
      cases x with
      | publish x =>
          simp only [aimedOf, Option.bind_some, Function.update_self, Option.elim_some, BusCall.body, aimed, announces]
          split
          case isTrue => exact Nat.add_le_add_right (Nat.le_add_right _ _) _
          case isFalse => exact Nat.add_le_add (Nat.le_add_right _ _) (Nat.zero_le _)
      | subscribe h' | unsubscribe h' => simp [aimedOf, BusCall.body, aimed]
  | unlockBus r => exact Nat.le_trans (Nat.le_add_right _ _) (Nat.le_add_right _ _)
  | visited | visit | lockType | readType | found | notFound | deliver | delivered | insert | erase =>
      exact hinside (by simp [holds]) rfl
  | lockTable h' x | unlockTable h' r =>
      refine houtside ?_ rfl rfl
      rw [(setMutex_cell s h' _).1]
  | table h' x =>
      refine houtside ?_ rfl rfl
      rw [setHandles_events]
  | clear h' p p' q hs =>
      refine houtside ?_ rfl rfl
      rw [(setEvents_cell s h' q).1]
      split
      case isTrue he =>
          subst he
          have hw : Within .clear p := hp
          exact step_sublist hs fun v hv => by
            subst hv
            cases hw
      case isFalse => exact List.Sublist.refl _
  | cleared h' r => exact houtside (List.Sublist.refl _) rfl rfl

theorem count_handlers_one (what : Seen M P K A → Option (Nat × Event M P A)) {e : Seen M P K A} {ev : Event M P A}
    (hw : what e = some (h, ev)) : (handlers k what [e]).count h = carrying k [ev] := by
  by_cases hk : ev.ack = some k
  · simp [handlers, hw, carrying, hk]
  · simp [handlers, hw, carrying, hk]

theorem handlers_none (what : Seen M P K A → Option (Nat × Event M P A)) {e : Seen M P K A} (hw : what e = none) :
    handlers k what [e] = [] := by
  simp [handlers, hw]

theorem count_handlers_other {what : Seen M P K A → Option (Nat × Event M P A)} {h' : Nat}
    {es : List (Seen M P K A)} (hw : Placing what) (hes : ∀ e ∈ es, e.place = some h') (hne : h' ≠ h) :
    (handlers k what es).count h = 0 := by
  refine List.count_eq_zero.mpr fun hm => ?_
  obtain ⟨e, he, hx⟩ := List.mem_filterMap.mp hm
  obtain ⟨x, hwhat, hif⟩ := Option.bind_eq_some_iff.mp hx
  split at hif
  case isTrue =>
      have hplace := (hes e he).symm.trans (hw e x hwhat)
      exact hne ((Option.some.inj hplace).trans (Option.some.inj hif))
  case isFalse => cases hif

theorem handlers_callSeen [DecidableEq M] (s : Shared M P K A) (pc : OpPc M P K A) :
    handlers k looked (callSeen ρ s pc) = [] ∧ handlers k returned (callSeen ρ s pc) = [] ∧
      handlers k failed (callSeen ρ s pc) = [] := by
  cases pc with
  | lockBus x => cases x <;> exact ⟨rfl, rfl, rfl⟩
  | table h x => simp [callSeen, handlers, List.filterMap_map, looked, returned, failed]
  | _ => exact ⟨rfl, rfl, rfl⟩

section Loop

variable [DecidableEq M]

theorem looked_loopSeen (h : Nat) (s : Shared M P K A) (pc : LoopPc M P K A) :
    (handlers k looked (loopSeen h s pc)).count h = carrying k (looks pc) := by
  cases pc with
  | find ev => exact count_handlers_one _ rfl
  | call ev f =>
      cases f with
      | on m k' =>
          simp only [loopSeen]
          split <;> simp [handlers, looked, carrying, looks]
      | onType k' => simp [loopSeen, handlers, carrying, looks]
  | _ => simp [loopSeen, handlers, carrying, looks]

omit [DecidableEq A] in
theorem loopSeen_cases {s : Shared M P K A} {pc : LoopPc M P K A} {e : Seen M P K A} (he : e ∈ loopSeen h s pc) :
    (∃ ev, pc = .find ev ∧ e = .looked h ev (find (s.cell h).handles ev.type)) ∨ ∃ ev, e = .ended h ev false := by
  cases pc with
  | find ev => exact .inl ⟨ev, rfl, List.mem_singleton.mp he⟩
  | call ev f =>
      cases f with
      | on m k =>
          simp only [loopSeen] at he
          split at he
          case isTrue => exact .inr ⟨ev, List.mem_singleton.mp he⟩
          case isFalse => cases he
      | onType k => cases he
  | _ => cases he

omit [DecidableEq A] in
theorem loopSeen_place (h : Nat) (s : Shared M P K A) (pc : LoopPc M P K A) :
    ∀ e ∈ loopSeen h s pc, e.place = some h := by
  intro e he
  rcases loopSeen_cases he with ⟨ev, -, rfl⟩ | ⟨ev, rfl⟩ <;> rfl

omit [DecidableEq A] in
theorem loopStep_looks {s s' : Shared M P K A} {b : Bool} {pc pc' : LoopPc M P K A} (hs : LoopStep ρ h s b pc s' pc')
    (hp : LoopInPlace h pc) (hi : innerCall pc = none) :
    looks pc ++ fetched pc' ++ (s'.cell h).events.queue = fetched pc ++ (s.cell h).events.queue := by
  cases hs with
  | pop p p' q hs =>
      rw [(setEvents_cell s h q).1]
      simpa [looks, fetched] using step_pop_order hs hp
  | nothing r hr =>
      simp [looks, fetched, held_nothing hp hr]
  | lock ev =>
      rw [(setMutex_cell s h _).1]
      rfl
  | unlock =>
      rw [(setMutex_cell s h _).1]
      rfl
  | exit | enter | got | notFound | found | castFails | cast | callType => simp [looks, fetched, held]
  | innerReturned | inner => cases hi

theorem loopStep_calls {s s' : Shared M P K A} {b : Bool} {pc pc' : LoopPc M P K A}
    (hs : LoopStep ρ h s b pc s' pc') :
    (handlers k returned (loopSeen h s pc)).count h + (handlers k failed (loopSeen h s pc)).count h +
        carrying k (running pc') ≤
      carrying k (running pc) + (handlers k looked (loopSeen h s pc)).count h := by
  cases hs with
  | notFound ev hf =>
      rw [show loopSeen h s (.find ev) = [Seen.looked h ev none] by rw [loopSeen, hf],
        count_handlers_one failed rfl, count_handlers_one looked rfl, handlers_none _ rfl]
      simp [running, carrying]
  | found ev f hf =>
      rw [show loopSeen h s (.find ev) = [Seen.looked h ev (some f)] by rw [loopSeen, hf],
        handlers_none failed rfl, count_handlers_one looked rfl, handlers_none _ rfl]
      simp [running, carrying]
  | castFails ev m k' hc =>
      rw [show loopSeen h s (.call ev (.on m k')) = [Seen.ended h ev false] by simp [loopSeen, hc],
        count_handlers_one failed rfl, handlers_none looked rfl, handlers_none _ rfl]
      simp [running, carrying]
  | cast ev m k' x hc => simp [loopSeen, hc, handlers, running]
  | callType ev k' => simp [loopSeen, handlers, running]
  | innerReturned ev x r => cases x <;> simp [loopSeen, handlers, running]
  | inner ev x pc pc' s' => cases x <;> simp [loopSeen, handlers, running]
  | exit | enter | got | nothing | pop | lock | unlock => simp [loopSeen, handlers, running]

end Loop

/-- One step makes no copy of an event, and no outcome without a lookup. -/
structure Flow (k : A) (h : Nat) (s s' : State M P K A) (es : List (Seen M P K A)) : Prop where
  copies : (handlers k looked es).count h + copies k h s' ≤ copies k h s + publishes k es
  calls : (handlers k returned es).count h + (handlers k failed es).count h + carrying k (busy h s') ≤
    carrying k (busy h s) + (handlers k looked es).count h

theorem flow_idle {s s' : State M P K A} {a : Agent} {x : Option (OpPc M P K A)} (hshared : s'.shared = s.shared)
    (hhand : fetchedBy h s' = fetchedBy h s) (hbusy : carrying k (busy h s') ≤ carrying k (busy h s))
    (hi : inCall s' = Function.update (inCall s) a x)
    (hx : x.elim 0 (aimed k h) = (inCall s a).elim 0 (aimed k h)) : Flow k h s s' [] where
  copies := by
    rw [BusCopies.copies, BusCopies.copies, hhand, hshared, hi, aimedOf_update hx]
    simp [handlers, publishes]
  calls := by simpa [handlers] using hbusy

theorem flow_still {s s' : State M P K A} (hshared : s'.shared = s.shared) (hclient : s'.client = s.client)
    (hthread : s'.thread = s.thread) : Flow k h s s' [] := by
  refine flow_idle (a := .control h) (x := none) hshared (by rw [fetchedBy, fetchedBy, hthread]) ?_ ?_ rfl
  · rw [busy, busy, hthread]
  · rw [inCall_congr hclient hthread]
    exact (Function.update_eq_self (.control h) (inCall s)).symm

theorem aimed_entry (ρ : Runtime M P) (x : Call M P K A) : aimed k h (x.entry ρ) = 0 := by
  cases x with
  | subscribe h | unsubscribe h => cases h <;> rfl
  | on h m k => cases k <;> rfl
  | onType h type k =>
      cases k with
      | none => rfl
      | some k =>
          simp only [Call.entry]
          split <;> rfl
  | publish | publishAny | cancel | clear => rfl

theorem flow_op [DecidableEq M] {s s' : State M P K A} {a : Agent} {pc pc' : OpPc M P K A} (ho : Owned s)
    (hp : Placed s) (hc : inCall s a = some pc) (hstep : OpStep ρ a s.shared pc s'.shared pc')
    (hi : inCall s' = Function.update (inCall s) a (some pc')) (hhand : fetchedBy h s' = fetchedBy h s)
    (hbusy : busy h s' = busy h s) : Flow k h s s' (callSeen ρ s.shared pc) := by
  obtain ⟨hlooked, hreturned, hfailed⟩ := handlers_callSeen (k := k) (ρ := ρ) s.shared pc
  have hown : Lock.bus ∈ holds pc ↔ s.shared.mutex = some a := (bus_mem_holdsOf hc).symm.trans (ho.iff a .bus)
  have hcopies := opStep_copies (k := k) (h := h) hstep (hp.inCall hc) hc hown
  constructor
  · rw [hlooked, publishes_callSeen, BusCopies.copies, BusCopies.copies, hhand, hi, List.count_nil]
    omega
  · rw [hlooked, hreturned, hfailed, hbusy]
    simp

theorem flow_control {s s' : State M P K A} {h' : Nat} {pc : ControlPc M P A} {pc' : Option (ControlPc M P A)}
    (hp : ControlInPlace pc) (hstep : ControlStep h' s pc s' pc') : Flow k h s (setControl s' h' pc') [] := by
  obtain ⟨hmutex, -, hother⟩ := controlStep_frame hstep
  have hcalls := controlStep_inCall hstep
  have hless (hhand : carrying k (fetchedBy h s') ≤ carrying k (fetchedBy h s))
      (hqueue : (s'.shared.cell h).events.queue.Sublist (s.shared.cell h).events.queue)
      (hbusy : carrying k (busy h s') ≤ carrying k (busy h s)) : Flow k h s (setControl s' h' pc') [] := by
    have hle := carrying_sublist (k := k) hqueue
    have haimed : aimedOf k h (setControl s' h' pc').shared.mutex (inCall (setControl s' h' pc')) =
        aimedOf k h s.shared.mutex (inCall s) := by rw [hcalls]; exact congrArg (aimedOf k h · _) hmutex
    have hbusy' : carrying k (busy h (setControl s' h' pc')) ≤ carrying k (busy h s) := hbusy
    have hgoal : carrying k (fetchedBy h (setControl s' h' pc')) +
          carrying k ((setControl s' h' pc').shared.cell h).events.queue ≤
        carrying k (fetchedBy h s) + carrying k (s.shared.cell h).events.queue := Nat.add_le_add hhand hle
    refine ⟨?_, by simpa [handlers] using hbusy'⟩
    rw [BusCopies.copies, BusCopies.copies, haimed]
    simpa [handlers, publishes] using hgoal
  by_cases he : h' = h
  · subst he
    have hnone : carrying k ([] : List (Event M P A)) = 0 := rfl
    cases hstep with
    | spawn ht =>
        refine hless ?_ (List.Sublist.refl _) ?_ <;> simp [fetchedBy, busy, setThread, fetched, running, hnone]
    | stopRequest | destroyRequest =>
        have hsame {β : Type} (f : LoopPc M P K A → List β) :
            ((requestStop s h').thread h').elim [] (fun l => f l.pc) = (s.thread h').elim [] fun l => f l.pc := by
          cases ht : s.thread h' <;> simp [requestStop, setThread, ht]
        exact hless (Nat.le_of_eq (congrArg _ (hsame fetched))) (List.Sublist.refl _)
          (Nat.le_of_eq (congrArg _ (hsame running)))
    | stopQueue p p' q hs | stopClear p p' q hs =>
        refine hless (Nat.le_refl _) ?_ (Nat.le_refl _)
        show ((setEvents s.shared h' q).cell h').events.queue.Sublist _
        rw [setEvents_self]
        refine step_sublist hs fun v hv => ?_
        subst hv
        cases hp
    | stopJoined | destroyJoined =>
        refine hless ?_ (List.Sublist.refl _) ?_ <;> simp [fetchedBy, busy, setThread, hnone]
    | startRefused | startChecked | started | stopRefused | stopChecked | queueStopped | queueCleared | stopped =>
        exact hless (Nat.le_refl _) (List.Sublist.refl _) (Nat.le_refl _)
  · obtain ⟨hcell, hthread⟩ := hother h (Ne.symm he)
    refine hless ?_ (by rw [hcell]) ?_ <;> simp [fetchedBy, busy, hthread]

omit [DecidableEq A] in
theorem busy_setThread (s : State M P K A) (h' : Nat) (l : Loop M P K A) :
    busy h (setThread s h' (some l)) = if h' = h then running l.pc else busy h s := elim_setThread [] running s h' l

omit [DecidableEq A] in
theorem busy_user {s : State M P K A} {h' : Nat} {b : Bool} {ev : Event M P A} {y : Code P K}
    {op op' : Option (OpPc M P K A)} (ht : s.thread h' = some ⟨.user ev y op, b⟩) :
    busy h (setThread s h' (some ⟨.user ev y op', b⟩)) = busy h s := by
  refine elim_moved [] running ht ?_
  cases y <;> rfl

theorem flow_finish {s : State M P K A} {h' : Nat} {b throws : Bool} {ev : Event M P A} {y : Code P K}
    {pc : LoopPc M P K A} (ht : s.thread h' = some ⟨.user ev y none, b⟩) (hf : y.finish ev throws = some pc) :
    Flow k h s (setThread s h' (some ⟨pc, b⟩)) (endSeen h' ev throws y ++ ackSeen h' (some pc)) := by
  have hcalls : inCall (setThread s h' (some ⟨pc, b⟩)) = inCall s := by
    have hnone : inCall s (.thread h') = none := by simp [inCall, ht, innerCall]
    rw [inCall_setThread, innerCall_finish hf, ← hnone, Function.update_eq_self]
  have hhand : fetchedBy h (setThread s h' (some ⟨pc, b⟩)) = fetchedBy h s := by
    refine elim_moved [] fetched ht ?_
    rcases finish_cases hf with rfl | rfl <;> rfl
  have hack {what : Seen M P K A → Option (Nat × Event M P A)} (hw : ∀ h ev, what (.acked h ev) = none) :
      handlers k what (ackSeen h' (some pc)) = [] := by
    rcases finish_cases hf with rfl | rfl
    · rfl
    · exact handlers_none _ (hw h' ev)
  have hlooked : handlers k looked (endSeen h' ev throws y ++ ackSeen h' (some pc)) = [] := by
    rw [handlers_append, hack fun _ _ => rfl]
    cases y <;> rfl
  constructor
  · rw [hlooked, BusCopies.copies, BusCopies.copies, hhand, hcalls]
    exact Nat.le_trans (Nat.le_of_eq (Nat.zero_add _)) (Nat.le_add_right _ _)
  · rw [hlooked, handlers_append, handlers_append, hack fun _ _ => rfl, hack fun _ _ => rfl, busy_setThread]
    simp only [List.append_nil, List.count_nil, Nat.add_zero]
    by_cases he : h' = h
    · subst he
      have hpc : running pc = [] := by rcases finish_cases hf with rfl | rfl <;> rfl
      have hold : busy h' s = running (.user ev y none : LoopPc M P K A) := by simp [busy, ht]
      rw [if_pos rfl, hpc, hold]
      cases y with
      | on k' x =>
          -- the callback has one outcome, whether it returned or threw
          cases throws with
          | false =>
              rw [show endSeen h' ev false (.on k' x) = [(.ended h' ev true : Seen M P K A)] from rfl,
                count_handlers_one returned rfl, handlers_none failed rfl]
              exact Nat.le_refl _
          | true =>
              rw [show endSeen h' ev true (.on k' x) = [(.ended h' ev false : Seen M P K A)] from rfl,
                handlers_none returned rfl, count_handlers_one failed rfl]
              simp [carrying, running]
      | ack | onType k' => exact Nat.zero_le _
    · rw [if_neg he]
      have hplace : ∀ e ∈ (endSeen h' ev throws y : List (Seen M P K A)), e.place = some h' := by
        intro e hm
        cases y with
        | on k' x =>
            obtain rfl := List.mem_singleton.mp hm
            rfl
        | ack | onType k' => cases hm
      rw [count_handlers_other placing_returned hplace he, count_handlers_other placing_failed hplace he]
      omega

section System

variable [DecidableEq M] {n m : Nat}

theorem flow_loop {s : State M P K A} {h' : Nat} {b : Bool} {pc pc' : LoopPc M P K A} {x : Shared M P K A}
    (hp : Placed s) (ht : s.thread h' = some ⟨pc, b⟩) (hstep : LoopStep ρ h' s.shared b pc x pc')
    (hi : innerCall pc = none) :
    Flow k h s (setThread (setShared s x) h' (some ⟨pc', b⟩)) (loopSeen h' s.shared pc) := by
  obtain ⟨hmutex, -, hcell, -, hi'⟩ := loopStep_frame hstep hi
  have hcalls : inCall (setThread (setShared s x) h' (some ⟨pc', b⟩)) = inCall s := by
    have hnone : inCall s (.thread h') = none := by simp [inCall, ht, hi]
    rw [inCall_setThread, inCall_setShared, hi', ← hnone, Function.update_eq_self]
  have haimed : aimedOf k h (setThread (setShared s x) h' (some ⟨pc', b⟩)).shared.mutex
      (inCall (setThread (setShared s x) h' (some ⟨pc', b⟩))) = aimedOf k h s.shared.mutex (inCall s) := by
    rw [hcalls]
    exact congrArg (aimedOf k h · _) hmutex
  by_cases he : h' = h
  · subst he
    have hplace : LoopInPlace h' pc := by simpa [standing, ht] using hp.agent (.thread h')
    have horder := congrArg (carrying k) (loopStep_looks hstep hplace hi)
    simp only [carrying_append] at horder
    have hold : fetchedBy h' s = fetched pc ∧ busy h' s = running pc := by simp [fetchedBy, busy, ht]
    have hnew : fetchedBy h' (setThread (setShared s x) h' (some ⟨pc', b⟩)) = fetched pc' := by
      simp [fetchedBy, setThread]
    constructor
    · rw [BusCopies.copies, BusCopies.copies, haimed, looked_loopSeen, hnew, hold.1]
      show _ + (carrying k (fetched pc') + carrying k (x.cell h').events.queue + _) ≤ _
      omega
    · rw [busy_setThread, if_pos rfl, hold.2]
      exact loopStep_calls hstep
  · have hother {what : Seen M P K A → Option (Nat × Event M P A)} (hw : Placing what) :
        (handlers k what (loopSeen h' s.shared pc)).count h = 0 :=
      count_handlers_other hw (loopSeen_place h' s.shared pc) he
    have hthread : (setThread (setShared s x) h' (some ⟨pc', b⟩)).thread h = s.thread h := by
      simp [setThread, setShared, Ne.symm he]
    constructor
    · rw [BusCopies.copies, BusCopies.copies, haimed, hother placing_looked, fetchedBy, fetchedBy, hthread]
      show _ + (_ + carrying k (x.cell h).events.queue + _) ≤ _
      rw [hcell h (Ne.symm he)]
      omega
    · rw [hother placing_looked, hother placing_returned, hother placing_failed, busy, busy, hthread]
      omega

theorem move_flow {s s' : State M P K A} {a : Action M P K A} (ho : Owned s) (hp : Placed s) (hn : Move ρ n m s a s') :
    Flow k h s s' (seen ρ s a) := by
  cases hn with
  | call c x _ hc =>
      have hnone : inCall s (.client c) = none := hc
      exact flow_idle rfl rfl (Nat.le_refl _) (inCall_setClient s c _)
        (by rw [hnone, Option.elim_some, aimed_entry]; rfl)
  | control h' x => exact flow_still rfl rfl rfl
  | inner h' x ev y b ht =>
      have hnone : inCall s (.thread h') = none := by simp [inCall, ht, innerCall]
      exact flow_idle rfl (elim_moved [] fetched ht rfl) (Nat.le_of_eq (congrArg _ (busy_user ht))) (inCall_setThread s h' _)
        (by rw [hnone, innerCall, Option.elim_some, aimed_entry]; rfl)
  | finish h' throws ev y b pc ht hf =>
      have hseen : seen ρ s (.finish h' throws) = endSeen h' ev throws y ++ ackSeen h' (some pc) := by
        simp [seen, ht, hf]
      rw [hseen]
      exact flow_finish ht hf
  | terminate h' throws ev y b ht hf =>
      have hseen : seen ρ s (.finish h' throws) = [] := by
        cases y with
        | on k' x => cases hf
        | ack => cases hf
        | onType k' => simp [seen, ht, hf, endSeen, ackSeen]
      rw [hseen]
      exact flow_still rfl rfl rfl
  | leave c ch r hc =>
      have hcall : inCall s (.client c) = some (.returned r) := hc
      have hseen : seen ρ s (.step (.client c) ch) = [] := by simp [seen, hcall, callSeen]
      rw [hseen]
      exact flow_idle rfl rfl (Nat.le_refl _) (inCall_setClient s c none) (by rw [hcall]; rfl)
  | client c ch pc pc' x hc hstep =>
      have hcall : inCall s (.client c) = some pc := hc
      have hseen : seen ρ s (.step (.client c) ch) = callSeen ρ s.shared pc := by simp [seen, hcall]
      rw [hseen]
      exact flow_op ho hp hcall hstep (inCall_setClient (setShared s x) c _) rfl rfl
  | thread h' ch pc pc' b x ht hstep =>
      have hseen : seen ρ s (.step (.thread h') ch) =
          (innerCall pc).elim [] (callSeen ρ s.shared) ++ loopSeen h' s.shared pc := by simp [seen, inCall, ht]
      rw [hseen]
      cases hi : innerCall pc with
      | none => exact flow_loop hp ht hstep hi
      | some op =>
          have hc : inCall s (.thread h') = some op := by simp [inCall, ht, hi]
          obtain ⟨ev, y, rfl, ⟨r, rfl, rfl, rfl⟩ | ⟨op', hop, rfl⟩⟩ := loopStep_inner hstep hi
          · exact flow_idle rfl (elim_moved [] fetched ht rfl) (Nat.le_of_eq (congrArg _ (busy_user ht)))
              (inCall_setThread s h' _) (by rw [hc]; rfl)
          · rw [Option.elim_some, show loopSeen h' s.shared (.user ev y (some op)) = [] from rfl, List.append_nil]
            exact flow_op ho hp hc hop (by rw [inCall_setThread, inCall_setShared]; rfl)
              (elim_moved [] fetched (s := setShared s x) ht rfl) ((busy_user (s := setShared s x) ht).trans rfl)
  | controlStep h' ch pc pc' s₁ hc hstep =>
      have hseen : seen ρ s (.step (.control h') ch) = [] := rfl
      rw [hseen]
      exact flow_control (hp.control h' pc hc) hstep

structure Accounted (k : A) (h : Nat) (s : State M P K A) (log : List (Seen M P K A)) : Prop where
  copies : (handlers k looked log).count h + copies k h s ≤ publishes k log
  calls : (handlers k returned log).count h + (handlers k failed log).count h + carrying k (busy h s) ≤
    (handlers k looked log).count h

theorem run_accounted {ok : State M P K A × List (Seen M P K A) → Action M P K A → Prop} {s : State M P K A}
    {log : List (Seen M P K A)} (k : A) (h : Nat) (hr : Reachable (logged (system ρ n m) (seen ρ)) ok (s, log)) :
    Accounted k h s log := by
  refine hr.logged_invariant (P := Accounted k h) ?_ ?_
  · rintro s rfl
    exact ⟨Nat.le_refl _, Nat.le_refl _⟩
  · intro s log a s' hr ⟨hcopies, hcalls⟩ _ hn
    have hreach := hr.forget_any
    obtain ⟨hcopies', hcalls'⟩ :=
      move_flow (k := k) (h := h) (reachable_owned hreach) (reachable_placed hreach) (next_sound hn).2
    constructor
    · rw [handlers_append, publishes_append, List.count_append]
      omega
    · rw [handlers_append, handlers_append, handlers_append, List.count_append, List.count_append, List.count_append]
      omega

end System

end Steps

end Enigma.BusCopies
