import Enigma.BusCalls
import Enigma.BusRouting

namespace Enigma.BusAlone

open SyncQueue QueueStep EventBus BusThreads BusStep BusCalls BusRouting

variable {M P K A : Type} {ρ : Runtime M P}

def bus (s : Shared M P K A) : Bus M P K A where
  handlers := s.handlers
  handler h := ⟨(s.cell h).events.queue, (s.cell h).handles⟩

def setQueue (b : Bus M P K A) (h : Nat) (evs : List (Event M P A)) : Bus M P K A :=
  { b with handler := Function.update b.handler h { b.handler h with events := evs } }

def publishAll (ρ : Runtime M P) (x : Sending M P A) (hs : List Nat) (b : Bus M P K A) : Bus M P K A × Bool :=
  if x.typed then publishTo x.event.type x.event.ev x.event.ack hs b
  else publishAnyTo ρ.moved x.event.type x.event.ack hs x.event.ev b

def publishRest (ρ : Runtime M P) (v : Visit M P A) (b : Bus M P K A) : Bus M P K A × Option Bool :=
  ((publishAll ρ v.sending v.rest b).1, some (v.result || (publishAll ρ v.sending v.rest b).2))

/-- What the rest of a call does to the bus and what it returns, if it is left
alone. -/
def remainder (ρ : Runtime M P) (b : Bus M P K A) : OpPc M P K A → Bus M P K A × Option Bool
  | .lockBus (.publish x) => publishRest ρ ⟨x, b.handlers.items, false⟩ b
  | .lockBus (.subscribe h) | .insert h => apply ρ.name b (.subscribe (some h))
  | .lockBus (.unsubscribe h) | .erase h => apply ρ.name b (.unsubscribe (some h))
  | .visit v => publishRest ρ v b
  | .lockType h v | .readType h v => publishRest ρ ⟨v.sending, h :: v.rest, v.result⟩ b
  | .unlockType h true v => publishRest ρ ⟨v.sending.sent ρ, v.rest, true⟩ (EventBus.deliver b v.sending.event h)
  | .unlockType _ false v => publishRest ρ v b
  | .deliver h p v => publishRest ρ ⟨v.sending, v.rest, true⟩ (setQueue b h ((b.handler h).events ++ held p))
  | .lockTable h x | .table h x =>
      (setHandles b h (x.apply ρ (b.handler h).handles).1, (x.apply ρ (b.handler h).handles).2)
  | .clear h (.lock _) | .clear h .clear => (setQueue b h [], none)
  | .clear _ _ => (b, none)
  | .unlockBus r | .unlockTable _ r | .returned r => (b, r)

theorem bus_setMutex (s : Shared M P K A) (h : Nat) (o : Option Agent) : bus (setMutex s h o) = bus s := by
  simp only [bus, setMutex_cell]
  rfl

theorem bus_setEvents (s : Shared M P K A) (h : Nat) (q : Queue Agent (Event M P A)) :
    bus (setEvents s h q) = setQueue (bus s) h q.queue := by
  simp only [bus, setQueue, Bus.mk.injEq]
  refine ⟨rfl, ?_⟩
  funext h'
  by_cases he : h' = h
  · subst he
    simp [setEvents, setCell]
  · simp [setEvents, setCell, he]

theorem bus_setHandles (s : Shared M P K A) (h : Nat) (t : Handles M K) :
    bus (setCell s h { s.cell h with handles := t }) = setHandles (bus s) h t := by
  simp only [bus, setHandles, Bus.mk.injEq]
  refine ⟨rfl, ?_⟩
  funext h'
  by_cases he : h' = h
  · subst he
    simp [setCell]
  · simp [setCell, he]

theorem setQueue_self (b : Bus M P K A) (h : Nat) : setQueue b h (b.handler h).events = b := by
  simp [setQueue]

theorem setQueue_setQueue (b : Bus M P K A) (h : Nat) (evs evs' : List (Event M P A)) :
    setQueue (setQueue b h evs) h evs' = setQueue b h evs' := by
  simp [setQueue]

theorem setQueue_events (b : Bus M P K A) (h : Nat) (evs : List (Event M P A)) :
    ((setQueue b h evs).handler h).events = evs := by
  simp [setQueue]

theorem publishRest_cons (x : Sending M P A) (h : Nat) (hs : List Nat) (r : Bool) (b : Bus M P K A) :
    publishRest ρ ⟨x, h :: hs, r⟩ b =
      if hasType b x.event.type h then publishRest ρ ⟨x.sent ρ, hs, true⟩ (EventBus.deliver b x.event h)
      else publishRest ρ ⟨x, hs, r⟩ b := by
  obtain ⟨⟨type, any, ack⟩, typed⟩ := x
  cases typed with
  | true => by_cases ht : hasType b type h = true <;> simp [publishRest, publishAll, publishTo, Sending.sent, ht]
  | false => by_cases ht : hasType b type h = true <;> simp [publishRest, publishAll, publishAnyTo, Sending.sent, ht]

/-- Every instruction of a call does what its sequential model has still to do. -/
theorem opStep_remainder {a : Agent} {s s' : Shared M P K A} {pc pc' : OpPc M P K A} (hs : OpStep ρ a s pc s' pc')
    (hp : InPlace pc) : remainder ρ (bus s') pc' = remainder ρ (bus s) pc := by
  cases hs with
  | lockBus x => cases x <;> rfl
  | visited x r =>
      cases hx : x.typed <;> simp [remainder, publishRest, publishAll, hx, publishTo, publishAnyTo]
  | visit x h hs r => rfl
  | lockType h v => rw [bus_setMutex]; rfl
  | readType h v =>
      have ht : contains (s.cell h).handles v.sending.event.type = hasType (bus s) v.sending.event.type h := rfl
      simp only [remainder, publishRest_cons, ht]
      cases hasType (bus s) v.sending.event.type h <;> rfl
  | found h v =>
      rw [bus_setMutex]
      rfl
  | notFound h v =>
      rw [bus_setMutex]
      rfl
  | deliver h p p' q v hs =>
      obtain ⟨-, ev, hw⟩ := hp
      have horder := step_push_order hs hw
      simp only [remainder, bus_setEvents, setQueue_setQueue, setQueue_events]
      rw [horder]
      rfl
  | delivered h r v =>
      obtain ⟨-, ev, hw⟩ := hp
      cases hw
      simp [remainder, held, setQueue_self]
  | insert h => rfl
  | erase h => rfl
  | unlockBus r => rfl
  | lockTable h x | unlockTable h r => rw [bus_setMutex]; rfl
  | table h x =>
      rw [bus_setHandles]
      rfl
  | clear h p p' q hs =>
      rw [bus_setEvents]
      have hw : Within .clear p := hp
      cases hw with
      | lock =>
          cases hs
          simp [remainder, Op.body, setQueue_setQueue]
      | clear =>
          cases hs with
          | clearOne v rest hq => simp [remainder, setQueue_setQueue]
          | cleared hq => simp [remainder, hq]
      | unlockClear =>
          cases hs
          exact congrArg (·, none) (setQueue_self (bus s) h)
      | returnedClear => cases hs
  | cleared h r => rfl

def Op.call : BusRouting.Op M P K A → Call M P K A
  | .subscribe h => .subscribe h
  | .unsubscribe h => .unsubscribe h
  | .on h m k => .on h m k
  | .onType h type k => .onType h type k
  | .cancel h m => .cancel h m
  | .publish m msg ack => .publish m msg ack

theorem setHandles_self (b : Bus M P K A) (h : Nat) : setHandles b h (b.handler h).handles = b := by
  simp [setHandles]

theorem remainder_entry (b : Bus M P K A) (op : BusRouting.Op M P K A) :
    remainder ρ b ((Op.call op).entry ρ) = apply ρ.name b op := by
  cases op with
  | subscribe h | unsubscribe h => cases h <;> rfl
  | on h m k =>
      cases k with
      | none => exact congrArg (·, some false) (setHandles_self b h).symm
      | some k => rfl
  | onType h type k =>
      cases k with
      | none => exact congrArg (·, some false) (setHandles_self b h).symm
      | some k =>
          simp only [Op.call, Call.entry]
          split
          case isTrue ht => simp [remainder, apply, onType, ht, setHandles_self]
          case isFalse ht => simp [remainder, apply, TableCall.apply]
  | cancel h m => rfl
  | publish m msg ack => simp [Op.call, Call.entry, remainder, publishRest, publishAll, apply, publish]

inductive Alone (ρ : Runtime M P) (a : Agent) : Shared M P K A → OpPc M P K A → Shared M P K A → OpPc M P K A → Prop
  | nil (s : Shared M P K A) (pc : OpPc M P K A) : Alone ρ a s pc s pc
  | step {s s' s'' : Shared M P K A} {pc pc' pc'' : OpPc M P K A} (hs : OpStep ρ a s pc s' pc')
      (hr : Alone ρ a s' pc' s'' pc'') : Alone ρ a s pc s'' pc''

theorem alone_remainder {a : Agent} {s s' : Shared M P K A} {pc pc' : OpPc M P K A} (hr : Alone ρ a s pc s' pc')
    (hp : InPlace pc) : remainder ρ (bus s) pc = remainder ρ (bus s') pc' := by
  induction hr with
  | nil s pc => rfl
  | step hs _ ih => rw [← opStep_remainder hs hp, ih (opStep_inPlace hs hp)]

/-- Refinement: a call that is left alone does to the bus what the sequential
model says, and returns the same. -/
theorem alone_apply {a : Agent} {s s' : Shared M P K A} {op : BusRouting.Op M P K A} {r : Option Bool}
    (hr : Alone ρ a s ((Op.call op).entry ρ) s' (.returned r)) : apply ρ.name (bus s) op = (bus s', r) := by
  rw [← remainder_entry]
  exact alone_remainder hr (inPlace_entry ρ (Op.call op))

theorem alone_publishAny {a : Agent} {s s' : Shared M P K A} {type : String} {any : Any M P} {ack : Option A}
    {r : Option Bool} (hr : Alone ρ a s ((Call.publishAny type any ack : Call M P K A).entry ρ) s' (.returned r)) :
    publishAny ρ.moved type any ack (bus s) = (bus s', r.getD false) := by
  have hrest := alone_remainder hr (inPlace_entry ρ _)
  simp only [Call.entry, remainder, publishRest, publishAll, Bool.false_or, Prod.mk.injEq] at hrest
  rw [← hrest.1, ← hrest.2]
  rfl

end Enigma.BusAlone
