import Enigma.BusCopies

namespace Enigma.BusStream

open Transition SyncQueue QueueStep EventBus BusThreads BusStep BusCalls BusLocks BusOrder
open BusCopies (step_sublist)

variable {M P K A β : Type} {ρ : Runtime M P} {h : Nat} {f : Event M P A → β}

def aims (h : Nat) : OpPc M P K A → List (Event M P A)
  | .visit v => if h ∈ v.rest then [v.sending.event] else []
  | .lockType h' v | .readType h' v | .unlockType h' _ v =>
      if h' = h ∨ h ∈ v.rest then [v.sending.event] else []
  | .deliver h' p v => if h' = h then held p else if h ∈ v.rest then [v.sending.event] else []
  | _ => []

def aimsOf (h : Nat) (o : Option Agent) (calls : Agent → Option (OpPc M P K A)) : List (Event M P A) :=
  (o.bind calls).elim [] (aims h)

/-- What is on its way to the callbacks of handler `h`, the first one first. -/
def onTheWay (h : Nat) (s : State M P K A) : List (Event M P A) :=
  hand s h ++ (s.shared.cell h).events.queue ++ aimsOf h s.shared.mutex (inCall s)

/-- What a Publish takes up for handler `h` as it locks the bus mutex. -/
def offered (h : Nat) (s : Shared M P K A) (pc : OpPc M P K A) : List (Event M P A) :=
  if h ∈ s.handlers.items then announces pc else []

def offeredBy (h : Nat) (s : State M P K A) : Action M P K A → List (Event M P A)
  | .step a _ => (inCall s a).elim [] (offered h s.shared)
  | _ => []

/-- What is left of the message after the move from a std::any is as good as the
message, if handler `h` is still to come. -/
def Alike (ρ : Runtime M P) (f : Event M P A → β) (h : Nat) (pc : OpPc M P K A) : Prop :=
  ∀ h' v, pc = .unlockType h' true v → h ∈ v.rest → f (v.sending.sent ρ).event = f v.sending.event

/-- A step adds at most what is offered, at the end, and handles from the front. -/
structure Passes (f : Event M P A → β) (h : Nat) (s s' : State M P K A) (es : List (Entry M P A))
    (new : List (Event M P A)) : Prop where
  kept : ((handledBy h es ++ onTheWay h s').map f).Sublist ((onTheWay h s ++ new).map f)

theorem aimsOf_update {o : Option Agent} {calls : Agent → Option (OpPc M P K A)} {a : Agent}
    {x : Option (OpPc M P K A)} (hx : x.elim [] (aims h) = (calls a).elim [] (aims h)) :
    aimsOf h o (Function.update calls a x) = aimsOf h o calls := by
  cases o with
  | none => rfl
  | some b =>
      by_cases hb : b = a
      · subst hb
        simpa [aimsOf] using hx
      · simp [aimsOf, hb]

theorem aims_entry (ρ : Runtime M P) (x : Call M P K A) : aims h (x.entry ρ) = [] := by
  cases x with
  | subscribe h | unsubscribe h => cases h <;> rfl
  | on h m k => cases k <;> rfl
  | onType h type k =>
      cases k with
      | none => rfl
      | some k =>
          simp only [Call.entry]
          split <;> rfl
  | publish | publishAny | cancel | clear => rfl

/-- Inside its bus-mutex section a Publish pushes the message once to a handler,
or not at all. -/
theorem opStep_aims {a : Agent} {s s' : Shared M P K A} {pc pc' : OpPc M P K A} (hs : OpStep ρ a s pc s' pc')
    (hp : InPlace pc) (hb : Lock.bus ∈ holds pc)
    (hsent : Alike ρ f h pc) :
    (((s'.cell h).events.queue ++ aims h pc').map f).Sublist (((s.cell h).events.queue ++ aims h pc).map f) := by
  cases hs with
  | visited x r => simp [aims]
  | visit x h' rest r => simp [aims, eq_comm]
  | lockType h' v =>
      rw [(setMutex_cell s h' _).1]
      exact List.Sublist.refl _
  | readType h' v => exact List.Sublist.refl _
  | found h' v =>
      rw [(setMutex_cell s h' _).1, List.map_append, List.map_append]
      apply List.Sublist.append_left
      by_cases he : h' = h
      · simp [aims, he, held]
      · simp only [aims, he, if_false, false_or]
        split
        case isTrue hm => simp [hsent h' v rfl hm]
        case isFalse => exact List.Sublist.refl _
  | notFound h' v =>
      rw [(setMutex_cell s h' _).1, List.map_append, List.map_append]
      apply List.Sublist.append_left
      simp only [aims]
      split
      case isTrue hm => rw [if_pos (.inr hm)]
      case isFalse => exact List.nil_sublist _
  | deliver h' p p' q v hs =>
      rw [(setEvents_cell s h' q).1]
      by_cases he : h' = h
      · subst he
        obtain ⟨-, ev, hw⟩ := hp
        simp [aims, step_push_order hs hw]
      · simp [aims, he]
  | delivered h' r v =>
      by_cases he : h' = h
      · subst he
        simp [aims, not_mem_rest hp.1]
      · simp [aims, he]
  | insert h' | erase h' => exact List.Sublist.refl _
  | unlockBus r => exact List.Sublist.refl _
  | lockBus | lockTable | clear | cleared => cases hb
  | table h' x | unlockTable h' r => simp [holds] at hb

theorem opStep_passes {a : Agent} {s s' : Shared M P K A} {pc pc' : OpPc M P K A}
    {calls : Agent → Option (OpPc M P K A)} (hs : OpStep ρ a s pc s' pc') (hp : InPlace pc) (hc : calls a = some pc)
    (ho : Lock.bus ∈ holds pc ↔ s.mutex = some a) (hsent : Alike ρ f h pc) :
    (((s'.cell h).events.queue ++ aimsOf h s'.mutex (Function.update calls a (some pc'))).map f).Sublist
      (((s.cell h).events.queue ++ aimsOf h s.mutex calls ++ offered h s pc).map f) := by
  -- a step inside the section, with the bus mutex kept
  have hinside (hb : Lock.bus ∈ holds pc) (hm : s'.mutex = s.mutex) :
      (((s'.cell h).events.queue ++ aimsOf h s'.mutex (Function.update calls a (some pc'))).map f).Sublist
        (((s.cell h).events.queue ++ aimsOf h s.mutex calls ++ offered h s pc).map f) := by
    have haims := opStep_aims (f := f) (h := h) hs hp hb hsent
    simp only [aimsOf, hm, ho.mp hb, hc, Option.bind_some, Function.update_self, Option.elim_some]
    simp only [List.map_append] at haims ⊢
    exact haims.trans (List.sublist_append_left _ _)
  -- a step of a thread that is not in the section
  have houtside (hq : (s'.cell h).events.queue.Sublist (s.cell h).events.queue) (hm : s'.mutex = s.mutex)
      (hsame : aims h pc' = aims h pc) :
      (((s'.cell h).events.queue ++ aimsOf h s'.mutex (Function.update calls a (some pc'))).map f).Sublist
        (((s.cell h).events.queue ++ aimsOf h s.mutex calls ++ offered h s pc).map f) := by
    rw [hm, aimsOf_update (by simpa [hc] using hsame)]
    exact ((hq.append_right _).trans (List.sublist_append_left _ _)).map f
  cases hs with
  | lockBus x hfree =>
      rw [hfree]
      cases x with
      | publish x => simp [aimsOf, BusCall.body, aims, offered, announces]
      | subscribe h' | unsubscribe h' => simp [aimsOf, BusCall.body, aims]
  | unlockBus r =>
      show (List.map f (_ ++ [])).Sublist _
      rw [List.append_nil, List.append_assoc]
      exact (List.sublist_append_left _ _).map f
  | visited | visit | lockType | readType | found | notFound | deliver | delivered | insert | erase =>
      exact hinside (by simp [holds]) rfl
  | lockTable h' x | unlockTable h' r =>
      refine houtside ?_ rfl rfl
      rw [(setMutex_cell s h' _).1]
  | table h' x =>
      refine houtside ?_ rfl rfl
      rw [setHandles_events]
  | clear h' p p' q hs =>
      refine houtside ?_ rfl rfl
      rw [(setEvents_cell s h' q).1]
      split
      case isTrue he =>
          subst he
          have hw : Within .clear p := hp
          exact step_sublist hs fun v hv => by
            subst hv
            cases hw
      case isFalse => exact List.Sublist.refl _
  | cleared h' r => exact houtside (List.Sublist.refl _) rfl rfl

theorem passes_idle {s s' : State M P K A} {a : Agent} {x : Option (OpPc M P K A)} {new : List (Event M P A)}
    (hshared : s'.shared = s.shared)
    (hhand : hand s' h = hand s h) (hi : inCall s' = Function.update (inCall s) a x)
    (hx : x.elim [] (aims h) = (inCall s a).elim [] (aims h)) :
    Passes f h s s' [] new := by
  have hsame : onTheWay h s' = onTheWay h s := by rw [onTheWay, onTheWay, hhand, hshared, hi, aimsOf_update hx]
  constructor
  rw [hsame]
  exact (List.sublist_append_left _ _).map f

theorem passes_still {s s' : State M P K A} {new : List (Event M P A)} (hshared : s'.shared = s.shared)
    (hclient : s'.client = s.client) (hthread : s'.thread = s.thread) : Passes f h s s' [] new := by
  refine passes_idle (a := .control h) (x := none) hshared (by rw [hand, hand, hthread]) ?_ rfl
  rw [inCall_congr hclient hthread]
  exact (Function.update_eq_self (.control h) (inCall s)).symm

theorem passes_op {s s' : State M P K A} {a : Agent} {pc pc' : OpPc M P K A} (ho : Owned s) (hp : Placed s)
    (hc : inCall s a = some pc) (hstep : OpStep ρ a s.shared pc s'.shared pc')
    (hi : inCall s' = Function.update (inCall s) a (some pc')) (hhand : hand s' h = hand s h)
    (hsent : Alike ρ f h pc) :
    Passes f h s s' ((announces pc).map .published) (offered h s.shared pc) := by
  have hown : Lock.bus ∈ holds pc ↔ s.shared.mutex = some a := (bus_mem_holdsOf hc).symm.trans (ho.iff a .bus)
  have hpass := opStep_passes (f := f) (h := h) hstep (hp.inCall hc) hc hown hsent
  have hnone : handledBy h ((announces pc).map .published) = [] := by simp [handledBy]
  constructor
  rw [hnone, List.nil_append, onTheWay, onTheWay, hhand, hi]
  simp only [List.map_append, List.append_assoc] at hpass ⊢
  exact hpass.append_left _

theorem passes_control {s s' : State M P K A} {h' : Nat} {pc : ControlPc M P A} {pc' : Option (ControlPc M P A)}
    (hp : ControlInPlace pc) (hstep : ControlStep h' s pc s' pc') : Passes f h s (setControl s' h' pc') [] [] := by
  obtain ⟨hmutex, -, hother⟩ := controlStep_frame hstep
  have hcalls := controlStep_inCall hstep
  have hless (hhand : (hand s' h).Sublist (hand s h))
      (hqueue : (s'.shared.cell h).events.queue.Sublist (s.shared.cell h).events.queue) :
      Passes f h s (setControl s' h' pc') [] [] := by
    have haims : aimsOf h (setControl s' h' pc').shared.mutex (inCall (setControl s' h' pc')) =
        aimsOf h s.shared.mutex (inCall s) := by
      rw [hcalls]
      exact congrArg (aimsOf h · _) hmutex
    constructor
    rw [onTheWay, onTheWay, haims, List.append_nil]
    exact ((hhand.append hqueue).append_right _).map f
  by_cases he : h' = h
  · subst he
    cases hstep with
    | spawn ht => exact hless (by simp [hand, setThread, loopHand]) (List.Sublist.refl _)
    | stopRequest | destroyRequest =>
        refine hless ?_ (List.Sublist.refl _)
        have hsame : hand (requestStop s h') h' = hand s h' := by
          cases ht : s.thread h' <;> simp [hand, requestStop, setThread, ht]
        rw [hsame]
    | stopQueue p p' q hs | stopClear p p' q hs =>
        refine hless (List.Sublist.refl _) ?_
        show ((setEvents s.shared h' q).cell h').events.queue.Sublist _
        rw [setEvents_self]
        refine step_sublist hs fun v hv => ?_
        subst hv
        cases hp
    | stopJoined | destroyJoined => exact hless (by simp [hand, setThread]) (List.Sublist.refl _)
    | startRefused | startChecked | started | stopRefused | stopChecked | queueStopped | queueCleared | stopped =>
        exact hless (List.Sublist.refl _) (List.Sublist.refl _)
  · obtain ⟨hcell, hthread⟩ := hother h (Ne.symm he)
    exact hless (by rw [hand, hand, hthread]) (by rw [hcell])

theorem offeredBy_sublist (s : State M P K A) (a : Action M P K A) :
    (offeredBy h s a).Sublist (published (obs s a)) := by
  have hone (pc : OpPc M P K A) : (offered h s.shared pc).Sublist (announces pc) := by
    rw [offered]
    split
    · exact List.Sublist.refl _
    · exact List.nil_sublist _
  have hall (o : Option (OpPc M P K A)) : (o.elim [] (offered h s.shared)).Sublist (o.elim [] announces) := by
    cases o with
    | none => exact List.Sublist.refl _
    | some pc => exact hone pc
  cases a with
  | step a ch =>
      cases a with
      | client c => simpa [offeredBy, obs, published, inCall] using hall (s.client c)
      | thread h' => simpa [offeredBy, obs, published] using hall (inCall s (.thread h'))
      | control h' => exact List.nil_sublist _
  | _ => exact List.nil_sublist _

theorem passes_append {s s' : State M P K A} {log es : List (Entry M P A)} {new total : List (Event M P A)}
    (hpass : Passes f h s s' es new) (hs : ((handledBy h log ++ onTheWay h s).map f).Sublist (total.map f)) :
    ((handledBy h (log ++ es) ++ onTheWay h s').map f).Sublist ((total ++ new).map f) := by
  have hhand : handledBy h (log ++ es) = handledBy h log ++ handledBy h es := by simp [handledBy]
  have hstep := hpass.kept.append_left ((handledBy h log).map f)
  have hbefore := hs.append_right (new.map f)
  rw [hhand]
  simp only [List.map_append, List.append_assoc] at hstep hbefore ⊢
  exact hstep.trans hbefore

/-- The parts of a message that no move from a std::any touches. -/
def label (ev : Event M P A) : String × Option A := (ev.type, ev.ack)

theorem label_sent (x : Sending M P A) : label (x.sent ρ).event = label x.event := by
  unfold Sending.sent
  split <;> rfl

def Copied (s : State M P K A) : Action M P K A → Prop
  | .step a _ => ∀ x, inCall s a = some (.lockBus (.publish x)) → x.typed = true
  | _ => True

theorem keeps_some (ρ : Runtime M P) (s : Shared M P K A) {pc : OpPc M P K A}
    (hk : ∀ x, pc = .lockBus (.publish x) → x.typed = true) : ∃ h, Keeps ρ h s pc := by
  cases pc with
  | erase h' | clear h' p => exact ⟨h' + 1, Nat.ne_of_lt (Nat.lt_succ_self h')⟩
  | table h' x => exact ⟨h' + 1, fun he => absurd he (Nat.ne_of_lt (Nat.lt_succ_self h'))⟩
  | lockBus x =>
      cases x with
      | publish x => exact ⟨0, hk x rfl⟩
      | subscribe | unsubscribe => exact ⟨0, trivial⟩
  | visit | lockType | readType | unlockType | deliver | insert | unlockBus | lockTable | unlockTable | returned =>
      exact ⟨0, trivial⟩

section System

variable [DecidableEq M] {n m : Nat}

theorem passes_loop {s : State M P K A} {h' : Nat} {b : Bool} {pc pc' : LoopPc M P K A} {x : Shared M P K A}
    (hp : Placed s) (ht : s.thread h' = some ⟨pc, b⟩) (hstep : LoopStep ρ h' s.shared b pc x pc')
    (hi : innerCall pc = none) :
    Passes f h s (setThread (setShared s x) h' (some ⟨pc', b⟩)) ((handles pc).map (.handled h')) [] := by
  obtain ⟨hmutex, -, hcell, -, hi'⟩ := loopStep_frame hstep hi
  have hcalls : inCall (setThread (setShared s x) h' (some ⟨pc', b⟩)) = inCall s := by
    have hnone : inCall s (.thread h') = none := by simp [inCall, ht, hi]
    rw [inCall_setThread, inCall_setShared, hi', ← hnone, Function.update_eq_self]
  have haims : aimsOf h (setThread (setShared s x) h' (some ⟨pc', b⟩)).shared.mutex
      (inCall (setThread (setShared s x) h' (some ⟨pc', b⟩))) = aimsOf h s.shared.mutex (inCall s) := by
    rw [hcalls]
    exact congrArg (aimsOf h · _) hmutex
  constructor
  rw [onTheWay, onTheWay, haims, handledBy_handled, List.append_nil, hand_setThread, ← List.append_assoc]
  apply List.Sublist.map
  apply List.Sublist.append_right
  by_cases he : h' = h
  · subst he
    -- a message that no callback is found for leaves the hand and is not handled
    have hplace : LoopInPlace h' pc := by simpa [standing, ht] using hp.agent (.thread h')
    have hmoved := loopStep_hand hstep hplace hi
    have hold : hand s h' = loopHand pc := by simp [hand, ht]
    rw [if_pos rfl, if_pos rfl, hold, ← hmoved, ← List.append_assoc]
    exact ((List.sublist_append_left _ _).append_right _).append_right _
  · rw [if_neg he, if_neg he, List.nil_append]
    show (_ ++ (x.cell h).events.queue).Sublist _
    rw [hcell h (Ne.symm he)]
    exact List.Sublist.refl _

theorem move_passes {s s' : State M P K A} {a : Action M P K A} (ho : Owned s) (hp : Placed s)
    (hsent : ∀ b pc, inCall s b = some pc → Alike ρ f h pc) (hn : Move ρ n m s a s') :
    Passes f h s s' (obs s a) (offeredBy h s a) := by
  cases hn with
  | call c x _ hc =>
      have hnone : inCall s (.client c) = none := hc
      refine passes_idle rfl rfl (inCall_setClient s c _) ?_
      rw [hnone, Option.elim_some, aims_entry]
      rfl
  | control h' x => exact passes_still rfl rfl rfl
  | inner h' x ev y b ht =>
      have hnone : inCall s (.thread h') = none := by simp [inCall, ht, innerCall]
      refine passes_idle rfl (hand_user ht rfl rfl) (inCall_setThread s h' _) ?_
      rw [hnone, innerCall, Option.elim_some, aims_entry]
      rfl
  | finish h' throws ev y b pc ht hf =>
      have hnone : inCall s (.thread h') = none := by simp [inCall, ht, innerCall]
      refine passes_idle rfl (hand_user ht rfl (loopHand_finish hf)) (inCall_setThread s h' _) ?_
      rw [hnone, innerCall_finish hf]
  | terminate => exact passes_still rfl rfl rfl
  | leave c ch r hc =>
      have hcall : inCall s (.client c) = some (.returned r) := hc
      have hobs : obs s (.step (.client c) ch) = [] := by simp [obs, hc, announces]
      rw [hobs]
      refine passes_idle rfl rfl (inCall_setClient s c none) ?_
      rw [hcall]
      rfl
  | client c ch pc pc' x hc hstep =>
      have hcall : inCall s (.client c) = some pc := hc
      have hobs : obs s (.step (.client c) ch) = (announces pc).map .published := by simp [obs, hc]
      have hnew : offeredBy h s (.step (.client c) ch) = offered h s.shared pc := by simp [offeredBy, hcall]
      rw [hobs, hnew]
      exact passes_op ho hp hcall hstep (inCall_setClient (setShared s x) c _) rfl (hsent _ pc hcall)
  | thread h' ch pc pc' b x ht hstep =>
      have hobs : obs s (.step (.thread h') ch) =
          ((innerCall pc).elim [] announces).map .published ++ (handles pc).map (.handled h') := by
        simp [obs, inCall, ht]
      have hnew : offeredBy h s (.step (.thread h') ch) = (innerCall pc).elim [] (offered h s.shared) := by
        simp [offeredBy, inCall, ht]
      rw [hobs, hnew]
      cases hi : innerCall pc with
      | none => exact passes_loop hp ht hstep hi
      | some op =>
          have hc : inCall s (.thread h') = some op := by simp [inCall, ht, hi]
          obtain ⟨ev, y, rfl, ⟨r, rfl, rfl, rfl⟩ | ⟨op', hop, rfl⟩⟩ := loopStep_inner hstep hi
          · refine passes_idle rfl (hand_user ht rfl rfl) (inCall_setThread s h' _) ?_
            rw [hc]
            rfl
          · have hpass : Passes f h s (setThread (setShared s x) h' (some ⟨.user ev y (some op'), b⟩))
                ((announces op).map .published) (offered h s.shared op) :=
              passes_op ho hp hc hop (by rw [inCall_setThread, inCall_setShared]; rfl)
                ((hand_user (s := setShared s x) ht rfl rfl).trans rfl) (hsent _ op hc)
            simpa [handles] using hpass
  | controlStep h' ch pc pc' s₁ hc hstep => exact passes_control (hp.control h' pc hc) hstep

theorem move_calls {Q : OpPc M P K A → Prop} {s s' : State M P K A} {a : Action M P K A}
    (hentry : ∀ x : Call M P K A, Q (x.entry ρ))
    (hstep : ∀ b ch pc pc' x, a = .step b ch → inCall s b = some pc → OpStep ρ b s.shared pc x pc' → Q pc → Q pc')
    (hs : ∀ b pc, inCall s b = some pc → Q pc) (hn : Move ρ n m s a s') : ∀ b pc, inCall s' b = some pc → Q pc := by
  have hupdate {b : Agent} {x : Option (OpPc M P K A)} (hi : inCall s' = Function.update (inCall s) b x)
      (hx : ∀ pc, x = some pc → Q pc) : ∀ b pc, inCall s' b = some pc → Q pc := by
    intro b' pc hpc
    rw [hi] at hpc
    by_cases he : b' = b
    · subst he
      exact hx pc (by simpa using hpc)
    · exact hs b' pc (by simpa [he] using hpc)
  have hnone : ∀ pc, (none : Option (OpPc M P K A)) = some pc → Q pc := fun pc hpc => by cases hpc
  cases hn with
  | call c x =>
      refine hupdate (inCall_setClient s c _) fun pc hpc => ?_
      cases hpc
      exact hentry x
  | control | terminate =>
      intro b pc hpc
      exact hs b pc ((congrFun (inCall_congr rfl rfl) b).symm.trans hpc)
  | inner h' x =>
      refine hupdate (inCall_setThread s h' _) fun pc hpc => ?_
      cases hpc
      exact hentry x
  | finish h' throws ev y b pc ht hf =>
      refine hupdate (inCall_setThread s h' _) ?_
      rw [innerCall_finish hf]
      exact hnone
  | leave c => exact hupdate (inCall_setClient s c none) hnone
  | client c ch pc pc' x hc hop =>
      have hcall : inCall s (.client c) = some pc := hc
      refine hupdate (inCall_setClient (setShared s x) c _) fun p hp => ?_
      cases hp
      exact hstep _ ch pc pc' x rfl hcall hop (hs _ pc hcall)
  | thread h' ch pc pc' b x ht hloop =>
      refine hupdate ((inCall_setThread (setShared s x) h' _).trans (by rw [inCall_setShared])) fun p hp => ?_
      have hinner : innerCall pc' = some p := hp
      cases hi : innerCall pc with
      | none =>
          rw [(loopStep_frame hloop hi).2.2.2.2] at hinner
          cases hinner
      | some op =>
          have hc : inCall s (.thread h') = some op := by simp [inCall, ht, hi]
          obtain ⟨ev, y, rfl, ⟨r, rfl, rfl, rfl⟩ | ⟨op', hop, rfl⟩⟩ := loopStep_inner hloop hi
          · cases hinner
          · cases hinner
            exact hstep _ ch op _ x rfl hc hop (hs _ op hc)
  | controlStep h' ch pc pc' s₁ hc hcontrol =>
      intro b pc hpc
      rw [controlStep_inCall hcontrol] at hpc
      exact hs b pc hpc

theorem move_typed {s s' : State M P K A} {a : Action M P K A} (hs : ∀ b pc, inCall s b = some pc → Typed pc)
    (hk : Copied s a) (hn : Move ρ n m s a s') : ∀ b pc, inCall s' b = some pc → Typed pc := by
  refine move_calls (fun x => (typed_entry (h := 0) (t := []) ρ x).1) ?_ hs hn
  rintro b ch pc pc' x rfl hc hop hty
  have hpublish : ∀ y, pc = .lockBus (.publish y) → y.typed = true := fun y hy => hk y (by rw [hc, hy])
  obtain ⟨h, hkeeps⟩ := keeps_some ρ s.shared hpublish
  exact opStep_typed hop hkeeps hty

/-- In every run a handler runs callbacks for some of the messages published, in the order of their
bus-mutex sections and for none of them twice; with the typed Publish for the messages themselves.
-/
theorem handled_in_order {ok : State M P K A × List (Entry M P A) → Action M P K A → Prop} {s : State M P K A}
    {log : List (Entry M P A)} (hr : Reachable (logged (system ρ n m) obs) ok (s, log)) (h : Nat) :
    ((handledBy h log).map label).Sublist ((published log).map label) ∧
      ((∀ p a, ok p a → Copied p.1 a) → (handledBy h log).Sublist (published log)) := by
  have hpub (log es : List (Entry M P A)) : published (log ++ es) = published log ++ published es := by
    simp [published]
  constructor
  · have hall : ((handledBy h log ++ onTheWay h s).map label).Sublist ((published log).map label) := by
      refine hr.logged_invariant
        (P := fun s log => ((handledBy h log ++ onTheWay h s).map label).Sublist ((published log).map label)) ?_ ?_
      · rintro s rfl
        exact List.Sublist.refl _
      · intro s log a s' hr hs _ hn
        have hreach := hr.forget_any
        have hpass := move_passes (f := label) (h := h) (reachable_owned hreach) (reachable_placed hreach)
          (fun _ _ _ _ v _ _ => label_sent v.sending) (next_sound hn).2
        rw [hpub]
        exact (passes_append hpass hs).trans (((offeredBy_sublist s a).append_left _).map label)
    rw [List.map_append] at hall
    exact (List.sublist_append_left _ _).trans hall
  · intro hcopied
    have hall : (∀ b pc, inCall s b = some pc → Typed pc) ∧
        ((handledBy h log ++ onTheWay h s).map id).Sublist ((published log).map id) := by
      refine hr.logged_invariant (P := fun s log => (∀ b pc, inCall s b = some pc → Typed pc) ∧
        ((handledBy h log ++ onTheWay h s).map id).Sublist ((published log).map id)) ?_ ?_
      · rintro s rfl
        refine ⟨fun b pc hpc => ?_, List.Sublist.refl _⟩
        cases b <;> cases hpc
      · rintro s log a s' hr ⟨hty, hs⟩ hok hn
        have hreach := hr.forget_any
        have hmove := (next_sound hn).2
        have hsent : ∀ b pc, inCall s b = some pc → Alike ρ id h pc := by
          rintro b pc hc h' v rfl -
          have hv : v.sending.typed = true := hty b _ hc
          simp [Sending.sent, hv]
        have hpass := move_passes (f := id) (h := h) (reachable_owned hreach) (reachable_placed hreach) hsent hmove
        refine ⟨move_typed hty (hcopied _ a hok) hmove, ?_⟩
        rw [hpub]
        exact (passes_append hpass hs).trans (((offeredBy_sublist s a).append_left _).map id)
    have hmap := hall.2
    rw [List.map_id, List.map_id] at hmap
    exact (List.sublist_append_left _ _).trans hmap

end System

section Unsubscribed

def Avoids (h : Nat) : OpPc M P K A → Prop
  | .visit v => h ∉ v.rest
  | .lockType h' v | .readType h' v | .unlockType h' _ v | .deliver h' _ v => h' ≠ h ∧ h ∉ v.rest
  | _ => True

structure Cut (h : Nat) (s : State M P K A) : Prop where
  absent : h ∉ s.shared.handlers.items
  calls : ∀ a pc, inCall s a = some pc → Avoids h pc

def Inserts (h : Nat) (s : State M P K A) : Action M P K A → Prop
  | .step a _ => inCall s a = some (.insert h)
  | _ => False

theorem avoids_of_outside {pc : OpPc M P K A} (hb : Lock.bus ∉ holds pc) : Avoids h pc := by
  cases pc with
  | visit | lockType | readType | unlockType | deliver => exact absurd (by simp [holds]) hb
  | lockBus | insert | erase | unlockBus | lockTable | table | unlockTable | clear | returned => trivial

theorem aims_of_avoids {pc : OpPc M P K A} (ha : Avoids h pc) : aims h pc = [] := by
  cases pc with
  | visit v => exact if_neg ha
  | lockType h' v | readType h' v | unlockType h' b v => exact if_neg (by simp [ha.1, ha.2])
  | deliver h' p v => simp [aims, ha.1, ha.2]
  | _ => rfl

theorem opStep_avoids {a : Agent} {s s' : Shared M P K A} {pc pc' : OpPc M P K A} (hs : OpStep ρ a s pc s' pc')
    (hm : h ∉ s.handlers.items) (ha : Avoids h pc) : Avoids h pc' := by
  cases hs with
  | lockBus x =>
      cases x with
      | publish x => exact hm
      | subscribe | unsubscribe => trivial
  | visit x h' rest r =>
      have hout : h ∉ h' :: rest := ha
      rw [List.mem_cons, not_or] at hout
      exact ⟨Ne.symm hout.1, hout.2⟩
  | lockType | readType | found | deliver => exact ha
  | notFound | delivered => exact ha.2
  | visited | insert | erase | unlockBus | lockTable | table | unlockTable | clear | cleared => trivial

theorem opStep_absent {a : Agent} {s s' : Shared M P K A} {pc pc' : OpPc M P K A} (hs : OpStep ρ a s pc s' pc')
    (hm : h ∉ s.handlers.items) (hne : pc ≠ .insert h) : h ∉ s'.handlers.items := by
  cases hs with
  | insert h' =>
      rw [HandlerSet.mem_insert, not_or]
      exact ⟨fun he => hne (he ▸ rfl), hm⟩
  | erase h' =>
      rw [HandlerSet.mem_erase]
      exact fun hin => hm hin.2
  | _ => exact hm

theorem Cut.onTheWay {s : State M P K A} (hs : Cut h s) :
    onTheWay h s = hand s h ++ (s.shared.cell h).events.queue := by
  have haims : aimsOf h s.shared.mutex (inCall s) = [] := by
    rw [aimsOf]
    cases hc : s.shared.mutex.bind (inCall s) with
    | none => rfl
    | some pc =>
        obtain ⟨a, -, ha⟩ := Option.bind_eq_some_iff.mp hc
        exact aims_of_avoids (hs.calls a pc ha)
  rw [BusStream.onTheWay, haims, List.append_nil]

theorem Cut.offered {s : State M P K A} (hs : Cut h s) (a : Action M P K A) : offeredBy h s a = [] := by
  have hone : BusStream.offered h s.shared = fun _ => [] := by
    funext pc
    exact if_neg hs.absent
  cases a with
  | step a ch =>
      rw [offeredBy, hone]
      cases inCall s a <;> rfl
  | _ => rfl

variable [DecidableEq M] {n m : Nat}

theorem move_absent {s s' : State M P K A} {a : Action M P K A} (hm : h ∉ s.shared.handlers.items)
    (hne : ¬Inserts h s a) (hn : Move ρ n m s a s') : h ∉ s'.shared.handlers.items := by
  cases hn with
  | client c ch pc pc' x hc hop =>
      have hcall : inCall s (.client c) = some pc := hc
      exact opStep_absent hop hm fun he => hne (hcall.trans (congrArg some he))
  | thread h' ch pc pc' b x ht hloop =>
      show h ∉ x.handlers.items
      cases hi : innerCall pc with
      | none =>
          rw [(loopStep_frame hloop hi).2.1]
          exact hm
      | some op =>
          have hc : inCall s (.thread h') = some op := by simp [inCall, ht, hi]
          obtain ⟨ev, y, rfl, ⟨r, rfl, rfl, rfl⟩ | ⟨op', hop, rfl⟩⟩ := loopStep_inner hloop hi
          · exact hm
          · exact opStep_absent hop hm fun he => hne (hc.trans (congrArg some he))
  | controlStep h' ch pc pc' s₁ hc hcontrol =>
      show h ∉ s₁.shared.handlers.items
      rw [(controlStep_frame hcontrol).2.1]
      exact hm
  | _ => exact hm

theorem move_cut {s s' : State M P K A} {a : Action M P K A} (hs : Cut h s) (hne : ¬Inserts h s a)
    (hn : Move ρ n m s a s') : Cut h s' where
  absent := move_absent hs.absent hne hn
  calls := by
    have hentry (x : Call M P K A) : Avoids h (x.entry ρ) := avoids_of_outside (by simp [holds_entry])
    exact move_calls hentry (fun b ch pc pc' x _ _ hop ha => opStep_avoids hop hs.absent ha) hs.calls hn

/-- Erasing the handler is the last thing in the bus-mutex section of Unsubscribe,
so that no Publish is in its loop. -/
theorem cut_of_erase {s s' : State M P K A} {a : Agent} {ch : Choice Agent} (ho : Owned s)
    (hc : inCall s a = some (.erase h)) (hn : Move ρ n m s (.step a ch) s') : Cut h s' := by
  have hmine : s.shared.mutex = some a := (ho.iff a .bus).mp ((bus_mem_holdsOf hc).mpr (by simp [holds]))
  have hcalls : ∀ b pc, inCall s b = some pc → Avoids h pc := by
    intro b pc hpc
    by_cases hb : b = a
    · subst hb
      cases hc.symm.trans hpc
      trivial
    · apply avoids_of_outside
      intro hin
      have hother := (ho.iff b .bus).mp ((bus_mem_holdsOf hpc).mpr hin)
      exact hb (Option.some.inj (hother.symm.trans hmine))
  constructor
  · have hgone {x : Shared M P K A} {pc' : OpPc M P K A} (hop : OpStep ρ a s.shared (.erase h) x pc') :
        h ∉ x.handlers.items := by
      cases hop with
      | erase => simp [HandlerSet.mem_erase]
    cases hn with
    | leave c ch r hr => exact absurd (hc.symm.trans hr) (by simp)
    | client c ch pc pc' x hpc hop =>
        cases Option.some.inj (hpc.symm.trans hc)
        exact hgone hop
    | thread h' ch pc pc' b x ht hloop =>
        have hi : innerCall pc = some (.erase h) := by simpa [inCall, ht] using hc
        obtain ⟨ev, y, rfl, ⟨r, hr, -⟩ | ⟨op', hop, -⟩⟩ := loopStep_inner hloop hi
        · cases hr
        · exact hgone hop
    | controlStep => cases hc
  · refine move_calls (fun x => avoids_of_outside (by simp [holds_entry])) ?_ hcalls hn
    rintro b ch pc pc' x he hpc hop -
    cases he
    cases hc.symm.trans hpc
    cases hop with
    | erase => trivial

/-- From the moment Unsubscribe has erased a handler until it is inserted again, it is called for
nothing but what was in its queue or its hand, in that order. -/
theorem unsubscribed_hears_nothing {s₁ s₂ s : State M P K A} {a : Agent} {ch : Choice Agent}
    {log : List (Entry M P A)} (hr : Reachable (system ρ n m) Any s₁) (hc : inCall s₁ a = some (.erase h))
    (hn : next ρ n m s₁ (.step a ch) = some s₂)
    (hrun : Reachable (logged (startingAt (system ρ n m) s₂) obs) (fun p a => ¬Inserts h p.1 a) (s, log)) :
    (handledBy h log ++ hand s h ++ (s.shared.cell h).events.queue).Sublist
      (hand s₂ h ++ (s₂.shared.cell h).events.queue) := by
  have hcut := cut_of_erase (reachable_owned hr) hc (next_sound hn).2
  have hreach₂ : Reachable (system ρ n m) Any s₂ := .step hr trivial hn
  have hall : Cut h s ∧ ((handledBy h log ++ onTheWay h s).map id).Sublist ((onTheWay h s₂).map id) := by
    refine hrun.logged_invariant
      (P := fun s log => Cut h s ∧ ((handledBy h log ++ onTheWay h s).map id).Sublist ((onTheWay h s₂).map id)) ?_ ?_
    · rintro s rfl
      exact ⟨hcut, List.Sublist.refl _⟩
    · rintro s log a s' hr ⟨hcut, hs⟩ hok hn
      have hreach : Reachable (system ρ n m) Any s := hreach₂.trans hr.forget_any
      have hmove := (next_sound hn).2
      have hpass := move_passes (f := id) (h := h) (reachable_owned hreach) (reachable_placed hreach)
        (fun b _ hpc h' v he hin => absurd hin (he ▸ hcut.calls b _ hpc : Avoids h (.unlockType h' true v)).2) hmove
      have happend := passes_append hpass hs
      rw [hcut.offered, List.append_nil] at happend
      exact ⟨move_cut hcut hok hmove, happend⟩
  obtain ⟨hcut', hsub⟩ := hall
  rw [List.map_id, List.map_id, hcut.onTheWay, hcut'.onTheWay, ← List.append_assoc] at hsub
  exact hsub

end Unsubscribed

section Runs

def copied (s : State Unit Nat Nat Nat) : Action Unit Nat Nat Nat → Bool
  | .step a _ => (inCall s a).all fun
    | .lockBus (.publish x) => x.typed
    | _ => true
  | _ => true

theorem copied_of_copied (s : State Unit Nat Nat Nat) (a : Action Unit Nat Nat Nat) (hc : copied s a = true) :
    Copied s a := by
  cases a with
  | step a ch =>
      intro x hx
      simpa [copied, hx] using hc
  | _ => trivial

theorem handled_in_order_cleared : ∃ log : List (Entry Unit Nat Nat),
    (published log).length = 2 ∧ handledBy 0 log = [⟨"T", some ⟨(), 2⟩, none⟩] ∧
      (handledBy 0 log).Sublist (published log) := by
  obtain ⟨⟨s, log⟩, hr, hp⟩ := exists_of_run (logged (system (K := Nat) oneType 1 1) obs)
    (fun p a => Copied p.1 a) (fun p a => copied p.1 a) ({}, [])
    (List.flatten [setUp, [.call 0 (.publish () 1 none)], steps (.client 0) 13, [.call 0 (.clear 0)],
      steps (.client 0) 6, [.call 0 (.publish () 2 none)], steps (.client 0) 13, steps (.thread 0) 10])
    (fun p => decide ((published p.2).length = 2 ∧ handledBy 0 p.2 = [⟨"T", some ⟨(), 2⟩, none⟩]))
    (fun p a hc => copied_of_copied p.1 a hc) ⟨rfl, rfl⟩ rfl
  obtain ⟨htwo, hone⟩ := of_decide_eq_true hp
  exact ⟨log, htwo, hone, (handled_in_order hr 0).2 fun _ _ hok => hok⟩

def upToErase : List (Action Unit Nat Nat Nat) :=
  List.flatten [setUp, [.call 0 (.publish () 1 none)], steps (.client 0) 13, [.call 0 (.unsubscribe (some 0))],
    steps (.client 0) 1]

def erasing : State Unit Nat Nat Nat := (run (system oneType 1 1) {} upToErase).getD {}

theorem erasing_reachable : Reachable (system oneType 1 1) Any erasing := by
  have hrun : run (system oneType 1 1) {} upToErase = some erasing := rfl
  exact run_reachable (.init rfl) hrun

def erased : State Unit Nat Nat Nat := (next oneType 1 1 erasing (.step (.client 0) .run)).getD {}

def notInserting (h : Nat) (s : State Unit Nat Nat Nat) : Action Unit Nat Nat Nat → Bool
  | .step a _ => (inCall s a).all fun
    | .insert h' => h' != h
    | _ => true
  | _ => true

theorem not_inserts_of (h : Nat) (s : State Unit Nat Nat Nat) (a : Action Unit Nat Nat Nat)
    (hn : notInserting h s a = true) : ¬Inserts h s a := by
  cases a with
  | step a ch =>
      intro hin
      have hc : inCall s a = some (.insert h) := hin
      simp [notInserting, hc] at hn
  | _ => exact id

/-- The handler is still called for the message in its queue, and not for the one
published after it was unsubscribed. -/
theorem unsubscribed_hears_nothing_queued : ∃ (s : State Unit Nat Nat Nat) (log : List (Entry Unit Nat Nat)),
    published log = [⟨"T", some ⟨(), 2⟩, none⟩] ∧ handledBy 0 log = [⟨"T", some ⟨(), 1⟩, none⟩] ∧
      (handledBy 0 log ++ hand s 0 ++ (s.shared.cell 0).events.queue).Sublist
        (hand erased 0 ++ (erased.shared.cell 0).events.queue) := by
  obtain ⟨⟨s, log⟩, hr, hp⟩ := exists_of_run (logged (startingAt (system (K := Nat) oneType 1 1) erased) obs)
    (fun p a => ¬Inserts 0 p.1 a) (fun p a => notInserting 0 p.1 a) (erased, [])
    (List.flatten [steps (.client 0) 2, [.call 0 (.publish () 2 none)], steps (.client 0) 4, steps (.thread 0) 10])
    (fun p => decide (published p.2 = [⟨"T", some ⟨(), 2⟩, none⟩] ∧ handledBy 0 p.2 = [⟨"T", some ⟨(), 1⟩, none⟩]))
    (fun p a hn => not_inserts_of 0 p.1 a hn) ⟨rfl, rfl⟩ rfl
  obtain ⟨hpub, hone⟩ := of_decide_eq_true hp
  have hn : next oneType 1 1 erasing (.step (.client 0) .run) = some erased := rfl
  exact ⟨s, log, hpub, hone, unsubscribed_hears_nothing erasing_reachable rfl hn hr⟩

end Runs

end Enigma.BusStream
