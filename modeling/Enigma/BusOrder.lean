import Enigma.BusCalls
import Enigma.BusLocks

namespace Enigma.BusOrder

open Transition SyncQueue QueueStep EventBus BusThreads BusStep BusCalls BusLocks

variable {M P K A : Type}

/-- What is seen of a run: the messages in the order of the bus-mutex sections of
their Publish, and the callbacks called for them. -/
inductive Entry (M P A : Type)
  | published (ev : Event M P A)
  | handled (h : Nat) (ev : Event M P A)

def announces : OpPc M P K A → List (Event M P A)
  | .lockBus (.publish x) => [x.event]
  | _ => []

def handles : LoopPc M P K A → List (Event M P A)
  | .call ev _ => [ev]
  | _ => []

def obs (s : State M P K A) : Action M P K A → List (Entry M P A)
  | .step (.client c) _ => ((s.client c).elim [] announces).map .published
  | .step (.thread h) _ => ((inCall s (.thread h)).elim [] announces).map .published ++
      ((s.thread h).elim [] fun l => handles l.pc).map (.handled h)
  | _ => []

def published (log : List (Entry M P A)) : List (Event M P A) := log.filterMap fun
  | .published ev => some ev
  | .handled _ _ => none

def handledBy (h : Nat) (log : List (Entry M P A)) : List (Event M P A) := log.filterMap fun
  | .published _ => none
  | .handled h' ev => if h' = h then some ev else none

section Pending

variable (h : Nat) (t : Handles M K)

def wanted (evs : List (Event M P A)) : List (Event M P A) := evs.filter fun ev => contains t ev.type

def due (v : Visit M P A) : List (Event M P A) := if h ∈ v.rest then wanted t [v.sending.event] else []

def pending : OpPc M P K A → List (Event M P A)
  | .visit v => due h t v
  | .lockType h' v | .readType h' v => if h' = h then wanted t [v.sending.event] else due h t v
  | .unlockType h' found v => if h' = h then (if found then [v.sending.event] else []) else due h t v
  | .deliver h' p v => if h' = h then held p else due h t v
  | _ => []

def pendingOf (o : Option Agent) (calls : Agent → Option (OpPc M P K A)) : List (Event M P A) :=
  (o.bind calls).elim [] (pending h t)

def loopHand : LoopPc M P K A → List (Event M P A)
  | .pop p => held p
  | .lock ev | .find ev | .call ev _ => [ev]
  | _ => []

def unwanted : LoopPc M P K A → List (Event M P A)
  | .find ev => if contains t ev.type then [] else [ev]
  | _ => []

end Pending

def Typed : OpPc M P K A → Prop
  | .visit v | .lockType _ v | .readType _ v | .unlockType _ _ v | .deliver _ _ v => v.sending.typed = true
  | _ => True

def Keeps (ρ : Runtime M P) (h : Nat) (s : Shared M P K A) : OpPc M P K A → Prop
  | .erase h' | .clear h' _ => h' ≠ h
  | .table h' x => h' = h → (x.apply ρ (s.cell h).handles).1 = (s.cell h).handles
  | .lockBus (.publish x) => x.typed = true
  | _ => True

variable {ρ : Runtime M P} {h : Nat} {t : Handles M K}

theorem opStep_typed {a : Agent} {s s' : Shared M P K A} {pc pc' : OpPc M P K A} (hs : OpStep ρ a s pc s' pc')
    (hk : Keeps ρ h s pc) (hp : Typed pc) : Typed pc' := by
  cases hs with
  | lockBus x =>
      cases x with
      | publish x => exact hk
      | subscribe | unsubscribe => trivial
  | found h v =>
      have hv : v.sending.typed = true := hp
      simp [Typed, Sending.sent, hv]
  | visit | lockType | readType | notFound | deliver | delivered => exact hp
  | visited | insert | erase | unlockBus | lockTable | table | unlockTable | clear | cleared => trivial

theorem opStep_member {a : Agent} {s s' : Shared M P K A} {pc pc' : OpPc M P K A} (hs : OpStep ρ a s pc s' pc')
    (hk : Keeps ρ h s pc) (hm : h ∈ s.handlers.items) : h ∈ s'.handlers.items := by
  cases hs with
  | insert h' => exact HandlerSet.mem_insert.mpr (.inr hm)
  | erase h' => exact HandlerSet.mem_erase.mpr ⟨Ne.symm hk, hm⟩
  | _ => exact hm

theorem opStep_table {a : Agent} {s s' : Shared M P K A} {pc pc' : OpPc M P K A} (hs : OpStep ρ a s pc s' pc')
    (hk : Keeps ρ h s pc) : (s'.cell h).handles = (s.cell h).handles := by
  cases hs with
  | table h' x =>
      by_cases he : h' = h
      · subst he
        simpa [setCell] using hk rfl
      · simp [setCell, Ne.symm he]
  | lockType h' v | found h' v | notFound h' v | lockTable h' x | unlockTable h' r => exact (setMutex_cell s h' _).2
  | deliver h' p p' q v hs | clear h' p p' q hs => exact (setEvents_cell s h' q).2
  | lockBus | visited | visit | readType | delivered | insert | erase | unlockBus | cleared => rfl

theorem pendingOf_update {o : Option Agent} {calls : Agent → Option (OpPc M P K A)} {a : Agent}
    {x : Option (OpPc M P K A)} (hx : x.elim [] (pending h t) = (calls a).elim [] (pending h t)) :
    pendingOf h t o (Function.update calls a x) = pendingOf h t o calls := by
  cases o with
  | none => rfl
  | some b =>
      by_cases hb : b = a
      · subst hb
        simpa [pendingOf] using hx
      · simp [pendingOf, hb]

theorem not_mem_rest {h' : Nat} {v : Visit M P A} (hp : (h' :: v.rest).Pairwise (· < ·)) : h' ∉ v.rest :=
  fun hm => Nat.lt_irrefl _ ((List.pairwise_cons.mp hp).1 h' hm)

theorem due_of_not_mem {v : Visit M P A} (hv : h ∉ v.rest) : due h t v = [] := if_neg hv

/-- Inside its bus-mutex section a Publish moves the message from what is pending
to the end of the queue. -/
theorem opStep_section {a : Agent} {s s' : Shared M P K A} {pc pc' : OpPc M P K A} (hs : OpStep ρ a s pc s' pc')
    (hp : InPlace pc) (hty : Typed pc) (ht : (s.cell h).handles = t) (hb : Lock.bus ∈ holds pc) :
    (s'.cell h).events.queue ++ pending h t pc' = (s.cell h).events.queue ++ pending h t pc := by
  cases hs with
  | visited x r => rfl
  | visit x h' rest r =>
      by_cases he : h' = h
      · simp [pending, due, he]
      · simp [pending, due, he, Ne.symm he]
  | lockType h' v => rw [(setMutex_cell s h' _).1]; rfl
  | readType h' v =>
      by_cases he : h' = h
      · subst he
        simp only [pending, if_true, ht, wanted, List.filter_cons, List.filter_nil]
      · simp [pending, he]
  | found h' v =>
      have hsent : v.sending.sent ρ = v.sending := by
        have hv : v.sending.typed = true := hty
        simp [Sending.sent, hv]
      rw [(setMutex_cell s h' _).1, hsent]
      rfl
  | notFound h' v =>
      rw [(setMutex_cell s h' _).1]
      by_cases he : h' = h
      · subst he
        simp [pending, due_of_not_mem (not_mem_rest hp)]
      · simp [pending, he]
  | deliver h' p p' q v hs =>
      rw [(setEvents_cell s h' q).1]
      by_cases he : h' = h
      · subst he
        obtain ⟨-, ev, hw⟩ := hp
        simpa [pending] using step_push_order hs hw
      · simp [pending, he]
  | delivered h' r v =>
      obtain ⟨hsorted, ev, hw⟩ := hp
      by_cases he : h' = h
      · subst he
        cases hw
        have hnone : due h' t { v with result := true } = [] := due_of_not_mem (not_mem_rest hsorted)
        simp [pending, held, hnone]
      · simp [pending, he, due]
  | insert h' | erase h' => rfl
  | unlockBus r => rfl
  | lockBus | lockTable | clear | cleared => cases hb
  | table h' x | unlockTable h' r => simp [holds] at hb

theorem opStep_pending {a : Agent} {s s' : Shared M P K A} {pc pc' : OpPc M P K A}
    {calls : Agent → Option (OpPc M P K A)} (hs : OpStep ρ a s pc s' pc') (hk : Keeps ρ h s pc) (hp : InPlace pc)
    (hty : Typed pc) (hm : h ∈ s.handlers.items) (ht : (s.cell h).handles = t) (hc : calls a = some pc)
    (ho : Lock.bus ∈ holds pc ↔ s.mutex = some a) :
    (s'.cell h).events.queue ++ pendingOf h t s'.mutex (Function.update calls a (some pc')) =
      (s.cell h).events.queue ++ pendingOf h t s.mutex calls ++ wanted t (announces pc) := by
  -- a step inside the section, with the bus mutex kept
  have hinside (hb : Lock.bus ∈ holds pc) (hm' : s'.mutex = s.mutex) (hw : announces pc = []) :
      (s'.cell h).events.queue ++ pendingOf h t s'.mutex (Function.update calls a (some pc')) =
        (s.cell h).events.queue ++ pendingOf h t s.mutex calls ++ wanted t (announces pc) := by
    have hsection := opStep_section hs hp hty ht hb
    simpa [pendingOf, hm', ho.mp hb, hc, hw, wanted] using hsection
  -- a step of a thread that is not in the section
  have houtside (hq : (s'.cell h).events.queue = (s.cell h).events.queue) (hm' : s'.mutex = s.mutex)
      (hw : announces pc = []) (hpend : pending h t pc' = pending h t pc) :
      (s'.cell h).events.queue ++ pendingOf h t s'.mutex (Function.update calls a (some pc')) =
        (s.cell h).events.queue ++ pendingOf h t s.mutex calls ++ wanted t (announces pc) := by
    rw [hq, hm', pendingOf_update (by simpa [hc] using hpend), hw]
    simp [wanted]
  cases hs with
  | lockBus x hfree =>
      rw [hfree]
      cases x with
      | publish x => simp [pendingOf, BusCall.body, pending, due, hm, announces]
      | subscribe h' | unsubscribe h' => simp [pendingOf, BusCall.body, pending, announces, wanted]
  | unlockBus r =>
      have hmine : s.mutex = some a := ho.mp (by simp [holds])
      simp [pendingOf, hmine, hc, pending, announces, wanted]
  | visited | visit | lockType | readType | found | notFound | deliver | delivered | insert | erase =>
      exact hinside (by simp [holds]) rfl rfl
  | lockTable h' x | unlockTable h' r => exact houtside (by rw [(setMutex_cell s h' _).1]) rfl rfl rfl
  | table h' x =>
      refine houtside ?_ rfl rfl rfl
      rw [setHandles_events]
  | clear h' p p' q hs =>
      refine houtside ?_ rfl rfl rfl
      rw [(setEvents_cell s h' q).1, if_neg hk]
  | cleared h' r => exact houtside rfl rfl rfl rfl

theorem held_nothing {r : Ret (Event M P A)} (hp : LoopInPlace h (.pop (.returned r) : LoopPc M P K A))
    (hr : ∀ ev, r ≠ .value (some ev)) : held (.returned r : Pc (Event M P A)) = [] := by
  cases hp with
  | @returnedPop c v =>
      cases v with
      | none => rfl
      | some ev => exact absurd rfl (hr ev)

/-- The thread of the handler itself moves a message from the queue to its hand
and from there into the callback, unless there is none. -/
theorem loopStep_hand [DecidableEq M] {s s' : Shared M P K A} {b : Bool} {pc pc' : LoopPc M P K A}
    (hs : LoopStep ρ h s b pc s' pc') (hp : LoopInPlace h pc) (hi : innerCall pc = none) :
    handles pc ++ unwanted (s.cell h).handles pc ++ loopHand pc' ++ (s'.cell h).events.queue =
      loopHand pc ++ (s.cell h).events.queue := by
  cases hs with
  | pop p p' q hs =>
      rw [(setEvents_cell s h q).1]
      simpa [handles, unwanted, loopHand] using step_pop_order hs hp
  | nothing r hr =>
      simp [handles, unwanted, loopHand, held_nothing hp hr]
  | lock ev =>
      rw [(setMutex_cell s h _).1]
      rfl
  | unlock =>
      rw [(setMutex_cell s h _).1]
      rfl
  | notFound ev hf => simp [handles, unwanted, loopHand, contains, hf]
  | found ev f hf => simp [handles, unwanted, loopHand, contains, hf]
  | exit | enter | got | castFails | cast | callType => simp [handles, unwanted, loopHand, held]
  | innerReturned | inner => cases hi

def Starting : ControlPc M P A → Prop
  | .startCheck | .startSpawn | .startSet => True
  | _ => False

def hand (s : State M P K A) (h : Nat) : List (Event M P A) := (s.thread h).elim [] fun l => loopHand l.pc

/-- Handler `h` stays subscribed and started, with the callbacks `t`. -/
structure Following (h : Nat) (t : Handles M K) (s : State M P K A) (log : List (Entry M P A)) : Prop where
  member : h ∈ s.shared.handlers.items
  table : (s.shared.cell h).handles = t
  alive : ∃ l, s.thread h = some l
  starting : ∀ pc, s.control h = some pc → Starting pc
  typed : ∀ a pc, inCall s a = some pc → Typed pc
  order : wanted t (published log) = handledBy h log ++ hand s h ++ (s.shared.cell h).events.queue ++
    pendingOf h t s.shared.mutex (inCall s)

def Steady (ρ : Runtime M P) (h : Nat) (s : State M P K A) : Action M P K A → Prop
  | .step a _ => ∀ pc, inCall s a = some pc → Keeps ρ h s.shared pc
  | .control h' x => h' = h → x = .start
  | _ => True

theorem following_order {s : State M P K A} {log : List (Entry M P A)} (s' : State M P K A)
    (es : List (Entry M P A)) (hs : Following h t s log)
    (he : handledBy h es ++ hand s' h ++ (s'.shared.cell h).events.queue ++ pendingOf h t s'.shared.mutex (inCall s') =
      hand s h ++ (s.shared.cell h).events.queue ++ pendingOf h t s.shared.mutex (inCall s) ++ wanted t (published es)) :
    wanted t (published (log ++ es)) = handledBy h (log ++ es) ++ hand s' h ++ (s'.shared.cell h).events.queue ++
      pendingOf h t s'.shared.mutex (inCall s') := by
  have hpub : wanted t (published (log ++ es)) = wanted t (published log) ++ wanted t (published es) := by
    simp [published, wanted]
  have hhand : handledBy h (log ++ es) = handledBy h log ++ handledBy h es := by
    simp [handledBy]
  rw [hpub, hhand, hs.order]
  simp only [List.append_assoc] at he ⊢
  rw [he]

theorem typed_update {s s' : State M P K A} {a : Agent} {x : Option (OpPc M P K A)}
    (hs : ∀ b pc, inCall s b = some pc → Typed pc) (hi : inCall s' = Function.update (inCall s) a x)
    (hx : ∀ pc, x = some pc → Typed pc) (b : Agent) (pc : OpPc M P K A) (hb : inCall s' b = some pc) : Typed pc := by
  rw [hi] at hb
  by_cases he : b = a
  · subst he
    exact hx pc (by simpa using hb)
  · exact hs b pc (by simpa [he] using hb)

theorem following_idle {s s' : State M P K A} {log : List (Entry M P A)} {a : Agent} {x : Option (OpPc M P K A)}
    (hs : Following h t s log) (hshared : s'.shared = s.shared) (hcontrol : ∀ pc, s'.control h = some pc → Starting pc)
    (hthread : (∃ l, s'.thread h = some l) ∧ hand s' h = hand s h)
    (hi : inCall s' = Function.update (inCall s) a x)
    (hx : x.elim [] (pending h t) = (inCall s a).elim [] (pending h t)) (hty : ∀ pc, x = some pc → Typed pc) :
    Following h t s' log where
  member := by rw [hshared]; exact hs.member
  table := by rw [hshared]; exact hs.table
  alive := hthread.1
  starting := hcontrol
  typed := typed_update hs.typed hi hty
  order := by
    have ho := following_order s' [] hs (by
      rw [hshared, hi, pendingOf_update hx, hthread.2]
      simp [handledBy, published, wanted])
    rwa [List.append_nil] at ho

theorem typed_entry (ρ : Runtime M P) (x : Call M P K A) :
    Typed (x.entry ρ) ∧ pending h t (x.entry ρ) = [] := by
  cases x with
  | subscribe h | unsubscribe h => cases h <;> exact ⟨trivial, rfl⟩
  | on h m k => cases k <;> exact ⟨trivial, rfl⟩
  | onType h type k =>
      cases k with
      | none => exact ⟨trivial, rfl⟩
      | some k =>
          simp only [Call.entry]
          split <;> exact ⟨trivial, rfl⟩
  | publish | publishAny | cancel | clear => exact ⟨trivial, rfl⟩

theorem bus_mem_holdsOf {s : State M P K A} {a : Agent} {pc : OpPc M P K A} (hc : inCall s a = some pc) :
    Lock.bus ∈ holdsOf s a ↔ Lock.bus ∈ holds pc := by
  cases a with
  | client c =>
      have hc : s.client c = some pc := hc
      simp [holdsOf, standing, hc]
  | thread h =>
      obtain ⟨⟨lpc, b⟩, ht, hi⟩ := Option.bind_eq_some_iff.mp hc
      cases lpc with
      | user ev x pc' =>
          have hi : pc' = some pc := hi
          simp [holdsOf, standing, ht, hi, loopHolds]
      | _ => cases hi
  | control h => cases hc

theorem following_op {s s' : State M P K A} {log : List (Entry M P A)} {a : Agent} {pc pc' : OpPc M P K A}
    (hs : Following h t s log) (ho : Owned s) (hp : Placed s) (hc : inCall s a = some pc)
    (hk : Keeps ρ h s.shared pc) (hstep : OpStep ρ a s.shared pc s'.shared pc')
    (hi : inCall s' = Function.update (inCall s) a (some pc')) (hcontrol : s'.control = s.control)
    (hthread : (∃ l, s'.thread h = some l) ∧ hand s' h = hand s h) :
    Following h t s' (log ++ (announces pc).map .published) where
  member := opStep_member hstep hk hs.member
  table := (opStep_table hstep hk).trans hs.table
  alive := hthread.1
  starting := by rw [hcontrol]; exact hs.starting
  typed := typed_update hs.typed hi fun p hp => by
    cases hp
    exact opStep_typed hstep hk (hs.typed a pc hc)
  order := by
    have hown : Lock.bus ∈ holds pc ↔ s.shared.mutex = some a := (bus_mem_holdsOf hc).symm.trans (ho.iff a .bus)
    have hpend := opStep_pending hstep hk (hp.inCall hc) (hs.typed a pc hc) hs.member hs.table hc hown
    apply following_order _ _ hs
    have hnone : handledBy h ((announces pc).map .published) = [] := by simp [handledBy]
    have hsome : published ((announces pc).map (.published : Event M P A → Entry M P A)) = announces pc := by
      simp [published]
    rw [hi, hnone, hsome, hthread.2]
    simpa [List.append_assoc] using hpend

theorem handledBy_handled (h h' : Nat) (evs : List (Event M P A)) :
    handledBy h (evs.map (.handled h')) = if h' = h then evs else [] := by
  by_cases he : h' = h
  · subst he
    simp [handledBy]
  · simp [handledBy, he]

theorem published_handled (h' : Nat) (evs : List (Event M P A)) : published (evs.map (.handled h')) = [] := by
  simp [published]

theorem following_loop [DecidableEq M] {s : State M P K A} {log : List (Entry M P A)} {h' : Nat} {b : Bool}
    {pc pc' : LoopPc M P K A} {x : Shared M P K A} (hs : Following h t s log) (hp : Placed s)
    (ht : s.thread h' = some ⟨pc, b⟩) (hstep : LoopStep ρ h' s.shared b pc x pc') (hi : innerCall pc = none) :
    Following h t (setThread (setShared s x) h' (some ⟨pc', b⟩))
      (log ++ (handles pc).map (.handled h')) := by
  obtain ⟨hmutex, hhandlers, hcell, htable, hi'⟩ := loopStep_frame hstep hi
  have hcalls : inCall (setThread (setShared s x) h' (some ⟨pc', b⟩)) = inCall s := by
    have hnone : inCall s (.thread h') = none := by simp [inCall, ht, hi]
    rw [inCall_setThread, inCall_setShared, hi', ← hnone, Function.update_eq_self]
  have hplace : LoopInPlace h' pc := by simpa [standing, ht] using hp.agent (.thread h')
  by_cases he : h' = h
  · subst he
    refine ⟨hhandlers ▸ hs.member, htable.trans hs.table, ⟨⟨pc', b⟩, by simp [setThread]⟩, hs.starting, ?_, ?_⟩
    · rw [hcalls]
      exact hs.typed
    · -- everything in the hand or in the queue was wanted when it was published
      have hwanted : unwanted (s.shared.cell h').handles pc = [] := by
        cases pc with
        | find ev =>
            have hmem : ev ∈ wanted t (published log) := by
              rw [hs.order]
              simp [hand, ht, loopHand]
            rw [hs.table]
            exact if_pos (List.mem_filter.mp hmem).2
        | _ => rfl
      have hhand := loopStep_hand hstep hplace hi
      rw [hwanted, List.append_nil] at hhand
      apply following_order _ _ hs
      have hold : hand s h' = loopHand pc := by simp [hand, ht]
      have hnew : hand (setThread (setShared s x) h' (some ⟨pc', b⟩)) h' = loopHand pc' := by
        simp [hand, setThread]
      rw [handledBy_handled, if_pos rfl, published_handled, hcalls, hold, hnew]
      show _ ++ (x.cell h').events.queue ++ pendingOf h' t x.mutex _ = _
      rw [hhand, hmutex]
      simp [wanted]
  · have hsame : x.cell h = s.shared.cell h := hcell h (Ne.symm he)
    have hthread : (setThread (setShared s x) h' (some ⟨pc', b⟩)).thread h = s.thread h := by
      simp [setThread, setShared, Ne.symm he]
    refine ⟨hhandlers ▸ hs.member, ?_, ?_, hs.starting, ?_, ?_⟩
    · show (x.cell h).handles = t
      rw [hsame]
      exact hs.table
    · rw [hthread]
      exact hs.alive
    · rw [hcalls]
      exact hs.typed
    · apply following_order _ _ hs
      rw [handledBy_handled, if_neg he, published_handled, hcalls, hand, hthread]
      show _ ++ (x.cell h).events.queue ++ pendingOf h t x.mutex _ = _
      rw [hsame, hmutex]
      simp [wanted, hand]

theorem hand_setThread (s : State M P K A) (h' : Nat) (l : Loop M P K A) :
    hand (setThread s h' (some l)) h = if h' = h then loopHand l.pc else hand s h := elim_setThread [] loopHand s h' l

theorem alive_setThread {s : State M P K A} (hs : ∃ l, s.thread h = some l) (h' : Nat) (l : Loop M P K A) :
    ∃ l', (setThread s h' (some l)).thread h = some l' := by
  by_cases he : h' = h
  · exact ⟨l, by simp [setThread, he]⟩
  · obtain ⟨l', hl⟩ := hs
    exact ⟨l', by simp [setThread, Ne.symm he, hl]⟩

theorem hand_user {s : State M P K A} {h' : Nat} {b : Bool} {pc pc' : LoopPc M P K A}
    (ht : s.thread h' = some ⟨pc, b⟩) (hpc : loopHand pc = []) (hpc' : loopHand pc' = []) :
    hand (setThread s h' (some ⟨pc', b⟩)) h = hand s h := elim_moved [] loopHand ht (hpc'.trans hpc.symm)

theorem loopHand_finish {ev : Event M P A} {y : Code P K} {throws : Bool} {pc : LoopPc M P K A}
    (hf : y.finish ev throws = some pc) : loopHand pc = [] := by
  rcases finish_cases hf with rfl | rfl <;> rfl

theorem following_still {s s' : State M P K A} {log : List (Entry M P A)} (hs : Following h t s log)
    (hshared : s'.shared = s.shared) (hthread : s'.thread = s.thread) (hclient : s'.client = s.client)
    (hcontrol : ∀ pc, s'.control h = some pc → Starting pc) : Following h t s' log := by
  refine following_idle (a := .control h) (x := none) hs hshared hcontrol ⟨hthread ▸ hs.alive, ?_⟩ ?_ rfl
    (fun pc hpc => by cases hpc)
  · rw [hand, hand, hthread]
  · rw [inCall_congr hclient hthread]
    exact (Function.update_eq_self (.control h) (inCall s)).symm

theorem following_control {s s' : State M P K A} {log : List (Entry M P A)} {h' : Nat} {pc : ControlPc M P A}
    {pc' : Option (ControlPc M P A)} (hs : Following h t s log) (hc : s.control h' = some pc)
    (hstep : ControlStep h' s pc s' pc') : Following h t (setControl s' h' pc') log := by
  by_cases he : h' = h
  · subst he
    have hstart := hs.starting pc hc
    obtain ⟨l, hl⟩ := hs.alive
    have hlast {s' : State M P K A} (p : Option (ControlPc M P A)) (hp : ∀ q, p = some q → Starting q) :
        ∀ q, (setControl s' h' p).control h' = some q → Starting q := by
      intro q hq
      exact hp q (by simpa [setControl] using hq)
    cases hstep with
    | startRefused | started => exact following_still hs rfl rfl rfl (hlast none fun q hq => by cases hq)
    | startChecked =>
        refine following_still hs rfl rfl rfl (hlast (some .startSpawn) fun q hq => ?_)
        cases hq
        trivial
    | spawn ht =>
        rw [hl] at ht
        cases ht
    | stopRefused | stopChecked | stopRequest | stopQueue | queueStopped | stopJoined | stopClear | queueCleared
    | stopped | destroyRequest | destroyJoined => cases hstart
  · obtain ⟨hmutex, hhandlers, hother⟩ := controlStep_frame hstep
    obtain ⟨hcell, hthread⟩ := hother h (Ne.symm he)
    have hcalls := controlStep_inCall hstep
    refine ⟨?_, ?_, ?_, ?_, ?_, ?_⟩
    · show h ∈ s'.shared.handlers.items
      rw [hhandlers]
      exact hs.member
    · show (s'.shared.cell h).handles = t
      rw [hcell]
      exact hs.table
    · show ∃ l, s'.thread h = some l
      rw [hthread]
      exact hs.alive
    · intro q hq
      apply hs.starting
      rw [← controlStep_control hstep]
      simpa [setControl, Ne.symm he] using hq
    · rw [hcalls]
      exact hs.typed
    · have horder := hs.order
      rw [hand, ← hthread, ← hcell, ← hmutex, ← hcalls] at horder
      exact horder

structure Ready (s : State M P K A) (h : Nat) : Prop where
  member : h ∈ s.shared.handlers.items
  thread : ∃ l, s.thread h = some l ∧ loopHand l.pc = []
  control : s.control h = none
  queue : (s.shared.cell h).events.queue = []

theorem following_ready {s : State M P K A} (hr : Ready s h) (ho : Owned s) (hfree : s.shared.mutex = none) :
    Following h (s.shared.cell h).handles s [] where
  member := hr.member
  table := rfl
  alive := by
    obtain ⟨l, hl, -⟩ := hr.thread
    exact ⟨l, hl⟩
  starting pc hpc := by
    rw [hr.control] at hpc
    cases hpc
  typed a pc hc := by
    have hout : Lock.bus ∉ holds pc := by
      intro hb
      have hm := (ho.iff a .bus).mp ((bus_mem_holdsOf hc).mpr hb)
      exact absurd (hfree.symm.trans hm) (by simp)
    cases pc with
    | visit | lockType | readType | unlockType | deliver => exact absurd (by simp [holds]) hout
    | lockBus | insert | erase | unlockBus | lockTable | table | unlockTable | clear | returned => trivial
  order := by
    obtain ⟨l, hl, hhand⟩ := hr.thread
    simp [published, wanted, handledBy, hand, hl, hhand, hr.queue, hfree, pendingOf]

theorem Following.handled_first {s : State M P K A} {log : List (Entry M P A)} (hs : Following h t s log) :
    handledBy h log <+: wanted t (published log) := by
  rw [hs.order, List.append_assoc, List.append_assoc]
  exact List.prefix_append _ _

def shared (t₁ t₂ : Handles M K) (evs : List (Event M P A)) : List (Event M P A) := wanted t₁ (wanted t₂ evs)

theorem shared_of_wanted {t₁ : Handles M K} (t₂ : Handles M K) {evs all : List (Event M P A)}
    (hi : evs <+: wanted t₁ all) :
    shared t₁ t₂ evs <+: shared t₁ t₂ all := by
  have hf := (hi.filter fun ev => contains t₂ ev.type).filter fun ev => contains t₁ ev.type
  have he : wanted t₁ (wanted t₂ (wanted t₁ all)) = wanted t₁ (wanted t₂ all) := by
    simp only [wanted, List.filter_filter]
    apply List.filter_congr
    intro ev _
    cases contains t₁ ev.type <;> simp
  rw [shared, shared, ← he]
  exact hf

section System

variable [DecidableEq M] {n m : Nat}

theorem move_following {s s' : State M P K A} {a : Action M P K A} {log : List (Entry M P A)}
    (hs : Following h t s log) (ho : Owned s) (hp : Placed s) (hok : Steady ρ h s a) (hn : Move ρ n m s a s') :
    Following h t s' (log ++ obs s a) := by
  cases hn with
  | call c x _ hc =>
      have hentry := typed_entry (h := h) (t := t) ρ x
      rw [show obs s (.call c x) = [] from rfl, List.append_nil]
      refine following_idle hs rfl hs.starting ⟨hs.alive, rfl⟩ (inCall_setClient s c _) ?_ ?_
      · have hnone : inCall s (.client c) = none := hc
        rw [hnone, Option.elim_some, hentry.2]
        rfl
      · intro pc hpc
        cases hpc
        exact hentry.1
  | control h' x =>
      rw [show obs s (.control h' x) = [] from rfl, List.append_nil]
      refine following_still hs rfl rfl rfl fun pc hpc => ?_
      by_cases he : h' = h
      · have hx := hok he
        subst he hx
        simp only [setControl, Function.update_self, Option.some.injEq] at hpc
        subst hpc
        trivial
      · exact hs.starting pc (by simpa [setControl, setDestroyed, Ne.symm he] using hpc)
  | inner h' x ev y b ht =>
      have hentry := typed_entry (h := h) (t := t) ρ x
      rw [show obs s (.inner h' x) = [] from rfl, List.append_nil]
      refine following_idle hs rfl hs.starting ⟨alive_setThread hs.alive h' _, hand_user ht rfl rfl⟩
        (inCall_setThread s h' _) ?_ ?_
      · simp [innerCall, inCall, ht, hentry.2]
      · intro pc hpc
        cases hpc
        exact hentry.1
  | finish h' throws ev y b pc ht hf =>
      rw [show obs s (.finish h' throws) = [] from rfl, List.append_nil]
      refine following_idle hs rfl hs.starting ⟨alive_setThread hs.alive h' _, hand_user ht rfl (loopHand_finish hf)⟩
        (inCall_setThread s h' _) ?_ ?_
      · have hnone : inCall s (.thread h') = none := by simp [inCall, ht, innerCall]
        rw [innerCall_finish hf, hnone]
      · rw [innerCall_finish hf]
        exact fun pc hpc => by cases hpc
  | terminate h' throws =>
      rw [show obs s (.finish h' throws) = [] from rfl, List.append_nil]
      exact following_still hs rfl rfl rfl hs.starting
  | leave c ch r hc =>
      have hnone : obs s (.step (.client c) ch) = [] := by simp [obs, hc, announces]
      rw [hnone, List.append_nil]
      refine following_idle hs rfl hs.starting ⟨hs.alive, rfl⟩ (inCall_setClient s c none) ?_ ?_
      · simp [inCall, hc, pending]
      · exact fun pc hpc => by cases hpc
  | client c ch pc pc' x hc hstep =>
      have hobs : obs s (.step (.client c) ch) = (announces pc).map .published := by simp [obs, hc]
      have hcall : inCall s (.client c) = some pc := hc
      rw [hobs]
      exact following_op hs ho hp hcall (hok pc hcall) hstep (inCall_setClient (setShared s x) c _) rfl ⟨hs.alive, rfl⟩
  | thread h' ch pc pc' b x ht hstep =>
      have hobs : obs s (.step (.thread h') ch) =
          ((innerCall pc).elim [] announces).map .published ++ (handles pc).map (.handled h') := by
        simp [obs, inCall, ht]
      have halive := alive_setThread (s := setShared s x) hs.alive h' ⟨pc', b⟩
      rw [hobs]
      cases hi : innerCall pc with
      | none => simpa using following_loop hs hp ht hstep hi
      | some op =>
          have hc : inCall s (.thread h') = some op := by simp [inCall, ht, hi]
          obtain ⟨ev, y, rfl, ⟨r, rfl, rfl, rfl⟩ | ⟨op', hop, rfl⟩⟩ := loopStep_inner hstep hi
          · have hidle : Following h t (setThread s h' (some ⟨.user ev y none, b⟩)) log :=
              following_idle hs rfl hs.starting ⟨halive, hand_user ht rfl rfl⟩ (inCall_setThread s h' _)
                (by simp [innerCall, hc, pending]) (fun pc hpc => by cases hpc)
            simp only [Option.elim_some, announces, handles, List.map_nil, List.append_nil]
            exact hidle
          · have hfollow : Following h t (setThread (setShared s x) h' (some ⟨.user ev y (some op'), b⟩)) _ :=
              following_op hs ho hp hc (hok op hc) hop (by rw [inCall_setThread, inCall_setShared]; rfl) rfl
                ⟨halive, (hand_user (s := setShared s x) ht rfl rfl).trans rfl⟩
            simpa [handles] using hfollow
  | controlStep h' ch pc pc' s' hc hstep =>
      rw [show obs s (.step (.control h') ch) = [] from rfl, List.append_nil]
      exact following_control hs hc hstep

theorem run_following {s₀ s : State M P K A} {log : List (Entry M P A)}
    {ok : State M P K A × List (Entry M P A) → Action M P K A → Prop} (hsteady : ∀ p a, ok p a → Steady ρ h p.1 a)
    (hr₀ : Reachable (system ρ n m) Any s₀) (hfree : s₀.shared.mutex = none) (hready : Ready s₀ h)
    (hr : Reachable (logged (startingAt (system ρ n m) s₀) obs) ok (s, log)) :
    Following h (s₀.shared.cell h).handles s log := by
  refine hr.logged_invariant (P := Following h (s₀.shared.cell h).handles) ?_ ?_
  · intro s hs
    cases hs
    exact following_ready hready (reachable_owned hr₀) hfree
  · intro s log a s' hr hs hok hn
    have hreach : Reachable (system ρ n m) Any s := hr₀.trans hr.forget_any
    exact move_following hs (reachable_owned hreach) (reachable_placed hreach) (hsteady _ a hok) (next_sound hn).2

/-- Total order: two handlers that stay as they are run callbacks for the messages in the order of
the bus-mutex sections, each for a prefix of those of its types. -/
theorem handled_in_publish_order {s₀ s : State M P K A} {log : List (Entry M P A)} {h₁ h₂ : Nat}
    (hr₀ : Reachable (system ρ n m) Any s₀) (hfree : s₀.shared.mutex = none) (hready₁ : Ready s₀ h₁)
    (hready₂ : Ready s₀ h₂)
    (hr : Reachable (logged (startingAt (system ρ n m) s₀) obs)
      (fun p a => Steady ρ h₁ p.1 a ∧ Steady ρ h₂ p.1 a) (s, log)) :
    handledBy h₁ log <+: wanted (s₀.shared.cell h₁).handles (published log) ∧
    handledBy h₂ log <+: wanted (s₀.shared.cell h₂).handles (published log) ∧
    (shared (s₀.shared.cell h₁).handles (s₀.shared.cell h₂).handles (handledBy h₁ log) <+:
        shared (s₀.shared.cell h₁).handles (s₀.shared.cell h₂).handles (handledBy h₂ log) ∨
      shared (s₀.shared.cell h₁).handles (s₀.shared.cell h₂).handles (handledBy h₂ log) <+:
        shared (s₀.shared.cell h₁).handles (s₀.shared.cell h₂).handles (handledBy h₁ log)) := by
  have hfirst₁ := (run_following (fun p a hok => hok.1) hr₀ hfree hready₁ hr).handled_first
  have hfirst₂ := (run_following (fun p a hok => hok.2) hr₀ hfree hready₂ hr).handled_first
  refine ⟨hfirst₁, hfirst₂, ?_⟩
  -- both are initial segments of what was published of the shared types
  have hcomm (t₁ t₂ : Handles M K) (evs : List (Event M P A)) : shared t₂ t₁ evs = shared t₁ t₂ evs := by
    simp only [shared, wanted, List.filter_filter]
    exact List.filter_congr fun ev _ => Bool.and_comm _ _
  have hshared₂ := shared_of_wanted (s₀.shared.cell h₁).handles hfirst₂
  rw [hcomm (s₀.shared.cell h₁).handles, hcomm (s₀.shared.cell h₁).handles] at hshared₂
  exact List.prefix_or_prefix_of_prefix (shared_of_wanted _ hfirst₁) hshared₂

end System

section Runs

def publishesOnly : OpPc M P K A → Bool
  | .erase _ | .clear _ _ | .table _ _ => false
  | .lockBus (.publish x) => x.typed
  | _ => true

def undisturbed (s : State M P K A) : Action M P K A → Bool
  | .step a _ => (inCall s a).all publishesOnly
  | .control _ _ => false
  | _ => true

theorem steady_of_undisturbed (h : Nat) (s : State M P K A) (a : Action M P K A) (hu : undisturbed s a = true) :
    Steady ρ h s a := by
  cases a with
  | control => cases hu
  | call | inner | finish => trivial
  | step a ch =>
      intro pc hpc
      have hp : publishesOnly pc = true := by simpa [undisturbed, hpc] using hu
      cases pc with
      | erase | clear | table => cases hp
      | lockBus x =>
          cases x with
          | publish x => exact hp
          | subscribe | unsubscribe => trivial
      | visit | lockType | readType | unlockType | deliver | insert | unlockBus | lockTable | unlockTable | returned =>
          trivial

def setUpTwo : List (Action Unit Nat Nat Nat) :=
  List.flatten [[.call 0 (.on 0 () (some 1))], steps (.client 0) 4, [.call 0 (.on 1 () (some 2))],
    steps (.client 0) 4, [.call 0 (.subscribe (some 0))], steps (.client 0) 4, [.call 0 (.subscribe (some 1))],
    steps (.client 0) 4, [.control 0 .start], steps (.control 0) 3, [.control 1 .start], steps (.control 1) 3]

def twoStarted : State Unit Nat Nat Nat := (run (system oneType 1 2) {} setUpTwo).getD {}

theorem twoStarted_reachable : Reachable (system oneType 1 2) Any twoStarted := by
  have hrun : run (system oneType 1 2) {} setUpTwo = some twoStarted := rfl
  exact run_reachable (.init rfl) hrun

theorem handled_in_publish_order_first : ∃ log : List (Entry Unit Nat Nat),
    handledBy 0 log = [⟨"T", some ⟨(), 42⟩, none⟩] ∧ handledBy 1 log = [] ∧
      handledBy 0 log <+: wanted (twoStarted.shared.cell 0).handles (published log) := by
  obtain ⟨⟨s, log⟩, hr, hp⟩ := exists_of_run (logged (startingAt (system oneType 1 2) twoStarted) obs)
    (fun p a => Steady oneType 0 p.1 a ∧ Steady oneType 1 p.1 a) (fun p a => undisturbed p.1 a) (twoStarted, [])
    (List.flatten [[.call 0 (.publish () 42 none)], steps (.client 0) 22, steps (.thread 0) 10])
    (fun p => decide (handledBy 0 p.2 = [⟨"T", some ⟨(), 42⟩, none⟩] ∧ handledBy 1 p.2 = []))
    (fun p a hu => ⟨steady_of_undisturbed 0 p.1 a hu, steady_of_undisturbed 1 p.1 a hu⟩) ⟨rfl, rfl⟩ rfl
  obtain ⟨h0, h1⟩ := of_decide_eq_true hp
  refine ⟨log, h0, h1, (handled_in_publish_order twoStarted_reachable rfl ?_ ?_ hr).1⟩
  · exact ⟨by decide, ⟨_, rfl, rfl⟩, rfl, rfl⟩
  · exact ⟨by decide, ⟨_, rfl, rfl⟩, rfl, rfl⟩

end Runs

end Enigma.BusOrder
