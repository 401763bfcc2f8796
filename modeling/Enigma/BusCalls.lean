import Enigma.BusStep

namespace Enigma.BusCalls

open Transition SyncQueue QueueStep EventBus BusThreads BusStep

variable {M P K A : Type}

/-- What is true of a call at every instruction: it visits the handlers in the
order of their addresses, and inside a queue it is in the function it called. -/
def InPlace : OpPc M P K A → Prop
  | .visit v => v.rest.Pairwise (· < ·)
  | .lockType h v | .readType h v | .unlockType h _ v => (h :: v.rest).Pairwise (· < ·)
  | .deliver h p v => (h :: v.rest).Pairwise (· < ·) ∧ ∃ ev, Within (.push ev) p
  | .clear _ p => Within .clear p
  | _ => True

def LoopInPlace (_ : Nat) : LoopPc M P K A → Prop
  | .pop p => Within (.pop false) p
  | .user _ _ (some pc) => InPlace pc
  | _ => True

def ControlInPlace : ControlPc M P A → Prop
  | .stopQueue p => Within .stop p
  | .stopClear p => Within .clear p
  | _ => True

structure Placed (s : State M P K A) : Prop where
  agent : ∀ a, standing InPlace LoopInPlace True s a
  control : ∀ h pc, s.control h = some pc → ControlInPlace pc

theorem inPlace_entry (ρ : Runtime M P) (x : Call M P K A) : InPlace (x.entry ρ) := by
  cases x with
  | subscribe h | unsubscribe h => cases h <;> trivial
  | on h m k => cases k <;> trivial
  | onType h type k =>
      cases k with
      | none => trivial
      | some k =>
          simp only [Call.entry]
          split <;> trivial
  | publish | publishAny | cancel => trivial
  | clear => exact .lock (by simp)

theorem opStep_inPlace {ρ : Runtime M P} {a : Agent} {s s' : Shared M P K A} {pc pc' : OpPc M P K A}
    (hs : OpStep ρ a s pc s' pc') (hp : InPlace pc) : InPlace pc' := by
  cases hs with
  | lockBus x =>
      cases x with
      | publish x => exact s.handlers.sorted
      | subscribe | unsubscribe => trivial
  | visit x h rest r => exact hp
  | lockType | readType => exact hp
  | found h v => exact ⟨hp, _, .lock (by simp)⟩
  | notFound h v => exact (List.pairwise_cons.mp hp).2
  | deliver h p p' q v hs =>
      obtain ⟨hsorted, ev, hw⟩ := hp
      exact ⟨hsorted, ev, step_within hs hw⟩
  | delivered h r v => exact (List.pairwise_cons.mp hp.1).2
  | clear h p p' q hs => exact step_within hs hp
  | visited | insert | erase | unlockBus | lockTable | table | unlockTable | cleared => trivial

theorem loopStep_inPlace [DecidableEq M] {ρ : Runtime M P} {h : Nat} {s s' : Shared M P K A} {b : Bool}
    {pc pc' : LoopPc M P K A} (hs : LoopStep ρ h s b pc s' pc') (hp : LoopInPlace h pc) : LoopInPlace h pc' := by
  cases hs with
  | enter => exact .lock (by simp)
  | pop p p' q hs => exact step_within hs hp
  | inner ev x pc pc' s' hs => exact opStep_inPlace hs hp
  | exit | got | nothing | lock | notFound | found | castFails | cast | callType | innerReturned | unlock =>
      trivial

theorem loopInPlace_finish {ev : Event M P A} {y : Code P K} {throws : Bool} {pc : LoopPc M P K A}
    (hf : y.finish ev throws = some pc) (h : Nat) : LoopInPlace h pc := by
  rcases finish_cases hf with rfl | rfl <;> trivial

theorem controlStep_inPlace {h : Nat} {s s' : State M P K A} {pc : ControlPc M P A} {pc' : Option (ControlPc M P A)}
    (hs : ControlStep h s pc s' pc') (hp : ControlInPlace pc) : ∀ p, pc' = some p → ControlInPlace p := by
  intro p he
  cases hs with
  | stopRequest =>
      cases he
      exact .requestStop
  | stopQueue p p' q hs | stopClear p p' q hs =>
      cases he
      exact step_within hs hp
  | stopJoined =>
      cases he
      exact .lock (by simp)
  | startRefused | started | stopRefused | stopped | destroyJoined => cases he
  | startChecked | spawn | stopChecked | queueStopped | queueCleared | destroyRequest =>
      cases he
      trivial

theorem controlStep_control {h : Nat} {s s' : State M P K A} {pc : ControlPc M P A} {pc' : Option (ControlPc M P A)}
    (hs : ControlStep h s pc s' pc') : s'.control = s.control := by
  cases hs <;> rfl

theorem controlStep_thread {h : Nat} {s s' : State M P K A} {pc : ControlPc M P A} {pc' : Option (ControlPc M P A)}
    (hs : ControlStep h s pc s' pc') :
    s'.client = s.client ∧ ∃ l, s'.thread = Function.update s.thread h l := by
  cases hs with
  | spawn | stopRequest | stopJoined | destroyRequest | destroyJoined => exact ⟨rfl, _, rfl⟩
  | startRefused | startChecked | started | stopRefused | stopChecked | stopQueue | queueStopped | stopClear
  | queueCleared | stopped => exact ⟨rfl, _, (Function.update_eq_self h s.thread).symm⟩

theorem loopStep_frame [DecidableEq M] {ρ : Runtime M P} {h' : Nat} {s s' : Shared M P K A} {b : Bool}
    {pc pc' : LoopPc M P K A} (hs : LoopStep ρ h' s b pc s' pc') (hi : innerCall pc = none) :
    s'.mutex = s.mutex ∧ s'.handlers = s.handlers ∧ (∀ h, h ≠ h' → s'.cell h = s.cell h) ∧
      (s'.cell h').handles = (s.cell h').handles ∧ innerCall pc' = none := by
  have hcell (c : Cell M P K A) (h : Nat) (hne : h ≠ h') : (setCell s h' c).cell h = s.cell h := by
    simp [setCell, hne]
  cases hs with
  | pop p p' q => exact ⟨rfl, rfl, hcell _, (setEvents_cell s h' q).2, rfl⟩
  | lock ev => exact ⟨rfl, rfl, hcell _, (setMutex_cell s h' _).2, rfl⟩
  | unlock => exact ⟨rfl, rfl, hcell _, (setMutex_cell s h' _).2, rfl⟩
  | exit | enter | got | nothing | notFound | found | castFails | cast | callType =>
      exact ⟨rfl, rfl, fun _ _ => rfl, rfl, rfl⟩
  | innerReturned | inner => cases hi

theorem controlStep_frame {h : Nat} {s s' : State M P K A} {pc : ControlPc M P A} {pc' : Option (ControlPc M P A)}
    (hs : ControlStep h s pc s' pc') :
    s'.shared.mutex = s.shared.mutex ∧ s'.shared.handlers = s.shared.handlers ∧
      ∀ h', h' ≠ h → s'.shared.cell h' = s.shared.cell h' ∧ s'.thread h' = s.thread h' := by
  have hthread (l : Option (Loop M P K A)) (h' : Nat) (hne : h' ≠ h) :
      (setThread s h l).shared.cell h' = s.shared.cell h' ∧ (setThread s h l).thread h' = s.thread h' :=
    ⟨rfl, by simp [setThread, hne]⟩
  have hcell (q : Queue Agent (Event M P A)) (h' : Nat) (hne : h' ≠ h) :
      (setShared s (setEvents s.shared h q)).shared.cell h' = s.shared.cell h' ∧
        (setShared s (setEvents s.shared h q)).thread h' = s.thread h' :=
    ⟨by simp [setShared, setEvents, setCell, hne], rfl⟩
  cases hs with
  | spawn | stopRequest | stopJoined | destroyRequest | destroyJoined => exact ⟨rfl, rfl, hthread _⟩
  | stopQueue | stopClear => exact ⟨rfl, rfl, hcell _⟩
  | startRefused | startChecked | started | stopRefused | stopChecked | queueStopped | queueCleared | stopped =>
      exact ⟨rfl, rfl, fun _ _ => ⟨rfl, rfl⟩⟩

section System

variable [DecidableEq M] {ρ : Runtime M P} {n m : Nat} {ok : State M P K A → Action M P K A → Prop}

theorem move_placed {s s' : State M P K A} {a : Action M P K A} (hs : Placed s) (hn : Move ρ n m s a s') :
    Placed s' := by
  have hupdate {b : Agent} {s' : State M P K A} {Q : Prop}
      (hQ : standing InPlace LoopInPlace True s' = Function.update (standing InPlace LoopInPlace True s) b Q)
      (hq : Q) (a : Agent) : standing InPlace LoopInPlace True s' a := by
    rw [hQ]
    by_cases ha : a = b
    · subst ha
      simpa using hq
    · simpa [ha] using hs.agent a
  have hsame {s' : State M P K A}
      (he : standing InPlace LoopInPlace True s' = standing InPlace LoopInPlace True s) (a : Agent) :
      standing InPlace LoopInPlace True s' a := by
    rw [he]
    exact hs.agent a
  cases hn with
  | call c x => exact ⟨hupdate (standing_setClient _ _ _ _ _ _) (inPlace_entry ρ x), hs.control⟩
  | control h x =>
      refine ⟨hsame (standing_congr _ _ _ rfl rfl), fun h' pc hpc => ?_⟩
      by_cases hh : h' = h
      · subst hh
        simp only [setControl, Function.update_self, Option.some.injEq] at hpc
        subst hpc
        cases x <;> trivial
      · exact hs.control h' pc (by simpa [setControl, setDestroyed, hh] using hpc)
  | inner h x => exact ⟨hupdate (standing_setThread _ _ _ _ _ _) (inPlace_entry ρ x), hs.control⟩
  | finish h throws ev y b pc ht hf =>
      exact ⟨hupdate (standing_setThread _ _ _ _ _ _) (loopInPlace_finish hf h), hs.control⟩
  | terminate =>
      exact ⟨hsame (standing_congr _ _ _ rfl rfl), hs.control⟩
  | leave c => exact ⟨hupdate (standing_setClient _ _ _ _ _ _) trivial, hs.control⟩
  | client c ch pc pc' x hc hstep =>
      have hp : InPlace pc := by simpa [standing, hc] using hs.agent (.client c)
      exact ⟨hupdate (standing_setClient _ _ _ (setShared s x) _ _) (opStep_inPlace hstep hp), hs.control⟩
  | thread h ch pc pc' b x ht hstep =>
      have hp : LoopInPlace h pc := by simpa [standing, ht] using hs.agent (.thread h)
      exact ⟨hupdate (standing_setThread _ _ _ (setShared s x) _ _) (loopStep_inPlace hstep hp), hs.control⟩
  | controlStep h ch pc pc' s' hc hstep =>
      refine ⟨hsame ?_, fun h' p hp => ?_⟩
      · rw [standing_setControl]
        exact controlStep_standing InPlace LoopInPlace True hstep rfl rfl
      · by_cases hh : h' = h
        · subst hh
          exact controlStep_inPlace hstep (hs.control h' pc hc) p (by simpa [setControl] using hp)
        · refine hs.control h' p ?_
          rw [← controlStep_control hstep]
          simpa [setControl, hh] using hp

theorem reachable_placed {s : State M P K A} (hr : Reachable (system ρ n m) ok s) : Placed s := by
  refine hr.invariant (P := Placed) ?_ fun s a s' _ hs _ hn => move_placed hs (next_sound hn).2
  rintro s rfl
  refine ⟨fun a => ?_, fun h pc hpc => by cases hpc⟩
  cases a <;> trivial

end System

theorem inCall_eq_standing (s : State M P K A) : inCall s = standing some (fun _ pc => innerCall pc) none s := by
  funext a
  cases a with
  | client c => cases h : s.client c <;> simp [inCall, standing, h]
  | thread h => cases ht : s.thread h <;> simp [inCall, standing, ht]
  | control h => rfl

theorem inCall_congr {s s' : State M P K A} (hc : s'.client = s.client) (ht : s'.thread = s.thread) :
    inCall s' = inCall s := by
  rw [inCall_eq_standing, inCall_eq_standing]
  exact standing_congr _ _ _ hc ht

@[simp]
theorem inCall_setShared (s : State M P K A) (x : Shared M P K A) : inCall (setShared s x) = inCall s :=
  inCall_congr rfl rfl

theorem inCall_setClient (s : State M P K A) (c : Nat) (pc : Option (OpPc M P K A)) :
    inCall (setClient s c pc) = Function.update (inCall s) (.client c) pc := by
  rw [inCall_eq_standing, inCall_eq_standing, standing_setClient]
  cases pc <;> rfl

theorem inCall_setThread (s : State M P K A) (h : Nat) (l : Loop M P K A) :
    inCall (setThread s h (some l)) = Function.update (inCall s) (.thread h) (innerCall l.pc) := by
  rw [inCall_eq_standing, inCall_eq_standing, standing_setThread]
  rfl

theorem controlStep_inCall {h : Nat} {s s' : State M P K A} {pc : ControlPc M P A} {pc' : Option (ControlPc M P A)}
    (hs : ControlStep h s pc s' pc') : inCall (setControl s' h pc') = inCall s := by
  rw [inCall_eq_standing, inCall_eq_standing, standing_setControl]
  exact controlStep_standing _ _ _ hs rfl rfl

theorem innerCall_finish {ev : Event M P A} {y : Code P K} {throws : Bool} {pc : LoopPc M P K A}
    (hf : y.finish ev throws = some pc) : innerCall pc = none := by
  rcases finish_cases hf with rfl | rfl <;> rfl

theorem Placed.inCall {s : State M P K A} (hs : Placed s) {a : Agent} {pc : OpPc M P K A}
    (hc : inCall s a = some pc) : InPlace pc := by
  have ha := hs.agent a
  cases a with
  | client c =>
      have hc : s.client c = some pc := hc
      simpa [standing, hc] using ha
  | thread h =>
      obtain ⟨⟨lpc, b⟩, ht, hi⟩ := Option.bind_eq_some_iff.mp hc
      cases lpc with
      | user ev x pc' =>
          have hi : pc' = some pc := hi
          simpa [standing, ht, hi, LoopInPlace] using ha
      | _ => cases hi
  | control h => cases hc

end Enigma.BusCalls
