import Enigma.BusCalls

namespace Enigma.BusView

open Transition SyncQueue QueueStep EventBus BusThreads BusStep BusCalls
open QueueThreads (Turn)

variable {M P K A : Type} {ρ : Runtime M P}

def opQueue (h : Nat) : OpPc M P K A → Pc (Event M P A)
  | .deliver h' p _ | .clear h' p => if h' = h then p else .idle
  | _ => .idle

def loopQueue (h h' : Nat) : LoopPc M P K A → Pc (Event M P A)
  | .pop p => if h' = h then p else .idle
  | .user _ _ (some pc) => opQueue h pc
  | _ => .idle

def controlQueue (h h' : Nat) : ControlPc M P A → Pc (Event M P A)
  | .stopQueue p | .stopClear p => if h' = h then p else .idle
  | _ => .idle

def viewPc (s : State M P K A) (h : Nat) : Agent → Pc (Event M P A)
  | .control h' => (s.control h').elim .idle (controlQueue h h')
  | a => standing (opQueue h) (loopQueue h) .idle s a

def view (s : State M P K A) (h : Nat) : QueueThreads.State Agent (Event M P A) where
  queue := (s.shared.cell h).events
  pc := viewPc s h

theorem view_client {s : State M P K A} {h c : Nat} {pc : OpPc M P K A} (hc : s.client c = some pc) :
    (view s h).pc (.client c) = opQueue h pc := by
  simp [view, viewPc, standing, hc]

theorem view_thread {s : State M P K A} {h h' : Nat} {l : Loop M P K A} (ht : s.thread h' = some l) :
    (view s h).pc (.thread h') = loopQueue h h' l.pc := by
  simp [view, viewPc, standing, ht]

theorem view_pop {s : State M P K A} {h : Nat} {p : Pc (Event M P A)} {b : Bool}
    (ht : s.thread h = some ⟨.pop p, b⟩) : (view s h).pc (.thread h) = p := by
  simp [view_thread ht, loopQueue]

theorem view_control {s : State M P K A} {h h' : Nat} {pc : ControlPc M P A} (hc : s.control h' = some pc) :
    (view s h).pc (.control h') = controlQueue h h' pc := by
  simp [view, viewPc, hc]

theorem inside_turn {a : Agent} {s : Shared M P K A} {h' : Nat} {p p' : Pc (Event M P A)}
    {q : Queue Agent (Event M P A)} (hs : Step false a (s.cell h').events p q p') (h : Nat) :
    Turn a (s.cell h).events (if h' = h then p else .idle) ((setEvents s h' q).cell h).events
      (if h' = h then p' else .idle) := by
  rw [(setEvents_cell s h' q).1]
  by_cases he : h' = h
  · subst he
    simp only [if_true]
    exact .step false hs
  · simp only [he, if_false]
    exact .stay _

theorem opStep_turn {a : Agent} {s s' : Shared M P K A} {pc pc' : OpPc M P K A} (hs : OpStep ρ a s pc s' pc')
    (h : Nat) : Turn a (s.cell h).events (opQueue h pc) (s'.cell h).events (opQueue h pc') := by
  cases hs with
  | lockBus x => cases x <;> exact .stay _
  | lockType h' v | notFound h' v | lockTable h' x | unlockTable h' r =>
      rw [(setMutex_cell s h' _).1]
      exact .stay _
  | found h' v =>
      rw [(setMutex_cell s h' _).1]
      exact .call_if _ _ _ (.push v.sending.event)
  | deliver h' p p' q v hs => exact inside_turn hs h
  | clear h' p p' q hs => exact inside_turn hs h
  | delivered h' r v => exact .leave_if _ _ _ r
  | cleared h' r => exact .leave_if _ _ _ r
  | table h' x =>
      rw [setHandles_events]
      exact .stay _
  | visited | visit | readType | insert | erase | unlockBus => exact .stay _

theorem loopStep_turn [DecidableEq M] {h' : Nat} {s s' : Shared M P K A} {b : Bool} {pc pc' : LoopPc M P K A}
    (hs : LoopStep ρ h' s b pc s' pc') (h : Nat) :
    Turn (.thread h') (s.cell h).events (loopQueue h h' pc) (s'.cell h).events (loopQueue h h' pc') := by
  cases hs with
  | enter => exact .call_if _ _ _ (.pop false)
  | got ev => exact .leave_if _ _ _ _
  | nothing r => exact .leave_if _ _ _ r
  | pop p p' q hs => exact inside_turn hs h
  | lock ev =>
      rw [(setMutex_cell s h' _).1]
      exact .stay _
  | unlock =>
      rw [(setMutex_cell s h' _).1]
      exact .stay _
  | inner ev x pc pc' s' hs => exact opStep_turn hs h
  | exit | notFound | found | castFails | cast | callType | innerReturned => exact .stay _

theorem controlStep_turn {h' : Nat} {s s' : State M P K A} {pc : ControlPc M P A} {pc' : Option (ControlPc M P A)}
    (hs : ControlStep h' s pc s' pc') (h : Nat) :
    Turn (.control h') (s.shared.cell h).events (controlQueue h h' pc) (s'.shared.cell h).events
      (pc'.elim .idle (controlQueue h h')) := by
  cases hs with
  | stopRequest => exact .call_if _ _ _ .stop
  | stopQueue p p' q hs | stopClear p p' q hs => exact inside_turn hs h
  | queueStopped r => exact .leave_if _ _ _ r
  | queueCleared r => exact .leave_if _ _ _ r
  | stopJoined => exact .call_if _ _ _ .clear
  | startRefused | startChecked | spawn | started | stopRefused | stopChecked | stopped | destroyRequest
  | destroyJoined => exact .stay _

theorem viewPc_of_standing {s s' : State M P K A} {h : Nat}
    (hs : standing (opQueue h) (loopQueue h) .idle s' = standing (opQueue h) (loopQueue h) .idle s)
    (hk : s'.control = s.control) : viewPc s' h = viewPc s h := by
  funext a
  cases a with
  | control h' => rw [viewPc, viewPc, hk]
  | client c => exact congrFun hs (.client c)
  | thread h' => exact congrFun hs (.thread h')

theorem viewPc_congr {s s' : State M P K A} (hc : s'.client = s.client) (ht : s'.thread = s.thread)
    (hk : s'.control = s.control) (h : Nat) : viewPc s' h = viewPc s h :=
  viewPc_of_standing (standing_congr _ _ _ hc ht) hk

theorem viewPc_setClient (s : State M P K A) (c : Nat) (pc : Option (OpPc M P K A)) (h : Nat) :
    viewPc (setClient s c pc) h = Function.update (viewPc s h) (.client c) (pc.elim .idle (opQueue h)) := by
  funext a
  cases a with
  | client c' => by_cases hc : c' = c <;> simp [viewPc, standing, setClient, hc]
  | thread h' => simp [viewPc, standing, setClient]
  | control h' => simp [viewPc, setClient]

theorem viewPc_setThread (s : State M P K A) (h' : Nat) (l : Option (Loop M P K A)) (h : Nat) :
    viewPc (setThread s h' l) h =
      Function.update (viewPc s h) (.thread h') (l.elim .idle fun l => loopQueue h h' l.pc) := by
  funext a
  cases a with
  | thread i => by_cases hi : i = h' <;> simp [viewPc, standing, setThread, hi]
  | client c => simp [viewPc, standing, setThread]
  | control i => simp [viewPc, setThread]

theorem viewPc_setControl (s : State M P K A) (h' : Nat) (pc : Option (ControlPc M P A)) (h : Nat) :
    viewPc (setControl s h' pc) h =
      Function.update (viewPc s h) (.control h') (pc.elim .idle (controlQueue h h')) := by
  funext a
  cases a with
  | control i => by_cases hi : i = h' <;> simp [viewPc, setControl, hi]
  | client c | thread i => simp [viewPc, standing, setControl]

theorem entry_turn (ρ : Runtime M P) (x : Call M P K A) (h : Nat) (a : Agent) (q : Queue Agent (Event M P A)) :
    Turn a q .idle q (opQueue h (x.entry ρ)) := by
  cases x with
  | clear h' => exact .call_if _ _ _ .clear
  | subscribe h' | unsubscribe h' => cases h' <;> exact .stay _
  | on h' m k => cases k <;> exact .stay _
  | onType h' type k =>
      cases k with
      | none => exact .stay _
      | some k =>
          simp only [Call.entry]
          split <;> exact .stay _
  | publish | publishAny | cancel => exact .stay _

theorem loopQueue_finish {ev : Event M P A} {y : Code P K} {throws : Bool} {pc : LoopPc M P K A}
    (hf : y.finish ev throws = some pc) (h h' : Nat) : loopQueue h h' pc = .idle := by
  rcases finish_cases hf with rfl | rfl <;> rfl

/-- Refinement, step by step: what the program does to the queue of a handler is
what one of its threads does there. -/
theorem move_view [DecidableEq M] {n m : Nat} {s s' : State M P K A} {a : Action M P K A}
    (hn : Move ρ n m s a s') (h : Nat) :
    ∃ t q p, Turn t (view s h).queue ((view s h).pc t) q p ∧
      view s' h = ⟨q, Function.update (view s h).pc t p⟩ := by
  -- a step that changes the position of one thread only
  have hset {s' : State M P K A} (t : Agent) (p : Pc (Event M P A)) (hs : s'.shared = s.shared)
      (hp : viewPc s' h = Function.update (viewPc s h) t p) :
      view s' h = ⟨(view s h).queue, Function.update (view s h).pc t p⟩ := by
    rw [view, hs, hp]
    rfl
  have hstill {s' : State M P K A} (hs : s'.shared = s.shared) (hp : viewPc s' h = viewPc s h) :
      ∃ t q p, Turn t (view s h).queue ((view s h).pc t) q p ∧
        view s' h = ⟨q, Function.update (view s h).pc t p⟩ := by
    refine ⟨.control h, _, _, .stay _, ?_⟩
    rw [Function.update_eq_self, view, hs, hp]
    rfl
  cases hn with
  | call c x _ hc =>
      refine ⟨.client c, _, opQueue h (x.entry ρ), ?_, hset _ _ rfl (viewPc_setClient s c _ h)⟩
      have hidle : (view s h).pc (.client c) = .idle := by simp [view, viewPc, standing, hc]
      rw [hidle]
      exact entry_turn ρ x h _ _
  | control h' x _ _ hc =>
      have hidle : (view s h).pc (.control h') = .idle := by simp [view, viewPc, hc]
      refine ⟨.control h', _, .idle, ?_, hset _ _ rfl ?_⟩
      · rw [hidle]
        exact .stay _
      · rw [viewPc_setControl, viewPc_congr (s := s) rfl rfl rfl h]
        cases x <;> rfl
  | inner h' x ev y b ht =>
      refine ⟨.thread h', _, opQueue h (x.entry ρ), ?_, hset _ _ rfl (viewPc_setThread s h' _ h)⟩
      have hidle : (view s h).pc (.thread h') = .idle := view_thread ht
      rw [hidle]
      exact entry_turn ρ x h _ _
  | finish h' throws ev y b pc ht hf =>
      have hidle : (view s h).pc (.thread h') = .idle := view_thread ht
      refine ⟨.thread h', _, .idle, ?_, hset _ _ rfl ?_⟩
      · rw [hidle]
        exact .stay _
      · rw [viewPc_setThread, Option.elim_some, loopQueue_finish hf]
  | terminate => exact hstill rfl (viewPc_congr rfl rfl rfl h)
  | leave c ch r hc =>
      have hidle : (view s h).pc (.client c) = .idle := view_client hc
      refine ⟨.client c, _, .idle, ?_, hset _ _ rfl (viewPc_setClient s c none h)⟩
      rw [hidle]
      exact .stay _
  | client c ch pc pc' x hc hs =>
      refine ⟨.client c, (x.cell h).events, opQueue h pc', ?_, ?_⟩
      · rw [view_client hc]
        exact opStep_turn hs h
      · have hsame : viewPc (setShared s x) h = viewPc s h := viewPc_congr rfl rfl rfl h
        rw [view, viewPc_setClient, hsame]
        rfl
  | thread h' ch pc pc' b x ht hs =>
      refine ⟨.thread h', (x.cell h).events, loopQueue h h' pc', ?_, ?_⟩
      · rw [view_thread ht]
        exact loopStep_turn hs h
      · have hsame : viewPc (setShared s x) h = viewPc s h := viewPc_congr rfl rfl rfl h
        rw [view, viewPc_setThread, hsame]
        rfl
  | controlStep h' ch pc pc' s' hc hs =>
      refine ⟨.control h', (s'.shared.cell h).events, pc'.elim .idle (controlQueue h h'), ?_, ?_⟩
      · rw [view_control hc]
        exact controlStep_turn hs h
      · have hsame : viewPc s' h = viewPc s h :=
          viewPc_of_standing (controlStep_standing _ _ _ hs rfl rfl) (controlStep_control hs)
        rw [view, viewPc_setControl, hsame]
        rfl

theorem view_initial (h : Nat) : view ({} : State M P K A) h = QueueThreads.initial := by
  have hpc : viewPc ({} : State M P K A) h = fun _ => .idle := by
    funext a
    cases a <;> rfl
  rw [view, hpc]
  rfl

/-- Refinement: in every run the queue of every handler goes through a run of the
queue on its own. -/
theorem reachable_view [DecidableEq M] {n m : Nat} {ok : State M P K A → Action M P K A → Prop} {s : State M P K A}
    (hr : Reachable (system ρ n m) ok s) (h : Nat) :
    Reachable (QueueThreads.system Agent (Event M P A)) Any (view s h) := by
  refine hr.invariant (P := fun s => Reachable (QueueThreads.system Agent (Event M P A)) Any (view s h)) ?_ ?_
  · rintro s rfl
    exact .init (view_initial h)
  · intro s a s' _ hv _ hn
    obtain ⟨t, q, p, hturn, he⟩ := move_view (next_sound hn).2 h
    rw [he]
    exact hturn.reachable hv

end Enigma.BusView
