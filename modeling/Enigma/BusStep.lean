import Enigma.BusThreads
import Enigma.QueueStep

namespace Enigma.BusStep

open Transition SyncQueue QueueStep EventBus BusThreads

variable {M P K A : Type}

def setEvents (s : Shared M P K A) (h : Nat) (q : Queue Agent (Event M P A)) : Shared M P K A :=
  setCell s h { s.cell h with events := q }

def setMutex (s : Shared M P K A) (h : Nat) (o : Option Agent) : Shared M P K A :=
  setCell s h { s.cell h with mutex := o }

theorem setEvents_cell {h : Nat} (s : Shared M P K A) (h' : Nat) (q : Queue Agent (Event M P A)) :
    ((setEvents s h' q).cell h).events = (if h' = h then q else (s.cell h).events) ∧
      ((setEvents s h' q).cell h).handles = (s.cell h).handles := by
  by_cases he : h' = h
  · subst he
    simp [setEvents, setCell]
  · simp [setEvents, setCell, he, Ne.symm he]

@[simp]
theorem setEvents_self (s : Shared M P K A) (h : Nat) (q : Queue Agent (Event M P A)) :
    ((setEvents s h q).cell h).events = q := by
  simp [setEvents, setCell]

theorem setMutex_cell {h : Nat} (s : Shared M P K A) (h' : Nat) (o : Option Agent) :
    ((setMutex s h' o).cell h).events = (s.cell h).events ∧
      ((setMutex s h' o).cell h).handles = (s.cell h).handles := by
  by_cases he : h' = h
  · subst he
    simp [setMutex, setCell]
  · simp [setMutex, setCell, Ne.symm he]

theorem setHandles_events {h : Nat} (s : Shared M P K A) (h' : Nat) (t : Handles M K) :
    ((setCell s h' { s.cell h' with handles := t }).cell h).events = (s.cell h).events := by
  by_cases he : h' = h
  · subst he
    simp [setCell]
  · simp [setCell, Ne.symm he]

/-- Everything one instruction of a call can do, with its guards. -/
inductive OpStep (ρ : Runtime M P) (a : Agent) (s : Shared M P K A) :
    OpPc M P K A → Shared M P K A → OpPc M P K A → Prop
  | lockBus (x : BusCall M P A) (hm : s.mutex = none) :
      OpStep ρ a s (.lockBus x) { s with mutex := some a } (x.body s)
  | visited (x : Sending M P A) (r : Bool) : OpStep ρ a s (.visit ⟨x, [], r⟩) s (.unlockBus (some r))
  | visit (x : Sending M P A) (h : Nat) (rest : List Nat) (r : Bool) :
      OpStep ρ a s (.visit ⟨x, h :: rest, r⟩) s (.lockType h ⟨x, rest, r⟩)
  | lockType (h : Nat) (v : Visit M P A) (hm : (s.cell h).mutex = none) :
      OpStep ρ a s (.lockType h v) (setMutex s h (some a)) (.readType h v)
  | readType (h : Nat) (v : Visit M P A) : OpStep ρ a s (.readType h v) s
      (.unlockType h (contains (s.cell h).handles v.sending.event.type) v)
  | found (h : Nat) (v : Visit M P A) : OpStep ρ a s (.unlockType h true v) (setMutex s h none)
      (.deliver h (.lock (.push v.sending.event)) { v with sending := v.sending.sent ρ })
  | notFound (h : Nat) (v : Visit M P A) :
      OpStep ρ a s (.unlockType h false v) (setMutex s h none) (.visit v)
  | deliver (h : Nat) (p p' : Pc (Event M P A)) (q : Queue Agent (Event M P A)) (v : Visit M P A)
      (hs : Step false a (s.cell h).events p q p') :
      OpStep ρ a s (.deliver h p v) (setEvents s h q) (.deliver h p' v)
  | delivered (h : Nat) (r : Ret (Event M P A)) (v : Visit M P A) :
      OpStep ρ a s (.deliver h (.returned r) v) s (.visit { v with result := true })
  | insert (h : Nat) : OpStep ρ a s (.insert h) { s with handlers := (s.handlers.insert h).1 }
      (.unlockBus (some (s.handlers.insert h).2))
  | erase (h : Nat) : OpStep ρ a s (.erase h) { s with handlers := s.handlers.erase h } (.unlockBus none)
  | unlockBus (r : Option Bool) : OpStep ρ a s (.unlockBus r) { s with mutex := none } (.returned r)
  | lockTable (h : Nat) (x : TableCall M K) (hm : (s.cell h).mutex = none) :
      OpStep ρ a s (.lockTable h x) (setMutex s h (some a)) (.table h x)
  | table (h : Nat) (x : TableCall M K) : OpStep ρ a s (.table h x)
      (setCell s h { s.cell h with handles := (x.apply ρ (s.cell h).handles).1 })
      (.unlockTable h (x.apply ρ (s.cell h).handles).2)
  | unlockTable (h : Nat) (r : Option Bool) :
      OpStep ρ a s (.unlockTable h r) (setMutex s h none) (.returned r)
  | clear (h : Nat) (p p' : Pc (Event M P A)) (q : Queue Agent (Event M P A))
      (hs : Step false a (s.cell h).events p q p') :
      OpStep ρ a s (.clear h p) (setEvents s h q) (.clear h p')
  | cleared (h : Nat) (r : Ret (Event M P A)) : OpStep ρ a s (.clear h (.returned r)) s (.returned none)

theorem lockCell_sound {a : Agent} {s s' : Shared M P K A} {h : Nat} (he : lockCell a s h = some s') :
    (s.cell h).mutex = none ∧ s' = setMutex s h (some a) := by
  unfold lockCell at he
  split at he
  case isTrue hm => exact ⟨hm, (Option.some.inj he).symm⟩
  case isFalse => cases he

theorem inQueue_sound {a : Agent} {s : Shared M P K A} {h : Nat} {p : Pc (Event M P A)} {ch : Choice Agent}
    {r : Shared M P K A × Pc (Event M P A)} (he : inQueue a s h p ch = some r) :
    ∃ q, Step false a (s.cell h).events p q r.2 ∧ r.1 = setEvents s h q := by
  obtain ⟨⟨q, p'⟩, hs, rfl⟩ := Option.map_eq_some_iff.mp he
  exact ⟨q, step_sound hs, rfl⟩

theorem opStep_sound {ρ : Runtime M P} {a : Agent} {s s' : Shared M P K A} {ch : Choice Agent}
    {pc pc' : OpPc M P K A} (he : opStep ρ a s ch pc = some (s', pc')) : OpStep ρ a s pc s' pc' := by
  unfold opStep at he
  split at he
  case h_1 x =>
      split at he
      case isTrue hm => cases he; exact .lockBus x hm
      case isFalse => cases he
  case h_2 x r => cases he; exact .visited x r
  case h_3 x h rest r => cases he; exact .visit x h rest r
  case h_4 h v =>
      obtain ⟨s₁, hl, hr⟩ := Option.map_eq_some_iff.mp he
      obtain ⟨hm, rfl⟩ := lockCell_sound hl
      cases hr
      exact .lockType h v hm
  case h_5 h v => cases he; exact .readType h v
  case h_6 h v => cases he; exact .found h v
  case h_7 h v => cases he; exact .notFound h v
  case h_8 h r v => cases he; exact .delivered h r v
  case h_9 h p v _ =>
      obtain ⟨r, hq, hr⟩ := Option.map_eq_some_iff.mp he
      obtain ⟨q, hs, hr'⟩ := inQueue_sound hq
      cases hr
      rw [hr']
      exact .deliver h p r.2 q v hs
  case h_10 h => cases he; exact .insert h
  case h_11 h => cases he; exact .erase h
  case h_12 r => cases he; exact .unlockBus r
  case h_13 h x =>
      obtain ⟨s₁, hl, hr⟩ := Option.map_eq_some_iff.mp he
      obtain ⟨hm, rfl⟩ := lockCell_sound hl
      cases hr
      exact .lockTable h x hm
  case h_14 h x => cases he; exact .table h x
  case h_15 h r => cases he; exact .unlockTable h r
  case h_16 h r => cases he; exact .cleared h r
  case h_17 h p _ =>
      obtain ⟨r, hq, hr⟩ := Option.map_eq_some_iff.mp he
      obtain ⟨q, hs, hr'⟩ := inQueue_sound hq
      cases hr
      rw [hr']
      exact .clear h p r.2 q hs
  case h_18 => cases he

inductive LoopStep [DecidableEq M] (ρ : Runtime M P) (h : Nat) (s : Shared M P K A) (b : Bool) :
    LoopPc M P K A → Shared M P K A → LoopPc M P K A → Prop
  | exit (hb : b = true) : LoopStep ρ h s b .check s .exited
  | enter (hb : b = false) : LoopStep ρ h s b .check s (.pop (.lock (.pop false)))
  | got (ev : Event M P A) : LoopStep ρ h s b (.pop (.returned (.value (some ev)))) s (.lock ev)
  | nothing (r : Ret (Event M P A)) (hr : ∀ ev, r ≠ .value (some ev)) :
      LoopStep ρ h s b (.pop (.returned r)) s .check
  | pop (p p' : Pc (Event M P A)) (q : Queue Agent (Event M P A))
      (hs : Step false (.thread h) (s.cell h).events p q p') :
      LoopStep ρ h s b (.pop p) (setEvents s h q) (.pop p')
  | lock (ev : Event M P A) (hm : (s.cell h).mutex = none) :
      LoopStep ρ h s b (.lock ev) (setMutex s h (some (.thread h))) (.find ev)
  | notFound (ev : Event M P A) (hf : find (s.cell h).handles ev.type = none) :
      LoopStep ρ h s b (.find ev) s .unlock
  | found (ev : Event M P A) (f : Callback M K) (hf : find (s.cell h).handles ev.type = some f) :
      LoopStep ρ h s b (.find ev) s (.call ev f)
  | castFails (ev : Event M P A) (m : M) (k : K) (hc : anyCast m ev.ev = none) :
      LoopStep ρ h s b (.call ev (.on m k)) s .unlock
  | cast (ev : Event M P A) (m : M) (k : K) (x : P) (hc : anyCast m ev.ev = some x) :
      LoopStep ρ h s b (.call ev (.on m k)) s (.user ev (.on k x) none)
  | callType (ev : Event M P A) (k : K) :
      LoopStep ρ h s b (.call ev (.onType k)) s (.user ev (.onType k) none)
  | innerReturned (ev : Event M P A) (x : Code P K) (r : Option Bool) :
      LoopStep ρ h s b (.user ev x (some (.returned r))) s (.user ev x none)
  | inner (ev : Event M P A) (x : Code P K) (pc pc' : OpPc M P K A) (s' : Shared M P K A)
      (hs : OpStep ρ (.thread h) s pc s' pc') :
      LoopStep ρ h s b (.user ev x (some pc)) s' (.user ev x (some pc'))
  | unlock : LoopStep ρ h s b .unlock (setMutex s h none) .check

theorem loopStep_sound [DecidableEq M] {ρ : Runtime M P} {h : Nat} {s s' : Shared M P K A} {b : Bool}
    {ch : Choice Agent} {pc pc' : LoopPc M P K A} (he : loopStep ρ h s b ch pc = some (s', pc')) :
    LoopStep ρ h s b pc s' pc' := by
  unfold loopStep at he
  split at he
  case h_1 =>
      cases b with
      | true => cases he; exact .exit rfl
      | false => cases he; exact .enter rfl
  case h_2 ev => cases he; exact .got ev
  case h_3 r hr =>
      cases he
      refine .nothing r ?_
      rintro ev rfl
      exact hr ev rfl
  case h_4 p _ _ =>
      obtain ⟨r, hq, hr⟩ := Option.map_eq_some_iff.mp he
      obtain ⟨q, hs, hr'⟩ := inQueue_sound hq
      cases hr
      rw [hr']
      exact .pop p r.2 q hs
  case h_5 ev =>
      obtain ⟨s₁, hl, hr⟩ := Option.map_eq_some_iff.mp he
      obtain ⟨hm, rfl⟩ := lockCell_sound hl
      cases hr
      exact .lock ev hm
  case h_6 ev =>
      split at he
      case h_1 hf => cases he; exact .notFound ev hf
      case h_2 f hf => cases he; exact .found ev f hf
  case h_7 ev m k =>
      split at he
      case h_1 hc => cases he; exact .castFails ev m k hc
      case h_2 x hc => cases he; exact .cast ev m k x hc
  case h_8 ev k => cases he; exact .callType ev k
  case h_9 ev x r => cases he; exact .innerReturned ev x r
  case h_10 ev x pc _ =>
      obtain ⟨r, ho, hr⟩ := Option.map_eq_some_iff.mp he
      cases hr
      exact .inner ev x pc r.2 r.1 (opStep_sound ho)
  case h_11 => cases he
  case h_12 => cases he; exact .unlock
  case h_13 => cases he

theorem loopStep_inner [DecidableEq M] {ρ : Runtime M P} {h : Nat} {s s' : Shared M P K A} {b : Bool}
    {pc pc' : LoopPc M P K A} {op : OpPc M P K A} (hs : LoopStep ρ h s b pc s' pc') (hi : innerCall pc = some op) :
    ∃ ev x, pc = .user ev x (some op) ∧
      ((∃ r, op = .returned r ∧ s' = s ∧ pc' = .user ev x none) ∨
        ∃ op', OpStep ρ (.thread h) s op s' op' ∧ pc' = .user ev x (some op')) := by
  cases hs with
  | innerReturned ev x r =>
      cases hi
      exact ⟨ev, x, rfl, .inl ⟨r, rfl, rfl, rfl⟩⟩
  | inner ev x pc pc' s' hs =>
      cases hi
      exact ⟨ev, x, rfl, .inr ⟨pc', hs, rfl⟩⟩
  | _ => cases hi

def setShared (s : State M P K A) (x : Shared M P K A) : State M P K A := { s with shared := x }

def setStart (s : State M P K A) (h : Nat) (b : Bool) : State M P K A :=
  { s with start := Function.update s.start h b }

inductive ControlStep (h : Nat) (s : State M P K A) :
    ControlPc M P A → State M P K A → Option (ControlPc M P A) → Prop
  | startRefused (hs : s.start h = true) : ControlStep h s .startCheck s none
  | startChecked (hs : s.start h = false) : ControlStep h s .startCheck s (some .startSpawn)
  | spawn (ht : s.thread h = none) : ControlStep h s .startSpawn (setThread s h (some {})) (some .startSet)
  | started : ControlStep h s .startSet (setStart s h true) none
  | stopRefused (hs : s.start h = false) : ControlStep h s .stopCheck s none
  | stopChecked (hs : s.start h = true) : ControlStep h s .stopCheck s (some .stopRequest)
  | stopRequest : ControlStep h s .stopRequest (requestStop s h) (some (.stopQueue .requestStop))
  | stopQueue (p p' : Pc (Event M P A)) (q : Queue Agent (Event M P A))
      (hs : Step false (.control h) (s.shared.cell h).events p q p') :
      ControlStep h s (.stopQueue p) (setShared s (setEvents s.shared h q)) (some (.stopQueue p'))
  | queueStopped (r : Ret (Event M P A)) : ControlStep h s (.stopQueue (.returned r)) s (some .stopJoin)
  | stopJoined (hj : joined s h = true) :
      ControlStep h s .stopJoin (setThread s h none) (some (.stopClear (.lock .clear)))
  | stopClear (p p' : Pc (Event M P A)) (q : Queue Agent (Event M P A))
      (hs : Step false (.control h) (s.shared.cell h).events p q p') :
      ControlStep h s (.stopClear p) (setShared s (setEvents s.shared h q)) (some (.stopClear p'))
  | queueCleared (r : Ret (Event M P A)) : ControlStep h s (.stopClear (.returned r)) s (some .stopSet)
  | stopped : ControlStep h s .stopSet (setStart s h false) none
  | destroyRequest : ControlStep h s .destroyRequest (requestStop s h) (some .destroyJoin)
  | destroyJoined (hj : joined s h = true) : ControlStep h s .destroyJoin (setThread s h none) none

theorem controlStep_sound {h : Nat} {s s' : State M P K A} {ch : Choice Agent} {pc : ControlPc M P A}
    (he : controlStep h s ch pc = some s') : ∃ s₁ pc', ControlStep h s pc s₁ pc' ∧ s' = setControl s₁ h pc' := by
  unfold controlStep at he
  split at he
  case h_1 =>
      cases hs : s.start h with
      | true => exact ⟨_, _, .startRefused hs, by simpa [hs] using he.symm⟩
      | false => exact ⟨_, _, .startChecked hs, by simpa [hs] using he.symm⟩
  case h_2 =>
      split at he
      case isTrue ht => exact ⟨_, _, .spawn (by simpa using ht), (Option.some.inj he).symm⟩
      case isFalse => cases he
  case h_3 => exact ⟨_, _, .started, (Option.some.inj he).symm⟩
  case h_4 =>
      cases hs : s.start h with
      | true => exact ⟨_, _, .stopChecked hs, by simpa [hs] using he.symm⟩
      | false => exact ⟨_, _, .stopRefused hs, by simpa [hs] using he.symm⟩
  case h_5 => exact ⟨_, _, .stopRequest, (Option.some.inj he).symm⟩
  case h_6 r => exact ⟨_, _, .queueStopped r, (Option.some.inj he).symm⟩
  case h_7 p _ =>
      obtain ⟨r, hq, hr⟩ := Option.map_eq_some_iff.mp he
      obtain ⟨q, hs, hr'⟩ := inQueue_sound hq
      refine ⟨_, _, .stopQueue p r.2 q hs, ?_⟩
      rw [← hr, hr']
      rfl
  case h_8 =>
      split at he
      case isTrue hj => exact ⟨_, _, .stopJoined hj, (Option.some.inj he).symm⟩
      case isFalse => cases he
  case h_9 r => exact ⟨_, _, .queueCleared r, (Option.some.inj he).symm⟩
  case h_10 p _ =>
      obtain ⟨r, hq, hr⟩ := Option.map_eq_some_iff.mp he
      obtain ⟨q, hs, hr'⟩ := inQueue_sound hq
      refine ⟨_, _, .stopClear p r.2 q hs, ?_⟩
      rw [← hr, hr']
      rfl
  case h_11 => exact ⟨_, _, .stopped, (Option.some.inj he).symm⟩
  case h_12 => exact ⟨_, _, .destroyRequest, (Option.some.inj he).symm⟩
  case h_13 =>
      split at he
      case isTrue hj => exact ⟨_, _, .destroyJoined hj, (Option.some.inj he).symm⟩
      case isFalse => cases he

theorem requestStop_thread {s : State M P K A} {h : Nat} {l : Loop M P K A} (hl : (requestStop s h).thread h = some l) :
    ∃ l₀, s.thread h = some l₀ ∧ { l₀ with stopRequested := true } = l := by
  have hl : (s.thread h).map (fun l => { l with stopRequested := true }) = some l := by
    simpa [requestStop, setThread] using hl
  exact Option.map_eq_some_iff.mp hl

def setClient (s : State M P K A) (c : Nat) (pc : Option (OpPc M P K A)) : State M P K A :=
  { s with client := Function.update s.client c pc }

def setDestroyed (s : State M P K A) (h : Nat) (b : Bool) : State M P K A :=
  { s with destroyed := Function.update s.destroyed h b }

section Standing

variable {β : Type} (f : OpPc M P K A → β) (g : Nat → LoopPc M P K A → β) (d : β)

/-- Something that depends on where each thread stands, `f` in a call and `g` in
the loop of a handler. -/
def standing (s : State M P K A) : Agent → β
  | .client c => (s.client c).elim d f
  | .thread h => (s.thread h).elim d fun l => g h l.pc
  | .control _ => d

theorem standing_congr {s s' : State M P K A} (hc : s'.client = s.client) (ht : s'.thread = s.thread) :
    standing f g d s' = standing f g d s := by
  funext a
  cases a with
  | client c => rw [standing, standing, hc]
  | thread h => rw [standing, standing, ht]
  | control h => rfl

@[simp]
theorem standing_setShared (s : State M P K A) (x : Shared M P K A) :
    standing f g d (setShared s x) = standing f g d s :=
  standing_congr f g d rfl rfl

@[simp]
theorem standing_setControl (s : State M P K A) (h : Nat) (pc : Option (ControlPc M P A)) :
    standing f g d (setControl s h pc) = standing f g d s :=
  standing_congr f g d rfl rfl

theorem standing_setClient (s : State M P K A) (c : Nat) (pc : Option (OpPc M P K A)) :
    standing f g d (setClient s c pc) = Function.update (standing f g d s) (.client c) (pc.elim d f) := by
  funext a
  cases a with
  | client c' => by_cases hc : c' = c <;> simp [standing, setClient, hc]
  | thread h | control h => simp [standing, setClient]

theorem standing_setThread (s : State M P K A) (h : Nat) (t : Option (Loop M P K A)) :
    standing f g d (setThread s h t) =
      Function.update (standing f g d s) (.thread h) (t.elim d fun l => g h l.pc) := by
  funext a
  cases a with
  | thread h' => by_cases hh : h' = h <;> simp [standing, setThread, hh]
  | client c | control h => simp [standing, setThread]

theorem elim_setThread {h : Nat} (k : LoopPc M P K A → β) (s : State M P K A) (h' : Nat) (l : Loop M P K A) :
    ((setThread s h' (some l)).thread h).elim d (fun l => k l.pc) =
      if h' = h then k l.pc else (s.thread h).elim d fun l => k l.pc := by
  by_cases he : h' = h
  · simp [setThread, he]
  · simp [setThread, he, Ne.symm he]

theorem elim_moved {h h' : Nat} (k : LoopPc M P K A → β) {s : State M P K A} {b : Bool} {pc pc' : LoopPc M P K A}
    (ht : s.thread h' = some ⟨pc, b⟩) (hk : k pc' = k pc) :
    ((setThread s h' (some ⟨pc', b⟩)).thread h).elim d (fun l => k l.pc) = (s.thread h).elim d fun l => k l.pc := by
  rw [elim_setThread]
  split
  case isTrue he =>
      subst he
      simp [ht, hk]
  case isFalse => rfl

/-- Start, Stop and the destructor move no thread, but for one that is created at
the beginning of its loop and one that is gone at its end. -/
theorem controlStep_standing {h : Nat} {s s' : State M P K A} {pc : ControlPc M P A}
    {pc' : Option (ControlPc M P A)} (hs : ControlStep h s pc s' pc') (hc : g h .check = d) (he : g h .exited = d) :
    standing f g d s' = standing f g d s := by
  have hset {t : Option (Loop M P K A)} (ht : (t.elim d fun l => g h l.pc) = standing f g d s (.thread h)) :
      standing f g d (setThread s h t) = standing f g d s := by
    rw [standing_setThread, ht, Function.update_eq_self]
  have hjoin (hj : joined s h = true) : standing f g d (setThread s h none) = standing f g d s := by
    apply hset
    unfold joined at hj
    split at hj
    case h_1 ht => simp [standing, ht]
    case h_2 ht => simp [standing, ht, he]
    case h_3 => cases hj
  have hrequest : standing f g d (requestStop s h) = standing f g d s := by
    apply hset
    simp only [standing]
    cases s.thread h <;> rfl
  cases hs with
  | spawn ht => exact hset (by simp [standing, ht, hc])
  | stopRequest | destroyRequest => exact hrequest
  | stopJoined hj | destroyJoined hj => exact hjoin hj
  | stopQueue | stopClear => exact standing_setShared f g d s _
  | started | stopped => exact standing_congr f g d rfl rfl
  | startRefused | startChecked | stopRefused | stopChecked | queueStopped | queueCleared => rfl

end Standing

theorem finish_cases {ev : Event M P A} {y : Code P K} {throws : Bool} {pc : LoopPc M P K A}
    (hf : y.finish ev throws = some pc) : pc = .unlock ∨ pc = .user ev .ack none := by
  cases y with
  | on k x =>
      simp only [Code.finish, Option.some.injEq] at hf
      subst hf
      split
      · exact .inr rfl
      · exact .inl rfl
  | ack =>
      cases hf
      exact .inl rfl
  | onType k =>
      simp only [Code.finish] at hf
      split at hf
      · cases hf
      · cases hf
        exact .inl rfl

inductive Move [DecidableEq M] (ρ : Runtime M P) (n m : Nat) (s : State M P K A) :
    Action M P K A → State M P K A → Prop
  | call (c : Nat) (x : Call M P K A) (hn : c < n) (hc : s.client c = none) (hv : x.valid m s = true) :
      Move ρ n m s (.call c x) (setClient s c (some (x.entry ρ)))
  | control (h : Nat) (x : Control) (hm : h < m) (hd : s.destroyed h = false) (hc : s.control h = none)
      (hu : x = .destroy → unowned n m s h = true) :
      Move ρ n m s (.control h x) (setControl (setDestroyed s h (x == .destroy)) h (some x.entry))
  | inner (h : Nat) (x : Call M P K A) (ev : Event M P A) (y : Code P K) (b : Bool)
      (ht : s.thread h = some ⟨.user ev y none, b⟩) (hv : x.valid m s = true) :
      Move ρ n m s (.inner h x) (setThread s h (some ⟨.user ev y (some (x.entry ρ)), b⟩))
  | finish (h : Nat) (throws : Bool) (ev : Event M P A) (y : Code P K) (b : Bool) (pc : LoopPc M P K A)
      (ht : s.thread h = some ⟨.user ev y none, b⟩) (hf : y.finish ev throws = some pc) :
      Move ρ n m s (.finish h throws) (setThread s h (some ⟨pc, b⟩))
  | terminate (h : Nat) (throws : Bool) (ev : Event M P A) (y : Code P K) (b : Bool)
      (ht : s.thread h = some ⟨.user ev y none, b⟩) (hf : y.finish (M := M) (A := A) ev throws = none) :
      Move ρ n m s (.finish h throws) { s with terminated := true }
  | leave (c : Nat) (ch : Choice Agent) (r : Option Bool) (hc : s.client c = some (.returned r)) :
      Move ρ n m s (.step (.client c) ch) (setClient s c none)
  | client (c : Nat) (ch : Choice Agent) (pc pc' : OpPc M P K A) (x : Shared M P K A)
      (hc : s.client c = some pc) (hs : OpStep ρ (.client c) s.shared pc x pc') :
      Move ρ n m s (.step (.client c) ch) (setClient (setShared s x) c (some pc'))
  | thread (h : Nat) (ch : Choice Agent) (pc pc' : LoopPc M P K A) (b : Bool) (x : Shared M P K A)
      (ht : s.thread h = some ⟨pc, b⟩) (hs : LoopStep ρ h s.shared b pc x pc') :
      Move ρ n m s (.step (.thread h) ch) (setThread (setShared s x) h (some ⟨pc', b⟩))
  | controlStep (h : Nat) (ch : Choice Agent) (pc : ControlPc M P A) (pc' : Option (ControlPc M P A))
      (s' : State M P K A) (hc : s.control h = some pc) (hs : ControlStep h s pc s' pc') :
      Move ρ n m s (.step (.control h) ch) (setControl s' h pc')

theorem act_sound [DecidableEq M] {ρ : Runtime M P} {n m : Nat} {s s' : State M P K A} {a : Action M P K A}
    (he : act ρ n m s a = some s') : Move ρ n m s a s' := by
  cases a with
  | call c x =>
      simp only [act] at he
      split at he
      case isTrue hg => cases he; exact .call c x hg.1 hg.2.1 hg.2.2
      case isFalse => cases he
  | control h x =>
      simp only [act] at he
      split at he
      case isTrue hg => cases he; exact .control h x hg.1 hg.2.1 hg.2.2.1 hg.2.2.2
      case isFalse => cases he
  | inner h x =>
      simp only [act] at he
      split at he
      case h_1 ev y b ht =>
          split at he
          case isTrue hv => cases he; exact .inner h x ev y b ht hv
          case isFalse => cases he
      case h_2 => cases he
  | finish h throws =>
      simp only [act] at he
      split at he
      case h_1 ev y b ht =>
          split at he
          case h_1 pc hf => cases he; exact .finish h throws ev y b pc ht hf
          case h_2 hf => cases he; exact .terminate h throws ev y b ht hf
      case h_2 => cases he
  | step a ch =>
      cases a with
      | client c =>
          simp only [act] at he
          split at he
          case h_1 r hc => cases he; exact .leave c ch r hc
          case h_2 pc _ hc =>
              obtain ⟨r, ho, hr⟩ := Option.map_eq_some_iff.mp he
              cases hr
              exact .client c ch pc r.2 r.1 hc (opStep_sound ho)
          case h_3 => cases he
      | thread h =>
          simp only [act] at he
          split at he
          case h_1 l ht =>
              obtain ⟨r, ho, hr⟩ := Option.map_eq_some_iff.mp he
              cases hr
              exact .thread h ch l.pc r.2 l.stopRequested r.1 ht (loopStep_sound ho)
          case h_2 => cases he
      | control h =>
          obtain ⟨pc, hc, ho⟩ := Option.bind_eq_some_iff.mp he
          obtain ⟨s₁, pc', hs, rfl⟩ := controlStep_sound ho
          exact .controlStep h ch pc pc' s₁ hc hs

theorem next_sound [DecidableEq M] {ρ : Runtime M P} {n m : Nat} {s s' : State M P K A} {a : Action M P K A}
    (he : next ρ n m s a = some s') : s.terminated = false ∧ Move ρ n m s a s' := by
  unfold next at he
  split at he
  case isTrue => cases he
  case isFalse ht => exact ⟨by simpa using ht, act_sound he⟩

end Enigma.BusStep
