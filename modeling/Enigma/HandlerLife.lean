import Enigma.HandlerThread
import Enigma.BusOrder

namespace Enigma.HandlerLife

open Transition SyncQueue QueueStep EventBus BusThreads BusStep BusCalls BusView BusOrder QueueConsumer HandlerThread

variable {M P K A : Type} {ρ : Runtime M P} {n m h : Nat}

/-- No Start creates a thread for a queue that has been asked to stop. -/
def FreshStart (h : Nat) (s : State M P K A) (a : Action M P K A) : Prop := ∀ ch, a = .step (.control h) ch →
  s.control h = some .startSpawn → (s.shared.cell h).events.stopRequested = false

def stopping : ControlPc M P A → Bool
  | .startCheck | .startSpawn | .startSet => false
  | _ => true

/-- IsStart() of handler `h` answers true, and no Stop is in progress. -/
structure Started (s : State M P K A) (h : Nat) : Prop where
  start : s.start h = true
  control : ∀ pc, s.control h = some pc → stopping pc = false
  destroyed : s.destroyed h = false

def Running (t : Option (Loop M P K A)) : Prop := ∃ pc, t = some ⟨pc, false⟩ ∧ pc ≠ .exited

def Asked (t : Option (Loop M P K A)) : Prop := ∀ l, t = some l → l.stopRequested = true

/-- How the flag and the thread fit to where Start, Stop or the destructor stands. -/
def Fits (s : State M P K A) (h : Nat) : Option (ControlPc M P A) → Prop
  | none => s.destroyed h = false → s.start h = true → Running (s.thread h)
  | some .startCheck | some .stopCheck => s.start h = true → Running (s.thread h)
  | some .startSpawn => s.start h = false
  | some .startSet => s.start h = false ∧ Running (s.thread h)
  | some (.stopQueue _) => Asked (s.thread h)
  | some .destroyRequest | some .destroyJoin => s.destroyed h = true
  | some .stopRequest | some .stopJoin | some (.stopClear _) | some .stopSet => True

structure Live (s : State M P K A) (h : Nat) : Prop where
  fits : Fits s h (s.control h)
  unstopped : ∀ l, s.thread h = some l → l.stopRequested = false → (s.shared.cell h).events.stopRequested = false

theorem Live.running {s : State M P K A} (hs : Live s h) (hst : Started s h) : Running (s.thread h) := by
  have hf := hs.fits
  cases hc : s.control h with
  | none =>
      rw [hc] at hf
      exact hf hst.destroyed hst.start
  | some pc =>
      rw [hc] at hf
      have hp := hst.control pc hc
      cases pc with
      | startCheck => exact hf hst.start
      | startSpawn =>
          have hf : s.start h = false := hf
          rw [hst.start] at hf
          cases hf
      | startSet => exact hf.2
      | _ => cases hp

theorem Live.freshStart {s : State M P K A} (hs : Live s h) (hst : Started s h) (a : Action M P K A) :
    FreshStart h s a := by
  intro ch _ hc
  have hf := hs.fits
  rw [hc] at hf
  have hf : s.start h = false := hf
  rw [hst.start] at hf
  cases hf

theorem controlStep_fits {s s' : State M P K A} {pc : ControlPc M P A} {pc' : Option (ControlPc M P A)}
    (hs : ControlStep h s pc s' pc') (hf : Fits s h (some pc)) : Fits s' h pc' := by
  cases hs with
  | startRefused => exact fun _ => hf
  | startChecked hs => exact hs
  | spawn => exact ⟨hf, .check, by simp [setThread], by simp⟩
  | started => exact fun _ _ => hf.2
  | stopRefused hs =>
      intro _ hstart
      rw [hs] at hstart
      cases hstart
  | stopRequest =>
      intro l hl
      obtain ⟨l₀, -, rfl⟩ := requestStop_thread hl
      rfl
  | stopQueue => exact hf
  | stopped =>
      intro _ hstart
      simp [setStart] at hstart
  | destroyRequest => exact hf
  | destroyJoined =>
      intro hd
      have hf : s.destroyed h = true := hf
      rw [show (setThread s h none).destroyed = s.destroyed from rfl, hf] at hd
      cases hd
  | stopChecked | queueStopped | stopJoined | stopClear | queueCleared => trivial

theorem fits_of_thread {s s' : State M P K A} {pc : Option (ControlPc M P A)} (hf : Fits s h pc)
    (hd : s'.destroyed h = s.destroyed h) (hs : s'.start h = s.start h)
    (hr : Running (s.thread h) → Running (s'.thread h)) (ha : Asked (s.thread h) → Asked (s'.thread h)) :
    Fits s' h pc := by
  cases pc with
  | none =>
      intro hd' hs'
      exact hr (hf (by rw [← hd]; exact hd') (by rw [← hs]; exact hs'))
  | some pc =>
      cases pc with
      | startCheck | stopCheck => exact fun hs' => hr (hf (by rw [← hs]; exact hs'))
      | startSpawn => exact hs.trans hf
      | startSet => exact ⟨hs.trans hf.1, hr hf.2⟩
      | stopQueue p => exact ha hf
      | destroyRequest | destroyJoin => exact hd.trans hf
      | stopRequest | stopJoin | stopClear | stopSet => trivial

section System

variable [DecidableEq M]

theorem move_fits {s s' : State M P K A} {a : Action M P K A} (hf : Fits s h (s.control h)) (hn : Move ρ n m s a s') :
    Fits s' h (s'.control h) := by
  rcases move_control hn h with ⟨hc, hd, hs, ht⟩ | ⟨x, -, hc, hd, rfl⟩ | ⟨ch, pc, pc', s₁, -, hc, hs, rfl⟩
  · rw [hc]
    rcases ht with ht | ⟨pc, pc', b, ht, ht', hexit⟩
    · exact fits_of_thread hf hd hs (by rw [ht]; exact id) (by rw [ht]; exact id)
    · refine fits_of_thread hf hd hs ?_ ?_
      · rintro ⟨p, hp, -⟩
        rw [ht] at hp
        cases hp
        exact ⟨pc', ht', fun he => by cases hexit he⟩
      · intro hask l hl
        rw [ht'] at hl
        cases hl
        exact hask ⟨pc, b⟩ ht
  · rw [hc] at hf
    rw [show (setControl (setDestroyed s h (x == .destroy)) h (some x.entry)).control h = some x.entry by
      simp [setControl]]
    cases x with
    | start | stop => exact hf hd
    | destroy => simp [Control.entry, Fits, setControl, setDestroyed]
  · rw [hc] at hf
    rw [show (setControl s₁ h pc').control h = pc' by simp [setControl]]
    exact fits_of_thread (controlStep_fits hs hf) rfl rfl id id

theorem move_live {s s' : State M P K A} {a : Action M P K A} (hs : Live s h) (hplaced : Placed s)
    (hok : FreshStart h s a) (hn : Move ρ n m s a s') : Live s' h := by
  have hfits := move_fits hs.fits hn
  refine ⟨hfits, fun l hl hb => ?_⟩
  by_contra hstop
  have hstop : (s'.shared.cell h).events.stopRequested = true := by simpa using hstop
  obtain ⟨t, q, p, hturn, hview⟩ := move_view hn h
  have hqueue : (s'.shared.cell h).events = q := congrArg QueueThreads.State.queue hview
  cases hq : (s.shared.cell h).events.stopRequested with
  | false =>
      -- the queue is asked to stop after the thread has been asked
      have hp : p = .notifyAll := turn_requestStop hturn hq (by rw [← hqueue]; exact hstop)
      have hnotify : (view s' h).pc t = .notifyAll := by
        rw [hview, hp]
        exact Function.update_self ..
      rw [notifying_control (move_placed hplaced hn) hnotify] at hfits
      rw [hfits l hl] at hb
      cases hb
  | true =>
      have hold {l₀ : Loop M P K A} (hl₀ : s.thread h = some l₀) (hb₀ : l₀.stopRequested = false) : False := by
        have hfalse := hs.unstopped l₀ hl₀ hb₀
        rw [hq] at hfalse
        cases hfalse
      rcases move_control hn h with ⟨-, -, -, ht⟩ | ⟨x, -, -, -, rfl⟩ | ⟨ch, pc, pc', s₁, rfl, hc, hstep, rfl⟩
      · rcases ht with ht | ⟨pc, pc', b, ht, ht', -⟩
        · exact hold (by rw [← ht]; exact hl) hb
        · rw [ht'] at hl
          cases hl
          exact hold ht hb
      · exact hold hl hb
      · cases hstep with
        | spawn =>
            have hfresh := hok ch rfl hc
            rw [hq] at hfresh
            cases hfresh
        | stopRequest | destroyRequest =>
            obtain ⟨l₀, -, rfl⟩ := requestStop_thread hl
            cases hb
        | stopJoined | destroyJoined => simp [setControl, setThread] at hl
        | startRefused | startChecked | started | stopRefused | stopChecked | stopQueue | queueStopped | stopClear
        | queueCleared | stopped => exact hold hl hb

theorem reachable_live {s : State M P K A} (hr : Reachable (system ρ n m) (FreshStart h) s) : Live s h := by
  refine hr.invariant (P := fun s => Live s h) ?_ ?_
  · rintro s rfl
    exact ⟨fun _ hs => (by cases hs), fun l hl => by cases hl⟩
  · intro s a s' hr hs hok hn
    exact move_live hs (reachable_placed hr) hok (next_sound hn).2

end System

end Enigma.HandlerLife
