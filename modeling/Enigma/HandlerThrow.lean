import Enigma.HandlerRestart

namespace Enigma.HandlerThrow

open Transition SyncQueue QueueStep EventBus BusThreads BusStep BusCalls BusLocks BusView BusOrder QueueConsumer
open HandlerThread HandlerLife HandlerServe HandlerRestart

variable {M P K A : Type} {ρ : Runtime M P} {n m h : Nat}

section System

variable [DecidableEq M]

/-- The step in which something throws on the thread of handler `h`: the cast of
the payload, or the user's code, which is a callback or an ack. -/
inductive Raises (h : Nat) (s : State M P K A) : Action M P K A → Prop
  | cast (ch : Choice Agent) (ev : Event M P A) (m : M) (k : K) (b : Bool)
      (ht : s.thread h = some ⟨.call ev (.on m k), b⟩) (hc : anyCast m ev.ev = none) :
      Raises h s (.step (.thread h) ch)
  | code (ev : Event M P A) (y : Code P K) (b : Bool) (ht : s.thread h = some ⟨.user ev y none, b⟩) :
      Raises h s (.finish h true)

def Unprotected (h : Nat) (s : State M P K A) : Prop := ∃ ev k b, s.thread h = some ⟨.user ev (.onType k) none, b⟩

/-- The thread of handler `h` is at the end of its loop's body, and the events
after this one are handled: it takes them in order and runs for each the callback of
its type. -/
structure GoesOn (ρ : Runtime M P) (n m h : Nat) (s s' : State M P K A) : Prop where
  alive : s'.terminated = false
  kept : s'.shared = s.shared
  inLoop : ∃ b, s'.thread h = some ⟨.unlock, b⟩
  serves : Started s' h → ∀ s'' log,
    Reachable (logged (startingAt (system ρ n m) s') (seen h)) (fun p a => Undisturbed h p.1 a) (s'', log) →
      Serves h s' s'' log ∧ ByTable log ∧
      ∀ ev rest, (s''.shared.cell h).events.queue = ev :: rest → HandlesHead ρ n m h s'' ev
  comes : Started s' h → (∀ a p, inCall s' a ≠ some (.clear h p)) →
    ∀ ev rest, (s'.shared.cell h).events.queue = ev :: rest → ∃ s'' f,
      Reachable (logged (startingAt (system ρ n m) s') (seen h)) (fun p a => Undisturbed h p.1 a)
        (s'', [.popped (some ev), .handled ev f (f.bind (Callback.code ev))]) ∧
      ((∀ a x, inCall s' a ≠ some (.table h x)) → f = find (s'.shared.cell h).handles ev.type)

def idle : LoopPc M P K A → Bool
  | .check | .exited => true
  | .pop p => (held p).isEmpty
  | _ => false

def Idle (t : Option (Loop M P K A)) : Prop := ∀ l, t = some l → idle l.pc = true

theorem loopStep_idle {s s' : Shared M P K A} {b : Bool} {pc pc' : LoopPc M P K A}
    (hs : LoopStep ρ h s b pc s' pc') (hi : idle pc = true) (hp : LoopInPlace h pc) (htake : ∀ c, pc ≠ .pop (.take c)) :
    idle pc' = true := by
  cases hs with
  | exit | enter | nothing => rfl
  | got ev => cases hi
  | pop p p' q hs =>
      have hw : Within (.pop false) p := hp
      cases hs with
      | take c => exact absurd rfl (htake c)
      | unlock r => cases hw; exact hi
      | lock op => cases hw; rfl
      | push | notifyNone | notifyOne | clearOne | cleared | size | requestStop | notifyAll => cases hw
      | fault | stopped | checked | testTrue | testFalse | block | spurious | resume => rfl
  | _ => cases hi

theorem move_idle {s s' : State M P K A} {a : Action M P K A} (hs : Idle (s.thread h)) (hstale : Stale (view s h))
    (hplaced : Placed s) (hn : Move ρ n m s a s') : Idle (s'.thread h) := by
  have hset {h' : Nat} {l₀ : Loop M P K A} (l : Loop M P K A) (ht : s.thread h' = some l₀)
      (hl : h' = h → idle l₀.pc = true → idle l.pc = true) : Idle ((setThread s h' (some l)).thread h) := by
    intro l' hl'
    by_cases he : h' = h
    · subst he
      obtain rfl : l = l' := by simpa [setThread] using hl'
      exact hl rfl (hs l₀ ht)
    · exact hs l' (by simpa [setThread, Ne.symm he] using hl')
  cases hn with
  | call | control | terminate | leave | client => exact hs
  | inner h' x ev y b ht => exact hset _ ht fun _ hi => by cases hi
  | finish h' throws ev y b pc ht => exact hset _ ht fun _ hi => by cases hi
  | thread h' ch pc pc' b x ht hstep =>
      refine hset _ ht fun he hi => ?_
      subst he
      have hp : LoopInPlace h' pc := by simpa [standing, ht] using hplaced.agent (.thread h')
      refine loopStep_idle hstep hi hp fun c hc => ?_
      subst hc
      exact hstale.untaken _ c (view_pop ht)
  | controlStep h' ch pc pc' s₁ hc hstep =>
      by_cases he : h' = h
      · subst he
        cases hstep with
        | spawn =>
            intro l hl
            obtain rfl : ({} : Loop M P K A) = l := by simpa [setControl, setThread] using hl
            rfl
        | stopRequest | destroyRequest =>
            intro l hl
            obtain ⟨l₀, hl₀, rfl⟩ := requestStop_thread hl
            exact hs l₀ hl₀
        | stopJoined | destroyJoined =>
            intro l hl
            simp [setControl, setThread] at hl
        | _ => exact hs
      · have hthread : s₁.thread h = s.thread h := ((controlStep_frame hstep).2.2 h (Ne.symm he)).2
        rw [show (setControl s₁ h' pc').thread h = s₁.thread h from rfl, hthread]
        exact hs

/-- From the first Start after a Stop on, the thread handles no event. -/
theorem fresh_or_idle {s : State M P K A} (hr : Reachable (system ρ n m) Any s) (h : Nat) :
    Reachable (system ρ n m) (FreshStart h) s ∨ (Stale (view s h) ∧ Idle (s.thread h)) := by
  refine hr.invariant
    (P := fun s => Reachable (system ρ n m) (FreshStart h) s ∨ (Stale (view s h) ∧ Idle (s.thread h))) ?_ ?_
  · exact fun s hs => .inl (.init hs)
  · intro s a s' hr hs _ hn
    have hplaced := reachable_placed hr
    have hmove := (next_sound hn).2
    rcases hs with hfresh | ⟨hstale, hidle⟩
    · by_cases hok : FreshStart h s a
      · exact .inl (.step hfresh hok hn)
      · refine .inr ⟨stale_of_spawn hplaced hmove hok, ?_⟩
        simp only [FreshStart, not_forall] at hok
        obtain ⟨ch, rfl, hc, -⟩ := hok
        cases hmove with
        | controlStep _ _ pc pc' s₁ hpc hstep =>
            rw [hc] at hpc
            cases hpc
            cases hstep with
            | spawn =>
                intro l hl
                obtain rfl : ({} : Loop M P K A) = l := by simpa [setControl, setThread] using hl
                rfl
    · obtain ⟨t, q, p, hturn, hview⟩ := move_view hmove h
      exact .inr ⟨by rw [hview]; exact turn_stale hstale hturn, move_idle hidle hstale hplaced hmove⟩

theorem fresh_of_busy {s : State M P K A} (hr : Reachable (system ρ n m) Any s) {l : Loop M P K A}
    (ht : s.thread h = some l) (hl : idle l.pc = false) : Reachable (system ρ n m) (FreshStart h) s := by
  rcases fresh_or_idle hr h with hfresh | ⟨-, hidle⟩
  · exact hfresh
  · rw [hidle l ht] at hl
    cases hl

/-- While a handler stays started its thread is the one of its first Start. -/
theorem fresh_run {s₀ s : State M P K A} {log : List (Seen M P K A)}
    (hr₀ : Reachable (system ρ n m) (FreshStart h) s₀) (hst : Started s₀ h)
    (hr : Reachable (logged (startingAt (system ρ n m) s₀) (seen h)) (fun p a => Undisturbed h p.1 a) (s, log)) :
    Reachable (system ρ n m) (FreshStart h) s := by
  refine hr.logged_invariant (P := fun s _ => Reachable (system ρ n m) (FreshStart h) s) ?_ ?_
  · rintro s rfl
    exact hr₀
  · intro s log a s' hr hs _ hn
    obtain ⟨hlive, hst', -⟩ := run_serves hr₀ hst hr
    exact .step hs (hlive.freshStart hst' a) hn

theorem goesOn_of_unlock {s s' : State M P K A} {b : Bool} (hr : Reachable (system ρ n m) (FreshStart h) s')
    (halive : s'.terminated = false) (hshared : s'.shared = s.shared) (ht : s'.thread h = some ⟨.unlock, b⟩) :
    GoesOn ρ n m h s s' := by
  refine ⟨halive, hshared, ⟨b, ht⟩, fun hst s'' log hr'' => ?_, fun hst hclear ev rest hq => ?_⟩
  · refine ⟨(run_serves hr hst hr'').2.2, run_byTable hr hr'', fun ev rest hq => ?_⟩
    exact handles_head (fresh_run hr hst hr'') (run_serves hr hst hr'').2.1 hq
  · obtain ⟨pc, hrun, -⟩ := (reachable_live hr).running hst
    obtain ⟨rfl, rfl⟩ : LoopPc.unlock = pc ∧ b = false := by
      rw [ht] at hrun
      cases hrun
      exact ⟨rfl, rfl⟩
    have hunlock : loopStep ρ h s'.shared false .run .unlock = some (unlockCell s'.shared h, .check) := rfl
    obtain ⟨s₁, hw₁, ht₁, hs₁⟩ := loop_on (onTheWay_start halive hclear) ht hunlock rfl
    have hq₁ : (s₁.shared.cell h).events.queue = ev :: rest := by
      rw [hs₁, show unlockCell s'.shared h = setMutex s'.shared h none from rfl, (setMutex_cell s'.shared h none).1, hq]
    obtain ⟨s₂, hw₂, ht₂⟩ := pops_next hr hst hw₁ hq₁ ht₁ rfl
    exact handles_popped hr hw₂ ht₂

/-- No exception leaves a callback that OnType registered. -/
def Protected (s : State M P K A) (a : Action M P K A) : Prop := ∀ h, Raises h s a → ¬ Unprotected h s

theorem move_alive {s s' : State M P K A} {a : Action M P K A} (hs : s.terminated = false) (hok : Protected s a)
    (hn : Move ρ n m s a s') : s'.terminated = false := by
  cases hn with
  | terminate h throws ev y b ht hf =>
      -- only a callback of OnType leaves the loop
      cases y with
      | on k x | ack => cases hf
      | onType k =>
          cases throws with
          | false => cases hf
          | true => exact absurd ⟨ev, k, b, ht⟩ (hok h (.code ev _ b ht))
  | controlStep h ch pc pc' s' hc hstep =>
      have hterm : s'.terminated = s.terminated := by cases hstep <;> rfl
      exact hterm.trans hs
  | _ => exact hs

/-- An exception ends the loop of the thread just when it leaves a callback that
OnType registered; a program in which none does is not terminated. -/
theorem loop_survives_iff (ρ : Runtime M P) (n m : Nat) :
    (∀ (h : Nat) (s s' : State M P K A) (a : Action M P K A), Reachable (system ρ n m) Any s →
      next ρ n m s a = some s' → Raises h s a → (GoesOn ρ n m h s s' ↔ ¬ Unprotected h s)) ∧
    ∀ s : State M P K A, Reachable (system ρ n m) Protected s → s.terminated = false := by
  constructor
  · intro h s s' a hr hn hraises
    obtain ⟨halive, -⟩ := next_sound hn
    have hact : act ρ n m s a = some s' := by simpa [next, halive] using hn
    constructor
    · rintro hgoes ⟨ev, k, b, ht⟩
      cases hraises with
      | cast ch ev' m k' b' ht' =>
          rw [ht] at ht'
          cases ht'
      | code =>
          have hs' : { s with terminated := true } = s' := by simpa [act, ht, Code.finish] using hact
          have hterm := hgoes.alive
          rw [← hs'] at hterm
          cases hterm
    · intro hprotected
      cases hraises with
      | cast ch ev m k b ht hc =>
          have hfresh := fresh_of_busy hr ht rfl
          have hs' : setThread s h (some ⟨.unlock, b⟩) = s' := by simpa [act, ht, loopStep, hc] using hact
          subst hs'
          exact goesOn_of_unlock (.step hfresh (by rintro _ ⟨⟩) hn) halive rfl (Function.update_self ..)
      | code ev y b ht =>
          have hfresh := fresh_of_busy hr ht rfl
          have hcaught : y.finish (M := M) (A := A) ev true = some .unlock := by
            cases y with
            | on k x => simp [Code.finish]
            | ack => rfl
            | onType k => exact absurd ⟨ev, k, b, ht⟩ hprotected
          have hs' : setThread s h (some ⟨.unlock, b⟩) = s' := by simpa [act, ht, hcaught] using hact
          subst hs'
          exact goesOn_of_unlock (.step hfresh (by rintro _ ⟨⟩) hn) halive rfl (Function.update_self ..)
  · intro s hr
    refine hr.invariant (P := fun s => s.terminated = false) ?_ ?_
    · rintro s rfl
      rfl
    · intro s a s' _ hs hok hn
      exact move_alive hs hok (next_sound hn).2

end System

section Runs

def toOn : List (Action Unit Nat Nat Nat) :=
  List.flatten [setUp, [.call 0 (.publish () 42 none)], steps (.client 0) 13, steps (.thread 0) 10]

def insideOn : State Unit Nat Nat Nat := (run (system oneType 1 1) {} toOn).getD {}

theorem insideOn_thread : insideOn.thread 0 = some ⟨.user message (.on 1 42) none, false⟩ := rfl

theorem loop_survives_on : Raises 0 insideOn (.finish 0 true) ∧
    GoesOn oneType 1 1 0 insideOn (setThread insideOn 0 (some ⟨.unlock, false⟩)) := by
  have hrun : run (system oneType 1 1) {} toOn = some insideOn := rfl
  have hr : Reachable (system oneType 1 1) Any insideOn := run_reachable (.init rfl) hrun
  have hraises : Raises 0 insideOn (.finish 0 true) := .code message _ false insideOn_thread
  refine ⟨hraises, ((loop_survives_iff oneType 1 1).1 0 _ _ _ hr rfl hraises).mpr ?_⟩
  rintro ⟨ev, k, b, ht⟩
  rw [insideOn_thread] at ht
  cases ht

def toOnType : List (Action Unit Nat Nat Nat) :=
  List.flatten [[.call 0 (.onType 0 "T" (some 1))], steps (.client 0) 4, [.call 0 (.subscribe (some 0))],
    steps (.client 0) 4, [.control 0 .start], steps (.control 0) 3, [.call 0 (.publish () 42 none)],
    steps (.client 0) 13, steps (.thread 0) 10]

def insideOnType : State Unit Nat Nat Nat := (run (system oneType 1 1) {} toOnType).getD {}

theorem onType_terminates : ¬ ∀ (s s' : State Unit Nat Nat Nat) (a : Action Unit Nat Nat Nat),
    Reachable (system oneType 1 1) Any s → Started s 0 → next oneType 1 1 s a = some s' → Raises 0 s a →
      GoesOn oneType 1 1 0 s s' := by
  intro hall
  have hrun : run (system oneType 1 1) {} toOnType = some insideOnType := rfl
  have hr : Reachable (system oneType 1 1) Any insideOnType := run_reachable (.init rfl) hrun
  have hst : Started insideOnType 0 := ⟨rfl, fun pc hpc => (by cases hpc), rfl⟩
  have hn : next oneType 1 1 insideOnType (.finish 0 true) = some { insideOnType with terminated := true } := rfl
  have hgoes := hall _ _ _ hr hst hn (.code message (.onType 1) false rfl)
  cases hgoes.alive

end Runs

end Enigma.HandlerThrow
