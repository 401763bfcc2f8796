import Enigma.QueueRest
import Enigma.HandlerLife

namespace Enigma.BusOpen

open Transition SyncQueue QueueStep EventBus BusThreads BusStep BusCalls BusLocks BusView HandlerThread HandlerLife

variable {M P K A : Type} {ρ : Runtime M P} {n m : Nat} {order : Nat → Nat}

/-- The calls that a callback of handler `h` may make where nobody waits for a mutex that
comes before one of its own: they lock at most the mutex of a later handler. -/
def Later (order : Nat → Nat) (h : Nat) : Call M P K A → Prop
  | .on h' _ _ | .onType h' _ _ | .cancel h' _ => order h < order h'
  | .clear _ => True
  | .publish _ _ _ | .publishAny _ _ _ | .subscribe _ | .unsubscribe _ => False

/-- Nobody calls Stop or destroys a handler, and callbacks call back in order. -/
def Open (order : Nat → Nat) (_ : State M P K A) : Action M P K A → Prop
  | .control _ x => x = .start
  | .inner h x => Later order h x
  | _ => True

/-- What the threads do without being called, but for spurious wakeups. A callback that runs
returns or throws. -/
def Moves : Action M P K A → Prop
  | .step _ ch => ch ≠ .spurious
  | .finish _ _ => True
  | .call _ _ | .control _ _ | .inner _ _ => False

theorem open_of_moves {s : State M P K A} {a : Action M P K A} (ha : Moves a) : Open order s a := by
  cases a with
  | step | finish => trivial
  | call | control | inner => exact ha.elim

structure Running (s : State M P K A) (h : Nat) : Prop where
  thread : ∀ l, s.thread h = some l → l.stopRequested = false ∧ l.pc ≠ .exited
  queue : (s.shared.cell h).events.stopRequested = false
  control : ∀ pc, s.control h = some pc → stopping pc = false
  unborn : s.control h = some .startSpawn → s.start h = false
  started : s.thread h ≠ none → s.start h = true ∨ s.control h = some .startSet

/-- Where a call of a callback stands: nowhere near the mutex of the bus. -/
def Apart : OpPc M P K A → Prop
  | .lockTable _ _ | .table _ _ | .unlockTable _ _ | .clear _ _ | .returned _ => True
  | _ => False

structure Known (m : Nat) (s : State M P K A) : Prop where
  subscribed : ∀ h ∈ s.shared.handlers.items, h < m
  used : ∀ a pc, inCall s a = some pc → ∀ h, uses h pc = true → h < m

section Invariants

theorem controlStep_running {s s' : State M P K A} {h : Nat} {pc : ControlPc M P A} {pc' : Option (ControlPc M P A)}
    (hs : Running s h) (hc : s.control h = some pc) (hstep : ControlStep h s pc s' pc') :
    Running (setControl s' h pc') h := by
  have hopen := hs.control pc hc
  have hself (t : State M P K A) : (setControl t h pc').control h = pc' := by simp [setControl]
  cases hstep with
  | startRefused hstart =>
      exact ⟨hs.thread, hs.queue, fun p hp => by simp [hself] at hp, fun hp => by simp [hself] at hp,
        fun ht => .inl hstart⟩
  | startChecked hstart =>
      refine ⟨hs.thread, hs.queue, fun p hp => ?_, fun _ => hstart, fun ht => ?_⟩
      · rw [hself] at hp
        cases hp
        rfl
      · rcases hs.started ht with hst | hst
        · exact .inl hst
        · cases hc.symm.trans hst
  | spawn ht =>
      refine ⟨fun l hl => ?_, hs.queue, fun p hp => ?_, fun hp => ?_, fun _ => .inr (hself _)⟩
      · have hl : some ({} : Loop M P K A) = some l := by simpa [setControl, setThread] using hl
        cases hl
        exact ⟨rfl, by simp⟩
      · rw [hself] at hp
        cases hp
        rfl
      · rw [hself] at hp
        cases hp
  | started =>
      exact ⟨hs.thread, hs.queue, fun p hp => by simp [hself] at hp, fun hp => by simp [hself] at hp,
        fun _ => .inl (by simp [setControl, setStart])⟩
  | stopRefused | stopChecked | stopRequest | stopQueue | queueStopped | stopJoined | stopClear | queueCleared | stopped
  | destroyRequest | destroyJoined => cases hopen

theorem apart_entry {h : Nat} {x : Call M P K A} (hx : Later order h x) : Apart (x.entry ρ) := by
  cases x with
  | on h' m' k => cases k <;> trivial
  | onType h' type k =>
      cases k with
      | none => trivial
      | some k =>
          simp only [Call.entry]
          split <;> trivial
  | cancel | clear => trivial
  | publish | publishAny | subscribe | unsubscribe => exact hx.elim

theorem opStep_apart {a : Agent} {s s' : Shared M P K A} {pc pc' : OpPc M P K A} (hs : OpStep ρ a s pc s' pc')
    (hp : Apart pc) : Apart pc' := by
  cases hs with
  | lockTable | table | unlockTable | clear | cleared => trivial
  | _ => exact hp.elim

/-- The mutex of the bus comes first, those of the handlers in their order after it. -/
def rank (order : Nat → Nat) : Lock → Nat
  | .bus => 0
  | .handler h => order h + 1

theorem waits_of_later {h : Nat} {x : Call M P K A} {l : Lock} (hx : Later order h x)
    (hl : waits (x.entry ρ) = some l) : rank order (.handler h) < rank order l := by
  have hlater {h' : Nat} (hlt : order h < order h') (hl : some (Lock.handler h') = some l) :
      rank order (.handler h) < rank order l := by
    cases hl
    exact Nat.succ_lt_succ hlt
  cases x with
  | on h' m' k =>
      cases k with
      | none => cases hl
      | some k => exact hlater hx hl
  | onType h' type k =>
      cases k with
      | none => cases hl
      | some k =>
          simp only [Call.entry] at hl
          split at hl
          · cases hl
          · exact hlater hx hl
  | cancel => exact hlater hx hl
  | clear => cases hl
  | publish | publishAny | subscribe | unsubscribe => exact hx.elim

theorem opStep_known {a : Agent} {s s' : Shared M P K A} {pc pc' : OpPc M P K A} (hs : OpStep ρ a s pc s' pc')
    (hm : ∀ h ∈ s.handlers.items, h < m) (hu : ∀ h, uses h pc = true → h < m) :
    (∀ h ∈ s'.handlers.items, h < m) ∧ ∀ h, uses h pc' = true → h < m := by
  refine ⟨fun h hin => ?_, fun h huse => ?_⟩
  · by_contra hge
    have hnot : uses h pc = false := by
      by_contra hyes
      exact hge (hu h (by simpa using hyes))
    exact (opStep_unused hs hnot fun hmem => hge (hm h hmem)).2.2 hin
  · by_contra hge
    have hnot : uses h pc = false := by
      by_contra hyes
      exact hge (hu h (by simpa using hyes))
    rw [(opStep_unused hs hnot fun hmem => hge (hm h hmem)).2.1] at huse
    cases huse

theorem known_entry {s : State M P K A} {x : Call M P K A} (hv : x.valid m s = true) (h : Nat)
    (hu : uses h (x.entry ρ) = true) : h < m := by
  have hv : (x.handler.all fun h => decide (h < m) && !s.destroyed h) = true := hv
  rw [uses_entry hu] at hv
  simp only [Option.all_some, Bool.and_eq_true, decide_eq_true_eq] at hv
  exact hv.1

theorem Known.length_le {s : State M P K A} (hs : Known m s) : s.shared.handlers.items.length ≤ m := by
  have hnodup : s.shared.handlers.items.Nodup := s.shared.handlers.sorted.imp fun hlt => Nat.ne_of_lt hlt
  have hsub : s.shared.handlers.items.toFinset ⊆ Finset.range m := fun h hin =>
    Finset.mem_range.mpr (hs.subscribed h (List.mem_toFinset.mp hin))
  have hcard := Finset.card_le_card hsub
  rwa [List.toFinset_card_of_nodup hnodup, Finset.card_range] at hcard

variable [DecidableEq M]

theorem move_running {s s' : State M P K A} {a : Action M P K A} {h : Nat} (hs : Running s h) (hp : Placed s')
    (hok : Open order s a) (hn : Move ρ n m s a s') : Running s' h := by
  have hcontrol : Running s' h ∨ (s'.control h = s.control h ∧ s'.start h = s.start h ∧ (s'.thread h = s.thread h ∨
      ∃ pc pc' b, s.thread h = some ⟨pc, b⟩ ∧ s'.thread h = some ⟨pc', b⟩ ∧ (pc' = .exited → b = true))) := by
    rcases move_control hn h with ⟨hc, -, hst, ht⟩ | ⟨x, rfl, hc, -, rfl⟩ | ⟨ch, pc, pc', s₁, rfl, hc, hstep, rfl⟩
    · exact .inr ⟨hc, hst, ht⟩
    · have hx : x = .start := hok
      subst hx
      refine .inl ⟨hs.thread, hs.queue, fun pc hpc => ?_, fun hpc => ?_, fun ht => ?_⟩
      · simp only [setControl, Function.update_self, Option.some.injEq] at hpc
        subst hpc
        rfl
      · simp [setControl, Control.entry] at hpc
      · rcases hs.started ht with hst | hst
        · exact .inl hst
        · rw [hc] at hst
          cases hst
    · exact .inl (controlStep_running hs hc hstep)
  rcases hcontrol with hdone | ⟨hc, hst, ht⟩
  · exact hdone
  · refine ⟨?_, ?_, by rw [hc]; exact hs.control, by rw [hc, hst]; exact hs.unborn, ?_⟩
    · rcases ht with ht | ⟨pc, pc', b, ht, ht', hexit⟩
      · rw [ht]
        exact hs.thread
      · intro l hl
        rw [ht'] at hl
        cases hl
        have hb : b = false := (hs.thread _ ht).1
        exact ⟨hb, fun he => by cases hb.symm.trans (hexit he)⟩
    · by_contra hstop
      obtain ⟨t, q, p, hturn, hview⟩ := move_view hn h
      have hqueue : (s'.shared.cell h).events = q := congrArg QueueThreads.State.queue hview
      have hp' : p = .notifyAll := QueueConsumer.turn_requestStop hturn hs.queue (by rw [← hqueue]; simpa using hstop)
      have hnotify : (view s' h).pc t = .notifyAll := by
        rw [hview, hp']
        exact Function.update_self ..
      have hbad := notifying_control hp hnotify
      rw [hc] at hbad
      cases hs.control _ hbad
    · intro hne
      rw [hc, hst]
      refine hs.started ?_
      rcases ht with ht | ⟨pc, pc', b, ht, -, -⟩
      · rwa [← ht]
      · simp [ht]

theorem reachable_running {s : State M P K A} (hr : Reachable (system ρ n m) (Open order) s) (h : Nat) : Running s h := by
  refine hr.invariant (P := fun s => Running s h) ?_ ?_
  · rintro s rfl
    exact ⟨fun l hl => (by cases hl), rfl, fun pc hc => (by cases hc), fun hc => (by cases hc), fun ht => absurd rfl ht⟩
  · intro s a s' hr hs hok hn
    exact move_running hs (reachable_placed (hr.step hok hn)) hok (next_sound hn).2

/-- What every call in progress keeps to: a property of where it stands that holds at its
beginning and that its instructions keep. -/
theorem move_calls {Q : Agent → OpPc M P K A → Prop} {s s' : State M P K A} {a : Action M P K A}
    (hs : ∀ b pc, inCall s b = some pc → Q b pc)
    (hcall : ∀ c x, a = .call c x → x.valid m s = true → Q (.client c) (x.entry ρ))
    (hinner : ∀ h x, a = .inner h x → x.valid m s = true → Q (.thread h) (x.entry ρ))
    (hstep : ∀ b x pc pc', OpStep ρ b s.shared pc x pc' → Q b pc → Q b pc') (hn : Move ρ n m s a s') :
    ∀ b pc, inCall s' b = some pc → Q b pc := by
  have hupdate {t : State M P K A} {c : Agent} {x : Option (OpPc M P K A)}
      (hi : inCall t = Function.update (inCall s) c x) (hx : ∀ pc, x = some pc → Q c pc) :
      ∀ b pc, inCall t b = some pc → Q b pc := by
    intro b pc hpc
    rw [hi] at hpc
    by_cases he : b = c
    · subst he
      rw [Function.update_self] at hpc
      exact hx pc hpc
    · rw [Function.update_of_ne he] at hpc
      exact hs b pc hpc
  cases hn with
  | call c x _ _ hv =>
      refine hupdate (inCall_setClient s c _) fun pc hpc => ?_
      cases hpc
      exact hcall c x rfl hv
  | control | terminate => exact hs
  | inner h x ev y b ht hv =>
      refine hupdate (inCall_setThread s h _) fun pc hpc => ?_
      cases hpc
      exact hinner h x rfl hv
  | finish h throws ev y b pc ht hf =>
      refine hupdate (inCall_setThread s h _) fun op hop => ?_
      rw [innerCall_finish hf] at hop
      cases hop
  | leave c ch r hc => exact hupdate (inCall_setClient s c none) fun pc hpc => by cases hpc
  | client c ch pc pc' x hc hop =>
      refine hupdate (inCall_setClient (setShared s x) c _) fun op hpc => ?_
      cases hpc
      exact hstep (.client c) x pc pc' hop (hs (.client c) pc hc)
  | thread h ch pc pc' b x ht hop =>
      cases hi : innerCall pc with
      | none =>
          refine hupdate (inCall_setThread (setShared s x) h _) fun op hpc => ?_
          rw [(loopStep_frame hop hi).2.2.2.2] at hpc
          cases hpc
      | some op =>
          have hc : inCall s (.thread h) = some op := by simp [inCall, ht, hi]
          obtain ⟨ev, y, rfl, ⟨r, -, rfl, rfl⟩ | ⟨op', hin, rfl⟩⟩ := loopStep_inner hop hi
          · exact hupdate (inCall_setThread s h _) fun pc hpc => by cases hpc
          · refine hupdate (inCall_setThread (setShared s x) h _) fun pc hpc => ?_
            cases hpc
            exact hstep (.thread h) x op op' hin (hs (.thread h) op hc)
  | controlStep h ch pc pc' s' hc hop =>
      rw [controlStep_inCall hop]
      exact hs

theorem move_handlers {s s' : State M P K A} {a : Action M P K A} (hn : Move ρ n m s a s') :
    s'.shared.handlers = s.shared.handlers ∨ ∃ b pc pc', inCall s b = some pc ∧ OpStep ρ b s.shared pc s'.shared pc' := by
  cases hn with
  | call | control | inner | finish | terminate | leave => exact .inl rfl
  | client c ch pc pc' x hc hop => exact .inr ⟨.client c, pc, pc', hc, hop⟩
  | thread h ch pc pc' b x ht hop =>
      cases hi : innerCall pc with
      | none => exact .inl (loopStep_frame hop hi).2.1
      | some op =>
          obtain ⟨ev, y, rfl, ⟨r, -, rfl, rfl⟩ | ⟨op', hin, rfl⟩⟩ := loopStep_inner hop hi
          · exact .inl rfl
          · exact .inr ⟨.thread h, op, op', by simp [inCall, ht, hi], hin⟩
  | controlStep h ch pc pc' s' hc hop => exact .inl (controlStep_frame hop).2.1

theorem reachable_apart {s : State M P K A} (hr : Reachable (system ρ n m) (Open order) s) :
    ∀ a pc, inCall s a = some pc → ∀ h, a = .thread h → Apart pc := by
  refine hr.invariant (P := fun s => ∀ a pc, inCall s a = some pc → ∀ h, a = .thread h → Apart pc) ?_ ?_
  · rintro s rfl a pc hpc
    cases a <;> cases hpc
  · intro s a s' _ hs hok hn
    refine move_calls (Q := fun b pc => ∀ h, b = .thread h → Apart pc) hs ?_ ?_ ?_ (next_sound hn).2
    · rintro c x - - h he
      cases he
    · rintro h x rfl - _ -
      exact apart_entry hok
    · exact fun b x pc pc' hop hp h he => opStep_apart hop (hp h he)

theorem reachable_inOrder {s : State M P K A} (hr : Reachable (system ρ n m) (Open order) s) :
    Reachable (system ρ n m) (InOrder ρ (rank order)) s := by
  induction hr with
  | init hi => exact .init hi
  | @step s s' a hr hok hn ih =>
      refine .step ih ?_ hn
      cases a with
      | inner h x => exact fun l hl => waits_of_later hok hl
      | call | control | finish => trivial
      | step a ch =>
          intro x h rest r hc l hl
          cases a with
          | client c =>
              have hc : s.client c = some (.visit ⟨x, h :: rest, r⟩) := hc
              simp only [holdsOf, standing, hc, Option.elim_some, holds, List.mem_singleton] at hl
              subst hl
              exact Nat.succ_pos _
          | thread h' => exact (reachable_apart hr _ _ hc h' rfl).elim
          | control h' => cases hc

theorem reachable_ranked {s : State M P K A} (hr : Reachable (system ρ n m) (Open order) s) (a : Agent) :
    Ranked (rank order) (waitsOf s a) (holdsOf s a) := by
  revert a
  refine (reachable_inOrder hr).invariant (P := fun s => ∀ a, Ranked (rank order) (waitsOf s a) (holdsOf s a)) ?_
    fun s a s' _ hs hok hn => move_ranked hs hok (next_sound hn).2
  rintro s rfl a l hl
  cases a <;> cases hl

theorem move_known {s s' : State M P K A} {a : Action M P K A} (hs : Known m s) (hn : Move ρ n m s a s') :
    Known m s' where
  subscribed := by
    rcases move_handlers hn with hsame | ⟨b, pc, pc', hc, hop⟩
    · rw [hsame]
      exact hs.subscribed
    · exact (opStep_known hop hs.subscribed (hs.used b pc hc)).1
  used := by
    refine move_calls (Q := fun _ pc => ∀ h, uses h pc = true → h < m) hs.used ?_ ?_ ?_ hn
    · exact fun c x _ hv h hu => known_entry hv h hu
    · exact fun h' x _ hv h hu => known_entry hv h hu
    · exact fun b x pc pc' hop hu => (opStep_known hop hs.subscribed hu).2

theorem reachable_known {ok : State M P K A → Action M P K A → Prop} {s : State M P K A}
    (hr : Reachable (system ρ n m) ok s) : Known m s := by
  refine hr.invariant (P := Known m) ?_ fun s a s' _ hs _ hn => move_known hs (next_sound hn).2
  rintro s rfl
  refine ⟨fun h hin => (by simp [HandlerSet.empty] at hin), fun a pc hpc => ?_⟩
  cases a <;> cases hpc

/-- The thread of a handler finds something to take past the predicate of Pop(). -/
theorem reachable_supplied {ok : State M P K A → Action M P K A → Prop} {s : State M P K A}
    (hr : Reachable (system ρ n m) ok s) (h : Nat) :
    QueueFifo.Served (s.shared.cell h).events ((view s h).pc (.thread h)) := by
  refine hr.invariant (P := fun s => QueueFifo.Served (s.shared.cell h).events ((view s h).pc (.thread h))) ?_ ?_
  · rintro s rfl
    trivial
  · intro s a s' hr hs hok hn
    have hplaced := reachable_placed (hr.step hok hn)
    obtain ⟨t, q, p, hturn, hview⟩ := move_view (next_sound hn).2 h
    have hqueue : (s'.shared.cell h).events = q := congrArg QueueThreads.State.queue hview
    have hpc : (view s' h).pc = Function.update (view s h).pc t p := congrArg QueueThreads.State.pc hview
    rw [hqueue, hpc]
    refine QueueRest.turn_supplied hs (QueueThreads.reachable_exclusive (reachable_view hr h)) ?_ hturn
    rintro rfl c rfl
    have hself : (view s' h).pc (.thread h) = .lock (.pop c) := by rw [hpc, Function.update_self]
    obtain ⟨-, b, ht⟩ := popping_loop hplaced hself rfl
    cases locks_to_pop hplaced ht
    rfl

end Invariants

end Enigma.BusOpen
