import Enigma.BusView
import Enigma.QueueConsumer

namespace Enigma.HandlerThread

open Transition SyncQueue QueueStep EventBus BusThreads BusStep BusCalls BusView QueueConsumer
open QueueWaiters (Tracked)

variable {M P K A : Type} {ρ : Runtime M P}

inductive Visiting (s : State M P K A) (h : Nat) : Agent → Pc (Event M P A) → Prop
  | outside (a : Agent) : Visiting s h a .idle
  | push {a : Agent} {p : Pc (Event M P A)} (v : Visit M P A) (hc : inCall s a = some (.deliver h p v))
      (ev : Event M P A) (hw : Within (.push ev) p) : Visiting s h a p
  | clear {a : Agent} {p : Pc (Event M P A)} (hc : inCall s a = some (.clear h p)) (hw : Within .clear p) :
      Visiting s h a p
  | pop {p : Pc (Event M P A)} (b : Bool) (ht : s.thread h = some ⟨.pop p, b⟩) (hw : Within (.pop false) p) :
      Visiting s h (.thread h) p
  | stop {p : Pc (Event M P A)} (hc : s.control h = some (.stopQueue p)) (hw : Within .stop p) :
      Visiting s h (.control h) p
  | stopClear {p : Pc (Event M P A)} (hc : s.control h = some (.stopClear p)) (hw : Within .clear p) :
      Visiting s h (.control h) p

theorem Placed.visiting_call {s : State M P K A} (hs : Placed s) (h : Nat) {a : Agent} {pc : OpPc M P K A}
    (hc : inCall s a = some pc) : Visiting s h a (opQueue h pc) := by
  have hpc : InPlace pc := hs.inCall hc
  cases pc with
  | deliver h' p v =>
      obtain ⟨-, ev, hw⟩ := hpc
      simp only [opQueue]
      split
      case isTrue he =>
          subst he
          exact .push v hc ev hw
      case isFalse => exact .outside a
  | clear h' p =>
      simp only [opQueue]
      split
      case isTrue he =>
          subst he
          exact .clear hc hpc
      case isFalse => exact .outside a
  | _ => exact .outside a

theorem Placed.visiting {s : State M P K A} (hs : Placed s) (h : Nat) (a : Agent) :
    Visiting s h a ((view s h).pc a) := by
  cases a with
  | client c =>
      cases hc : s.client c with
      | none =>
          rw [show (view s h).pc (.client c) = .idle by simp [view, viewPc, standing, hc]]
          exact .outside _
      | some pc =>
          rw [view_client hc]
          exact visiting_call hs h hc
  | thread h' =>
      cases ht : s.thread h' with
      | none =>
          rw [show (view s h).pc (.thread h') = .idle by simp [view, viewPc, standing, ht]]
          exact .outside _
      | some l =>
          obtain ⟨pc, b⟩ := l
          rw [view_thread ht]
          cases pc with
          | pop p =>
              have hl : Within (.pop false) p := by simpa [standing, ht, LoopInPlace] using hs.agent (.thread h')
              simp only [loopQueue]
              split
              case isTrue he =>
                  subst he
                  exact .pop b ht hl
              case isFalse => exact .outside _
          | user ev x call =>
              cases call with
              | none => exact .outside _
              | some op => exact visiting_call hs h (by simp [inCall, ht, innerCall])
          | _ => exact .outside _
  | control h' =>
      cases hc : s.control h' with
      | none =>
          rw [show (view s h).pc (.control h') = .idle by simp [view, viewPc, hc]]
          exact .outside _
      | some pc =>
          have hpc := hs.control h' pc hc
          rw [view_control hc]
          cases pc with
          | stopQueue p =>
              simp only [controlQueue]
              split
              case isTrue he =>
                  subst he
                  exact .stop hc hpc
              case isFalse => exact .outside _
          | stopClear p =>
              simp only [controlQueue]
              split
              case isTrue he =>
                  subst he
                  exact .stopClear hc hpc
              case isFalse => exact .outside _
          | _ => exact .outside _

theorem popping_loop {s : State M P K A} (hs : Placed s) {h : Nat} {a : Agent} {p : Pc (Event M P A)}
    (hp : (view s h).pc a = p) (hpop : popping p = true) :
    a = .thread h ∧ ∃ b, s.thread h = some ⟨.pop p, b⟩ := by
  have hv := Placed.visiting hs h a
  rw [hp] at hv
  cases hv with
  | pop b ht hw => exact ⟨rfl, b, ht⟩
  | outside => cases hpop
  | push v hc ev hw | clear hc hw | stop hc hw | stopClear hc hw =>
      rw [not_popping_of_within hw (by simp)] at hpop
      cases hpop

theorem popping_thread {s : State M P K A} (hs : Placed s) {h : Nat} {a : Agent}
    (hp : popping ((view s h).pc a) = true) : a = .thread h :=
  (popping_loop hs rfl hp).1

theorem notifying_control {s : State M P K A} (hs : Placed s) {h : Nat} {a : Agent}
    (hp : (view s h).pc a = .notifyAll) : s.control h = some (.stopQueue .notifyAll) := by
  have hv := Placed.visiting hs h a
  rw [hp] at hv
  cases hv with
  | stop hc hw => exact hc
  | push v hc ev hw | clear hc hw | pop b ht hw | stopClear hc hw => cases hw

theorem locks_to_pop {s : State M P K A} (hs : Placed s) {h : Nat} {op : Op (Event M P A)} {b : Bool}
    (ht : s.thread h = some ⟨.pop (.lock op), b⟩) : op = .pop false := by
  have hin : Within (.pop false) (.lock op) := by simpa [standing, ht, LoopInPlace] using hs.agent (.thread h)
  cases hin
  rfl

structure Orderly (s : State M P K A) (h : Nat) : Prop where
  placed : Placed s
  tracked : Tracked (view s h)
  served : Served (.thread h) (view s h)
  inSection : InSection (view s h)

structure Bounded (n m : Nat) (s : State M P K A) : Prop where
  client : ∀ c pc, s.client c = some pc → c < n
  thread : ∀ h l, s.thread h = some l → h < m
  control : ∀ h pc, s.control h = some pc → h < m

theorem update_some {α : Type} {k : Nat} {f : Nat → Option α} {i : Nat} {x : Option α}
    (hf : ∀ j y, f j = some y → j < k) (hi : ∀ y, x = some y → i < k) (j : Nat) (y : α)
    (hj : Function.update f i x j = some y) : j < k := by
  by_cases he : j = i
  · subst he
    exact hi y (by simpa using hj)
  · exact hf j y (by simpa [he] using hj)

/-- Handler `h` is being destroyed or gone: nobody has a pointer to it. -/
structure Unused (s : State M P K A) (h : Nat) : Prop where
  destroyed : s.destroyed h = true
  unsubscribed : h ∉ s.shared.handlers.items
  unused : ∀ a pc, inCall s a = some pc → uses h pc = false

theorem opStep_unused {a : Agent} {s s' : Shared M P K A} {pc pc' : OpPc M P K A} {h : Nat}
    (hs : OpStep ρ a s pc s' pc') (hu : uses h pc = false) (hm : h ∉ s.handlers.items) :
    s'.cell h = s.cell h ∧ uses h pc' = false ∧ h ∉ s'.handlers.items := by
  have hcell (h' : Nat) (c : Cell M P K A) (hne : (h' == h) = false) : (setCell s h' c).cell h = s.cell h := by
    have hne : h ≠ h' := by
      rintro rfl
      simp at hne
    simp [setCell, hne]
  cases hs with
  | lockBus x =>
      cases x with
      | publish x => exact ⟨rfl, by simpa [BusCall.body, uses] using hm, hm⟩
      | subscribe h' | unsubscribe h' => exact ⟨rfl, hu, hm⟩
  | visited x r => exact ⟨rfl, rfl, hm⟩
  | visit x h' rest r =>
      refine ⟨rfl, ?_, hm⟩
      simp only [uses, List.contains_cons, Bool.or_eq_false_iff] at hu ⊢
      exact ⟨by rw [Bool.beq_comm]; exact hu.1, hu.2⟩
  | readType h' v => exact ⟨rfl, hu, hm⟩
  | lockType h' v =>
      have hu' := hu
      simp only [uses, Bool.or_eq_false_iff] at hu'
      exact ⟨hcell h' _ hu'.1, hu, hm⟩
  | found h' v =>
      have hu' := hu
      simp only [uses, Bool.or_eq_false_iff] at hu'
      exact ⟨hcell h' _ hu'.1, hu, hm⟩
  | notFound h' v =>
      simp only [uses, Bool.or_eq_false_iff] at hu
      exact ⟨hcell h' _ hu.1, hu.2, hm⟩
  | deliver h' p p' q v =>
      have hu' := hu
      simp only [uses, Bool.or_eq_false_iff] at hu'
      exact ⟨hcell h' _ hu'.1, hu, hm⟩
  | delivered h' r v =>
      simp only [uses, Bool.or_eq_false_iff] at hu
      exact ⟨rfl, hu.2, hm⟩
  | insert h' =>
      refine ⟨rfl, rfl, fun hmem => ?_⟩
      rcases HandlerSet.mem_insert.mp hmem with rfl | hmem
      · simp [uses] at hu
      · exact hm hmem
  | erase h' => exact ⟨rfl, rfl, fun hmem => hm (HandlerSet.mem_erase.mp hmem).2⟩
  | unlockBus r => exact ⟨rfl, rfl, hm⟩
  | lockTable h' x | table h' x => exact ⟨hcell h' _ hu, hu, hm⟩
  | unlockTable h' r => exact ⟨hcell h' _ hu, rfl, hm⟩
  | clear h' p p' q => exact ⟨hcell h' _ hu, hu, hm⟩
  | cleared h' r => exact ⟨rfl, rfl, hm⟩

theorem uses_entry {x : Call M P K A} {h : Nat} (hu : uses h (x.entry ρ) = true) : x.handler = some h := by
  cases x with
  | subscribe h' | unsubscribe h' =>
      cases h' with
      | none => cases hu
      | some h' => simpa [Call.entry, uses, Call.handler] using hu
  | on h' m k =>
      cases k with
      | none => cases hu
      | some k => simpa [Call.entry, uses, Call.handler] using hu
  | onType h' type k =>
      cases k with
      | none => cases hu
      | some k =>
          simp only [Call.entry] at hu
          split at hu
          · cases hu
          · simpa [uses, Call.handler] using hu
  | cancel h' m | clear h' => simpa [Call.entry, uses, Call.handler] using hu
  | publish | publishAny => cases hu

theorem not_uses_of_valid {s : State M P K A} {x : Call M P K A} {m h : Nat} (hv : x.valid m s = true)
    (hd : s.destroyed h = true) : uses h (x.entry ρ) = false := by
  by_contra hu
  have hh := uses_entry (by simpa using hu)
  simp [Call.valid, hh, hd] at hv

theorem unused_update {s s' : State M P K A} {h : Nat} {a : Agent} {x : Option (OpPc M P K A)} (hs : Unused s h)
    (hd : s'.destroyed = s.destroyed) (hm : h ∉ s'.shared.handlers.items)
    (hi : inCall s' = Function.update (inCall s) a x) (hx : ∀ pc, x = some pc → uses h pc = false) : Unused s' h where
  destroyed := by rw [hd]; exact hs.destroyed
  unsubscribed := hm
  unused b pc hb := by
    rw [hi] at hb
    by_cases he : b = a
    · subst he
      exact hx pc (by simpa using hb)
    · exact hs.unused b pc (by simpa [he] using hb)

theorem unused_still {s s' : State M P K A} {h : Nat} (hs : Unused s h) (hd : s'.destroyed h = true)
    (hm : s'.shared.handlers = s.shared.handlers) (hi : inCall s' = inCall s) : Unused s' h :=
  ⟨hd, by rw [hm]; exact hs.unsubscribed, by rw [hi]; exact hs.unused⟩

theorem unused_of_unowned {s : State M P K A} {n m h : Nat} (hb : Bounded n m s) (hu : unowned n m s h = true) :
    h ∉ s.shared.handlers.items ∧ ∀ a pc, inCall s a = some pc → uses h pc = false := by
  simp only [unowned, Bool.and_eq_true, List.all_eq_true, List.mem_range, Bool.not_eq_true'] at hu
  obtain ⟨⟨⟨hm, -⟩, hclient⟩, hthread⟩ := hu
  refine ⟨by simpa using hm, fun a pc hc => ?_⟩
  cases a with
  | client c =>
      have hlt := hb.client c pc hc
      simpa [hc] using hclient c hlt
  | thread h' =>
      obtain ⟨l, hl, -⟩ := Option.bind_eq_some_iff.mp hc
      simpa [hc] using hthread h' (hb.thread h' l hl)
  | control h' => cases hc

theorem view_of_unused {s : State M P K A} {h : Nat} {a : Agent} (hu : Unused s h) (ht : a ≠ .thread h)
    (hc : a ≠ .control h) : (view s h).pc a = .idle := by
  have hop (pc : OpPc M P K A) (hpc : inCall s a = some pc) : opQueue h pc = .idle := by
    have hnot := hu.unused a pc hpc
    cases pc with
    | deliver h' p v =>
        simp only [uses, Bool.or_eq_false_iff, beq_eq_false_iff_ne] at hnot
        simp [opQueue, hnot.1]
    | clear h' p =>
        simp only [uses, beq_eq_false_iff_ne] at hnot
        simp [opQueue, hnot]
    | _ => rfl
  cases a with
  | client c =>
      cases hpc : s.client c with
      | none => simp [view, viewPc, standing, hpc]
      | some pc => exact (view_client hpc).trans (hop pc hpc)
  | thread h' =>
      have hne : h' ≠ h := fun he => ht (by rw [he])
      cases hl : s.thread h' with
      | none => simp [view, viewPc, standing, hl]
      | some l =>
          rw [view_thread hl]
          cases hpc : l.pc with
          | pop p => simp [loopQueue, hne]
          | user ev x call =>
              cases call with
              | none => rfl
              | some op => exact hop op (by simp [inCall, hl, hpc, innerCall])
          | _ => rfl
  | control h' =>
      have hne : h' ≠ h := fun he => hc (by rw [he])
      cases hpc : s.control h' with
      | none => simp [view, viewPc, hpc]
      | some pc => cases pc <;> simp [view, viewPc, hpc, controlQueue, hne]

section System

variable [DecidableEq M] {n m : Nat} {ok : State M P K A → Action M P K A → Prop}

theorem reachable_orderly {s : State M P K A} (hr : Reachable (system ρ n m) ok s) (h : Nat) : Orderly s h := by
  have hview := reachable_view hr h
  have hplaced := reachable_placed hr
  have hserved : Served (.thread h) (view s h) := by
    refine hr.invariant (P := fun s => Served (.thread h) (view s h)) ?_ ?_
    · rintro s rfl
      rw [view_initial]
      exact ⟨fun c hc => rfl, fun hw => by cases hw⟩
    · intro s a s' hr hs _ hn
      obtain ⟨t, q, p, hturn, he⟩ := move_view (next_sound hn).2 h
      have hv := reachable_view hr h
      have honly : ∀ t, popping ((view s h).pc t) = true → t = .thread h :=
        fun t ht => popping_thread (reachable_placed hr) ht
      rw [he]
      exact turn_served hs (QueueThreads.reachable_exclusive hv) (QueueWaiters.reachable_tracked hv) honly hturn
  exact ⟨hplaced, QueueWaiters.reachable_tracked hview, hserved, reachable_inSection hview⟩

theorem move_bounded {s s' : State M P K A} {a : Action M P K A} (hs : Bounded n m s) (hn : Move ρ n m s a s') :
    Bounded n m s' := by
  cases hn with
  | call c x hc => exact ⟨update_some hs.client fun _ _ => hc, hs.thread, hs.control⟩
  | control h x hm => exact ⟨hs.client, hs.thread, update_some hs.control fun _ _ => hm⟩
  | inner h x ev y b ht => exact ⟨hs.client, update_some hs.thread fun _ _ => hs.thread h _ ht, hs.control⟩
  | finish h throws ev y b pc ht => exact ⟨hs.client, update_some hs.thread fun _ _ => hs.thread h _ ht, hs.control⟩
  | terminate => exact ⟨hs.client, hs.thread, hs.control⟩
  | leave c ch r hc => exact ⟨update_some hs.client fun _ _ => hs.client c _ hc, hs.thread, hs.control⟩
  | client c ch pc pc' x hc => exact ⟨update_some hs.client fun _ _ => hs.client c _ hc, hs.thread, hs.control⟩
  | thread h ch pc pc' b x ht => exact ⟨hs.client, update_some hs.thread fun _ _ => hs.thread h _ ht, hs.control⟩
  | controlStep h ch pc pc' s' hc hstep =>
      obtain ⟨hclient, l, hthread⟩ := controlStep_thread hstep
      have hm := hs.control h pc hc
      refine ⟨?_, ?_, ?_⟩
      · show ∀ c pc, s'.client c = some pc → c < n
        rw [hclient]
        exact hs.client
      · show ∀ h l, s'.thread h = some l → h < m
        rw [hthread]
        exact update_some hs.thread fun _ _ => hm
      · rw [show (setControl s' h pc').control = Function.update s'.control h pc' from rfl, controlStep_control hstep]
        exact update_some hs.control fun _ _ => hm

theorem reachable_bounded {s : State M P K A} (hr : Reachable (system ρ n m) ok s) : Bounded n m s := by
  refine hr.invariant (P := Bounded n m) ?_ fun s a s' _ hs _ hn => move_bounded hs (next_sound hn).2
  rintro s rfl
  exact ⟨fun c pc hc => (by cases hc), fun h l ht => (by cases ht), fun h pc hc => by cases hc⟩

theorem move_unused {s s' : State M P K A} {a : Action M P K A} {h : Nat} (hs : Unused s h)
    (hn : Move ρ n m s a s') : Unused s' h := by
  cases hn with
  | call c x _ _ hv =>
      refine unused_update hs rfl hs.unsubscribed (inCall_setClient s c _) fun pc hpc => ?_
      cases hpc
      exact not_uses_of_valid hv hs.destroyed
  | control h' x _ hd =>
      refine unused_still hs ?_ rfl (inCall_congr rfl rfl)
      have hne : h ≠ h' := by
        rintro rfl
        rw [hs.destroyed] at hd
        cases hd
      simpa [setControl, setDestroyed, hne] using hs.destroyed
  | inner h' x ev y b ht hv =>
      refine unused_update hs rfl hs.unsubscribed (inCall_setThread s h' _) fun pc hpc => ?_
      cases hpc
      exact not_uses_of_valid hv hs.destroyed
  | finish h' throws ev y b pc ht hf =>
      refine unused_update hs rfl hs.unsubscribed (inCall_setThread s h' _) fun p hp => ?_
      rw [innerCall_finish hf] at hp
      cases hp
  | terminate => exact unused_still hs hs.destroyed rfl (inCall_congr rfl rfl)
  | leave c ch r =>
      exact unused_update hs rfl hs.unsubscribed (inCall_setClient s c none) fun pc hpc => by cases hpc
  | client c ch pc pc' x hc hstep =>
      obtain ⟨-, hu, hm⟩ := opStep_unused hstep (hs.unused (.client c) pc hc) hs.unsubscribed
      refine unused_update hs rfl hm (inCall_setClient (setShared s x) c _) fun p hp => ?_
      cases hp
      exact hu
  | thread h' ch pc pc' b x ht hstep =>
      cases hi : innerCall pc with
      | none =>
          obtain ⟨-, hhandlers, -, -, hi'⟩ := loopStep_frame hstep hi
          refine unused_update hs rfl ?_ (inCall_setThread (setShared s x) h' _) fun p hp => ?_
          · show h ∉ x.handlers.items
            rw [hhandlers]
            exact hs.unsubscribed
          · rw [hi'] at hp
            cases hp
      | some op =>
          have hc : inCall s (.thread h') = some op := by simp [inCall, ht, hi]
          obtain ⟨ev, y, rfl, ⟨r, rfl, rfl, rfl⟩ | ⟨op', hop, rfl⟩⟩ := loopStep_inner hstep hi
          · exact unused_update hs rfl hs.unsubscribed (inCall_setThread s h' _) fun p hp => by cases hp
          · obtain ⟨-, hu, hm⟩ := opStep_unused hop (hs.unused _ _ hc) hs.unsubscribed
            refine unused_update hs rfl hm (inCall_setThread (setShared s x) h' _) fun p hp => ?_
            cases hp
            exact hu
  | controlStep h' ch pc pc' s' hc hstep =>
      have hd : s'.destroyed = s.destroyed := by cases hstep <;> rfl
      exact unused_still hs (by rw [← hs.destroyed, ← hd]; rfl) (controlStep_frame hstep).2.1 (controlStep_inCall hstep)

/-- Once the destructor of a handler has begun nobody else can get at it. -/
theorem reachable_unused {s : State M P K A} (hr : Reachable (system ρ n m) ok s) (h : Nat)
    (hd : s.destroyed h = true) : Unused s h := by
  revert hd
  refine hr.invariant (P := fun s => s.destroyed h = true → Unused s h) ?_ ?_
  · rintro s rfl hd
    cases hd
  · intro s a s' hr hs _ hn hd
    have hmove := (next_sound hn).2
    by_cases hold : s.destroyed h = true
    · exact move_unused (hs hold) hmove
    · -- the handler is being destroyed in this very step
      cases hmove with
      | control h' x _ _ _ hu =>
          by_cases he : h = h'
          · subst he
            have hx : x = .destroy := by simpa [setControl, setDestroyed] using hd
            obtain ⟨hm, hcalls⟩ := unused_of_unowned (reachable_bounded hr) (hu hx)
            have hsame : inCall (setControl (setDestroyed s h (x == .destroy)) h (some x.entry)) = inCall s :=
              inCall_congr rfl rfl
            exact ⟨hd, hm, by rw [hsame]; exact hcalls⟩
          · exact absurd (by simpa [setControl, setDestroyed, he] using hd) hold
      | controlStep h' ch pc pc' s' hc hstep =>
          have hsame : s'.destroyed = s.destroyed := by cases hstep <;> rfl
          exact absurd (by rw [← hd]; exact congrFun hsame.symm h) hold
      | call | inner | finish | terminate | leave | client | thread => exact absurd hd hold

/-- A call of Start, Stop or the destructor of handler `h` begins, or moves on, or
nothing happens to it. The thread of the handler exits only when it is asked to. -/
theorem move_control {s s' : State M P K A} {a : Action M P K A} (hn : Move ρ n m s a s') (h : Nat) :
    (s'.control h = s.control h ∧ s'.destroyed h = s.destroyed h ∧ s'.start h = s.start h ∧
      (s'.thread h = s.thread h ∨
        ∃ pc pc' b, s.thread h = some ⟨pc, b⟩ ∧ s'.thread h = some ⟨pc', b⟩ ∧ (pc' = .exited → b = true))) ∨
    (∃ x, a = .control h x ∧ s.control h = none ∧ s.destroyed h = false ∧
      s' = setControl (setDestroyed s h (x == .destroy)) h (some x.entry)) ∨
    ∃ ch pc pc' s₁, a = .step (.control h) ch ∧ s.control h = some pc ∧ ControlStep h s pc s₁ pc' ∧
      s' = setControl s₁ h pc' := by
  cases hn with
  | call | terminate | leave | client => exact .inl ⟨rfl, rfl, rfl, .inl rfl⟩
  | control h' x _ hd hc =>
      by_cases he : h = h'
      · subst he
        exact .inr (.inl ⟨x, rfl, hc, hd, rfl⟩)
      · exact .inl ⟨by simp [setControl, setDestroyed, he], by simp [setControl, setDestroyed, he], rfl, .inl rfl⟩
  | inner h' x ev y b ht =>
      refine .inl ⟨rfl, rfl, rfl, ?_⟩
      by_cases he : h = h'
      · subst he
        exact .inr ⟨.user ev y none, .user ev y (some (x.entry ρ)), b, ht, by simp [setThread], by simp⟩
      · exact .inl (by simp [setThread, he])
  | finish h' throws ev y b pc ht hf =>
      refine .inl ⟨rfl, rfl, rfl, ?_⟩
      by_cases he : h = h'
      · subst he
        refine .inr ⟨.user ev y none, pc, b, ht, by simp [setThread], ?_⟩
        rcases finish_cases hf with rfl | rfl <;> simp
      · exact .inl (by simp [setThread, he])
  | thread h' ch pc pc' b x ht hs =>
      refine .inl ⟨rfl, rfl, rfl, ?_⟩
      by_cases he : h = h'
      · subst he
        refine .inr ⟨pc, pc', b, ht, by simp [setThread], ?_⟩
        rintro rfl
        cases hs with
        | exit hb => exact hb
      · exact .inl (by simp [setThread, setShared, he])
  | controlStep h' ch pc pc' s₁ hc hs =>
      by_cases he : h = h'
      · subst he
        exact .inr (.inr ⟨ch, pc, pc', s₁, rfl, hc, hs, rfl⟩)
      · have hcontrol := congrFun (controlStep_control hs) h
        have hdestroyed : s₁.destroyed = s.destroyed := by cases hs <;> rfl
        have hstart : s₁.start h = s.start h := by cases hs <;> simp [setStart, setThread, setShared, requestStop, he]
        have hthread := ((controlStep_frame hs).2.2 h he).2
        exact .inl ⟨by simpa [setControl, he] using hcontrol, congrFun hdestroyed h, hstart, .inl hthread⟩

/-- Once the destructor has begun, the handler is left to its own thread and to
the destructor. -/
theorem move_private {s s' : State M P K A} {a : Action M P K A} {h : Nat} (hu : Unused s h)
    (hn : Move ρ n m s a s') :
    (s'.shared.cell h = s.shared.cell h ∧ s'.control h = s.control h ∧ (s'.thread h = s.thread h ∨
      ∃ ev y call b pc', s.thread h = some ⟨.user ev y call, b⟩ ∧ s'.thread h = some ⟨pc', b⟩ ∧
        ∀ p, pc' ≠ .pop p)) ∨
    (∃ ch pc pc' b x, a = .step (.thread h) ch ∧ s.thread h = some ⟨pc, b⟩ ∧ innerCall pc = none ∧
      LoopStep ρ h s.shared b pc x pc' ∧ s' = setThread (setShared s x) h (some ⟨pc', b⟩)) ∨
    ∃ ch pc pc' s₁, a = .step (.control h) ch ∧ s.control h = some pc ∧ ControlStep h s pc s₁ pc' ∧
      s' = setControl s₁ h pc' := by
  cases hn with
  | call | terminate | leave => exact .inl ⟨rfl, rfl, .inl rfl⟩
  | control h' x _ hd =>
      have hne : h ≠ h' := by
        rintro rfl
        rw [hu.destroyed] at hd
        cases hd
      exact .inl ⟨rfl, by simp [setControl, setDestroyed, hne], .inl rfl⟩
  | inner h' x ev y b ht =>
      by_cases he : h = h'
      · subst he
        exact .inl ⟨rfl, rfl, .inr ⟨ev, y, none, b, .user ev y (some (x.entry ρ)), ht, by simp [setThread], by simp⟩⟩
      · exact .inl ⟨rfl, rfl, .inl (by simp [setThread, he])⟩
  | finish h' throws ev y b pc ht hf =>
      by_cases he : h = h'
      · subst he
        refine .inl ⟨rfl, rfl, .inr ⟨ev, y, none, b, pc, ht, by simp [setThread], fun p => ?_⟩⟩
        rcases finish_cases hf with rfl | rfl <;> simp
      · exact .inl ⟨rfl, rfl, .inl (by simp [setThread, he])⟩
  | client c ch pc pc' x hc hs =>
      exact .inl ⟨(opStep_unused hs (hu.unused (.client c) pc hc) hu.unsubscribed).1, rfl, .inl rfl⟩
  | thread h' ch pc pc' b x ht hs =>
      cases hi : innerCall pc with
      | none =>
          by_cases he : h = h'
          · subst he
            exact .inr (.inl ⟨ch, pc, pc', b, x, rfl, ht, hi, hs, rfl⟩)
          · exact .inl ⟨(loopStep_frame hs hi).2.2.1 h he, rfl, .inl (by simp [setThread, setShared, he])⟩
      | some op =>
          have hc : inCall s (.thread h') = some op := by simp [inCall, ht, hi]
          obtain ⟨ev, y, rfl, hcall⟩ := loopStep_inner hs hi
          have huser : x.cell h = s.shared.cell h ∧ ∀ p, pc' ≠ .pop p := by
            rcases hcall with ⟨r, -, rfl, rfl⟩ | ⟨op', hop, rfl⟩
            · exact ⟨rfl, by simp⟩
            · exact ⟨(opStep_unused hop (hu.unused _ _ hc) hu.unsubscribed).1, by simp⟩
          refine .inl ⟨huser.1, rfl, ?_⟩
          by_cases he : h = h'
          · subst he
            exact .inr ⟨ev, y, some op, b, pc', ht, by simp [setThread], huser.2⟩
          · exact .inl (by simp [setThread, setShared, he])
  | controlStep h' ch pc pc' s₁ hc hs =>
      by_cases he : h = h'
      · subst he
        exact .inr (.inr ⟨ch, pc, pc', s₁, rfl, hc, hs, rfl⟩)
      · obtain ⟨hcell, hthread⟩ := (controlStep_frame hs).2.2 h he
        have hcontrol := congrFun (controlStep_control hs) h
        exact .inl ⟨hcell, by simpa [setControl, he] using hcontrol, .inl hthread⟩

theorem next_loop {s : State M P K A} {h : Nat} {ch : Choice Agent} {pc pc' : LoopPc M P K A} {b : Bool}
    {x : Shared M P K A} (hterm : s.terminated = false) (ht : s.thread h = some ⟨pc, b⟩)
    (hs : loopStep ρ h s.shared b ch pc = some (x, pc')) :
    next ρ n m s (.step (.thread h) ch) = some (setThread (setShared s x) h (some ⟨pc', b⟩)) := by
  simp [next, hterm, act, ht, hs, setShared]

theorem loopStep_pop {s : Shared M P K A} {h : Nat} {ch : Choice Agent} {p p' : Pc (Event M P A)} {b : Bool}
    {q : Queue Agent (Event M P A)} (hp : ∀ r, p ≠ .returned r)
    (hs : step false (.thread h) (s.cell h).events p ch = some (q, p')) :
    loopStep ρ h s b ch (.pop p) = some (setEvents s h q, .pop p') := by
  cases p with
  | returned r => exact absurd rfl (hp r)
  | _ => simp [loopStep, inQueue, hs, setEvents]

theorem next_pop_blocked {s : State M P K A} {h : Nat} {ch : Choice Agent} {c b : Bool}
    (ht : s.thread h = some ⟨.pop (.wait c), b⟩) (ha : ¬ CondVar.Awake (s.shared.cell h).events.cv (.thread h))
    (hch : ch ≠ .spurious) : next ρ n m s (.step (.thread h) ch) = none := by
  have hstep : step false (.thread h) (s.shared.cell h).events (.wait c) ch = none := by
    cases ch with
    | run => simp [step, ha]
    | notify w => rfl
    | spurious => exact absurd rfl hch
  unfold next
  split
  · rfl
  · simp [act, ht, loopStep, inQueue, hstep]

theorem next_call {s : State M P K A} {t : Agent} {ch : Choice Agent} {pc pc' : OpPc M P K A} {x : Shared M P K A}
    (hterm : s.terminated = false) (hc : inCall s t = some pc) (hret : ∀ r, pc ≠ .returned r)
    (hs : opStep ρ t s.shared ch pc = some (x, pc')) :
    ∃ s', next ρ n m s (.step t ch) = some s' ∧ s'.shared = x ∧ s'.terminated = false ∧
      inCall s' = Function.update (inCall s) t (some pc') ∧ ∀ h, t ≠ .thread h → s'.thread h = s.thread h := by
  cases t with
  | client c =>
      have hc : s.client c = some pc := hc
      refine ⟨setClient (setShared s x) c (some pc'), ?_, rfl, hterm, ?_, fun _ _ => rfl⟩
      · cases pc with
        | returned r => exact absurd rfl (hret r)
        | _ => simp [next, hterm, act, hc, hs, setClient, setShared]
      · rw [inCall_setClient, inCall_setShared]
  | thread h' =>
      obtain ⟨⟨lpc, b⟩, ht, hi⟩ := Option.bind_eq_some_iff.mp hc
      cases lpc with
      | user ev y call =>
          have hi : call = some pc := hi
          subst hi
          refine ⟨setThread (setShared s x) h' (some ⟨.user ev y (some pc'), b⟩), ?_, rfl, hterm, ?_, fun h hne => ?_⟩
          · have hloop : loopStep ρ h' s.shared b ch (.user ev y (some pc)) = some (x, .user ev y (some pc')) := by
              cases pc with
              | returned r => exact absurd rfl (hret r)
              | _ => simp [loopStep, hs]
            simp [next, hterm, act, ht, hloop, setShared]
          · rw [inCall_setThread, inCall_setShared]
            rfl
          · have hne : h ≠ h' := fun he => hne (by rw [he])
            simp [setThread, setShared, hne]
      | _ => cases hi
  | control h' => cases hc

end System

end Enigma.HandlerThread
