import Enigma.Rest
import Enigma.BusOpen
import Enigma.BusCancel

namespace Enigma.BusRest

open Transition SyncQueue QueueStep EventBus BusThreads BusStep BusCalls BusLocks BusView HandlerThread BusOpen Rest
open QueueRest (popRank pushRank clearRank load)

variable {M P K A : Type} {ρ : Runtime M P} {n m : Nat} {order : Nat → Nat}

section Measure

/-- The steps of a call, with those of the threads that it wakes up, where there are `m`
handlers: 27 for each one that a Publish has still to visit. -/
def opRank (m : Nat) : OpPc M P K A → Nat
  | .lockBus _ => 27 * m + 4
  | .visit v => 27 * v.rest.length + 3
  | .lockType _ v => 27 * v.rest.length + 29
  | .readType _ v => 27 * v.rest.length + 28
  | .unlockType _ _ v => 27 * v.rest.length + 27
  | .deliver _ p v => 27 * v.rest.length + 4 + pushRank 7 p
  | .insert _ | .erase _ => 3
  | .unlockBus _ => 2
  | .lockTable _ _ => 4
  | .table _ _ => 3
  | .unlockTable _ _ => 2
  | .clear _ p => clearRank p + 2
  | .returned _ => 1

def codeRank : Code P K → Nat
  | .on _ _ => 8
  | .ack | .onType _ => 7

def loopRank (m : Nat) : LoopPc M P K A → Nat
  | .check => 5
  | .unlock => 6
  | .user _ x inner => codeRank x + inner.elim 0 (opRank m)
  | .call _ _ => 9
  | .find _ => 10
  | .lock _ => 11
  | .pop _ | .exited => 0

def popOf : Option (Loop M P K A) → Pc (Event M P A)
  | some ⟨.pop p, _⟩ => p
  | _ => .idle

def threadRank (m h : Nat) (q : Queue Agent (Event M P A)) (t : Option (Loop M P K A)) : Nat :=
  load 7 (.thread h) q (popOf t) + t.elim 0 fun l => loopRank m l.pc

def threadsRank (m : Nat) (s : Shared M P K A) (t : Nat → Option (Loop M P K A)) : Nat :=
  ∑ h ∈ Finset.range m, threadRank m h (s.cell h).events (t h)

def controlRank : ControlPc M P A → Nat
  | .startCheck => 8
  | .startSpawn => 7
  | .startSet => 1
  | _ => 0

def measure (n m : Nat) (s : State M P K A) : Nat :=
  if s.terminated then 0
  else (∑ c ∈ Finset.range n, (s.client c).elim 0 (opRank m)) + threadsRank m s.shared s.thread +
    (∑ h ∈ Finset.range m, (s.control h).elim 0 controlRank) + 1

theorem threadsRank_congr {s s' : Shared M P K A} (t : Nat → Option (Loop M P K A))
    (h : ∀ h, (s'.cell h).events = (s.cell h).events) : threadsRank m s' t = threadsRank m s t := by
  simp only [threadsRank, h]

theorem threadsRank_setEvents {h : Nat} {x x' : Nat} {s : Shared M P K A} {q : Queue Agent (Event M P A)}
    (t : Nat → Option (Loop M P K A)) (hh : h < m)
    (hlt : ∀ pu, load 7 (.thread h) q pu + x' < load 7 (.thread h) (s.cell h).events pu + x) :
    threadsRank m (setEvents s h q) t + x' < threadsRank m s t + x := by
  have hsum := sum_of_eq_elsewhere (f := fun h => threadRank m h (s.cell h).events (t h))
    (g := fun h' => threadRank m h' ((setEvents s h q).cell h').events (t h')) hh fun h' hne => by
      rw [(setEvents_cell s h q).1, if_neg (Ne.symm hne)]
  have hpop := hlt (popOf (t h))
  simp only [setEvents_self, threadRank] at hsum
  simp only [threadsRank, threadRank]
  omega

theorem threadsRank_update {h : Nat} {s : Shared M P K A} (t : Nat → Option (Loop M P K A))
    (l : Option (Loop M P K A)) (hh : h < m) : threadsRank m s (Function.update t h l) +
      threadRank m h (s.cell h).events (t h) = threadsRank m s t + threadRank m h (s.cell h).events l := by
  have hsum := sum_of_eq_elsewhere (f := fun h => threadRank m h (s.cell h).events (t h))
    (g := fun h' => threadRank m h' (s.cell h').events (Function.update t h l h')) hh fun h' hne => by
      rw [Function.update_of_ne hne]
  simpa [threadsRank] using hsum

/-- Every step of a call uses up some of what it and the threads that it wakes up still do. -/
theorem opStep_rank {a : Agent} {s s' : Shared M P K A} {pc pc' : OpPc M P K A} (hs : OpStep ρ a s pc s' pc')
    (hp : InPlace pc) (hu : ∀ h, uses h pc = true → h < m) (hm : s.handlers.items.length ≤ m)
    (t : Nat → Option (Loop M P K A)) :
    threadsRank m s' t + opRank m pc' < threadsRank m s t + opRank m pc := by
  have hless (hq : ∀ h, (s'.cell h).events = (s.cell h).events) (hlt : opRank m pc' < opRank m pc) :
      threadsRank m s' t + opRank m pc' < threadsRank m s t + opRank m pc := by
    rw [threadsRank_congr t hq]
    exact Nat.add_lt_add_left hlt _
  cases hs with
  | lockBus x =>
      refine hless (fun h => rfl) ?_
      cases x with
      | publish x =>
          simp only [BusCall.body, opRank]
          omega
      | subscribe | unsubscribe =>
          simp only [BusCall.body, opRank]
          omega
  | visit =>
      refine hless (fun h => rfl) ?_
      simp only [opRank, List.length_cons]
      omega
  | visited | readType | delivered | insert | erase | unlockBus | cleared =>
      refine hless (fun h => rfl) ?_
      simp only [opRank, pushRank, clearRank]
      omega
  | lockType h v | notFound h v | lockTable h x | unlockTable h r =>
      refine hless (fun h' => (setMutex_cell s h _).1) ?_
      simp only [opRank]
      omega
  | found h v =>
      refine hless (fun h' => (setMutex_cell s h _).1) ?_
      simp only [opRank, pushRank]
      omega
  | table h x =>
      refine hless (fun h' => setHandles_events s h _) ?_
      simp only [opRank]
      omega
  | deliver h p p' q v hs =>
      obtain ⟨-, ev, hw⟩ := hp
      have hlt := threadsRank_setEvents (m := m) t (hu h (by simp [uses])) fun pu =>
        QueueRest.step_pushRank (n := 7) hs hw (.thread h) pu
      simp only [opRank]
      omega
  | clear h p p' q hs =>
      have hlt := threadsRank_setEvents (m := m) t (hu h (by simp [uses])) fun pu =>
        QueueRest.step_clearRank (n := 7) hs hp (.thread h) pu
      simp only [opRank]
      omega

variable [DecidableEq M]

theorem loopStep_rank {h : Nat} {ch : Choice Agent} {s s' : Shared M P K A} {pc pc' : LoopPc M P K A}
    (he : loopStep ρ h s false ch pc = some (s', pc')) (hch : ch ≠ .spurious) (hp : LoopInPlace h pc)
    (hi : innerCall pc = none) (hstop : (s.cell h).events.stopRequested = false)
    (hone : CondVar.Awake (s.cell h).events.cv (.thread h) → Agent.thread h ∉ (s.cell h).events.cv.waiting) :
    threadRank m h (s'.cell h).events (some ⟨pc', false⟩) < threadRank m h (s.cell h).events (some ⟨pc, false⟩) := by
  have hs := loopStep_sound he
  cases hs with
  | exit hb => cases hb
  | pop p p' q hq =>
      have hw : Within (.pop false) p := hp
      have hne : p' ≠ p := by
        cases p with
        | returned r => cases hq
        | _ =>
            simp only [loopStep, inQueue, Option.map_map, Option.map_eq_some_iff] at he
            obtain ⟨r, hstep, hpair⟩ := he
            simp only [Function.comp_apply, Prod.mk.injEq, LoopPc.pop.injEq] at hpair
            rw [← hpair.2]
            exact QueueRest.step_ne hstep hch hw
      have hlt := QueueRest.step_load (n := 7) hq hw hstop hone hne
      rw [setEvents_self]
      exact Nat.add_lt_add_right hlt _
  | lock | unlock =>
      rw [(setMutex_cell s h _).1]
      simp [threadRank, popOf, loopRank]
  | innerReturned | inner => cases hi
  | enter | got | nothing | notFound | found | castFails | cast | callType =>
      simp [threadRank, popOf, loopRank, codeRank, load, popRank]

theorem loopStep_threads {h : Nat} {ch : Choice Agent} {s : State M P K A} {x : Shared M P K A} {pc pc' : LoopPc M P K A}
    (ht : s.thread h = some ⟨pc, false⟩) (he : loopStep ρ h s.shared false ch pc = some (x, pc')) (hch : ch ≠ .spurious)
    (hp : Placed s) (hk : Known m s) (hh : h < m) (hstop : (s.shared.cell h).events.stopRequested = false)
    (hone : CondVar.Awake (s.shared.cell h).events.cv (.thread h) → Agent.thread h ∉ (s.shared.cell h).events.cv.waiting) :
    threadsRank m x (Function.update s.thread h (some ⟨pc', false⟩)) < threadsRank m s.shared s.thread := by
  have hplace : LoopInPlace h pc := by simpa [standing, ht] using hp.agent (.thread h)
  cases hi : innerCall pc with
  | none =>
      have hlt := loopStep_rank (m := m) he hch hplace hi hstop hone
      have hframe := (loopStep_frame (loopStep_sound he) hi).2.2.1
      have hsum := sum_of_eq_elsewhere (f := fun h => threadRank m h (s.shared.cell h).events (s.thread h))
        (g := fun h' => threadRank m h' (x.cell h').events (Function.update s.thread h (some ⟨pc', false⟩) h')) hh
        fun h' hne => by rw [hframe h' hne, Function.update_of_ne hne]
      simp only [Function.update_self, ht] at hsum
      simp only [threadsRank]
      omega
  | some op =>
      have hc : inCall s (.thread h) = some op := by simp [inCall, ht, hi]
      obtain ⟨ev, y, rfl, ⟨r, rfl, rfl, rfl⟩ | ⟨op', hop, rfl⟩⟩ := loopStep_inner (loopStep_sound he) hi
      · have hsum := threadsRank_update (m := m) (s := s.shared) s.thread (some ⟨.user ev y none, false⟩) hh
        simp only [ht, threadRank, popOf, loopRank, Option.elim_some, Option.elim_none, opRank] at hsum
        omega
      · -- the thread apart from the call of its callback
        have hlt := opStep_rank hop (hp.inCall hc) (hk.used _ op hc) hk.length_le
          (Function.update s.thread h (some ⟨.user ev y none, false⟩))
        have hold := threadsRank_update (m := m) (s := s.shared) s.thread (some ⟨.user ev y none, false⟩) hh
        have hnew := threadsRank_update (m := m) (s := x) (Function.update s.thread h (some ⟨.user ev y none, false⟩))
          (some ⟨.user ev y (some op'), false⟩) hh
        simp only [ht, Function.update_self, Function.update_idem, threadRank, popOf, loopRank, Option.elim_some,
          Option.elim_none] at hold hnew
        omega

omit [DecidableEq M] in
theorem finish_rank {ev : Event M P A} {y : Code P K} {throws : Bool} {pc : LoopPc M P K A}
    (hf : y.finish ev throws = some pc) : loopRank m pc < loopRank m (.user ev y none) := by
  cases y with
  | on k x =>
      simp only [Code.finish, Option.some.injEq] at hf
      subst hf
      split <;> simp [loopRank, codeRank]
  | ack =>
      cases hf
      simp [loopRank, codeRank]
  | onType k =>
      simp only [Code.finish] at hf
      split at hf
      · cases hf
      · cases hf
        simp [loopRank, codeRank]

theorem open_move {s s' : State M P K A} {a : Action M P K A} (hr : Reachable (system ρ n m) (Open order) s)
    (ha : Moves a) (hn : (system ρ n m).next s a = some s') : Reachable (system ρ n m) (Open order) s' :=
  .step hr (open_of_moves ha) hn

omit [DecidableEq M] in
theorem controlStep_measure {s s₁ : State M P K A} {h : Nat} {pc : ControlPc M P A} {pc' : Option (ControlPc M P A)}
    (hterm : s.terminated = false) (hb : Bounded n m s) (hc : s.control h = some pc) (hopen : HandlerLife.stopping pc = false)
    (hs : ControlStep h s pc s₁ pc') : measure n m (setControl s₁ h pc') < measure n m s := by
  have hsum := sum_of_eq_elsewhere (f := fun h => (s.control h).elim 0 controlRank)
    (g := fun h' => (Function.update s.control h pc' h').elim 0 controlRank) (hb.control h _ hc)
    fun h' hne => by rw [Function.update_of_ne hne]
  simp only [hc, Function.update_self, Option.elim_some] at hsum
  cases hs with
  | spawn ht =>
      have hnew := threadsRank_update (m := m) (s := s.shared) s.thread (some {}) (hb.control h _ hc)
      simp only [ht, threadRank, popOf, Option.elim_some, Option.elim_none, loopRank] at hnew
      simp only [Option.elim_some, controlRank] at hsum
      simp only [measure, setControl, setThread, hterm, Bool.false_eq_true, if_false]
      omega
  | startRefused | startChecked | started =>
      simp only [Option.elim_some, Option.elim_none, controlRank] at hsum
      simp only [measure, setControl, setStart, hterm, Bool.false_eq_true, if_false]
      omega
  | stopRefused | stopChecked | stopRequest | stopQueue | queueStopped | stopJoined | stopClear | queueCleared
  | stopped | destroyRequest | destroyJoined => cases hopen

theorem move_measure {s s' : State M P K A} {a : Action M P K A} (hr : Reachable (system ρ n m) (Open order) s)
    (ha : Moves a) (hn : (system ρ n m).next s a = some s') : measure n m s' < measure n m s := by
  have hp := reachable_placed hr
  have hk := reachable_known hr
  have hb := reachable_bounded hr
  have hterm : s.terminated = false := (next_sound hn).1
  have hact : act ρ n m s a = some s' := by simpa [system, next, hterm] using hn
  cases a with
  | call | control | inner => exact ha.elim
  | finish h throws =>
      have hmove : Move ρ n m s (.finish h throws) s' := act_sound hact
      cases hmove with
      | terminate => simp [measure, hterm]
      | finish _ _ ev y b pc ht hf =>
          have hlt := finish_rank (m := m) hf
          have hold : popOf (some ⟨.user ev y none, b⟩ : Option (Loop M P K A)) = .idle := rfl
          have hnew : popOf (some ⟨pc, b⟩) = (.idle : Pc (Event M P A)) := by
            rcases finish_cases hf with rfl | rfl <;> rfl
          have hsum := threadsRank_update (m := m) (s := s.shared) s.thread (some ⟨pc, b⟩) (hb.thread h _ ht)
          simp only [ht, threadRank, hold, hnew, Option.elim_some] at hsum
          simp only [measure, setThread, hterm, Bool.false_eq_true, if_false]
          omega
  | step a ch =>
      cases a with
      | client c =>
          have hmove : Move ρ n m s (.step (.client c) ch) s' := act_sound hact
          cases hmove with
          | leave _ _ r hc =>
              have hsum := sum_of_eq_elsewhere (f := fun c => (s.client c).elim 0 (opRank m))
                (g := fun d => (Function.update s.client c none d).elim 0 (opRank m)) (hb.client c _ hc)
                fun d hne => by rw [Function.update_of_ne hne]
              simp only [hc, Function.update_self, Option.elim_some, Option.elim_none, opRank] at hsum
              simp only [measure, setClient, hterm, Bool.false_eq_true, if_false]
              omega
          | client _ _ pc pc' x hc hstep =>
              have hsum := sum_of_eq_elsewhere (f := fun c => (s.client c).elim 0 (opRank m))
                (g := fun d => (Function.update s.client c (some pc') d).elim 0 (opRank m)) (hb.client c _ hc)
                fun d hne => by rw [Function.update_of_ne hne]
              have hlt := opStep_rank hstep (hp.inCall (a := .client c) hc) (hk.used (.client c) pc hc) hk.length_le s.thread
              simp only [hc, Function.update_self, Option.elim_some] at hsum
              simp only [measure, setClient, setShared, hterm, Bool.false_eq_true, if_false]
              omega
      | thread h =>
          simp only [act] at hact
          split at hact
          case h_2 => cases hact
          case h_1 l ht =>
              obtain ⟨⟨x, pc'⟩, he, rfl⟩ := Option.map_eq_some_iff.mp hact
              have hrun := reachable_running hr h
              obtain ⟨pc, b⟩ := l
              obtain rfl : b = false := (hrun.thread _ ht).1
              have hlt := loopStep_threads ht he ha hp hk (hb.thread h _ ht) hrun.queue fun hawake hin =>
                (reachable_orderly hr h).tracked.not_awake hin hawake
              simp only [measure, setThread, hterm, Bool.false_eq_true, if_false]
              omega
      | control h =>
          obtain ⟨pc, hc, ho⟩ := Option.bind_eq_some_iff.mp hact
          obtain ⟨s₁, pc', hs, rfl⟩ := controlStep_sound ho
          exact controlStep_measure hterm hb hc ((reachable_running hr h).control pc hc) hs

theorem settles (ρ : Runtime M P) (n m : Nat) (order : Nat → Nat) :
    Settles (system ρ n m) (Moves (K := K) (A := A)) (Reachable (system ρ n m) (Open order)) (measure n m) where
  keeps _ _ _ hr ha hn := open_move hr ha hn
  drops _ _ _ hr ha hn := move_measure hr ha hn

end Measure

section AtRest

variable {s : State M P K A} {a : Agent} {pc : OpPc M P K A}

theorem step_idle {b : Bool} {q : Queue Agent (Event M P A)} (ch : Choice Agent) : step b a q .idle ch = none := by
  cases ch <;> rfl

theorem step_returned {b : Bool} {q : Queue Agent (Event M P A)} (r : Ret (Event M P A)) (ch : Choice Agent) :
    step b a q (.returned r) ch = none := by
  cases ch <;> rfl

theorem opQueue_stuck {x : Shared M P K A} {ch : Choice Agent} (he : opStep ρ a x ch pc = none) (h : Nat) :
    step false a (x.cell h).events (opQueue h pc) ch = none := by
  cases pc with
  | deliver h' p v | clear h' p =>
      simp only [opQueue]
      split
      case isFalse => exact step_idle ch
      case isTrue hh =>
          subst hh
          cases p with
          | returned r => exact step_returned r ch
          | _ => simpa [opStep, inQueue] using he
  | _ => exact step_idle ch

variable [DecidableEq M]

theorem act_stuck {b : Action M P K A} (hrest : AtRest (system ρ n m) Moves s) (hterm : s.terminated = false)
    (hb : Moves b) : act ρ n m s b = none := by
  have hn : next ρ n m s b = none := hrest b hb
  simpa [next, hterm] using hn

theorem call_stuck (hrest : AtRest (system ρ n m) Moves s) (hterm : s.terminated = false) (hc : inCall s a = some pc) :
    (∀ r, pc ≠ .returned r) ∧ ∀ ch, ch ≠ .spurious → opStep ρ a s.shared ch pc = none := by
  have hret (r : Option Bool) : pc ≠ .returned r := by
    rintro rfl
    have hn := act_stuck (b := .step a .run) hrest hterm (by simp [Moves])
    cases a with
    | client c =>
        have hc : s.client c = some (.returned r) := hc
        simp [act, hc] at hn
    | thread h =>
        obtain ⟨⟨lpc, b⟩, ht, hi⟩ := Option.bind_eq_some_iff.mp hc
        cases lpc with
        | user ev x inner =>
            have hi : inner = some (.returned r) := hi
            subst hi
            simp [act, ht, loopStep] at hn
        | _ => cases hi
    | control h => cases hc
  refine ⟨hret, fun ch hch => ?_⟩
  cases hs : opStep ρ a s.shared ch pc with
  | none => rfl
  | some r =>
      obtain ⟨s', hn, -⟩ := next_call (n := n) (m := m) hterm hc hret hs
      cases (hrest (.step a ch) hch).symm.trans hn

theorem rest_still (hr : Reachable (system ρ n m) (Open order) s) (hrest : AtRest (system ρ n m) Moves s)
    (hterm : s.terminated = false) (h : Nat) : QueueRest.Still false (view s h) := by
  intro a ch hch
  show step false a (s.shared.cell h).events (viewPc s h a) ch = none
  cases a with
  | client c =>
      cases hc : s.client c with
      | none =>
          simp only [viewPc, standing, hc]
          exact step_idle ch
      | some pc =>
          simp only [viewPc, standing, hc]
          exact opQueue_stuck ((call_stuck hrest hterm (a := .client c) hc).2 ch hch) h
  | thread h' =>
      cases ht : s.thread h' with
      | none =>
          simp only [viewPc, standing, ht]
          exact step_idle ch
      | some l =>
          obtain ⟨lpc, b⟩ := l
          simp only [viewPc, standing, ht, Option.elim_some]
          cases lpc with
          | pop p =>
              simp only [loopQueue]
              split
              case isFalse => exact step_idle ch
              case isTrue hh =>
                  subst hh
                  have hn := act_stuck (b := .step (.thread h') ch) hrest hterm hch
                  cases p with
                  | returned r => exact step_returned r ch
                  | _ => simpa [act, ht, loopStep, inQueue] using hn
          | user ev x inner =>
              cases inner with
              | none => exact step_idle ch
              | some pc =>
                  exact opQueue_stuck ((call_stuck hrest hterm (a := .thread h') (by simp [inCall, ht, innerCall])).2 ch hch) h
          | _ => exact step_idle ch
  | control h' =>
      cases hc : s.control h' with
      | none =>
          simp only [viewPc, hc]
          exact step_idle ch
      | some pc =>
          have hopen := (reachable_running hr h').control pc hc
          simp only [viewPc, hc, Option.elim_some]
          cases pc with
          | stopQueue | stopClear => cases hopen
          | _ => exact step_idle ch

theorem rest_free (hr : Reachable (system ρ n m) (Open order) s) (hrest : AtRest (system ρ n m) Moves s)
    (hterm : s.terminated = false) (h : Nat) : (s.shared.cell h).events.mutex = none := by
  refine (rest_still hr hrest hterm h).free (reachable_orderly hr h).inSection fun a hf => ?_
  obtain rfl := popping_thread (reachable_placed hr) (by rw [hf]; rfl : QueueConsumer.popping ((view s h).pc a) = true)
  have hsupplied := reachable_supplied hr h
  rw [hf] at hsupplied
  exact hsupplied

/-- A call that has not returned waits for a mutex that somebody has. -/
theorem rest_call (hr : Reachable (system ρ n m) (Open order) s) (hrest : AtRest (system ρ n m) Moves s)
    (hterm : s.terminated = false) (hc : inCall s a = some pc) :
    ∃ l, waits pc = some l ∧ owner s.shared l ≠ none := by
  obtain ⟨hret, hstuck⟩ := call_stuck hrest hterm hc
  have hrun := hstuck .run (by simp)
  have hin : InPlace pc := (reachable_placed hr).inCall hc
  -- in a queue nobody could keep it from going on
  have hqueue {h : Nat} {op : Op (Event M P A)} {p : Pc (Event M P A)} (hp : (view s h).pc a = p) (hw : Within op p)
      (hop : op = .clear ∨ ∃ ev, op = .push ev) (hnot : ∀ r, p ≠ .returned r) : False := by
    have hfree := rest_free hr hrest hterm h
    have hcrit (hcr : critical p = true) : False := by
      have ho := QueueThreads.reachable_exclusive (reachable_view hr h) a (by rw [hp]; exact hcr)
      cases ho.symm.trans hfree
    rcases hop with rfl | ⟨ev, rfl⟩
    · cases hw with
      | lock => exact (rest_still hr hrest hterm h).not_lock hfree _ hp
      | returnedClear => exact hnot _ rfl
      | clear | unlockClear => exact hcrit rfl
    · cases hw with
      | lock => exact (rest_still hr hrest hterm h).not_lock hfree _ hp
      | returnedPush => exact hnot _ rfl
      | push | notifyOne | unlockPush => exact hcrit rfl
  have hview (h : Nat) : (view s h).pc a = opQueue h pc := by
    cases a with
    | client c =>
        have hc : s.client c = some pc := hc
        exact view_client hc
    | thread h' =>
        obtain ⟨⟨lpc, b⟩, ht, hi⟩ := Option.bind_eq_some_iff.mp hc
        cases lpc with
        | user ev x inner =>
            have hi : inner = some pc := hi
            subst hi
            exact view_thread ht
        | _ => cases hi
    | control h' => cases hc
  cases pc with
  | lockBus x =>
      refine ⟨.bus, rfl, fun hm => ?_⟩
      have hm : s.shared.mutex = none := hm
      simp [opStep, hm] at hrun
  | lockType h v | lockTable h x =>
      refine ⟨.handler h, rfl, fun hm => ?_⟩
      have hm : (s.shared.cell h).mutex = none := hm
      simp [opStep, lockCell, hm] at hrun
  | visit v =>
      obtain ⟨x, rest, r⟩ := v
      cases rest <;> cases hrun
  | unlockType h found v => cases found <;> cases hrun
  | readType | insert | erase | unlockBus | table | unlockTable => cases hrun
  | returned r => exact absurd rfl (hret r)
  | deliver h p v =>
      obtain ⟨-, ev, hw⟩ := hin
      refine (hqueue (h := h) (by rw [hview, opQueue, if_pos rfl]) hw (.inr ⟨ev, rfl⟩) ?_).elim
      rintro r rfl
      cases hrun
  | clear h p =>
      refine (hqueue (h := h) (by rw [hview, opQueue, if_pos rfl]) hin (.inl rfl) ?_).elim
      rintro r rfl
      cases hrun

/-- The thread of a handler waits for a message, and there is none, or for a mutex. -/
theorem rest_thread (hr : Reachable (system ρ n m) (Open order) s) (hrest : AtRest (system ρ n m) Moves s)
    (hterm : s.terminated = false) {h : Nat} {l : Loop M P K A} (ht : s.thread h = some l) :
    (l.pc = .pop (.wait false) ∧ (s.shared.cell h).events.queue = []) ∨
      ∃ k, loopWaits h l.pc = some k ∧ owner s.shared k ≠ none := by
  have hrun := reachable_running hr h
  obtain ⟨pc, b⟩ := l
  obtain ⟨hb, hexit⟩ := hrun.thread _ ht
  obtain rfl : b = false := hb
  have hstuck := act_stuck (b := .step (.thread h) .run) hrest hterm (by simp [Moves])
  simp only [act, ht, Option.map_eq_none_iff] at hstuck
  cases pc with
  | pop p =>
      have ho := reachable_orderly hr h
      have hw : Within (.pop false) p := by simpa [standing, ht, LoopInPlace] using ho.placed.agent (.thread h)
      have hpc : (view s h).pc (.thread h) = p := view_pop ht
      have hret (r : Ret (Event M P A)) : p ≠ .returned r := by
        rintro rfl
        cases hw with
        | @returnedPop c v => cases v <;> simp [loopStep] at hstuck
      obtain ⟨hwait, hq⟩ := (rest_still hr hrest hterm h).waiting (rest_free hr hrest hterm h) ho.served ho.tracked
        (QueueThreads.reachable_exclusive (reachable_view hr h)) (by rw [hpc]; exact hw) (by rw [hpc]; exact hret)
      rw [hpc] at hwait
      exact .inl ⟨by rw [hwait], hq⟩
  | lock ev =>
      refine .inr ⟨.handler h, rfl, fun hm => ?_⟩
      have hm : (s.shared.cell h).mutex = none := hm
      simp [loopStep, lockCell, hm] at hstuck
  | user ev x inner =>
      cases inner with
      | none =>
          have hfinish := act_stuck (b := .finish h false) hrest hterm trivial
          cases x <;> simp [act, ht, Code.finish] at hfinish
      | some op => exact .inr (rest_call hr hrest hterm (a := .thread h) (by simp [inCall, ht, innerCall]))
  | find ev =>
      simp only [loopStep] at hstuck
      split at hstuck <;> cases hstuck
  | call ev f =>
      cases f with
      | on m' k =>
          simp only [loopStep] at hstuck
          split at hstuck <;> cases hstuck
      | onType k => cases hstuck
  | check | unlock => cases hstuck
  | exited => exact absurd rfl hexit

theorem rest_waits (hr : Reachable (system ρ n m) (Open order) s) (hrest : AtRest (system ρ n m) Moves s)
    (hterm : s.terminated = false) {l : Lock} (hw : waitsOf s a = some l) : owner s.shared l ≠ none := by
  cases a with
  | client c =>
      cases hc : s.client c with
      | none => simp [waitsOf, standing, hc] at hw
      | some pc =>
          obtain ⟨k, hk, ho⟩ := rest_call hr hrest hterm (a := .client c) hc
          simp only [waitsOf, standing, hc, Option.elim_some] at hw
          cases hk.symm.trans hw
          exact ho
  | thread h =>
      cases ht : s.thread h with
      | none => simp [waitsOf, standing, ht] at hw
      | some t =>
          simp only [waitsOf, standing, ht, Option.elim_some] at hw
          rcases rest_thread hr hrest hterm ht with ⟨hp, -⟩ | ⟨k, hk, ho⟩
          · rw [hp] at hw
            cases hw
          · cases hk.symm.trans hw
            exact ho
  | control h => cases hw

theorem rest_holds (hr : Reachable (system ρ n m) (Open order) s) (hrest : AtRest (system ρ n m) Moves s)
    (hterm : s.terminated = false) (hh : holdsOf s a ≠ []) : waitsOf s a ≠ none := by
  cases a with
  | client c =>
      cases hc : s.client c with
      | none => simp [holdsOf, standing, hc] at hh
      | some pc =>
          obtain ⟨k, hk, -⟩ := rest_call hr hrest hterm (a := .client c) hc
          simp [waitsOf, standing, hc, hk]
  | thread h =>
      cases ht : s.thread h with
      | none => simp [holdsOf, standing, ht] at hh
      | some t =>
          rcases rest_thread hr hrest hterm ht with ⟨hp, -⟩ | ⟨k, hk, -⟩
          · simp [holdsOf, standing, ht, hp, loopHolds] at hh
          · simp [waitsOf, standing, ht, hk]
  | control h => exact absurd rfl hh

omit [DecidableEq M] in
theorem mem_agents (hb : Bounded n m s) (hw : waitsOf s a ≠ none) :
    a ∈ (Finset.range n).image Agent.client ∪ (Finset.range m).image Agent.thread := by
  simp only [Finset.mem_union, Finset.mem_image, Finset.mem_range]
  cases a with
  | client c =>
      cases hc : s.client c with
      | none => simp [waitsOf, standing, hc] at hw
      | some pc => exact .inl ⟨c, hb.client c pc hc, rfl⟩
  | thread h =>
      cases ht : s.thread h with
      | none => simp [waitsOf, standing, ht] at hw
      | some l => exact .inr ⟨h, hb.thread h l ht, rfl⟩
  | control h => exact absurd rfl hw

/-- So nobody waits for a mutex, as a chain of threads that do would never end. -/
theorem rest_no_waits (hr : Reachable (system ρ n m) (Open order) s) (hrest : AtRest (system ρ n m) Moves s)
    (hterm : s.terminated = false) (a : Agent) : waitsOf s a = none := by
  have howned := reachable_owned hr
  have hb := reachable_bounded hr
  by_contra hne
  have hrank : ∀ a l l', owner s.shared l = some a → waitsOf s a = some l' → rank order l < rank order l' :=
    fun a l l' ho hw => reachable_ranked hr a l' hw l ((howned.iff a l).mpr ho)
  refine LockOrder.not_deadlocked_of_rank hrank
    (((Finset.range n).image Agent.client ∪ (Finset.range m).image Agent.thread).filter fun a => waitsOf s a ≠ none)
    ⟨⟨a, Finset.mem_filter.mpr ⟨mem_agents hb hne, hne⟩⟩, fun b hin => ?_⟩
  obtain ⟨l, hl⟩ := Option.ne_none_iff_exists'.mp (Finset.mem_filter.mp hin).2
  obtain ⟨d, hd⟩ := Option.ne_none_iff_exists'.mp (rest_waits hr hrest hterm hl)
  have hwaits : waitsOf s d ≠ none := by
    refine rest_holds hr hrest hterm fun hnil => ?_
    have hmem := (howned.iff d l).mpr hd
    rw [hnil] at hmem
    cases hmem
  exact ⟨l, d, hl, hd, Finset.mem_filter.mpr ⟨mem_agents hb hwaits, hwaits⟩⟩

theorem rest_client (hr : Reachable (system ρ n m) (Open order) s) (hrest : AtRest (system ρ n m) Moves s)
    (hterm : s.terminated = false) (c : Nat) : s.client c = none := by
  cases hc : s.client c with
  | none => rfl
  | some pc =>
      obtain ⟨l, hl, -⟩ := rest_call hr hrest hterm (a := .client c) hc
      have hnone := rest_no_waits hr hrest hterm (.client c)
      simp [waitsOf, standing, hc, hl] at hnone

theorem rest_waiting (hr : Reachable (system ρ n m) (Open order) s) (hrest : AtRest (system ρ n m) Moves s)
    (hterm : s.terminated = false) {h : Nat} {l : Loop M P K A} (ht : s.thread h = some l) :
    l.pc = .pop (.wait false) ∧ (s.shared.cell h).events.queue = [] := by
  rcases rest_thread hr hrest hterm ht with hwait | ⟨k, hk, -⟩
  · exact hwait
  · have hnone := rest_no_waits hr hrest hterm (.thread h)
    simp [waitsOf, standing, ht, hk] at hnone

theorem rest_control (hr : Reachable (system ρ n m) (Open order) s) (hrest : AtRest (system ρ n m) Moves s)
    (hterm : s.terminated = false) (h : Nat) : s.control h = none := by
  have hrun := reachable_running hr h
  cases hc : s.control h with
  | none => rfl
  | some pc =>
      have hopen := hrun.control pc hc
      have hstuck := act_stuck (b := .step (.control h) .run) hrest hterm (by simp [Moves])
      simp only [act, hc, Option.bind_some] at hstuck
      cases pc with
      | startCheck | startSet => cases hstuck
      | startSpawn =>
          have hnone : s.thread h = none := by
            by_contra ht
            rcases hrun.started ht with hst | hst
            · cases (hrun.unborn hc).symm.trans hst
            · cases hc.symm.trans hst
          simp [controlStep, hnone] at hstuck
      | stopCheck | stopRequest | stopQueue | stopJoin | stopClear | stopSet | destroyRequest | destroyJoin => cases hopen

theorem rest_unlocked (hr : Reachable (system ρ n m) (Open order) s) (hrest : AtRest (system ρ n m) Moves s)
    (hterm : s.terminated = false) (l : Lock) : owner s.shared l = none := by
  cases ho : owner s.shared l with
  | none => rfl
  | some a =>
      have hmem := ((reachable_owned hr).iff a l).mpr ho
      exact absurd (rest_no_waits hr hrest hterm a) (rest_holds hr hrest hterm (List.ne_nil_of_mem hmem))

/-- The same moves where every callback that runs returns. -/
def Returns : Action M P K A → Prop
  | .finish _ throws => throws = false
  | a => Moves a

omit [DecidableEq M] in
theorem moves_of_returns {b : Action M P K A} (hb : Returns b) : Moves b := by
  cases b with
  | finish => trivial
  | call | control | inner | step => exact hb

theorem next_terminated {s' : State M P K A} {b : Action M P K A} (hb : Returns b)
    (hn : (system ρ n m).next s b = some s') : s'.terminated = false := by
  obtain ⟨hterm, hmove⟩ := next_sound hn
  cases hmove with
  | terminate h throws ev y b ht hf =>
      have hb : throws = false := hb
      subst hb
      cases y <;> simp [Code.finish] at hf
  | controlStep h ch pc pc' s' hc hs => cases hs <;> exact hterm
  | call | control | inner | finish | leave | client | thread => exact hterm

theorem returns_settles (ρ : Runtime M P) (n m : Nat) (order : Nat → Nat) :
    Settles (system ρ n m) (Returns (K := K) (A := A))
      (fun s => Reachable (system ρ n m) (Open order) s ∧ s.terminated = false) (measure n m) where
  keeps _ _ _ hr ha hn := ⟨open_move hr.1 (moves_of_returns ha) hn, next_terminated ha hn⟩
  drops _ _ _ hr ha hn := move_measure hr.1 (moves_of_returns ha) hn

theorem atRest_of_returns (hrest : AtRest (system ρ n m) Returns s) : AtRest (system ρ n m) Moves s := by
  intro b hb
  cases b with
  | call | control | inner => exact hb.elim
  | step a ch => exact hrest (.step a ch) hb
  | finish h throws =>
      cases hn : (system ρ n m).next s (.finish h throws) with
      | none => rfl
      | some t =>
          obtain ⟨hterm, hmove⟩ := next_sound hn
          obtain ⟨ev, y, b, ht⟩ : ∃ ev y b, s.thread h = some ⟨.user ev y none, b⟩ := by
            cases hmove with
            | finish _ _ ev y b _ ht | terminate _ _ ev y b ht => exact ⟨ev, y, b, ht⟩
          have hstuck : next ρ n m s (.finish h false) = none := hrest (.finish h false) rfl
          cases y <;> simp [next, act, hterm, ht, Code.finish] at hstuck

/-- From a program that still runs there is a way to rest on which it runs on. -/
theorem exists_rest (hr : Reachable (system ρ n m) (Open order) s) (hterm : s.terminated = false) :
    ∃ as s', (∀ a ∈ as, Moves a) ∧ run (system ρ n m) s as = some s' ∧ AtRest (system ρ n m) Moves s' ∧
      s'.terminated = false := by
  obtain ⟨as, s', hm, hrun, hrest⟩ := (returns_settles ρ n m order).exists_rest ⟨hr, hterm⟩
  have hkept := (returns_settles ρ n m order).run_keeps ⟨hr, hterm⟩ hm hrun
  exact ⟨as, s', fun a ha => moves_of_returns (hm a ha), hrun, atRest_of_returns hrest, hkept.2⟩

/-- While nobody calls Stop or destroys a handler, and callbacks call back in order: only so many
steps, spurious wakeups apart, and at rest every call has returned and every handler waits. -/
theorem bus_settles (hr : Reachable (system ρ n m) (Open order) s) (hterm : s.terminated = false) :
    (∃ k, ∀ as s', (∀ a ∈ as, Moves a) → run (system ρ n m) s as = some s' → as.length ≤ k) ∧
      (∃ as s', (∀ a ∈ as, Moves a) ∧ run (system ρ n m) s as = some s' ∧ AtRest (system ρ n m) Moves s' ∧
        s'.terminated = false) ∧
      (AtRest (system ρ n m) Moves s →
        (∀ c, s.client c = none) ∧ (∀ h, s.control h = none) ∧ (∀ l, owner s.shared l = none) ∧
          ∀ h l, s.thread h = some l → l.pc = .pop (.wait false) ∧ (s.shared.cell h).events.queue = []) := by
  refine ⟨⟨measure n m s, fun as s' hm hrun => ?_⟩, exists_rest hr hterm, fun hrest => ?_⟩
  · exact Nat.le_of_add_right_le ((settles ρ n m order).length_add_le hr hm hrun)
  · exact ⟨rest_client hr hrest hterm, rest_control hr hrest hterm, rest_unlocked hr hrest hterm,
      fun h l ht => rest_waiting hr hrest hterm ht⟩

end AtRest

section Delivery

open BusOrder
open BusCancel (Named reachable_named)

/-- The calls that leave handler `h` subscribed, with its callbacks and its queue. -/
def Spares (h : Nat) : Call M P K A → Prop
  | .publishAny _ _ _ => False
  | .unsubscribe (some h') | .on h' _ _ | .onType h' _ _ | .cancel h' _ | .clear h' => h' ≠ h
  | .publish _ _ _ | .subscribe _ | .unsubscribe none => True

def Spared (h : Nat) : OpPc M P K A → Prop
  | .erase h' | .clear h' _ | .lockTable h' _ | .table h' _ | .lockBus (.unsubscribe h') => h' ≠ h
  | .lockBus (.publish x) => x.typed = true
  | _ => True

def Undisturbed (order : Nat → Nat) (h : Nat) (s : State M P K A) : Action M P K A → Prop
  | .call _ x => Spares h x
  | .inner h' x => Spares h x ∧ Later order h' x
  | a => Open order s a

variable {h : Nat}

theorem open_of_undisturbed {s : State M P K A} {a : Action M P K A} (ha : Undisturbed order h s a) :
    Open order s a := by
  cases a with
  | call => trivial
  | inner => exact ha.2
  | control | finish | step => exact ha

theorem undisturbed_of_moves {s : State M P K A} {a : Action M P K A} (ha : Moves a) : Undisturbed order h s a := by
  have hopen : Open order s a := open_of_moves ha
  cases a with
  | call | inner => exact ha.elim
  | control | finish | step => exact hopen

theorem spared_entry (ρ : Runtime M P) {x : Call M P K A} (hx : Spares h x) : Spared h (x.entry ρ) := by
  cases x with
  | publish => rfl
  | publishAny => exact hx.elim
  | subscribe h' => cases h' <;> trivial
  | unsubscribe h' =>
      cases h' with
      | none => trivial
      | some h' => exact hx
  | on h' m' k =>
      cases k with
      | none => trivial
      | some k => exact hx
  | onType h' type k =>
      cases k with
      | none => trivial
      | some k =>
          simp only [Call.entry]
          split
          · trivial
          · exact hx
  | cancel | clear => exact hx

theorem opStep_spared {a : Agent} {s s' : Shared M P K A} {pc pc' : OpPc M P K A} (hs : OpStep ρ a s pc s' pc')
    (hp : Spared h pc) : Spared h pc' := by
  cases hs with
  | lockBus x =>
      cases x with
      | publish | subscribe => trivial
      | unsubscribe => exact hp
  | lockTable | clear => exact hp
  | _ => trivial

theorem keeps_of_spared {s : Shared M P K A} {pc : OpPc M P K A} (hp : Spared h pc) : Keeps ρ h s pc := by
  cases pc with
  | lockBus x =>
      cases x with
      | publish => exact hp
      | subscribe | unsubscribe => trivial
  | erase | clear => exact hp
  | table h' x => exact fun he => absurd he hp
  | visit | lockType | readType | unlockType | deliver | insert | unlockBus | lockTable | unlockTable | returned => trivial

/-- The message of a typed Publish holds a value of its type. -/
def Genuine (ρ : Runtime M P) (ev : Event M P A) : Prop := ∃ x v, ev.type = ρ.name x ∧ ev.ev = some ⟨x, v⟩

def Sincere (ρ : Runtime M P) : OpPc M P K A → Prop
  | .lockBus (.publish x) => x.typed = true → Genuine ρ x.event
  | _ => True

theorem sincere_entry (x : Call M P K A) : Sincere ρ (x.entry ρ) := by
  cases x with
  | publish x v ack => exact fun _ => ⟨x, v, rfl, rfl⟩
  | publishAny => exact fun hx => by cases hx
  | subscribe h | unsubscribe h => cases h <;> trivial
  | on h x k => cases k <;> trivial
  | onType h type k =>
      cases k with
      | none => trivial
      | some k =>
          simp only [Call.entry]
          split <;> trivial
  | cancel | clear => trivial

theorem opStep_sincere {a : Agent} {s s' : Shared M P K A} {pc pc' : OpPc M P K A} (hs : OpStep ρ a s pc s' pc') :
    Sincere ρ pc' := by
  cases hs with
  | lockBus x => cases x <;> trivial
  | _ => trivial

theorem mem_published_obs {s : State M P K A} {a : Action M P K A} {ev : Event M P A} (hm : ev ∈ published (obs s a)) :
    ∃ b x, inCall s b = some (.lockBus (.publish x)) ∧ x.event = ev := by
  have hone {o : Option (OpPc M P K A)} (hm : ev ∈ o.elim [] announces) :
      ∃ x, o = some (.lockBus (.publish x)) ∧ x.event = ev := by
    cases o with
    | none => cases hm
    | some pc =>
        cases pc with
        | lockBus x =>
            cases x with
            | publish x => exact ⟨x, rfl, (List.mem_singleton.mp hm).symm⟩
            | subscribe | unsubscribe => cases hm
        | _ => cases hm
  cases a with
  | step b ch =>
      cases b with
      | client c =>
          obtain ⟨x, hc, hx⟩ := hone (o := s.client c) (by simpa [obs, published] using hm)
          exact ⟨.client c, x, hc, hx⟩
      | thread h' =>
          obtain ⟨x, hc, hx⟩ := hone (o := inCall s (.thread h')) (by simpa [obs, published] using hm)
          exact ⟨.thread h', x, hc, hx⟩
      | control h' => cases hm
  | _ => cases hm

variable [DecidableEq M] {s₀ s : State M P K A} {log : List (Entry M P A)}

theorem reachable_spared (hcalls : ∀ a pc, inCall s₀ a = some pc → Spared h pc)
    (hr : Reachable (startingAt (system ρ n m) s₀) (Undisturbed order h) s) :
    ∀ a pc, inCall s a = some pc → Spared h pc := by
  refine hr.invariant (P := fun s => ∀ a pc, inCall s a = some pc → Spared h pc) ?_ ?_
  · intro s hs
    cases hs
    exact hcalls
  · intro s a s' _ hs hok hn
    refine move_calls (Q := fun _ pc => Spared h pc) hs ?_ ?_ (fun b x pc pc' hop hp => opStep_spared hop hp)
      (next_sound hn).2
    · rintro c x rfl -
      exact spared_entry ρ hok
    · rintro h' x rfl -
      exact spared_entry ρ hok.1

theorem reachable_steady (hcalls : ∀ a pc, inCall s₀ a = some pc → Spared h pc)
    {p : State M P K A × List (Entry M P A)}
    (hr : Reachable (logged (startingAt (system ρ n m) s₀) obs) (fun p a => Undisturbed order h p.1 a) p) :
    Reachable (logged (startingAt (system ρ n m) s₀) obs) (fun p a => Steady ρ h p.1 a) p := by
  induction hr with
  | init hi => exact .init hi
  | @step p q a hr hok hn ih =>
      refine .step ih ?_ hn
      have hspared := reachable_spared hcalls hr.forget
      cases a with
      | control h' x => exact fun _ => hok
      | call | inner | finish => trivial
      | step a ch => exact fun pc hpc => keeps_of_spared (hspared a pc hpc)

theorem reachable_sincere {ok : State M P K A → Action M P K A → Prop} (hr : Reachable (system ρ n m) ok s) :
    ∀ a pc, inCall s a = some pc → Sincere ρ pc := by
  refine hr.invariant (P := fun s => ∀ a pc, inCall s a = some pc → Sincere ρ pc) ?_ ?_
  · rintro s rfl a pc hpc
    cases a <;> cases hpc
  · intro s a s' _ hs _ hn
    exact move_calls (Q := fun _ pc => Sincere ρ pc) hs (fun c x _ _ => sincere_entry x) (fun h' x _ _ => sincere_entry x)
      (fun b x pc pc' hop _ => opStep_sincere hop) (next_sound hn).2

theorem published_genuine {ok : State M P K A → Action M P K A → Prop} (hr₀ : Reachable (system ρ n m) ok s₀)
    (hcalls : ∀ a pc, inCall s₀ a = some pc → Spared h pc)
    (hr : Reachable (logged (startingAt (system ρ n m) s₀) obs) (fun p a => Undisturbed order h p.1 a) (s, log)) :
    ∀ ev ∈ published log, Genuine ρ ev := by
  refine hr.logged_invariant (P := fun _ log => ∀ ev ∈ published log, Genuine ρ ev) ?_ ?_
  · intro s _ ev hev
    cases hev
  · intro s log a s' hr hs _ _ ev hev
    rw [published, List.filterMap_append, List.mem_append] at hev
    rcases hev with hev | hev
    · exact hs ev hev
    · obtain ⟨b, x, hc, rfl⟩ := mem_published_obs hev
      exact reachable_sincere (hr₀.any.trans hr.forget_any) b _ hc (reachable_spared hcalls hr.forget b _ hc)

/-- What On<T> stores takes the messages of type T, where types have distinct names. -/
theorem takes_genuine (hinj : Function.Injective ρ.name) {t : Handles M K} (ht : Named ρ t) {ev : Event M P A}
    (hev : Genuine ρ ev) {f : Callback M K} (hf : find t ev.type = some f) : ∃ y, Callback.code ev f = some y := by
  cases f with
  | onType k => exact ⟨.onType k, rfl⟩
  | on x k =>
      obtain ⟨x', v, hx', hv⟩ := hev
      obtain rfl : x = x' := hinj ((ht _ x k hf).symm.trans hx')
      exact ⟨.on k v, by simp [Callback.code, hv, anyCast]⟩

/-- Eventual delivery: at rest a handler that stays as it is has been called once for every message
of its types, in the order of their Publish, and what is called takes the message. -/
theorem all_handled (hr₀ : Reachable (system ρ n m) (Open order) s₀) (hfree : s₀.shared.mutex = none)
    (hready : Ready s₀ h) (hcalls : ∀ a pc, inCall s₀ a = some pc → Spared h pc)
    (hr : Reachable (logged (startingAt (system ρ n m) s₀) obs) (fun p a => Undisturbed order h p.1 a) (s, log))
    (hrest : AtRest (system ρ n m) Moves s) (hterm : s.terminated = false) :
    handledBy h log = wanted (s₀.shared.cell h).handles (published log) ∧
      (Function.Injective ρ.name → ∀ ev ∈ handledBy h log, ∃ f y,
        find (s₀.shared.cell h).handles ev.type = some f ∧ Callback.code ev f = some y) := by
  have hopen : Reachable (system ρ n m) (Open order) s :=
    hr₀.trans (hr.forget.mono fun s a ha => open_of_undisturbed ha)
  have hfollow := run_following (fun p a hok => hok) hr₀.any hfree hready (reachable_steady hcalls hr)
  obtain ⟨l, ht⟩ := hfollow.alive
  obtain ⟨hwait, hq⟩ := rest_waiting hopen hrest hterm ht
  have hmutex : s.shared.mutex = none := rest_unlocked hopen hrest hterm .bus
  have horder := hfollow.order
  have hall : handledBy h log = wanted (s₀.shared.cell h).handles (published log) := by
    simpa [hand, ht, hwait, loopHand, held, hq, hmutex, pendingOf] using horder.symm
  refine ⟨hall, fun hinj ev hev => ?_⟩
  rw [hall] at hev
  obtain ⟨hpub, hstored⟩ := List.mem_filter.mp hev
  obtain ⟨f, hf⟩ := Option.isSome_iff_exists.mp hstored
  obtain ⟨y, hy⟩ := takes_genuine hinj (reachable_named hr₀ h) (published_genuine hr₀ hcalls hr ev hpub) hf
  exact ⟨f, y, hf, hy⟩

end Delivery

section Runs

open BusOrder

def isOpen : Action Unit Nat Nat Nat → Bool
  | .control _ x => x == .start
  | .inner _ _ => false
  | _ => true

theorem open_of_isOpen (s : State Unit Nat Nat Nat) (a : Action Unit Nat Nat Nat) (h : isOpen a = true) : Open id s a := by
  cases a with
  | control h' x => exact eq_of_beq h
  | inner => cases h
  | call | finish | step => trivial

theorem twoStarted_open : Reachable (system oneType 1 2) (Open id) twoStarted := by
  have hrun : run (guarded (system oneType 1 2) fun _ a => isOpen a) {} setUpTwo = some twoStarted := rfl
  exact (run_reachable (.init rfl) hrun).of_guarded open_of_isOpen

theorem twoStarted_idle (a : Agent) : inCall twoStarted a = none := by
  have hb := reachable_bounded twoStarted_open
  cases a with
  | client c =>
      cases hc : twoStarted.client c with
      | none => exact hc
      | some pc =>
          obtain rfl : c = 0 := Nat.lt_one_iff.mp (hb.client c pc hc)
          cases hc
  | thread h =>
      cases ht : twoStarted.thread h with
      | none => simp [inCall, ht]
      | some l =>
          obtain rfl | rfl : h = 0 ∨ h = 1 := by
            have hlt := hb.thread h l ht
            omega
          · rfl
          · rfl
  | control h => rfl

theorem bus_settles_publish : ∃ (s s' : State Unit Nat Nat Nat) (as : List (Action Unit Nat Nat Nat)),
    waitsOf s (.client 0) = some .bus ∧ (∀ a ∈ as, Moves a) ∧ run (system oneType 1 2) s as = some s' ∧
      (∀ c, s'.client c = none) ∧ ∀ h l, s'.thread h = some l → (s'.shared.cell h).events.queue = [] := by
  obtain ⟨s, hr, hp⟩ := exists_of_run (system oneType 1 2) (Open id) (fun _ a => isOpen a) {}
    (setUpTwo ++ [.call 0 (.publish () 42 none)])
    (fun s => decide (waitsOf s (.client 0) = some .bus ∧ s.terminated = false)) open_of_isOpen rfl rfl
  obtain ⟨hw, hterm⟩ := of_decide_eq_true hp
  obtain ⟨-, ⟨as, s', hm, hrun, hrest, hterm'⟩, -⟩ := bus_settles hr hterm
  have hr' := (settles oneType 1 2 id).run_keeps hr hm hrun
  obtain ⟨-, -, hall⟩ := bus_settles hr' hterm'
  obtain ⟨hclient, -, -, hthread⟩ := hall hrest
  exact ⟨s, s', as, hw, hm, hrun, hclient, fun h l ht => (hthread h l ht).2⟩

theorem all_handled_first : ∃ (s : State Unit Nat Nat Nat) (log : List (Entry Unit Nat Nat)),
    AtRest (system oneType 1 2) Moves s ∧ [⟨"T", some ⟨(), 42⟩, none⟩] <+: published log ∧
      handledBy 0 log = wanted (twoStarted.shared.cell 0).handles (published log) ∧
      ∀ ev ∈ handledBy 0 log, ∃ f y, find (twoStarted.shared.cell 0).handles ev.type = some f ∧
        Callback.code ev f = some y := by
  obtain ⟨⟨s, log⟩, hr, hp⟩ := exists_of_run (logged (startingAt (system oneType 1 2) twoStarted) obs)
    (fun p a => Undisturbed id 0 p.1 a) (fun _ a => match a with | .call _ (.publish _ _ _) | .step _ _ => true | _ => false)
    (twoStarted, []) ([.call 0 (.publish () 42 none)] ++ steps (.client 0) 1)
    (fun p => decide (published p.2 = [⟨"T", some ⟨(), 42⟩, none⟩] ∧ p.1.terminated = false))
    (by
      rintro p a ha
      split at ha
      · trivial
      · trivial
      · cases ha)
    ⟨rfl, rfl⟩ rfl
  obtain ⟨hpub, hterm⟩ := of_decide_eq_true hp
  have hopen : Reachable (system oneType 1 2) (Open id) s :=
    twoStarted_open.trans (hr.forget.mono fun s a ha => open_of_undisturbed ha)
  obtain ⟨as, s', hm, hrun, hrest, hterm'⟩ := exists_rest hopen hterm
  obtain ⟨log', hr'⟩ := reachable_run (S := startingAt (system oneType 1 2) twoStarted) hr
    (fun p a ha => undisturbed_of_moves ha) hm ((run_startingAt twoStarted).trans hrun)
  have hfirst : Ready twoStarted 0 := ⟨by decide, ⟨_, rfl, rfl⟩, rfl, rfl⟩
  have hcalls : ∀ a pc, inCall twoStarted a = some pc → Spared 0 pc := by
    intro a pc hpc
    rw [twoStarted_idle] at hpc
    cases hpc
  obtain ⟨hall, htaken⟩ := all_handled twoStarted_open rfl hfirst hcalls hr' hrest hterm'
  refine ⟨s', log ++ log', hrest, ?_, hall, htaken (Function.injective_of_subsingleton _)⟩
  rw [published, List.filterMap_append]
  exact ⟨_, congrArg (· ++ _) hpub.symm⟩

end Runs

end Enigma.BusRest
