import Enigma.BusStep
import Enigma.LockOrder

namespace Enigma.BusLocks

open Transition SyncQueue EventBus BusThreads BusStep LockOrder

variable {M P K A : Type}

inductive Lock
  | bus
  | handler (h : Nat)
  deriving DecidableEq, Repr

def owner (s : Shared M P K A) : Lock → Option Agent
  | .bus => s.mutex
  | .handler h => (s.cell h).mutex

def holds : OpPc M P K A → List Lock
  | .visit _ | .lockType _ _ | .deliver _ _ _ | .insert _ | .erase _ | .unlockBus _ => [.bus]
  | .readType h _ | .unlockType h _ _ => [.handler h, .bus]
  | .table h _ | .unlockTable h _ => [.handler h]
  | .lockBus _ | .lockTable _ _ | .clear _ _ | .returned _ => []

def waits : OpPc M P K A → Option Lock
  | .lockBus _ => some .bus
  | .lockType h _ | .lockTable h _ => some (.handler h)
  | _ => none

/-- The thread of a handler keeps its mutex over the user's code. -/
def loopHolds (h : Nat) : LoopPc M P K A → List Lock
  | .find _ | .call _ _ | .unlock | .user _ _ none => [.handler h]
  | .user _ _ (some pc) => .handler h :: holds pc
  | .check | .pop _ | .lock _ | .exited => []

def loopWaits (h : Nat) : LoopPc M P K A → Option Lock
  | .lock _ => some (.handler h)
  | .user _ _ (some pc) => waits pc
  | _ => none

def holdsOf (s : State M P K A) : Agent → List Lock := standing holds loopHolds [] s

def waitsOf (s : State M P K A) : Agent → Option Lock := standing waits loopWaits none s

theorem owner_setMutex (s : Shared M P K A) (h : Nat) (o : Option Agent) (l : Lock) :
    owner (setMutex s h o) l = if l = .handler h then o else owner s l := by
  cases l with
  | bus => simp [owner, setMutex, setCell]
  | handler h' =>
      by_cases he : h' = h
      · subst he
        simp [owner, setMutex, setCell]
      · simp [owner, setMutex, setCell, he]

theorem owner_setEvents (s : Shared M P K A) (h : Nat) (q : Queue Agent (Event M P A)) (l : Lock) :
    owner (setEvents s h q) l = owner s l := by
  cases l with
  | bus => rfl
  | handler h' =>
      by_cases he : h' = h
      · subst he
        simp [owner, setEvents, setCell]
      · simp [owner, setEvents, setCell, he]

theorem owner_setHandles (s : Shared M P K A) (h : Nat) (t : Handles M K) (l : Lock) :
    owner (setCell s h { s.cell h with handles := t }) l = owner s l := by
  cases l with
  | bus => rfl
  | handler h' =>
      by_cases he : h' = h
      · subst he
        simp [owner, setCell]
      · simp [owner, setCell, he]

inductive Change (a : Agent) (o o' : Option Agent) (held held' : Prop) : Prop
  | keeps (ho : o' = o) (hh : held' ↔ held)
  | locks (hfree : o = none) (ho : o' = some a) (hh : held')
  | unlocks (hh : held) (ho : o' = none) (hh' : ¬ held')

theorem opStep_locks {ρ : Runtime M P} {a : Agent} {s s' : Shared M P K A} {pc pc' : OpPc M P K A}
    (hs : OpStep ρ a s pc s' pc') (l : Lock) :
    Change a (owner s l) (owner s' l) (l ∈ holds pc) (l ∈ holds pc') := by
  cases hs with
  | lockBus x hm =>
      cases l with
      | bus => exact .locks hm rfl (by cases x <;> simp [BusCall.body, holds])
      | handler h => exact .keeps rfl (by cases x <;> simp [BusCall.body, holds])
  | lockType h v hm | lockTable h x hm =>
      by_cases he : l = .handler h
      · subst he
        exact .locks hm (by simp [owner_setMutex]) (by simp [holds])
      · exact .keeps (by simp [owner_setMutex, he]) (by simp [holds, he])
  | found h v | notFound h v | unlockTable h r =>
      by_cases he : l = .handler h
      · subst he
        exact .unlocks (by simp [holds]) (by simp [owner_setMutex]) (by simp [holds])
      · exact .keeps (by simp [owner_setMutex, he]) (by simp [holds, he])
  | unlockBus r =>
      cases l with
      | bus => exact .unlocks (by simp [holds]) rfl (by simp [holds])
      | handler h => exact .keeps rfl (by simp [holds])
  | deliver h p p' q v hs | clear h p p' q hs => exact .keeps (owner_setEvents s h q l) Iff.rfl
  | table h x => exact .keeps (owner_setHandles s h _ l) Iff.rfl
  | insert h | erase h => exact .keeps (by cases l <;> rfl) Iff.rfl
  | visited | visit | readType | delivered | cleared => exact .keeps rfl Iff.rfl

theorem loopStep_locks [DecidableEq M] {ρ : Runtime M P} {h : Nat} {s s' : Shared M P K A} {b : Bool}
    {pc pc' : LoopPc M P K A} (hs : LoopStep ρ h s b pc s' pc') (hn : (loopHolds h pc).Nodup) (l : Lock) :
    Change (.thread h) (owner s l) (owner s' l) (l ∈ loopHolds h pc) (l ∈ loopHolds h pc') := by
  cases hs with
  | lock ev hm =>
      by_cases he : l = .handler h
      · subst he
        exact .locks hm (by simp [owner_setMutex]) (by simp [loopHolds])
      · exact .keeps (by simp [owner_setMutex, he]) (by simp [loopHolds, he])
  | unlock =>
      by_cases he : l = .handler h
      · subst he
        exact .unlocks (by simp [loopHolds]) (by simp [owner_setMutex]) (by simp [loopHolds])
      · exact .keeps (by simp [owner_setMutex, he]) (by simp [loopHolds, he])
  | pop p p' q hs => exact .keeps (owner_setEvents s h q l) Iff.rfl
  | innerReturned ev x r => exact .keeps rfl (by simp [loopHolds, holds])
  | inner ev x pc pc' s' hs =>
      have hself : Lock.handler h ∉ holds pc := (List.nodup_cons.mp hn).1
      cases opStep_locks hs l with
      | keeps ho hh => exact .keeps ho (by simp [loopHolds, hh])
      | locks hfree ho hh => exact .locks hfree ho (List.mem_cons_of_mem _ hh)
      | unlocks hh ho hh' =>
          refine .unlocks (List.mem_cons_of_mem _ hh) ho ?_
          rw [loopHolds, List.mem_cons]
          rintro (rfl | hl)
          · exact hself hh
          · exact hh' hl
  | exit | enter | got | nothing | notFound | found | castFails | cast | callType => exact .keeps rfl Iff.rfl

theorem nodup_holds (pc : OpPc M P K A) : (holds pc).Nodup := by
  cases pc <;> simp [holds]

/-- The user's code never gets the mutex it runs under. -/
theorem loopStep_nodup [DecidableEq M] {ρ : Runtime M P} {h : Nat} {s s' : Shared M P K A} {b : Bool}
    {pc pc' : LoopPc M P K A} (hs : LoopStep ρ h s b pc s' pc') (hn : (loopHolds h pc).Nodup)
    (ho : ∀ l ∈ loopHolds h pc, owner s l = some (.thread h)) : (loopHolds h pc').Nodup := by
  cases hs with
  | inner ev x pc pc' s' hs =>
      have hself : Lock.handler h ∉ holds pc := (List.nodup_cons.mp hn).1
      refine List.nodup_cons.mpr ⟨fun hmem => ?_, nodup_holds pc'⟩
      cases opStep_locks hs (.handler h) with
      | keeps _ hh => exact hself (hh.mp hmem)
      | locks hfree => exact absurd ((ho _ List.mem_cons_self).symm.trans hfree) (by simp)
      | unlocks _ _ hh => exact hh hmem
  | _ => simp [loopHolds]

structure Owned (s : State M P K A) : Prop where
  iff : ∀ a l, l ∈ holdsOf s a ↔ owner s.shared l = some a
  nodup : ∀ a, (holdsOf s a).Nodup

theorem owned_of_change {s s' : State M P K A} (a : Agent) (hs : Owned s)
    (hchange : ∀ l, Change a (owner s.shared l) (owner s'.shared l) (l ∈ holdsOf s a) (l ∈ holdsOf s' a))
    (hother : ∀ b, b ≠ a → holdsOf s' b = holdsOf s b) (hn : (holdsOf s' a).Nodup) : Owned s' where
  iff b l := by
    have ha := hs.iff a l
    by_cases hb : b = a
    · subst hb
      cases hchange l with
      | keeps ho hh => rw [hh, ho, ha]
      | locks hfree ho hh => simp [ho, hh]
      | unlocks hh ho hh' => simp [ho, hh']
    · rw [hother b hb, hs.iff b l]
      cases hchange l with
      | keeps ho hh => rw [ho]
      | locks hfree ho hh => simp [hfree, ho, Ne.symm hb]
      | unlocks hh ho hh' => simp [ha.mp hh, ho, Ne.symm hb]
  nodup b := by
    by_cases hb : b = a
    · subst hb
      exact hn
    · rw [hother b hb]
      exact hs.nodup b

theorem owned_of_same {s s' : State M P K A} (hs : Owned s) (ho : ∀ l, owner s'.shared l = owner s.shared l)
    (hh : ∀ a, holdsOf s' a = holdsOf s a) : Owned s' :=
  ⟨fun a l => by rw [hh, ho, hs.iff], fun a => by rw [hh]; exact hs.nodup a⟩

theorem controlStep_owner {h : Nat} {s s' : State M P K A} {pc : ControlPc M P A} {pc' : Option (ControlPc M P A)}
    (hs : ControlStep h s pc s' pc') (l : Lock) : owner s'.shared l = owner s.shared l := by
  cases hs with
  | stopQueue p p' q hs | stopClear p p' q hs => exact owner_setEvents s.shared h q l
  | _ => rfl

theorem holds_entry (ρ : Runtime M P) (x : Call M P K A) : holds (x.entry ρ) = [] := by
  cases x with
  | subscribe h | unsubscribe h => cases h <;> rfl
  | on h m k => cases k <;> rfl
  | onType h type k =>
      cases k with
      | none => rfl
      | some k =>
          simp only [Call.entry]
          split <;> rfl
  | publish | publishAny | cancel | clear => rfl

theorem loopHolds_finish {ev : Event M P A} {y : Code P K} {throws : Bool} {pc : LoopPc M P K A}
    (hf : y.finish ev throws = some pc) (h : Nat) : loopHolds h pc = [.handler h] := by
  rcases finish_cases hf with rfl | rfl <;> rfl

theorem opStep_waits {ρ : Runtime M P} {a : Agent} {s s' : Shared M P K A} {pc pc' : OpPc M P K A} {l : Lock}
    (hs : OpStep ρ a s pc s' pc') (hw : waits pc' = some l) :
    ∃ x h rest r, pc = .visit ⟨x, h :: rest, r⟩ ∧ l = .handler h ∧ holds pc' = holds pc := by
  cases hs with
  | visit x h rest r => exact ⟨x, h, rest, r, rfl, (Option.some.inj hw).symm, rfl⟩
  | lockBus x => cases x <;> cases hw
  | _ => cases hw

theorem loopWaits_finish {ev : Event M P A} {y : Code P K} {throws : Bool} {pc : LoopPc M P K A}
    (hf : y.finish ev throws = some pc) (h : Nat) : loopWaits h pc = none := by
  rcases finish_cases hf with rfl | rfl <;> rfl

def Ranked (rank : Lock → Nat) (wait : Option Lock) (held : List Lock) : Prop :=
  ∀ l, wait = some l → ∀ l' ∈ held, rank l' < rank l

theorem ranked_update {rank : Lock → Nat} {s s' : State M P K A} {a : Agent} {w : Option Lock} {H : List Lock}
    (hs : ∀ b, Ranked rank (waitsOf s b) (holdsOf s b)) (hw : waitsOf s' = Function.update (waitsOf s) a w)
    (hH : holdsOf s' = Function.update (holdsOf s) a H) (hr : Ranked rank w H) (b : Agent) :
    Ranked rank (waitsOf s' b) (holdsOf s' b) := by
  rw [hw, hH]
  by_cases hb : b = a
  · subst hb
    simpa using hr
  · simpa [hb] using hs b

theorem controlStep_holdsOf {h : Nat} {s s' : State M P K A} {pc : ControlPc M P A}
    {pc' : Option (ControlPc M P A)} (hs : ControlStep h s pc s' pc') :
    holdsOf (setControl s' h pc') = holdsOf s ∧ waitsOf (setControl s' h pc') = waitsOf s := by
  simp only [holdsOf, waitsOf, standing_setControl]
  exact ⟨controlStep_standing holds loopHolds [] hs rfl rfl, controlStep_standing waits loopWaits none hs rfl rfl⟩

section System

variable [DecidableEq M] {ρ : Runtime M P} {n m : Nat} {ok : State M P K A → Action M P K A → Prop}

theorem move_owned {s s' : State M P K A} {a : Action M P K A} (hs : Owned s) (hn : Move ρ n m s a s') :
    Owned s' := by
  have hupdate {b : Agent} {s' : State M P K A} {H : List Lock} (hH : holdsOf s' = Function.update (holdsOf s) b H)
      (hsame : holdsOf s b = H) : ∀ b, holdsOf s' b = holdsOf s b := by
    rw [hH, ← hsame, Function.update_eq_self]
    exact fun _ => rfl
  cases hn with
  | call c x _ hc =>
      refine owned_of_same hs (fun l => rfl) (hupdate (standing_setClient _ _ _ _ _ _) ?_)
      simp [holdsOf, standing, hc, holds_entry]
  | control h x => exact owned_of_same hs (fun l => rfl) fun b => by cases b <;> rfl
  | inner h x ev y b ht =>
      refine owned_of_same hs (fun l => rfl) (hupdate (standing_setThread _ _ _ _ _ _) ?_)
      simp [holdsOf, standing, ht, loopHolds, holds_entry]
  | finish h throws ev y b pc ht hf =>
      refine owned_of_same hs (fun l => rfl) (hupdate (standing_setThread _ _ _ _ _ _) ?_)
      simp only [holdsOf, standing, ht, Option.elim_some, loopHolds_finish hf]
      rfl
  | terminate => exact owned_of_same hs (fun l => rfl) fun b => by cases b <;> rfl
  | leave c ch r hc =>
      refine owned_of_same hs (fun l => rfl) (hupdate (standing_setClient _ _ _ _ _ _) ?_)
      simp [holdsOf, standing, hc, holds]
  | client c ch pc pc' x hc hstep =>
      have hpc : holdsOf s (.client c) = holds pc := by simp [holdsOf, standing, hc]
      have hpc' : holdsOf (setClient (setShared s x) c (some pc')) =
          Function.update (holdsOf s) (.client c) (holds pc') := by
        simp [holdsOf, standing_setClient]
      refine owned_of_change (.client c) hs (fun l => ?_) (fun b hb => ?_) ?_
      · rw [hpc, hpc', Function.update_self]
        exact opStep_locks hstep l
      · rw [hpc', Function.update_of_ne hb]
      · rw [hpc', Function.update_self]
        exact nodup_holds pc'
  | thread h ch pc pc' b x ht hstep =>
      have hpc : holdsOf s (.thread h) = loopHolds h pc := by simp [holdsOf, standing, ht]
      have hpc' : holdsOf (setThread (setShared s x) h (some ⟨pc', b⟩)) =
          Function.update (holdsOf s) (.thread h) (loopHolds h pc') := by
        simp [holdsOf, standing_setThread]
      have hn := hs.nodup (.thread h)
      have ho (l : Lock) := (hs.iff (.thread h) l).mp
      rw [hpc] at hn ho
      refine owned_of_change (.thread h) hs (fun l => ?_) (fun b hb => ?_) ?_
      · rw [hpc, hpc', Function.update_self]
        exact loopStep_locks hstep hn l
      · rw [hpc', Function.update_of_ne hb]
      · rw [hpc', Function.update_self]
        exact loopStep_nodup hstep hn ho
  | controlStep h ch pc pc' s' hc hstep =>
      exact owned_of_same hs (fun l => controlStep_owner hstep l) fun b => by rw [(controlStep_holdsOf hstep).1]

theorem reachable_owned {s : State M P K A} (hr : Reachable (system ρ n m) ok s) : Owned s := by
  refine hr.invariant (P := Owned) ?_ fun s a s' _ hs _ hn => move_owned hs (next_sound hn).2
  rintro s rfl
  refine ⟨fun a l => ?_, fun a => ?_⟩
  · cases a <;> cases l <;> simp [holdsOf, standing, owner]
  · cases a <;> simp [holdsOf, standing]

/-- Every call that the user's code makes under the mutex of a handler, and every
Publish that visits a handler, goes up in the order of the mutexes. -/
def InOrder (ρ : Runtime M P) (rank : Lock → Nat) (s : State M P K A) : Action M P K A → Prop
  | .inner h x => ∀ l, waits (x.entry ρ) = some l → rank (.handler h) < rank l
  | .step a _ => ∀ x h rest r, inCall s a = some (.visit ⟨x, h :: rest, r⟩) →
      ∀ l ∈ holdsOf s a, rank l < rank (.handler h)
  | _ => True

theorem loopStep_waits {h : Nat} {s s' : Shared M P K A} {b : Bool} {pc pc' : LoopPc M P K A} {l : Lock}
    (hs : LoopStep ρ h s b pc s' pc') (hw : loopWaits h pc' = some l) :
    loopHolds h pc' = [] ∨ ∃ x h' rest r, innerCall pc = some (.visit ⟨x, h' :: rest, r⟩) ∧ l = .handler h' ∧
      loopHolds h pc' = loopHolds h pc := by
  cases hs with
  | got ev => exact .inl rfl
  | inner ev y pc pc' s' hs =>
      obtain ⟨x, h', rest, r, rfl, rfl, hh⟩ := opStep_waits hs hw
      exact .inr ⟨x, h', rest, r, rfl, rfl, by rw [loopHolds, loopHolds, hh]⟩
  | _ => cases hw

theorem move_ranked {rank : Lock → Nat} {s s' : State M P K A} {a : Action M P K A}
    (hs : ∀ b, Ranked rank (waitsOf s b) (holdsOf s b)) (hok : InOrder ρ rank s a) (hn : Move ρ n m s a s') (b : Agent) :
    Ranked rank (waitsOf s' b) (holdsOf s' b) := by
  cases hn with
  | call c x =>
      refine ranked_update hs (standing_setClient _ _ _ _ _ _) (standing_setClient _ _ _ _ _ _) ?_ b
      simp [Ranked, holds_entry]
  | control h x =>
      have hh : holdsOf (setControl (setDestroyed s h (x == .destroy)) h (some x.entry)) = holdsOf s :=
        standing_congr _ _ _ rfl rfl
      have hw : waitsOf (setControl (setDestroyed s h (x == .destroy)) h (some x.entry)) = waitsOf s :=
        standing_congr _ _ _ rfl rfl
      rw [hh, hw]
      exact hs b
  | inner h x ev y =>
      refine ranked_update hs (standing_setThread _ _ _ _ _ _) (standing_setThread _ _ _ _ _ _) ?_ b
      simpa [Ranked, loopWaits, loopHolds, holds_entry, InOrder] using hok
  | finish h throws ev y b pc ht hf =>
      refine ranked_update hs (standing_setThread _ _ _ _ _ _) (standing_setThread _ _ _ _ _ _) ?_ _
      intro l hl
      rw [Option.elim_some, loopWaits_finish hf] at hl
      cases hl
  | terminate =>
      have hh : holdsOf { s with terminated := true } = holdsOf s := standing_congr _ _ _ rfl rfl
      have hw : waitsOf { s with terminated := true } = waitsOf s := standing_congr _ _ _ rfl rfl
      rw [hh, hw]
      exact hs b
  | leave c ch r =>
      refine ranked_update hs (standing_setClient _ _ _ _ _ _) (standing_setClient _ _ _ _ _ _) ?_ b
      exact fun l hl => by cases hl
  | client c ch pc pc' x hc hstep =>
      refine ranked_update hs (standing_setClient _ _ _ _ _ _) (standing_setClient _ _ _ _ _ _) ?_ b
      intro l hl
      obtain ⟨x, h, rest, r, rfl, rfl, hh⟩ := opStep_waits hstep hl
      have hup := hok x h rest r hc
      simpa [holdsOf, standing, hc, hh] using hup
  | thread h ch pc pc' b' x ht hstep =>
      refine ranked_update hs (standing_setThread _ _ _ _ _ _) (standing_setThread _ _ _ _ _ _) ?_ b
      intro l hl
      rcases loopStep_waits hstep hl with hnone | ⟨x, h', rest, r, hi, rfl, hh⟩
      · simp [hnone]
      · have hup := hok x h' rest r (by simp [inCall, ht, hi])
        simpa [holdsOf, standing, ht, hh] using hup
  | controlStep h ch pc pc' s' hc hstep =>
      rw [(controlStep_holdsOf hstep).1, (controlStep_holdsOf hstep).2]
      exact hs b

/-- No deadlock, in every run in which the mutexes are locked in some order. -/
theorem no_deadlock (rank : Lock → Nat) {s : State M P K A} (hr : Reachable (system ρ n m) (InOrder ρ rank) s)
    (D : Finset Agent) : ¬ Deadlocked (waitsOf s) (owner s.shared) D := by
  have hranked : ∀ b, Ranked rank (waitsOf s b) (holdsOf s b) := by
    refine hr.invariant (P := fun s => ∀ b, Ranked rank (waitsOf s b) (holdsOf s b)) ?_
      fun s a s' _ hs hok hn => move_ranked hs hok (next_sound hn).2
    rintro s rfl b l hl
    cases b <;> cases hl
  have howned := reachable_owned hr
  exact not_deadlocked_of_rank (fun a l l' ho hw => hranked a l' hw l ((howned.iff a l).mpr ho)) D

end System

section Upward

variable {ρ : Runtime M P}

/-- The user's code on the thread of a handler calls back only for the tables of
later handlers. -/
def upward (s : State M P K A) : Action M P K A → Bool
  | .inner h (.on h' _ _) | .inner h (.onType h' _ _) | .inner h (.cancel h' _) => decide (h < h')
  | .inner _ _ => false
  | .step (.thread h) _ => match inCall s (.thread h) with
    | some (.visit _) => false
    | _ => true
  | _ => true

def busFirst : Lock → Nat
  | .bus => 0
  | .handler h => h + 1

theorem busFirst_inner {s : State M P K A} {h : Nat} {x : Call M P K A} (hu : upward s (.inner h x) = true) :
    ∀ l, waits (x.entry ρ) = some l → busFirst (.handler h) < busFirst l := by
  intro l hl
  cases x with
  | on h' m k =>
      cases k with
      | none => cases hl
      | some k =>
          cases hl
          exact Nat.succ_lt_succ (of_decide_eq_true hu)
  | onType h' type k =>
      cases k with
      | none => cases hl
      | some k =>
          simp only [Call.entry] at hl
          split at hl
          · cases hl
          · cases hl
            exact Nat.succ_lt_succ (of_decide_eq_true hu)
  | cancel h' m =>
      cases hl
      exact Nat.succ_lt_succ (of_decide_eq_true hu)
  | publish | publishAny | subscribe | unsubscribe | clear => cases hu

theorem inOrder_of_upward (s : State M P K A) (a : Action M P K A) (hu : upward s a = true) :
    InOrder ρ busFirst s a := by
  cases a with
  | inner h x => exact busFirst_inner hu
  | call | control | finish => trivial
  | step a ch =>
      intro x h rest r hi l hl
      cases a with
      | client c =>
          have hc : s.client c = some (.visit ⟨x, h :: rest, r⟩) := hi
          simp only [holdsOf, standing, hc, Option.elim_some, holds, List.mem_singleton] at hl
          subst hl
          exact Nat.succ_pos h
      | thread h' => simp [upward, hi] at hu
      | control h' => cases hi

end Upward

section Runs

def steps (a : Agent) (k : Nat) : List (Action Unit Nat Nat Nat) := List.replicate k (.step a .run)

def oneType : Runtime Unit Nat := ⟨fun _ => "T", id⟩

def setUp : List (Action Unit Nat Nat Nat) :=
  List.flatten [[.call 0 (.on 0 () (some 1))], steps (.client 0) 4, [.call 0 (.subscribe (some 0))],
    steps (.client 0) 4, [.control 0 .start], steps (.control 0) 3]

/-- The callback of handler 0 registers one with handler 1, where another thread is,
and a publisher waits for the bus. -/
theorem no_deadlock_callback : ∃ s : State Unit Nat Nat Nat,
    waitsOf s (.thread 0) = some (.handler 1) ∧ owner s.shared (.handler 0) = some (.thread 0) ∧
      owner s.shared (.handler 1) = some (.client 1) ∧ waitsOf s (.client 2) = some .bus ∧
      ∀ D, ¬ Deadlocked (waitsOf s) (owner s.shared) D := by
  obtain ⟨s, hr, hp⟩ := exists_of_run (system (K := Nat) (A := Nat) oneType 3 2) (InOrder oneType busFirst) upward {}
    (List.flatten [setUp, [.call 0 (.publish () 42 none)], steps (.client 0) 13, steps (.thread 0) 10,
      [.call 1 (.on 1 () (some 2))], steps (.client 1) 1, [.inner 0 (.on 1 () (some 3)),
      .call 0 (.publish () 43 none), .call 2 (.publish () 44 none)], steps (.client 0) 1])
    (fun s => decide (waitsOf s (.thread 0) = some (.handler 1) ∧ owner s.shared (.handler 0) = some (.thread 0) ∧
      owner s.shared (.handler 1) = some (.client 1) ∧ waitsOf s (.client 2) = some .bus))
    inOrder_of_upward rfl rfl
  obtain ⟨hw, ho, ho', hw'⟩ := of_decide_eq_true hp
  exact ⟨s, hw, ho, ho', hw', no_deadlock busFirst hr⟩

theorem callback_deadlocks : ¬ ∀ s : State Unit Nat Nat Nat, Reachable (system oneType 1 1) Any s →
    ∀ D, ¬ Deadlocked (waitsOf s) (owner s.shared) D := by
  intro hall
  obtain ⟨s, hr, hp⟩ := exists_of_run (system (K := Nat) (A := Nat) oneType 1 1) Any (fun _ _ => true) {}
    (List.flatten [setUp, [.call 0 (.publish () 42 none)], steps (.client 0) 13, steps (.thread 0) 10,
      [.inner 0 (.cancel 0 ())]])
    (fun s => decide (waitsOf s (.thread 0) = some (.handler 0) ∧
      owner s.shared (.handler 0) = some (.thread 0))) (fun _ _ _ => trivial) rfl rfl
  obtain ⟨hw, ho⟩ := of_decide_eq_true hp
  refine hall s hr {.thread 0} ⟨⟨_, Finset.mem_singleton_self _⟩, fun a ha => ?_⟩
  rw [Finset.mem_singleton.mp ha]
  exact ⟨.handler 0, .thread 0, hw, ho, Finset.mem_singleton_self _⟩

end Runs

end Enigma.BusLocks
