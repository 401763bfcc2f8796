import Enigma.HandlerLife
import Enigma.BusCancel

namespace Enigma.HandlerServe

open Transition SyncQueue QueueStep EventBus BusThreads BusStep BusCalls BusLocks BusView BusOrder QueueConsumer
open HandlerThread HandlerLife
open BusCancel (Found reachable_found)

variable {M P K A : Type} {ρ : Runtime M P} {n m h : Nat}

/-- What is seen of the thread of a handler: the results of its Pops, and each event it is done
with, with the callback of its type and the code that has run. -/
inductive Seen (M P K A : Type)
  | popped (v : Option (Event M P A))
  | handled (ev : Event M P A) (f : Option (Callback M K)) (y : Option (Code P K))

def outcome (q : Queue Agent (Event M P A)) : Pc (Event M P A) → List (Option (Event M P A))
  | .check _ => if q.stopRequested then [none] else []
  | .take _ => q.queue.head?.toList.map some
  | _ => []

def pops (log : List (Seen M P K A)) : List (Option (Event M P A)) := log.filterMap fun
  | .popped v => some v
  | .handled _ _ _ => none

def handled (log : List (Seen M P K A)) : List (Event M P A) := log.filterMap fun
  | .popped _ => none
  | .handled ev _ _ => some ev

def atWork : LoopPc M P K A → List (Event M P A)
  | .pop p => held p
  | .lock ev | .find ev | .call ev _ => [ev]
  | .user ev y _ => if y.isCallback then [ev] else []
  | _ => []

def work (s : State M P K A) (h : Nat) : List (Event M P A) := (s.thread h).elim [] fun l => atWork l.pc

section Seen

variable [DecidableEq M]

def loopSeen (c : Cell M P K A) : LoopPc M P K A → List (Seen M P K A)
  | .pop p => (outcome c.events p).map .popped
  | .find ev => if (find c.handles ev.type).isNone then [.handled ev none none] else []
  | .call ev f => if (Callback.code ev f).isNone then [.handled ev (find c.handles ev.type) none] else []
  | _ => []

/-- A callback has returned, or has thrown and the loop goes on. -/
def finishSeen (c : Cell M P K A) (throws : Bool) : LoopPc M P K A → List (Seen M P K A)
  | .user ev y none =>
      if y.isCallback && (y.finish (M := M) (A := A) ev throws).isSome then
        [.handled ev (find c.handles ev.type) (some y)]
      else []
  | _ => []

def seen (h : Nat) (s : State M P K A) : Action M P K A → List (Seen M P K A)
  | .step (.thread h') _ => if h' = h then (s.thread h).elim [] fun l => loopSeen (s.shared.cell h) l.pc else []
  | .finish h' throws =>
      if h' = h then (s.thread h).elim [] fun l => finishSeen (s.shared.cell h) throws l.pc else []
  | _ => []

theorem mem_seen {s : State M P K A} {a : Action M P K A} {e : Seen M P K A} (he : e ∈ seen h s a) :
    ∃ l, s.thread h = some l ∧
      ((∃ ch, a = .step (.thread h) ch ∧ e ∈ loopSeen (s.shared.cell h) l.pc) ∨
        ∃ throws, a = .finish h throws ∧ e ∈ finishSeen (s.shared.cell h) throws l.pc) := by
  cases a with
  | step t ch =>
      cases t with
      | thread h' =>
          simp only [seen] at he
          split at he
          case isTrue hh =>
              subst hh
              cases ht : s.thread h' with
              | none => simp [ht] at he
              | some l => exact ⟨l, rfl, .inl ⟨ch, rfl, by simpa [ht] using he⟩⟩
          case isFalse => cases he
      | client | control => cases he
  | finish h' throws =>
      simp only [seen] at he
      split at he
      case isTrue hh =>
          subst hh
          cases ht : s.thread h' with
          | none => simp [ht] at he
          | some l => exact ⟨l, rfl, .inr ⟨throws, rfl, by simpa [ht] using he⟩⟩
      case isFalse => cases he
  | _ => cases he

theorem seen_eq_nil {s : State M P K A} {a : Action M P K A}
    (hloop : ∀ l ch, s.thread h = some l → a = .step (.thread h) ch → loopSeen (s.shared.cell h) l.pc = [])
    (hfinish : ∀ l throws, s.thread h = some l → a = .finish h throws →
      finishSeen (s.shared.cell h) throws l.pc = []) : seen h s a = [] := by
  refine List.eq_nil_iff_forall_not_mem.mpr fun e he => ?_
  obtain ⟨l, hl, ⟨ch, ha, he⟩ | ⟨throws, ha, he⟩⟩ := mem_seen he
  · rw [hloop l ch hl ha] at he
    cases he
  · rw [hfinish l throws hl ha] at he
    cases he

/-- For each event the callback of its type has run, and nothing if there was none or
if it did not take the payload. -/
def ByTable (log : List (Seen M P K A)) : Prop :=
  ∀ ev f y, Seen.handled ev f y ∈ log → y = f.bind (Callback.code ev)

end Seen

def Undisturbed (h : Nat) (s : State M P K A) : Action M P K A → Prop
  | .control h' x => h' = h → x = .start
  | .step a _ => ∀ p, inCall s a ≠ some (.clear h p)
  | _ => True

/-- What the thread has popped it takes from the head of the queue, and it handles
all of it, in this order. -/
def Serves (h : Nat) (s s' : State M P K A) (log : List (Seen M P K A)) : Prop := ∃ taken later,
  pops log = taken.map some ∧ work s h ++ taken = handled log ++ work s' h ∧
    taken ++ (s'.shared.cell h).events.queue = (s.shared.cell h).events.queue ++ later

theorem Serves.next_pop {s s' : State M P K A} {log : List (Seen M P K A)} (hs : Serves h s s' log)
    {ev : Event M P A} {rest : List (Event M P A)} (hq : (s.shared.cell h).events.queue = ev :: rest) :
    pops log = [] ∨ ∃ vs, pops log = some ev :: vs := by
  obtain ⟨taken, later, hpops, -, horder⟩ := hs
  cases taken with
  | nil => exact .inl hpops
  | cons x xs =>
      rw [hq] at horder
      obtain ⟨rfl, -⟩ := List.cons.inj horder
      exact .inr ⟨_, hpops⟩

theorem serves_step {s₀ s s' : State M P K A} {log es : List (Seen M P K A)} (taken later : List (Event M P A))
    (hs : Serves h s₀ s log) (hpops : pops es = taken.map some)
    (hwork : work s h ++ taken = handled es ++ work s' h)
    (hq : taken ++ (s'.shared.cell h).events.queue = (s.shared.cell h).events.queue ++ later) :
    Serves h s₀ s' (log ++ es) := by
  obtain ⟨taken₀, later₀, hpops₀, hwork₀, hq₀⟩ := hs
  refine ⟨taken₀ ++ taken, later₀ ++ later, ?_, ?_, ?_⟩
  · rw [List.map_append, ← hpops₀, ← hpops]
    simp [pops]
  · have hr : handled (log ++ es) = handled log ++ handled es := by simp [handled]
    rw [hr, ← List.append_assoc, hwork₀, List.append_assoc, hwork, List.append_assoc]
  · rw [List.append_assoc, hq, ← List.append_assoc, hq₀, List.append_assoc]

theorem serves_still {s₀ s s' : State M P K A} {log : List (Seen M P K A)} (hs : Serves h s₀ s log)
    (hwork : work s' h = work s h)
    (hq : ∃ later, (s'.shared.cell h).events.queue = (s.shared.cell h).events.queue ++ later) :
    Serves h s₀ s' (log ++ []) := by
  obtain ⟨later, hq⟩ := hq
  exact serves_step [] later hs rfl (by simp [handled, hwork]) (by simpa using hq)

theorem opStep_appends {a : Agent} {s s' : Shared M P K A} {pc pc' : OpPc M P K A} (hs : OpStep ρ a s pc s' pc')
    (hp : InPlace pc) (hk : ∀ p, pc ≠ .clear h p) :
    ∃ later, (s'.cell h).events.queue = (s.cell h).events.queue ++ later := by
  have hsame (he : (s'.cell h).events = (s.cell h).events) :
      ∃ later, (s'.cell h).events.queue = (s.cell h).events.queue ++ later := ⟨[], by rw [he, List.append_nil]⟩
  cases hs with
  | deliver h' p p' q v hs =>
      obtain ⟨-, ev, hw⟩ := hp
      by_cases he : h' = h
      · subst he
        rw [(setEvents_cell s h' q).1, if_pos rfl]
        cases hs with
        | push x => exact ⟨[x], rfl⟩
        | take c x rest hq | fault c hq | clearOne x rest hq | cleared hq => cases hw
        | _ => exact ⟨[], (List.append_nil _).symm⟩
      · exact hsame (by rw [(setEvents_cell s h' q).1, if_neg he])
  | clear h' p p' q hs =>
      have hne : h' ≠ h := by
        rintro rfl
        exact hk p rfl
      exact hsame (by rw [(setEvents_cell s h' q).1, if_neg hne])
  | lockType h' v | found h' v | notFound h' v | lockTable h' x | unlockTable h' r =>
      exact hsame (setMutex_cell s h' _).1
  | table h' x => exact hsame (setHandles_events s h' _)
  | lockBus | visited | visit | readType | delivered | insert | erase | unlockBus | cleared => exact hsame rfl

theorem loopStep_serves [DecidableEq M] {s s' : Shared M P K A} {pc pc' : LoopPc M P K A}
    (hs : LoopStep ρ h s false pc s' pc') (hp : LoopInPlace h pc) (hi : innerCall pc = none)
    (hstop : (s.cell h).events.stopRequested = false) :
    ∃ taken, pops (loopSeen (s.cell h) pc) = taken.map some ∧
      atWork pc ++ taken = handled (loopSeen (s.cell h) pc) ++ atWork pc' ∧
      taken ++ (s'.cell h).events.queue = (s.cell h).events.queue := by
  cases hs with
  | pop p p' q hs =>
      rw [(setEvents_cell s h q).1, if_pos rfl]
      have hw : Within (.pop false) p := hp
      cases hs with
      | take c v rest hq =>
          exact ⟨[v], by simp [loopSeen, outcome, hq, pops],
            by simp [loopSeen, outcome, hq, handled, atWork, held], hq.symm⟩
      | fault c hq =>
          exact ⟨[], by simp [loopSeen, outcome, hq, pops],
            by simp [loopSeen, outcome, hq, handled, atWork, held], rfl⟩
      | stopped c hs =>
          rw [hstop] at hs
          cases hs
      | checked c hs =>
          exact ⟨[], by simp [loopSeen, outcome, hs, pops],
            by simp [loopSeen, outcome, hs, handled, atWork, held], rfl⟩
      | lock op => exact ⟨[], rfl, by cases hw; rfl, rfl⟩
      | unlock r => exact ⟨[], rfl, by cases hw; simp [loopSeen, outcome, handled, atWork, held], rfl⟩
      | push | notifyNone | notifyOne | clearOne | cleared | size | requestStop | notifyAll => cases hw
      | testTrue | testFalse | block | spurious | resume => exact ⟨[], rfl, rfl, rfl⟩
  | nothing r hr => exact ⟨[], rfl, by simp [loopSeen, outcome, handled, atWork, held_nothing hp hr], rfl⟩
  | lock ev => exact ⟨[], rfl, rfl, by rw [(setMutex_cell s h _).1]; rfl⟩
  | unlock => exact ⟨[], rfl, rfl, by rw [(setMutex_cell s h _).1]; rfl⟩
  | exit | enter | got => exact ⟨[], rfl, rfl, rfl⟩
  | notFound ev hf => exact ⟨[], by simp [loopSeen, hf, pops], by simp [loopSeen, hf, handled, atWork], rfl⟩
  | found ev f hf => exact ⟨[], by simp [loopSeen, hf, pops], by simp [loopSeen, hf, handled, atWork], rfl⟩
  | castFails ev m k hc =>
      exact ⟨[], by simp [loopSeen, Callback.code, hc, pops], by simp [loopSeen, Callback.code, hc, handled, atWork], rfl⟩
  | cast ev m k x hc =>
      exact ⟨[], by simp [loopSeen, Callback.code, hc, pops],
        by simp [loopSeen, Callback.code, hc, handled, atWork, Code.isCallback], rfl⟩
  | callType ev k =>
      exact ⟨[], by simp [loopSeen, Callback.code, pops],
        by simp [loopSeen, Callback.code, handled, atWork, Code.isCallback], rfl⟩
  | innerReturned | inner => cases hi

theorem work_congr {s s' : State M P K A} (ht : s'.thread h = s.thread h) : work s' h = work s h := by
  rw [work, work, ht]

theorem work_moved {s : State M P K A} {h' : Nat} {b : Bool} {pc pc' : LoopPc M P K A}
    (ht : s.thread h' = some ⟨pc, b⟩) (hpc : atWork pc' = atWork pc) :
    work (setThread s h' (some ⟨pc', b⟩)) h = work s h := elim_moved [] atWork ht hpc

theorem finish_serves {c : Cell M P K A} {ev : Event M P A} {y : Code P K} {throws : Bool} {pc : LoopPc M P K A}
    (hf : y.finish ev throws = some pc) :
    pops (finishSeen c throws (.user ev y none)) = [] ∧
      atWork (.user ev y none : LoopPc M P K A) = handled (finishSeen c throws (.user ev y none)) ++ atWork pc := by
  have hpc : atWork pc = [] := by rcases finish_cases hf with rfl | rfl <;> rfl
  rw [hpc, List.append_nil]
  cases hy : y.isCallback with
  | true => simp [finishSeen, hf, hy, pops, handled, atWork]
  | false => simp [finishSeen, hf, hy, pops, handled, atWork]

section System

variable [DecidableEq M]

theorem loop_serves {s₀ s : State M P K A} {log : List (Seen M P K A)} {h' : Nat} {ch : Choice Agent}
    {pc pc' : LoopPc M P K A} {b : Bool} {x : Shared M P K A} (hs : Serves h s₀ s log)
    (ht : s.thread h' = some ⟨pc, b⟩) (hstep : LoopStep ρ h' s.shared b pc x pc') (hp : LoopInPlace h' pc)
    (hi : innerCall pc = none) (hb : h' = h → b = false) (hstop : (s.shared.cell h).events.stopRequested = false) :
    Serves h s₀ (setThread (setShared s x) h' (some ⟨pc', b⟩)) (log ++ seen h s (.step (.thread h') ch)) := by
  by_cases he : h' = h
  · subst he
    cases hb rfl
    obtain ⟨taken, hpops, hwork, hq⟩ := loopStep_serves hstep hp hi hstop
    have hseen : seen h' s (.step (.thread h') ch) = loopSeen (s.shared.cell h') pc := by simp [seen, ht]
    rw [hseen]
    refine serves_step taken [] hs hpops ?_ (by rw [List.append_nil]; exact hq)
    simpa [work, ht, setThread] using hwork
  · rw [show seen h s (.step (.thread h') ch) = [] from if_neg he]
    refine serves_still hs (work_congr ?_) ⟨[], ?_⟩
    · simp [setThread, setShared, Ne.symm he]
    · have hcell : x.cell h = s.shared.cell h := (loopStep_frame hstep hi).2.2.1 h (Ne.symm he)
      exact (congrArg (·.events.queue) hcell).trans (List.append_nil _).symm

theorem inner_serves {s₀ s : State M P K A} {log : List (Seen M P K A)} {h' : Nat} {ch : Choice Agent}
    {pc pc' : LoopPc M P K A} {b : Bool} {x : Shared M P K A} {op : OpPc M P K A} (hs : Serves h s₀ s log)
    (ht : s.thread h' = some ⟨pc, b⟩) (hstep : LoopStep ρ h' s.shared b pc x pc') (hi : innerCall pc = some op)
    (hp : InPlace op) (hk : ∀ p, op ≠ .clear h p) :
    Serves h s₀ (setThread (setShared s x) h' (some ⟨pc', b⟩)) (log ++ seen h s (.step (.thread h') ch)) := by
  obtain ⟨ev, y, rfl, hcall⟩ := loopStep_inner hstep hi
  have hseen : seen h s (.step (.thread h') ch) = [] := by
    refine seen_eq_nil (fun l ch' hl ha => ?_) fun l throws _ ha => by cases ha
    cases ha
    cases hl.symm.trans ht
    rfl
  rw [hseen]
  rcases hcall with ⟨r, -, rfl, rfl⟩ | ⟨op', hop, rfl⟩
  · exact serves_still hs (work_moved ht rfl) ⟨[], (List.append_nil _).symm⟩
  · exact serves_still hs (work_moved (s := setShared s x) ht rfl) (opStep_appends hop hp hk)

theorem move_serves {s₀ s s' : State M P K A} {a : Action M P K A} {log : List (Seen M P K A)}
    (hs : Serves h s₀ s log) (hlive : Live s h) (hst : Started s h) (hplaced : Placed s) (hok : Undisturbed h s a)
    (hn : Move ρ n m s a s') : Serves h s₀ s' (log ++ seen h s a) := by
  obtain ⟨pc₀, ht₀, -⟩ := hlive.running hst
  have hstop := hlive.unstopped _ ht₀ rfl
  have hnone (c : Cell M P K A) (he : c = s.shared.cell h) :
      ∃ later, c.events.queue = (s.shared.cell h).events.queue ++ later := ⟨[], by rw [he, List.append_nil]⟩
  cases hn with
  | call | control | leave => exact serves_still hs rfl (hnone _ rfl)
  | inner h' x ev y b ht => exact serves_still hs (work_moved ht rfl) (hnone _ rfl)
  | terminate h' throws ev y b ht hf =>
      have hseen : seen h s (.finish h' throws) = [] := by
        refine seen_eq_nil (fun l ch _ ha => by cases ha) fun l throws' hl ha => ?_
        cases ha
        cases hl.symm.trans ht
        simp [finishSeen, hf]
      rw [hseen]
      exact serves_still hs rfl (hnone _ rfl)
  | finish h' throws ev y b pc ht hf =>
      by_cases he : h' = h
      · subst he
        have hseen : seen h' s (.finish h' throws) = finishSeen (s.shared.cell h') throws (.user ev y none) := by
          simp [seen, ht]
        obtain ⟨hpops, hwork⟩ := finish_serves (c := s.shared.cell h') hf
        rw [hseen]
        refine serves_step [] [] hs hpops ?_ (by simp [setThread])
        simpa [work, ht, setThread] using hwork
      · rw [show seen h s (.finish h' throws) = [] from if_neg he]
        exact serves_still hs (work_congr (by simp [setThread, Ne.symm he])) (hnone _ rfl)
  | client c ch pc pc' x hc hstep =>
      have hp : InPlace pc := hplaced.inCall (a := .client c) hc
      refine serves_still hs rfl (opStep_appends hstep hp ?_)
      rintro p rfl
      exact hok p hc
  | thread h' ch pc pc' b x ht hstep =>
      cases hi : innerCall pc with
      | none =>
          have hp : LoopInPlace h' pc := by simpa [standing, ht] using hplaced.agent (.thread h')
          refine loop_serves hs ht hstep hp hi (fun he => ?_) hstop
          subst he
          rw [ht₀] at ht
          cases ht
          rfl
      | some op =>
          have hc : inCall s (.thread h') = some op := by simp [inCall, ht, hi]
          refine inner_serves hs ht hstep hi (hplaced.inCall hc) ?_
          rintro p rfl
          exact hok p hc
  | controlStep h' ch pc pc' s₁ hc hstep =>
      by_cases he : h' = h
      · subst he
        have hp := hst.control pc hc
        cases hstep with
        | startRefused | startChecked | started => exact serves_still hs rfl (hnone _ rfl)
        | spawn ht =>
            rw [ht₀] at ht
            cases ht
        | _ => cases hp
      · obtain ⟨hcell, hthread⟩ := (controlStep_frame hstep).2.2 h (Ne.symm he)
        exact serves_still hs (work_congr hthread) (hnone _ hcell)

theorem loopSeen_byTable {c : Cell M P K A} {pc : LoopPc M P K A} {ev : Event M P A} {f : Option (Callback M K)}
    {y : Option (Code P K)} (hs : Found c.handles pc) (hm : .handled ev f y ∈ loopSeen c pc) :
    y = f.bind (Callback.code ev) := by
  cases pc with
  | pop p => simp [loopSeen] at hm
  | find ev' =>
      simp only [loopSeen] at hm
      split at hm
      case isTrue =>
          cases List.mem_singleton.mp hm
          rfl
      case isFalse => cases hm
  | call ev' f' =>
      simp only [loopSeen] at hm
      split at hm
      case isTrue hnone =>
          cases List.mem_singleton.mp hm
          have hf : find c.handles ev.type = some f' := hs
          rw [hf, Option.bind_some]
          exact (Option.isNone_iff_eq_none.mp hnone).symm
      case isFalse => cases hm
  | _ => cases hm

theorem finishSeen_byTable {c : Cell M P K A} {pc : LoopPc M P K A} {throws : Bool} {ev : Event M P A}
    {f : Option (Callback M K)} {y : Option (Code P K)} (hs : Found c.handles pc)
    (hm : .handled ev f y ∈ finishSeen c throws pc) : y = f.bind (Callback.code ev) := by
  cases pc with
  | user ev' y' op =>
      cases op with
      | some op => cases hm
      | none =>
          simp only [finishSeen] at hm
          split at hm
          case isTrue hy =>
              cases List.mem_singleton.mp hm
              exact (hs (Bool.and_eq_true_iff.mp hy).1).symm
          case isFalse => cases hm
  | _ => cases hm

theorem seen_byTable {s : State M P K A} (hs : ∀ l, s.thread h = some l → Found (s.shared.cell h).handles l.pc)
    (a : Action M P K A) : ByTable (seen h s a) := by
  intro ev f y hm
  obtain ⟨l, hl, ⟨ch, -, hm⟩ | ⟨throws, -, hm⟩⟩ := mem_seen hm
  · exact loopSeen_byTable (hs l hl) hm
  · exact finishSeen_byTable (hs l hl) hm

theorem run_byTable {s₀ s : State M P K A} {log : List (Seen M P K A)}
    {ok₀ : State M P K A → Action M P K A → Prop} {ok : State M P K A × List (Seen M P K A) → Action M P K A → Prop}
    (hr₀ : Reachable (system ρ n m) ok₀ s₀)
    (hr : Reachable (logged (startingAt (system ρ n m) s₀) (seen h)) ok (s, log)) : ByTable log := by
  refine hr.logged_invariant (P := fun _ log => ByTable log) ?_ ?_
  · intro s _ ev f y hm
    cases hm
  · intro s log a s' hr hs _ _ ev f y hm
    rcases List.mem_append.mp hm with hm | hm
    · exact hs ev f y hm
    · exact seen_byTable (reachable_found (hr₀.any.trans hr.forget_any) h) a ev f y hm

theorem move_started {s s' : State M P K A} {a : Action M P K A} (hlive : Live s h) (hst : Started s h)
    (hok : Undisturbed h s a) (hn : Move ρ n m s a s') : Started s' h := by
  rcases move_control hn h with ⟨hc, hd, hs, -⟩ | ⟨x, rfl, hc, hd, rfl⟩ | ⟨ch, pc, pc', s₁, -, hc, hstep, rfl⟩
  · exact ⟨by rw [hs]; exact hst.start, by rw [hc]; exact hst.control, by rw [hd]; exact hst.destroyed⟩
  · obtain rfl := hok rfl
    refine ⟨hst.start, fun pc hpc => ?_, by simp [setControl, setDestroyed]⟩
    have hpc : (Control.start.entry : ControlPc M P A) = pc := by simpa [setControl] using hpc
    subst hpc
    rfl
  · have hp := hst.control pc hc
    have hf := hlive.fits
    rw [hc] at hf
    have hstart := hst.start
    cases hstep with
    | startRefused => exact ⟨hst.start, fun p hpc => by simp [setControl] at hpc, hst.destroyed⟩
    | startChecked hs =>
        rw [hstart] at hs
        cases hs
    | spawn =>
        have hf : s.start h = false := hf
        rw [hstart] at hf
        cases hf
    | started =>
        have hf : s.start h = false := hf.1
        rw [hstart] at hf
        cases hf
    | _ => cases hp

theorem run_serves {s₀ s : State M P K A} {log : List (Seen M P K A)}
    (hr₀ : Reachable (system ρ n m) (FreshStart h) s₀) (hst : Started s₀ h)
    (hr : Reachable (logged (startingAt (system ρ n m) s₀) (seen h)) (fun p a => Undisturbed h p.1 a) (s, log)) :
    Live s h ∧ Started s h ∧ Serves h s₀ s log := by
  refine hr.logged_invariant (P := fun s log => Live s h ∧ Started s h ∧ Serves h s₀ s log) ?_ ?_
  · rintro s rfl
    exact ⟨reachable_live hr₀, hst, [], [], rfl, by simp [handled], by simp⟩
  · intro s log a s' hr ⟨hlive, hst, hserves⟩ hok hn
    have hplaced := reachable_placed (hr₀.any.trans hr.forget_any)
    have hmove := (next_sound hn).2
    exact ⟨move_live hlive hplaced (hlive.freshStart hst a) hmove, move_started hlive hst hok hmove,
      move_serves hserves hlive hst hplaced hok hmove⟩

end System

end Enigma.HandlerServe
