import Enigma.HandlerServe

namespace Enigma.HandlerRestart

open Transition SyncQueue QueueStep EventBus BusThreads BusStep BusCalls BusLocks BusView BusOrder QueueConsumer
open HandlerThread HandlerLife HandlerServe
open BusCancel (move_find_same)

variable {M P K A : Type} {ρ : Runtime M P} {n m h : Nat}

def aboutToPop : LoopPc M P K A → Bool
  | .check | .pop (.lock _) | .pop (.test _) | .pop (.block _) | .pop (.wait _) | .pop (.check _)
  | .pop (.take _) => true
  | _ => false

/-- The owner of the mutex of a handler, when it is not its thread, is in a call. -/
theorem holder_call {s : State M P K A} (ho : Owned s) {t : Agent} {l : Loop M P K A}
    (hm : (s.shared.cell h).mutex = some t) (ht : s.thread h = some l) (hl : loopHolds h l.pc = []) :
    t ≠ .thread h ∧ ∃ pc, inCall s t = some pc ∧ Lock.handler h ∈ holds pc := by
  have hh : Lock.handler h ∈ holdsOf s t := (ho.iff t (.handler h)).mpr hm
  have hne : t ≠ .thread h := by
    rintro rfl
    simp [holdsOf, standing, ht, hl] at hh
  refine ⟨hne, ?_⟩
  cases t with
  | client c =>
      cases hc : s.client c with
      | none => simp [holdsOf, standing, hc] at hh
      | some pc => exact ⟨pc, hc, by simpa [holdsOf, standing, hc] using hh⟩
  | thread h' =>
      have hne : h' ≠ h := fun he => hne (by rw [he])
      cases ht' : s.thread h' with
      | none => simp [holdsOf, standing, ht'] at hh
      | some l' =>
          have hh : Lock.handler h ∈ loopHolds h' l'.pc := by simpa [holdsOf, standing, ht'] using hh
          cases hpc : l'.pc with
          | user ev x call =>
              rw [hpc] at hh
              cases call with
              | none => simp [loopHolds, Ne.symm hne] at hh
              | some pc => exact ⟨pc, by simp [inCall, ht', hpc, innerCall], by simpa [loopHolds, Ne.symm hne] using hh⟩
          | _ => simp [hpc, loopHolds, Ne.symm hne] at hh
  | control h' => cases hh

theorem pops_finishSeen (c : Cell M P K A) (throws : Bool) (pc : LoopPc M P K A) :
    pops (finishSeen c throws pc) = [] := by
  cases pc with
  | user ev y op =>
      cases op with
      | some op => rfl
      | none =>
          simp only [finishSeen]
          split <;> rfl
  | _ => rfl

section Stale

variable [DecidableEq M]

theorem pops_loopSeen (c : Cell M P K A) (pc : LoopPc M P K A) :
    pops (loopSeen c pc) = [] ∨ ∃ p, pc = .pop p ∧ pops (loopSeen c pc) = outcome c.events p := by
  cases pc with
  | pop p => exact .inr ⟨p, rfl, by simp [loopSeen, pops, List.filterMap_map]⟩
  | find ev | call ev f =>
      refine .inl ?_
      simp only [loopSeen]
      split <;> rfl
  | _ => exact .inl rfl

theorem stale_pops {s : State M P K A} (hs : Stale (view s h)) (a : Action M P K A) :
    ∀ v ∈ pops (seen h s a), v = none := by
  intro v hv
  cases a with
  | step t ch =>
      cases t with
      | thread h' =>
          simp only [seen] at hv
          split at hv
          case isFalse => cases hv
          case isTrue he =>
              subst he
              cases ht : s.thread h' with
              | none =>
                  rw [ht] at hv
                  cases hv
              | some l =>
                  obtain ⟨pc, b⟩ := l
                  rw [ht, Option.elim_some] at hv
                  rcases pops_loopSeen (s.shared.cell h') pc with hnil | ⟨p, rfl, hout⟩
                  · rw [hnil] at hv
                    cases hv
                  · rw [hout] at hv
                    cases p with
                    | check c =>
                        have hstop : (s.shared.cell h').events.stopRequested = true := hs.stopped
                        simpa [outcome, hstop] using hv
                    | take c => exact absurd (view_pop ht) (hs.untaken (.thread h') c)
                    | _ => cases hv
      | client | control => cases hv
  | finish h' throws =>
      simp only [seen] at hv
      split at hv
      case isFalse => cases hv
      cases ht : s.thread h with
      | none =>
          rw [ht] at hv
          cases hv
      | some l =>
          rw [ht, Option.elim_some, pops_finishSeen] at hv
          cases hv
  | _ => cases hv

end Stale

section System

variable [DecidableEq M]

/-- A state on the way from `s₀`, in which nobody clears the queue. -/
structure OnTheWay (ρ : Runtime M P) (n m h : Nat) (s₀ s : State M P K A) (log : List (Seen M P K A)) : Prop where
  reach : Reachable (logged (startingAt (system ρ n m) s₀) (seen h)) (fun p a => Undisturbed h p.1 a) (s, log)
  alive : s.terminated = false
  uncleared : ∀ a p, inCall s a ≠ some (.clear h p)
  table : (∀ a x, inCall s₀ a ≠ some (.table h x)) →
    (∀ type, find (s.shared.cell h).handles type = find (s₀.shared.cell h).handles type) ∧
      ∀ a x, inCall s a ≠ some (.table h x)

variable {s₀ s : State M P K A} {log : List (Seen M P K A)}

/-- A step after which every call stands where it stood, or one of them comes neither
to the queue of the handler to clear it, nor to its table. -/
theorem onTheWay_step {s' : State M P K A} {a : Action M P K A} (hw : OnTheWay ρ n m h s₀ s log)
    (hok : Undisturbed h s a) (hn : next ρ n m s a = some s') (halive : s'.terminated = false)
    (hcalls : ∀ b pc, inCall s' b = some pc → inCall s b = some pc ∨ (∀ p, pc ≠ .clear h p) ∧ ∀ x, pc ≠ .table h x) :
    OnTheWay ρ n m h s₀ s' (log ++ seen h s a) := by
  refine ⟨hw.reach.logged_step hok hn, halive, fun b p hc => ?_, fun h0 => ⟨fun type => ?_, fun b x hc => ?_⟩⟩
  · rcases hcalls b _ hc with hold | ⟨hnew, -⟩
    · exact hw.uncleared b p hold
    · exact hnew p rfl
  · obtain ⟨hfind, hnone⟩ := hw.table h0
    rw [move_find_same (next_sound hn).2 fun b ch _ => hnone b, hfind]
  · rcases hcalls b _ hc with hold | ⟨-, hnew⟩
    · exact (hw.table h0).2 b x hold
    · exact hnew x rfl

theorem loop_on {pc pc' : LoopPc M P K A} {x : Shared M P K A} (hw : OnTheWay ρ n m h s₀ s log)
    (ht : s.thread h = some ⟨pc, false⟩) (hs : loopStep ρ h s.shared false .run pc = some (x, pc'))
    (hi : innerCall pc' = none) :
    ∃ s', OnTheWay ρ n m h s₀ s' (log ++ loopSeen (s.shared.cell h) pc) ∧ s'.thread h = some ⟨pc', false⟩ ∧
      s'.shared = x := by
  have hok : Undisturbed h s (.step (.thread h) .run) := hw.uncleared (.thread h)
  have hstep := onTheWay_step hw hok (next_loop hw.alive ht hs) hw.alive fun b pc hc => .inl ?_
  · rw [show seen h s (.step (.thread h) .run) = loopSeen (s.shared.cell h) pc by simp [seen, ht]] at hstep
    exact ⟨_, hstep, by simp [setThread], rfl⟩
  · rw [inCall_setThread, inCall_setShared, hi] at hc
    by_cases he : b = .thread h
    · simp [he] at hc
    · simpa [he] using hc

theorem finish_on {ev : Event M P A} {y : Code P K} {pc : LoopPc M P K A} (hw : OnTheWay ρ n m h s₀ s log)
    (ht : s.thread h = some ⟨.user ev y none, false⟩) (hf : y.finish ev false = some pc) :
    ∃ s', OnTheWay ρ n m h s₀ s' (log ++ finishSeen (s.shared.cell h) false (.user ev y none)) := by
  have hn : next ρ n m s (.finish h false) = some (setThread s h (some ⟨pc, false⟩)) := by
    simp [next, hw.alive, act, ht, hf]
  have hok : Undisturbed h s (.finish h false) := trivial
  have hstep := onTheWay_step hw hok hn hw.alive fun b pc hc => .inl ?_
  · rw [show seen h s (.finish h false) = finishSeen (s.shared.cell h) false (.user ev y none) by
      simp [seen, ht]] at hstep
    exact ⟨_, hstep⟩
  · rw [inCall_setThread, innerCall_finish hf] at hc
    by_cases he : b = .thread h
    · simp [he] at hc
    · simpa [he] using hc

theorem call_on (ch : Choice Agent) {t : Agent} {pc pc' : OpPc M P K A} {x : Shared M P K A}
    (hw : OnTheWay ρ n m h s₀ s log) (ht : t ≠ .thread h) (hc : inCall s t = some pc) (hret : ∀ r, pc ≠ .returned r)
    (hs : opStep ρ t s.shared ch pc = some (x, pc')) (hclear : ∀ p, pc' ≠ .clear h p)
    (htable : ∀ x, pc' ≠ .table h x) :
    ∃ s', OnTheWay ρ n m h s₀ s' log ∧ s'.shared = x ∧ inCall s' t = some pc' ∧ s'.thread h = s.thread h := by
  obtain ⟨s', hn, hshared, halive, hcall, hthread⟩ := next_call hw.alive hc hret hs
  have hseen : seen h s (.step t ch) = [] := by
    cases t with
    | thread h' => exact if_neg fun he => ht (by rw [he])
    | client | control => rfl
  have hok : Undisturbed h s (.step t ch) := hw.uncleared t
  have hstep := onTheWay_step hw hok hn halive fun b pc hb => ?_
  · rw [hseen, List.append_nil] at hstep
    exact ⟨s', hstep, hshared, by rw [hcall, Function.update_self], hthread h ht⟩
  · rw [hcall] at hb
    by_cases he : b = t
    · subst he
      rw [Function.update_self] at hb
      cases hb
      exact .inr ⟨hclear, htable⟩
    · exact .inl (by simpa [he] using hb)

theorem deliver_on (ch : Choice Agent) {t : Agent} {p p' : Pc (Event M P A)} {v : Visit M P A}
    {q : Queue Agent (Event M P A)} (hw : OnTheWay ρ n m h s₀ s log) (ht : t ≠ .thread h)
    (hc : inCall s t = some (.deliver h p v)) (hp : ∀ r, p ≠ .returned r)
    (hs : step false t (s.shared.cell h).events p ch = some (q, p')) :
    ∃ s', OnTheWay ρ n m h s₀ s' log ∧ (s'.shared.cell h).events = q ∧ inCall s' t = some (.deliver h p' v) ∧
      s'.thread h = s.thread h := by
  have hop : opStep ρ t s.shared ch (.deliver h p v) = some (setEvents s.shared h q, .deliver h p' v) := by
    cases p with
    | returned r => exact absurd rfl (hp r)
    | _ => simp [opStep, inQueue, hs, setEvents]
  obtain ⟨s', hw', hshared, hcall, hthread⟩ := call_on ch hw ht hc (by simp) hop (by simp) (by simp)
  exact ⟨s', hw', by rw [hshared, setEvents_self], hcall, hthread⟩

theorem deliver_unlocks {t : Agent} {r : Ret (Event M P A)} {v : Visit M P A} (hw : OnTheWay ρ n m h s₀ s log)
    (ht : t ≠ .thread h) (hc : inCall s t = some (.deliver h (.unlock r) v)) :
    ∃ s', OnTheWay ρ n m h s₀ s' log ∧ (s'.shared.cell h).events.mutex = none ∧
      (s'.shared.cell h).events.queue = (s.shared.cell h).events.queue ∧ s'.thread h = s.thread h := by
  obtain ⟨s', hw', hq, -, hthread⟩ := deliver_on .run hw ht hc (by simp) rfl
  exact ⟨s', hw', by rw [hq], by rw [hq], hthread⟩

theorem deliver_notifies {t : Agent} {v : Visit M P A} (hw : OnTheWay ρ n m h s₀ s log)
    (ht : t ≠ .thread h) (hc : inCall s t = some (.deliver h .notifyOne v)) :
    ∃ s', OnTheWay ρ n m h s₀ s' log ∧ (s'.shared.cell h).events.mutex = none ∧
      (s'.shared.cell h).events.queue = (s.shared.cell h).events.queue ∧ s'.thread h = s.thread h := by
  have hstep : ∃ ch q, step false t (s.shared.cell h).events .notifyOne ch = some (q, .unlock .unit) ∧
      q.queue = (s.shared.cell h).events.queue := by
    cases hwait : (s.shared.cell h).events.cv.waiting with
    | nil => exact ⟨.run, _, if_pos hwait, rfl⟩
    | cons w rest => exact ⟨.notify w, _, if_pos (by simp [hwait]), rfl⟩
  obtain ⟨ch, q, hstep, hqueue⟩ := hstep
  obtain ⟨s₁, hw₁, hq₁, hc₁, ht₁⟩ := deliver_on ch hw ht hc (by simp) hstep
  obtain ⟨s', hw', hm, hq', ht'⟩ := deliver_unlocks hw₁ ht hc₁
  exact ⟨s', hw', hm, by rw [hq', hq₁, hqueue], by rw [ht', ht₁]⟩

theorem frees_queue {ev : Event M P A} (hw : OnTheWay ρ n m h s₀ s log) (hord : Orderly s h) (hst : Started s h)
    (hown : critical ((view s h).pc (.thread h)) = false)
    (hq : ∃ rest, (s.shared.cell h).events.queue = ev :: rest) :
    ∃ s', OnTheWay ρ n m h s₀ s' log ∧ (s'.shared.cell h).events.mutex = none ∧
      (∃ rest, (s'.shared.cell h).events.queue = ev :: rest) ∧ s'.thread h = s.thread h := by
  obtain ⟨rest, hq⟩ := hq
  cases hm : (s.shared.cell h).events.mutex with
  | none => exact ⟨s, hw, hm, ⟨rest, hq⟩, rfl⟩
  | some t =>
      have hcrit := hord.inSection.owner t hm
      have ht : t ≠ .thread h := by
        rintro rfl
        rw [hown] at hcrit
        cases hcrit
      have hv := Placed.visiting hord.placed h t
      generalize (view s h).pc t = p at hv hcrit
      cases hv with
      | outside => cases hcrit
      | clear hc => exact absurd hc (hw.uncleared t p)
      | pop => exact absurd rfl ht
      | stop hc hwithin =>
          have hp := hst.control _ hc
          cases hp
      | stopClear hc =>
          have hp := hst.control _ hc
          cases hp
      | push v hc x hwithin =>
          cases hwithin with
          | push =>
              obtain ⟨s₁, hw₁, hq₁, hc₁, ht₁⟩ := deliver_on .run hw ht hc (by simp) rfl
              obtain ⟨s', hw', hm', hq', ht'⟩ := deliver_notifies hw₁ ht hc₁
              exact ⟨s', hw', hm', ⟨rest ++ [x], by rw [hq', hq₁, hq]; rfl⟩, by rw [ht', ht₁]⟩
          | notifyOne =>
              obtain ⟨s', hw', hm', hq', ht'⟩ := deliver_notifies hw ht hc
              exact ⟨s', hw', hm', ⟨rest, by rw [hq', hq]⟩, ht'⟩
          | unlockPush =>
              obtain ⟨s', hw', hm', hq', ht'⟩ := deliver_unlocks hw ht hc
              exact ⟨s', hw', hm', ⟨rest, by rw [hq', hq]⟩, ht'⟩
          | lock | returnedPush => cases hcrit

theorem pop_on {p p' : Pc (Event M P A)} {q : Queue Agent (Event M P A)} (hw : OnTheWay ρ n m h s₀ s log)
    (ht : s.thread h = some ⟨.pop p, false⟩) (hp : ∀ r, p ≠ .returned r)
    (hs : step false (.thread h) (s.shared.cell h).events p .run = some (q, p')) :
    ∃ s', OnTheWay ρ n m h s₀ s' (log ++ (outcome (s.shared.cell h).events p).map .popped) ∧
      s'.thread h = some ⟨.pop p', false⟩ ∧ (s'.shared.cell h).events = q := by
  obtain ⟨s', hw', ht', hshared⟩ := loop_on hw ht (loopStep_pop hp hs) rfl
  exact ⟨s', hw', ht', by rw [hshared, setEvents_self]⟩

theorem pops_from_take {ev : Event M P A} {rest : List (Event M P A)} {c : Bool} (hw : OnTheWay ρ n m h s₀ s log)
    (hq : (s.shared.cell h).events.queue = ev :: rest) (ht : s.thread h = some ⟨.pop (.take c), false⟩) :
    ∃ s', OnTheWay ρ n m h s₀ s' (log ++ [.popped (some ev)]) ∧ s'.thread h = some ⟨.lock ev, false⟩ := by
  have htake : step false (.thread h) (s.shared.cell h).events (.take c) .run =
      some ({ (s.shared.cell h).events with queue := rest }, .unlock (.value (some ev))) := by
    simp [step, hq]
  obtain ⟨s₁, hw₁, ht₁, -⟩ := pop_on hw ht (by simp) htake
  obtain ⟨s₂, hw₂, ht₂, -⟩ := pop_on hw₁ ht₁ (by simp) rfl
  have hlock : loopStep ρ h s₂.shared false .run (.pop (.returned (.value (some ev)))) = some (s₂.shared, .lock ev) :=
    rfl
  obtain ⟨s₃, hw₃, ht₃, -⟩ := loop_on hw₂ ht₂ hlock rfl
  exact ⟨s₃, by simpa [outcome, loopSeen, hq] using hw₃, ht₃⟩

theorem pops_from_check {ev : Event M P A} {rest : List (Event M P A)} {c : Bool} (hw : OnTheWay ρ n m h s₀ s log)
    (hstop : (s.shared.cell h).events.stopRequested = false) (hq : (s.shared.cell h).events.queue = ev :: rest)
    (ht : s.thread h = some ⟨.pop (.check c), false⟩) :
    ∃ s', OnTheWay ρ n m h s₀ s' (log ++ [.popped (some ev)]) ∧ s'.thread h = some ⟨.lock ev, false⟩ := by
  have hcheck : step false (.thread h) (s.shared.cell h).events (.check c) .run =
      some ((s.shared.cell h).events, .take c) := by
    simp [step, hstop]
  obtain ⟨s₁, hw₁, ht₁, hq₁⟩ := pop_on hw ht (by simp) hcheck
  rw [show outcome (s.shared.cell h).events (.check c) = [] by simp [outcome, hstop], List.map_nil,
    List.append_nil] at hw₁
  exact pops_from_take hw₁ (by rw [hq₁, hq]) ht₁

/-- From the test of its predicate on the thread comes through Pop by itself. -/
theorem pops_from_test {ev : Event M P A} {rest : List (Event M P A)} {c : Bool} (hw : OnTheWay ρ n m h s₀ s log)
    (hstop : (s.shared.cell h).events.stopRequested = false) (hq : (s.shared.cell h).events.queue = ev :: rest)
    (ht : s.thread h = some ⟨.pop (.test c), false⟩) :
    ∃ s', OnTheWay ρ n m h s₀ s' (log ++ [.popped (some ev)]) ∧ s'.thread h = some ⟨.lock ev, false⟩ := by
  have htest : step false (.thread h) (s.shared.cell h).events (.test c) .run =
      some ((s.shared.cell h).events, .check c) := by
    simp [step, hq]
  obtain ⟨s₁, hw₁, ht₁, hq₁⟩ := pop_on hw ht (by simp) htest
  rw [show outcome (s.shared.cell h).events (.test c) = [] from rfl, List.map_nil, List.append_nil] at hw₁
  exact pops_from_check hw₁ (by rw [hq₁, hstop]) (by rw [hq₁, hq]) ht₁

theorem mutex_call {t : Agent} {pc pc' : OpPc M P K A} {x : Shared M P K A} (hw : OnTheWay ρ n m h s₀ s log)
    (ht : t ≠ .thread h) (hc : inCall s t = some pc) (hret : ∀ r, pc ≠ .returned r)
    (hs : opStep ρ t s.shared .run pc = some (x, pc')) (hclear : ∀ p, pc' ≠ .clear h p)
    (htable : ∀ x, pc' ≠ .table h x) (hm : (x.cell h).mutex = none) :
    ∃ s', OnTheWay ρ n m h s₀ s' log ∧ (s'.shared.cell h).mutex = none ∧ s'.thread h = s.thread h := by
  obtain ⟨s', hw', hshared, -, ht'⟩ := call_on .run hw ht hc hret hs hclear htable
  exact ⟨s', hw', by rw [hshared]; exact hm, ht'⟩

theorem frees_handler {l : Loop M P K A} (hw : OnTheWay ρ n m h s₀ s log) (ho : Owned s)
    (ht : s.thread h = some l) (hl : loopHolds h l.pc = []) :
    ∃ s', OnTheWay ρ n m h s₀ s' log ∧ (s'.shared.cell h).mutex = none ∧ s'.thread h = s.thread h := by
  cases hm : (s.shared.cell h).mutex with
  | none => exact ⟨s, hw, hm, rfl⟩
  | some t =>
      obtain ⟨hne, pc, hc, hh⟩ := holder_call ho hm ht hl
      have hunlock (s : Shared M P K A) : ((setMutex s h none).cell h).mutex = none := by simp [setMutex, setCell]
      cases pc with
      | readType h' v =>
          have he : h' = h := by simpa [holds, eq_comm] using hh
          subst he
          obtain ⟨s₁, hw₁, -, hc₁, ht₁⟩ := call_on .run hw hne hc (by simp) rfl (by simp) (by simp)
          cases hf : contains (s.shared.cell h').handles v.sending.event.type with
          | true =>
              rw [hf] at hc₁
              obtain ⟨s', hw', hm', ht'⟩ := mutex_call hw₁ hne hc₁ (by simp) rfl (by simp) (by simp) (hunlock _)
              exact ⟨s', hw', hm', by rw [ht', ht₁]⟩
          | false =>
              rw [hf] at hc₁
              obtain ⟨s', hw', hm', ht'⟩ := mutex_call hw₁ hne hc₁ (by simp) rfl (by simp) (by simp) (hunlock _)
              exact ⟨s', hw', hm', by rw [ht', ht₁]⟩
      | unlockType h' found v =>
          have he : h' = h := by simpa [holds, eq_comm] using hh
          subst he
          cases found with
          | true => exact mutex_call hw hne hc (by simp) rfl (by simp) (by simp) (hunlock _)
          | false => exact mutex_call hw hne hc (by simp) rfl (by simp) (by simp) (hunlock _)
      | table h' x =>
          have he : h' = h := by simpa [holds, eq_comm] using hh
          subst he
          obtain ⟨s₁, hw₁, -, hc₁, ht₁⟩ := call_on .run hw hne hc (by simp) rfl (by simp) (by simp)
          obtain ⟨s', hw', hm', ht'⟩ := mutex_call hw₁ hne hc₁ (by simp) rfl (by simp) (by simp) (hunlock _)
          exact ⟨s', hw', hm', by rw [ht', ht₁]⟩
      | unlockTable h' r =>
          have he : h' = h := by simpa [holds, eq_comm] using hh
          subst he
          exact mutex_call hw hne hc (by simp) rfl (by simp) (by simp) (hunlock _)
      | _ => simp [holds] at hh

theorem loopStep_call (s : Shared M P K A) (ev : Event M P A) (f : Callback M K) :
    loopStep ρ h s false .run (.call ev f) =
      some (s, (Callback.code ev f).elim .unlock fun y => .user ev y none) := by
  cases f with
  | onType k => rfl
  | on m k => cases hc : anyCast m ev.ev <;> simp [loopStep, Callback.code, hc]

theorem code_isCallback {ev : Event M P A} {f : Callback M K} {y : Code P K} (hy : Callback.code ev f = some y) :
    y.isCallback = true ∧ ∃ pc : LoopPc M P K A, y.finish ev false = some pc := by
  cases f with
  | onType k =>
      cases hy
      exact ⟨rfl, _, rfl⟩
  | on m k =>
      obtain ⟨x, -, rfl⟩ := Option.map_eq_some_iff.mp hy
      exact ⟨rfl, _, rfl⟩

theorem handles_found {ev : Event M P A} {f : Callback M K} (hw : OnTheWay ρ n m h s₀ s log)
    (ht : s.thread h = some ⟨.call ev f, false⟩) :
    ∃ s₁ s' y, OnTheWay ρ n m h s₀ s₁ log ∧
      OnTheWay ρ n m h s₀ s' (log ++ [.handled ev (find (s₁.shared.cell h).handles ev.type) y]) := by
  have hcall : loopStep ρ h s.shared false .run (.call ev f) = _ := loopStep_call s.shared ev f
  cases hy : Callback.code ev f with
  | none =>
      rw [hy] at hcall
      obtain ⟨s', hw', -, -⟩ := loop_on hw ht hcall rfl
      exact ⟨s, s', none, hw, by simpa [loopSeen, hy] using hw'⟩
  | some y =>
      rw [hy] at hcall
      obtain ⟨hcallback, pc, hfinish⟩ := code_isCallback hy
      obtain ⟨s₁, hw₁, ht₁, -⟩ := loop_on hw ht hcall rfl
      rw [show loopSeen (s.shared.cell h) (.call ev f) = [] by simp [loopSeen, hy], List.append_nil] at hw₁
      obtain ⟨s', hw'⟩ := finish_on hw₁ ht₁ hfinish
      exact ⟨s₁, s', some y, hw₁, by simpa [finishSeen, hcallback, hfinish] using hw'⟩

/-- The thread handles its event by the callback that it finds, which is the one from
the beginning if nobody was on the way to the table. -/
theorem handles_next {ev : Event M P A} (hw : OnTheWay ρ n m h s₀ s log) (ho : Owned s)
    (ht : s.thread h = some ⟨.lock ev, false⟩) :
    ∃ s' f y, OnTheWay ρ n m h s₀ s' (log ++ [.handled ev f y]) ∧
      ((∀ a x, inCall s₀ a ≠ some (.table h x)) → f = find (s₀.shared.cell h).handles ev.type) := by
  obtain ⟨s₁, hw₁, hm, ht₁⟩ := frees_handler hw ho ht rfl
  rw [ht] at ht₁
  have hlock : loopStep ρ h s₁.shared false .run (.lock ev) =
      some (setMutex s₁.shared h (some (.thread h)), .find ev) := by
    simp [loopStep, lockCell, hm, setMutex]
  obtain ⟨s₂, hw₂, ht₂, -⟩ := loop_on hw₁ ht₁ hlock rfl
  rw [show loopSeen (s₁.shared.cell h) (.lock ev) = [] from rfl, List.append_nil] at hw₂
  cases hf : find (s₂.shared.cell h).handles ev.type with
  | none =>
      have hfind : loopStep ρ h s₂.shared false .run (.find ev) = some (s₂.shared, .unlock) := by simp [loopStep, hf]
      obtain ⟨s', hw', -, -⟩ := loop_on hw₂ ht₂ hfind rfl
      exact ⟨s', none, none, by simpa [loopSeen, hf] using hw', fun h0 => hf.symm.trans ((hw₂.table h0).1 _)⟩
  | some f =>
      have hfind : loopStep ρ h s₂.shared false .run (.find ev) = some (s₂.shared, .call ev f) := by simp [loopStep, hf]
      obtain ⟨s₃, hw₃, ht₃, -⟩ := loop_on hw₂ ht₂ hfind rfl
      rw [show loopSeen (s₂.shared.cell h) (.find ev) = [] by simp [loopSeen, hf], List.append_nil] at hw₃
      obtain ⟨s₄, s', y, hw₄, hw'⟩ := handles_found hw₃ ht₃
      exact ⟨s', _, y, hw', fun h0 => (hw₄.table h0).1 _⟩

theorem OnTheWay.orderly {ok : State M P K A → Action M P K A → Prop} (hr₀ : Reachable (system ρ n m) ok s₀)
    (hw : OnTheWay ρ n m h s₀ s log) : Orderly s h :=
  reachable_orderly (hr₀.any.trans hw.reach.forget_any) h

section FromStarted

variable {ev : Event M P A} (hr₀ : Reachable (system ρ n m) (FreshStart h) s₀) (hst₀ : Started s₀ h)
include hr₀ hst₀

theorem OnTheWay.unstopped (hw : OnTheWay ρ n m h s₀ s log) {pc : LoopPc M P K A}
    (ht : s.thread h = some ⟨pc, false⟩) : (s.shared.cell h).events.stopRequested = false :=
  (run_serves hr₀ hst₀ hw.reach).1.unstopped _ ht rfl

theorem pops_from_wait {op : Pc (Event M P A)} (hw : OnTheWay ρ n m h s₀ s log)
    (hq : ∃ rest, (s.shared.cell h).events.queue = ev :: rest) (ht : s.thread h = some ⟨.pop op, false⟩)
    (hop : op = .lock (.pop false) ∨ ∃ c, op = .wait c) :
    ∃ s', OnTheWay ρ n m h s₀ s' (log ++ [.popped (some ev)]) ∧ s'.thread h = some ⟨.lock ev, false⟩ := by
  have hcrit : critical ((view s h).pc (.thread h)) = false := by
    rw [view_pop ht]
    rcases hop with rfl | ⟨c, rfl⟩ <;> rfl
  obtain ⟨s₁, hw₁, hm, ⟨rest, hq₁⟩, ht₁⟩ :=
    frees_queue hw (hw.orderly hr₀) (run_serves hr₀ hst₀ hw.reach).2.1 hcrit hq
  rw [ht] at ht₁
  have htest : ∃ c q, step false (.thread h) (s₁.shared.cell h).events op .run = some (q, .test c) ∧
      q.queue = (s₁.shared.cell h).events.queue ∧ outcome (s₁.shared.cell h).events op = [] := by
    rcases hop with rfl | ⟨c, rfl⟩
    · exact ⟨false, _, if_pos hm, rfl, rfl⟩
    · -- with the mutex free and an event in the queue it has been notified
      have hord := hw₁.orderly hr₀
      rcases hord.tracked.awake_or_waiting (view_pop ht₁) with ha | hwait
      · exact ⟨c, _, if_pos ⟨ha, hm⟩, rfl, rfl⟩
      · rcases hord.served.waiting hwait with hnil | ⟨t, hown, -⟩
        · exact absurd (hq₁.symm.trans hnil) (by simp)
        · exact absurd (hm.symm.trans hown) (by simp)
  obtain ⟨c, q, hstep, hqueue, hout⟩ := htest
  obtain ⟨s₂, hw₂, ht₂, hq₂⟩ := pop_on hw₁ ht₁ (by rcases hop with rfl | ⟨c, rfl⟩ <;> simp) hstep
  rw [hout, List.map_nil, List.append_nil] at hw₂
  exact pops_from_test hw₂ (hw₂.unstopped hr₀ hst₀ ht₂) (by rw [hq₂, hqueue, hq₁]) ht₂

theorem pops_next {pc : LoopPc M P K A} {rest : List (Event M P A)} (hw : OnTheWay ρ n m h s₀ s log)
    (hq : (s.shared.cell h).events.queue = ev :: rest) (ht : s.thread h = some ⟨pc, false⟩)
    (ha : aboutToPop pc = true) :
    ∃ s', OnTheWay ρ n m h s₀ s' (log ++ [.popped (some ev)]) ∧ s'.thread h = some ⟨.lock ev, false⟩ := by
  have hord := hw.orderly hr₀
  have hstop := hw.unstopped hr₀ hst₀ ht
  cases pc with
  | check =>
      have henter : loopStep ρ h s.shared false .run .check = some (s.shared, .pop (.lock (.pop false))) := rfl
      obtain ⟨s₁, hw₁, ht₁, hs₁⟩ := loop_on hw ht henter rfl
      rw [show loopSeen (s.shared.cell h) .check = [] from rfl, List.append_nil] at hw₁
      exact pops_from_wait hr₀ hst₀ hw₁ ⟨rest, by rw [hs₁, hq]⟩ ht₁ (.inl rfl)
  | pop p =>
      cases p with
      | lock op =>
          obtain rfl := locks_to_pop hord.placed ht
          exact pops_from_wait hr₀ hst₀ hw ⟨rest, hq⟩ ht (.inl rfl)
      | wait c => exact pops_from_wait hr₀ hst₀ hw ⟨rest, hq⟩ ht (.inr ⟨c, rfl⟩)
      | block c =>
          have hnil := hord.served.block c (view_pop ht)
          exact absurd (hq.symm.trans hnil) (by simp)
      | test c => exact pops_from_test hw hstop hq ht
      | check c => exact pops_from_check hw hstop hq ht
      | take c => exact pops_from_take hw hq ht
      | _ => cases ha
  | _ => cases ha

end FromStarted

section Stale

/-- Once a thread has been created for a queue that was asked to stop, no Pop
takes an event any more. -/
theorem stale_run {ok : State M P K A × List (Seen M P K A) → Action M P K A → Prop} (hs : Stale (view s₀ h))
    (hr : Reachable (logged (startingAt (system ρ n m) s₀) (seen h)) ok (s, log)) : ∀ v ∈ pops log, v = none := by
  have hinv : Stale (view s h) ∧ ∀ v ∈ pops log, v = none := by
    refine hr.logged_invariant (P := fun s log => Stale (view s h) ∧ ∀ v ∈ pops log, v = none) ?_ ?_
    · rintro s rfl
      exact ⟨hs, fun v hv => by cases hv⟩
    · intro s log a s' _ ⟨hs, hlog⟩ _ hn
      obtain ⟨t, q, p, hturn, hview⟩ := move_view (next_sound hn).2 h
      refine ⟨by rw [hview]; exact turn_stale hs hturn, fun v hv => ?_⟩
      rw [show pops (log ++ seen h s a) = pops log ++ pops (seen h s a) by simp [pops]] at hv
      rcases List.mem_append.mp hv with hv | hv
      · exact hlog v hv
      · exact stale_pops hs a v hv
  exact hinv.2

theorem stale_of_spawn {a : Action M P K A} {s' : State M P K A} (hplaced : Placed s) (hn : Move ρ n m s a s')
    (hbad : ¬ FreshStart h s a) : Stale (view s' h) := by
  simp only [FreshStart, not_forall] at hbad
  obtain ⟨ch, rfl, hc, hstop⟩ := hbad
  have hstop : (s.shared.cell h).events.stopRequested = true := by simpa using hstop
  have hplaced' := move_placed hplaced hn
  cases hn with
  | controlStep _ _ pc pc' s₁ hpc hstep =>
      rw [hc] at hpc
      cases hpc
      cases hstep with
      | spawn =>
          refine ⟨hstop, fun t c ht => ?_⟩
          obtain ⟨-, b, hthread⟩ := popping_loop hplaced' ht rfl
          simp [setControl, setThread] at hthread

end Stale

/-- The next Pop of a started handler takes the head of the queue, and what it takes the thread
handles by the callback of its type; a thread about to pop can do both. -/
structure HandlesHead (ρ : Runtime M P) (n m h : Nat) (s : State M P K A) (ev : Event M P A) : Prop where
  takes : ∀ s' log,
    Reachable (logged (startingAt (system ρ n m) s) (seen h)) (fun p a => Undisturbed h p.1 a) (s', log) →
    (pops log = [] ∨ ∃ vs, pops log = some ev :: vs) ∧ ByTable log ∧
      ∃ taken, pops log = taken.map some ∧ work s h ++ taken = handled log ++ work s' h
  comes : s.terminated = false → (∀ a p, inCall s a ≠ some (.clear h p)) →
    (∀ l, s.thread h = some l → aboutToPop l.pc = true) → ∃ s' f,
      Reachable (logged (startingAt (system ρ n m) s) (seen h)) (fun p a => Undisturbed h p.1 a)
        (s', [.popped (some ev), .handled ev f (f.bind (Callback.code ev))]) ∧
      ((∀ a x, inCall s a ≠ some (.table h x)) → f = find (s.shared.cell h).handles ev.type)

theorem onTheWay_start (halive : s.terminated = false) (hclear : ∀ a p, inCall s a ≠ some (.clear h p)) :
    OnTheWay ρ n m h s s [] := ⟨.init ⟨rfl, rfl⟩, halive, hclear, fun h0 => ⟨fun _ => rfl, h0⟩⟩

theorem handles_popped {ok : State M P K A → Action M P K A → Prop} {ev : Event M P A}
    (hr₀ : Reachable (system ρ n m) ok s₀) (hw : OnTheWay ρ n m h s₀ s [.popped (some ev)])
    (ht : s.thread h = some ⟨.lock ev, false⟩) : ∃ s' f,
      Reachable (logged (startingAt (system ρ n m) s₀) (seen h)) (fun p a => Undisturbed h p.1 a)
        (s', [.popped (some ev), .handled ev f (f.bind (Callback.code ev))]) ∧
      ((∀ a x, inCall s₀ a ≠ some (.table h x)) → f = find (s₀.shared.cell h).handles ev.type) := by
  obtain ⟨s', f, y, hw', hf⟩ := handles_next hw (reachable_owned (hr₀.any.trans hw.reach.forget_any)) ht
  have hy : y = f.bind (Callback.code ev) := run_byTable hr₀ hw'.reach ev f y (by simp)
  rw [hy] at hw'
  exact ⟨s', f, hw'.reach, hf⟩

theorem handles_head {ev : Event M P A} {rest : List (Event M P A)} (hr : Reachable (system ρ n m) (FreshStart h) s)
    (hst : Started s h) (hq : (s.shared.cell h).events.queue = ev :: rest) : HandlesHead ρ n m h s ev := by
  refine ⟨fun s' log hr' => ?_, fun halive hclear habout => ?_⟩
  · have hserves := (run_serves hr hst hr').2.2
    obtain ⟨taken, later, hpops, hwork, -⟩ := id hserves
    exact ⟨hserves.next_pop hq, run_byTable hr hr', taken, hpops, hwork⟩
  · obtain ⟨pc, ht, -⟩ := (reachable_live hr).running hst
    obtain ⟨s₁, hw₁, ht₁⟩ := pops_next hr hst (onTheWay_start halive hclear) hq ht (habout _ ht)
    exact handles_popped hr hw₁ ht₁

/-- In a run in which the handler is not started again after a Stop, a started
handler handles the events in its queue. In every other run it handles none from
then on. -/
theorem started_handles (ρ : Runtime M P) (n m h : Nat) :
    (∀ s : State M P K A, Reachable (system ρ n m) (FreshStart h) s → Started s h →
      ∀ ev rest, (s.shared.cell h).events.queue = ev :: rest → HandlesHead ρ n m h s ev) ∧
    ∀ (s s' : State M P K A) (a : Action M P K A), Reachable (system ρ n m) Any s → next ρ n m s a = some s' →
      ¬ FreshStart h s a → ∀ s'' log, Reachable (logged (startingAt (system ρ n m) s') (seen h)) Any (s'', log) →
        ∀ v ∈ pops log, v = none := by
  constructor
  · intro s hr hst ev rest hq
    exact handles_head hr hst hq
  · intro s s' a hr hn hbad s'' log hr'
    exact stale_run (stale_of_spawn (reachable_placed hr) (next_sound hn).2 hbad) hr'

end System

section Runs

def fresh (h : Nat) (s : State M P K A) : Action M P K A → Bool
  | .step (.control _) _ => !(s.shared.cell h).events.stopRequested
  | _ => true

theorem freshStart_of_fresh (s : State M P K A) (a : Action M P K A) (hf : fresh h s a = true) : FreshStart h s a := by
  rintro ch rfl -
  simpa [fresh] using hf

def message : Event Unit Nat Nat := ⟨"T", some ⟨(), 42⟩, none⟩

def published (s : State Unit Nat Nat Nat) : Bool :=
  s.start 0 && (s.control 0).isNone && !s.destroyed 0 && decide ((s.shared.cell 0).events.queue = [message])

theorem started_of_published {s : State Unit Nat Nat Nat} (hp : published s = true) :
    Started s 0 ∧ (s.shared.cell 0).events.queue = [message] := by
  simp only [published, Bool.and_eq_true, decide_eq_true_eq, Bool.not_eq_true', Option.isNone_iff_eq_none] at hp
  obtain ⟨⟨⟨hstart, hcontrol⟩, hdestroyed⟩, hq⟩ := hp
  refine ⟨⟨hstart, fun pc hpc => ?_, hdestroyed⟩, hq⟩
  rw [hcontrol] at hpc
  cases hpc

theorem started_handles_first : ∃ s : State Unit Nat Nat Nat, Started s 0 ∧ HandlesHead oneType 1 1 0 s message := by
  obtain ⟨s, hr, hp⟩ := exists_of_run (system (K := Nat) (A := Nat) oneType 1 1) (FreshStart 0) (fresh 0) {}
    (List.flatten [setUp, [.call 0 (.publish () 42 none)], steps (.client 0) 13])
    published freshStart_of_fresh rfl rfl
  obtain ⟨hst, hq⟩ := started_of_published hp
  exact ⟨s, hst, (started_handles oneType 1 1 0).1 s hr hst message [] hq⟩

def stopAndStart : List (Action Unit Nat Nat Nat) :=
  List.flatten [[.control 0 .stop], steps (.control 0) 5, steps (.thread 0) 1, steps (.control 0) 6,
    [.control 0 .start], steps (.control 0) 3]

def alone (h : Nat) (s : State M P K A) : Action M P K A → Bool
  | .step (.thread h') _ => decide (h' = h) && (inCall s (.thread h')).isNone
  | _ => false

theorem undisturbed_of_alone (s : State M P K A) (a : Action M P K A) (ha : alone h s a = true) :
    Undisturbed h s a := by
  cases a with
  | step t ch =>
      cases t with
      | thread h' =>
          intro p hp
          simp [alone, hp] at ha
      | client | control => cases ha
  | _ => cases ha

def restarted : State Unit Nat Nat Nat := (run (system oneType 1 1) {}
  (List.flatten [setUp, stopAndStart, [.call 0 (.publish () 42 none)], steps (.client 0) 13])).getD {}

theorem restarted_pops_nothing : ¬ ∀ s : State Unit Nat Nat Nat, Reachable (system oneType 1 1) Any s →
    Started s 0 → ∀ ev rest, (s.shared.cell 0).events.queue = ev :: rest → HandlesHead oneType 1 1 0 s ev := by
  intro hall
  have hrun : run (system oneType 1 1) {} (List.flatten [setUp, stopAndStart, [.call 0 (.publish () 42 none)],
      steps (.client 0) 13]) = some restarted := rfl
  have hreach : Reachable (system oneType 1 1) Any restarted := run_reachable (.init rfl) hrun
  obtain ⟨hst, hq⟩ := started_of_published (s := restarted) rfl
  obtain ⟨⟨s, log⟩, hr, hp⟩ := exists_of_run (logged (startingAt (system oneType 1 1) restarted) (seen 0))
    (fun p a => Undisturbed 0 p.1 a) (fun p a => alone 0 p.1 a) (restarted, []) (steps (.thread 0) 4)
    (fun p => decide (pops p.2 = [none])) (fun p a ha => undisturbed_of_alone p.1 a ha) ⟨rfl, rfl⟩ rfl
  have hpops : pops log = [none] := of_decide_eq_true hp
  rcases ((hall restarted hreach hst message [] hq).takes s log hr).1 with hnil | ⟨vs, hsome⟩
  · rw [hpops] at hnil
    cases hnil
  · rw [hpops] at hsome
    cases hsome

end Runs

end Enigma.HandlerRestart
