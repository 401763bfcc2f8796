import Enigma.PoolRest
import Enigma.PoolRouting
import Enigma.PoolFutures

namespace Enigma.FuturesRest

open Transition ThreadPool PoolStep PoolCalls PoolLog PoolTasks PoolPlaces PoolTeardown PoolExec PoolFutures Indexed Rest

variable {E V : Type} {hw : Nat} {outcome : Nat → Except E V} {s : PoolExec.State E V} {h : List Event}

/-- Nobody calls Shutdown. -/
def Open (s : PoolExec.State E V) (a : PoolExec.Action) : Prop := ∀ b, baseAction a = some b → PoolRest.Open s.base b

def Moves : PoolExec.Action → Prop
  | .pool a => PoolRest.Moves a
  | .wrap _ => True
  | .exec | .call _ => False

theorem open_of_moves {a : PoolExec.Action} (ha : Moves a) : Open s a := by
  cases a with
  | pool a =>
      intro b hb hc
      cases hb
      subst hc
      exact ha
  | wrap c => exact fun b hb => by cases hb
  | exec | call => exact ha.elim

theorem reachable_base (hr : Reachable (logged (PoolExec.system hw outcome) execObs) (fun p a => Open p.1 a) (s, h)) :
    Reachable (logged (ThreadPool.system hw) obs) (fun p a => PoolRest.Open p.1 a) (s.base, h) := by
  refine hr.logged_invariant (P := fun s h =>
    Reachable (logged (ThreadPool.system hw) obs) (fun p a => PoolRest.Open p.1 a) (s.base, h)) ?_ ?_
  · rintro s rfl
    exact .init ⟨rfl, rfl⟩
  · intro s h a s' _ hb hok hn
    rcases PoolExec.next_cases hn with ⟨r, b, e, ha, hbn, rfl⟩ | ⟨a', b, rfl, -, hbn, rfl⟩ |
      ⟨c, e, e', pc, rfl, -, -, -, rfl⟩
    · rcases ha with ⟨rfl, rfl, -⟩ | ⟨rfl, -⟩
      · exact hb.logged_step (hok _ rfl) hbn
      · exact hb.logged_step (hok _ rfl) hbn
    · exact hb.logged_step (hok _ rfl) hbn
    · simpa [execObs] using hb

theorem reachable_apart {p : PoolExec.State E V × List Event}
    (hr : Reachable (logged (PoolExec.system hw outcome) execObs) (fun p a => Open p.1 a) p) :
    Reachable (logged (PoolExec.system hw outcome) execObs) (fun p a => ShutdownApart p.1 a) p := by
  induction hr with
  | init hi => exact .init hi
  | @step p q a hr hok hn ih =>
      refine .step ih (fun b hb r hcall => ⟨fun pc hpc => ?_, ?_⟩) hn
      · obtain ⟨c, hc⟩ := List.mem_iff_getElem?.mp hpc
        exact (PoolRest.reachable_open (reachable_base hr).forget).2 c pc hc
      · rintro rfl
        exact absurd hcall (hok b hb)

theorem reachable_undisturbed {t : ThreadPool.State} (hr : Reachable (ThreadPool.system hw) PoolRest.Open t) :
    Reachable (ThreadPool.system hw) PoolRouting.ShutdownApart t := by
  induction hr with
  | init hi => exact .init hi
  | @step t t' a hr hok hn ih =>
      have hopen := PoolRest.reachable_open hr
      refine .step ih (fun c ch j _ => ⟨fun _ _ => hopen.1, fun hc => ?_⟩) hn
      cases hopen.2 c _ hc

def ofSubmit : CallPc → Bool
  | .done (.submitted _) | .done .threw => true
  | pc => submitting pc

theorem callStep_ofSubmit {c : Nat} {p p' : Pool} {pc pc' : CallPc} (h : CallStep hw c p pc p' pc')
    (ho : ofSubmit pc = true) : ofSubmit pc' = true := by
  cases h with
  | startupRefused | startupChecked | startupMax | startupExpand | startupLock | startupCreate | startupCreated
  | startupStart | startupUnlock | shutdownRefused | shutdownChecked | shutdownRequest | destroy | shutdownCleared
  | clearStep | cleared | stopStep | stopped | joined | shutdownEnd => cases ho
  | dangling => exact ho
  | _ => rfl

theorem reachable_submits {ok : PoolExec.State E V → PoolExec.Action → Prop}
    (hr : Reachable (PoolExec.system hw outcome) ok s) : s.execs.length = s.base.calls.length ∧
      ∀ (c : Nat) e pc, s.execs[c]? = some (some e) → s.base.calls[c]? = some pc → ofSubmit pc = true := by
  refine hr.invariant (P := fun s => s.execs.length = s.base.calls.length ∧
    ∀ (c : Nat) e pc, s.execs[c]? = some (some e) → s.base.calls[c]? = some pc → ofSubmit pc = true) ?_ ?_
  · rintro s rfl
    exact ⟨rfl, fun c e pc he => by simp at he⟩
  · rintro s a s' - ⟨hlen, hsub⟩ - hn
    rcases PoolExec.next_cases hn with ⟨r, b, o, ha, hbn, rfl⟩ | ⟨a', b, rfl, hcall, hbn, rfl⟩ |
      ⟨c, e, e', pc, rfl, he, hpc, hstep, rfl⟩
    · have hcalls : b.calls = s.base.calls ++ [r.entry] := by
        rcases (PoolStep.next_cases hbn).2 with ⟨_, he, rfl⟩ | ⟨_, _, _, _, _, _, he, -⟩ | ⟨_, _, _, _, he, -⟩
        · cases he
          rfl
        · cases he
        · cases he
      refine ⟨by simp [hcalls, hlen], fun c e pc he hpc => ?_⟩
      rw [hcalls] at hpc
      rcases append_cases he with ⟨rfl, rfl⟩ | he
      · rcases ha with ⟨rfl, rfl, -⟩ | ⟨-, hnone⟩
        · rw [hlen, List.getElem?_concat_length] at hpc
          cases hpc
          rfl
        · cases hnone
      · rw [List.getElem?_append_left (by have hlt := (List.getElem?_eq_some_iff.mp he).1; omega)] at hpc
        exact hsub c e pc he hpc
    · refine ⟨by rw [List.length_mapIdx, hlen, next_length hbn hcall], fun c e pc he hpc => ?_⟩
      rw [List.getElem?_mapIdx, Option.map_eq_some_iff] at he
      obtain ⟨o, ho, he⟩ := he
      obtain ⟨e, rfl, rfl⟩ := Option.map_eq_some_iff.mp he
      rcases (PoolStep.next_cases hbn).2 with ⟨r, hr, -⟩ | ⟨d, ch, j, pd, p, pd', rfl, hpd, h, rfl⟩ |
        ⟨_, _, _, _, -, -, -, rfl⟩
      · exact absurd hr (hcall r)
      · rcases set_cases hpc with ⟨rfl, rfl, -⟩ | ⟨-, hpc⟩
        · exact callStep_ofSubmit h (hsub c e pd ho hpd)
        · exact hsub c e pc ho hpc
      · exact hsub c e pc ho hpc
    · refine ⟨by rw [List.length_set, hlen], fun d e₀ pd he₀ hpd => ?_⟩
      rcases set_cases he₀ with ⟨rfl, -, -⟩ | ⟨-, he₀⟩
      · exact hsub d e pd he hpd
      · exact hsub d e₀ pd he₀ hpd

def pending : Option (Exec E V) → Nat
  | none => 0
  | some e => match e.pc with
    | .submit => 3
    | .fail => 2
    | .leave _ => 1
    | .returned _ | .threw => 0

def measure (μ : ThreadPool.State → Nat) (s : PoolExec.State E V) : Nat := (s.execs.map pending).sum + μ s.base

theorem pending_observe (x : Nat) (e : Exec E V) (es : List Event) :
    pending (some (es.foldl (Exec.observe outcome x) e)) = pending (some e) := by
  induction es generalizing e with
  | nil => rfl
  | cons ev es ih =>
      rw [List.foldl_cons, ih]
      unfold Exec.observe
      split
      · split <;> rfl
      · split <;> rfl
      · split <;> rfl
      · rfl

theorem map_pending_mapIdx (execs : List (Option (Exec E V))) (es : List Event) :
    ((execs.mapIdx fun x e => e.map fun e => es.foldl (Exec.observe outcome x) e).map pending) = execs.map pending := by
  apply List.ext_getElem?
  intro x
  rw [List.getElem?_map, List.getElem?_mapIdx, List.getElem?_map]
  cases execs[x]? with
  | none => rfl
  | some o =>
      cases o with
      | none => rfl
      | some e => exact congrArg some (pending_observe x e es)

theorem step_pending {e e' : Exec E V} {pc : CallPc} (h : e.step pc = some e') :
    pending (some e') < pending (some e) := by
  unfold Exec.step at h
  split at h
  case h_7 => cases h
  all_goals
    rename_i hp
    cases h
    simp [pending, hp]

theorem settles {Inv : ThreadPool.State → Prop} {μ : ThreadPool.State → Nat}
    (hb : Settles (ThreadPool.system hw) PoolRest.Moves Inv μ) (outcome : Nat → Except E V) :
    Settles (PoolExec.system hw outcome) Moves (fun s => Inv s.base) (measure μ) where
  keeps s a s' hr ha hn := by
    rcases PoolExec.next_cases hn with ⟨r, b, e, hcall, -⟩ | ⟨a', b, rfl, -, hbn, rfl⟩ |
      ⟨c, e, e', pc, rfl, -, -, -, rfl⟩
    · rcases hcall with ⟨rfl, -⟩ | ⟨rfl, -⟩ <;> exact ha.elim
    · exact hb.keeps _ a' b hr ha hbn
    · exact hr
  drops s a s' hr ha hn := by
    rcases PoolExec.next_cases hn with ⟨r, b, e, hcall, -⟩ | ⟨a', b, rfl, -, hbn, rfl⟩ |
      ⟨c, e, e', pc, rfl, he, -, h, rfl⟩
    · rcases hcall with ⟨rfl, -⟩ | ⟨rfl, -⟩ <;> exact ha.elim
    · have hlt := hb.drops _ a' b hr ha hbn
      simp only [measure, map_pending_mapIdx]
      omega
    · have hlt := step_pending h
      have hsum := sum_map_set he (some e') pending
      simp only [measure]
      omega

theorem rest_base (hrest : AtRest (PoolExec.system hw outcome) Moves s) :
    AtRest (ThreadPool.system hw) PoolRest.Moves s.base := by
  intro a ha
  have hn : PoolExec.next hw outcome s (.pool a) = none := hrest (.pool a) ha
  cases a with
  | call r => exact ha.elim
  | step | worker => exact Option.map_eq_none_iff.mp hn

theorem rest_returned {ok : PoolExec.State E V → PoolExec.Action → Prop}
    (hr : Reachable (PoolExec.system hw outcome) ok s) (hf : s.base.pool.fault = false)
    (hrest : AtRest (PoolExec.system hw outcome) Moves s) {c : Nat} {e : Exec E V} (he : s.execs[c]? = some (some e))
    (hagrees : ∀ r, reported e.pc = some r → s.base.calls[c]? = some (.done r))
    (hall : ∀ pc, s.base.calls[c]? = some pc → isDone pc = true ∧ pc ≠ .done .threw) : ∃ b, e.pc = .returned b := by
  obtain ⟨hlen, hsub⟩ := reachable_submits hr
  have hlt : c < s.base.calls.length := by
    rw [← hlen]
    exact (List.getElem?_eq_some_iff.mp he).1
  have hc : s.base.calls[c]? = some s.base.calls[c] := List.getElem?_eq_getElem hlt
  obtain ⟨hdone, hthrew⟩ := hall _ hc
  have hof := hsub c e _ he hc
  have hn : PoolExec.next hw outcome s (.wrap c) = none := hrest (.wrap c) trivial
  have hstuck : e.step s.base.calls[c] = none := by
    simpa [PoolExec.next, hf, he, hc] using hn
  cases hp : e.pc with
  | returned b => exact ⟨b, rfl⟩
  | fail => simp [Exec.step, hp] at hstuck
  | leave b => cases b <;> simp [Exec.step, hp] at hstuck
  | threw =>
      have hthrown := hagrees .threw (by rw [hp]; rfl)
      rw [hc] at hthrown
      exact absurd (Option.some.inj hthrown) hthrew
  | submit =>
      cases hcall : s.base.calls[c] with
      | done r =>
          rw [hcall] at hof hthrew hstuck
          cases r with
          | submitted b => cases b <;> simp [Exec.step, hp] at hstuck
          | threw => exact absurd rfl hthrew
          | _ => cases hof
      | _ =>
          rw [hcall] at hdone
          cases hdone

/-- As long as nobody calls Shutdown: only so many steps, spurious wakeups apart, and at rest every
exec has returned a future with what its function returned or threw, or the runtime error. -/
theorem exec_settles (hr : Reachable (logged (PoolExec.system hw outcome) execObs) (fun p a => Open p.1 a) (s, h)) :
    (∃ n, ∀ as s', (∀ a ∈ as, Moves a) → run (PoolExec.system hw outcome) s as = some s' → as.length ≤ n) ∧
      (∃ as s', (∀ a ∈ as, Moves a) ∧ run (PoolExec.system hw outcome) s as = some s' ∧
        AtRest (PoolExec.system hw outcome) Moves s') ∧
      (AtRest (PoolExec.system hw outcome) Moves s → ∀ (c : Nat) e, s.execs[c]? = some (some e) →
        ∃ b, e.pc = .returned b ∧ s.base.calls[c]? = some (.done (.submitted b)) ∧ e.promise.twice = false ∧
          e.promise.result = some (if b then .of (outcome c) else .runtimeError "submit task failed")) := by
  have hbase := reachable_base hr
  have hset := settles (PoolRest.settles hw) outcome
  refine ⟨⟨measure PoolRest.measure s, fun as s' hm hrun => ?_⟩, hset.exists_rest hbase.forget, fun hrest c e he => ?_⟩
  · exact Nat.le_of_add_right_le (hset.length_add_le hbase.forget hm hrun)
  · obtain ⟨hs, hsd⟩ := PoolRest.reachable_open hbase.forget
    have hf := PoolIdle.reachable_no_fault hbase.forget_any hs
    have hundisturbed := PoolRouting.reachable_undisturbed (reachable_undisturbed hbase.forget)
    have hsound := (reachable_futures (reachable_apart hr)).sound c e he
    have hbooks := reachable_books (reachable_base hr)
    obtain ⟨b, hp⟩ := rest_returned hr.forget hf hrest he hsound.agrees fun pc hc =>
      ⟨PoolRest.rest_done hbase.forget hf (rest_base hrest) hc (hsd c pc hc), (hundisturbed c pc hc).2.2⟩
    obtain ⟨hc, hres⟩ := hsound.returned (Tally.of_books hbooks c) hp
    refine ⟨b, hp, hc, hsound.once, hres.trans ?_⟩
    cases b with
    | false => rfl
    | true =>
        have hend := PoolRest.rest_ended hbase hs (rest_base hrest) hc
        have hran : c ∈ rets h :=
          List.count_pos_iff.mp (Nat.lt_of_lt_of_le (List.count_pos_iff.mpr hend) (count_ends_le hbooks c))
        simp [hran]

theorem exec_settles_two : ∃ (s s' : PoolExec.State Unit Nat) (as : List PoolExec.Action),
    s.base.calls[1]? = some (.done (.submitted true)) ∧ (∀ a ∈ as, Moves a) ∧
    run (PoolExec.system 1 fun _ => .ok 7) s as = some s' ∧
    ∀ (c : Nat) e, s'.execs[c]? = some (some e) → ∃ b, e.pc = .returned b ∧
      e.promise.result = some (if b then .value 7 else .runtimeError "submit task failed") := by
  obtain ⟨⟨s, h⟩, hr, hp⟩ := exists_of_run
    (logged (PoolExec.system 1 (fun _ => .ok 7 : Nat → Except Unit Nat)) execObs)
    (fun p a => Open p.1 a) (fun _ a => !(baseAction a).any fun b => b == .call .shutdown)
    ({}, []) (List.flatten [[.call (.startup ⟨1, 1, false⟩)], poolWalk 0 8, [.exec], poolWalk 1 11,
      poolWork 0 9, [.exec]])
    (fun p => decide (p.1.base.calls[1]? = some (CallPc.done (.submitted true))))
    (by
      rintro p a ha b hb rfl
      simp [hb] at ha)
    ⟨rfl, rfl⟩ (by decide)
  obtain ⟨-, ⟨as, s', hm, hrun, hrest⟩, -⟩ := exec_settles hr
  obtain ⟨h', hr'⟩ := reachable_run hr (fun p a ha => open_of_moves ha) hm hrun
  obtain ⟨-, -, hdone⟩ := exec_settles hr'
  refine ⟨s, s', as, of_decide_eq_true hp, hm, hrun, fun c e he => ?_⟩
  obtain ⟨b, hpc, -, -, hres⟩ := hdone hrest c e he
  exact ⟨b, hpc, by cases b <;> exact hres⟩

end Enigma.FuturesRest
