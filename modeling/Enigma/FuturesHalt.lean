import Enigma.FuturesRest
import Enigma.PoolHalt

namespace Enigma.FuturesHalt

open Transition ThreadPool PoolStep PoolCalls PoolLog PoolTasks PoolPlaces PoolTeardown PoolExec PoolFutures Indexed Rest
open FuturesRest (Moves)

section Pool

variable {hw c d x : Nat} {s s' : Pool} {pc pc' : CallPc} {t t' : ThreadPool.State} {h : List Event}

def Halting (t : ThreadPool.State) (d : Nat) : Prop :=
  ∃ pc, t.calls[d]? = some pc ∧ (tearingDown pc = true ∨ pc = .done .shutDown)

theorem callStep_halting (h : CallStep hw c s pc s' pc') (ht : tearingDown pc = true) :
    tearingDown pc' = true ∨ pc' = .done .shutDown := by
  cases h with
  | shutdownEnd => exact .inr rfl
  | dangling => exact .inl ht
  | destroy | shutdownCleared | clearStep | cleared | stopStep | stopped | joined => exact .inl rfl
  | _ => cases ht

theorem Halting.next {a : ThreadPool.Action} (hh : Halting t d) (hn : ThreadPool.next hw t a = some t') :
    Halting t' d := by
  obtain ⟨pd, hd, hp⟩ := hh
  rcases (next_cases hn).2 with ⟨r, rfl, rfl⟩ | ⟨c, ch, j, pc, p, pc', rfl, hpc, h, rfl⟩ |
    ⟨v, ch, vk, p, rfl, hk, h, rfl⟩
  · exact ⟨pd, by rw [List.getElem?_append_left (List.getElem?_eq_some_iff.mp hd).1]; exact hd, hp⟩
  · by_cases he : d = c
    · subst he
      cases hpc.symm.trans hd
      rcases hp with hp | rfl
      · exact ⟨pc', List.getElem?_set_self (List.getElem?_eq_some_iff.mp hpc).1, callStep_halting h hp⟩
      · cases callStep_not_done h
    · exact ⟨pd, by rw [List.getElem?_set_ne (Ne.symm he)]; exact hd, hp⟩
  · exact ⟨pd, hd, hp⟩

theorem reachable_halting {ok : ThreadPool.State → ThreadPool.Action → Prop}
    (hr : Reachable (ThreadPool.system hw) ok t) : t.pool.stopRequested = true → ∃ d, Halting t d := by
  refine hr.invariant (P := fun t => t.pool.stopRequested = true → ∃ d, Halting t d) ?_ ?_
  · rintro t rfl hs
    cases hs
  · intro t a t' _ hp _ hn hs'
    have hn : ThreadPool.next hw t a = some t' := hn
    cases hs : t.pool.stopRequested with
    | true =>
        obtain ⟨d, hd⟩ := hp hs
        exact ⟨d, hd.next hn⟩
    | false =>
        rcases (next_cases hn).2 with ⟨r, rfl, rfl⟩ | ⟨c, ch, j, pc, p, pc', rfl, hpc, h, rfl⟩ |
          ⟨v, ch, vk, p, rfl, hk, h, rfl⟩
        · cases hs.symm.trans hs'
        · by_cases hne : pc = .shutdownRequest
          · subst hne
            refine ⟨c, pc', List.getElem?_set_self (List.getElem?_eq_some_iff.mp hpc).1, ?_⟩
            cases h with
            | shutdownRequest => exact .inl rfl
            | dangling pc w wk ht => cases ht
          · cases (hs.symm.trans (PoolScan.callStep_unstopped h hne).symm).trans hs'
        · cases (hs.symm.trans (workerStep_stopRequested h).symm).trans hs'

theorem placed_of_halting (h : tearingDown pc = true ∨ pc = .done .shutDown) : placed pc = 0 := by
  rcases h with ht | rfl
  · cases pc <;> first | rfl | cases ht
  · rfl

theorem placed_of_dropped {s : ThreadPool.State} (hb : Books s h) (hx : x ∈ Fifo.drops (traffic h)) :
    ∃ pc, s.calls[x]? = some pc ∧ 0 < placed pc := by
  have hpos := List.count_pos_iff.mpr hx
  have hplaced := count_rets_add_drops_le hb x
  rw [placedAt] at hplaced
  cases hc : s.calls[x]? with
  | none =>
      rw [hc, Option.map_none, Option.getD_none] at hplaced
      omega
  | some pc =>
      rw [hc, Option.map_some, Option.getD_some] at hplaced
      exact ⟨pc, rfl, by omega⟩

theorem reachable_dropped
    (hr : Reachable (logged (ThreadPool.system hw) obs) (fun p a => ShutdownAlone p.1 a) (t, h)) :
    x ∈ Fifo.drops (traffic h) → ∃ d, x < d ∧ Halting t d := by
  refine hr.logged_invariant (P := fun t h => x ∈ Fifo.drops (traffic h) → ∃ d, x < d ∧ Halting t d) ?_ ?_
  · rintro t rfl hx
    cases hx
  · intro t h a t' hr hp hok hn hx
    have hb := reachable_books hr
    have hb' := reachable_books (hr.logged_step hok hn)
    have hn : ThreadPool.next hw t a = some t' := hn
    have hx₀ := hx
    rw [drops_traffic, List.filterMap_append, ← drops_traffic, ← drops_traffic] at hx
    rcases List.mem_append.mp hx with hx | hx
    · obtain ⟨d, hlt, hd⟩ := hp hx
      exact ⟨d, hlt, hd.next hn⟩
    · have hsome : PoolCount.dropCount (obs t a) ≠ 0 := by
        intro hz
        rw [List.eq_nil_of_length_eq_zero hz] at hx
        cases hx
      rcases (next_cases hn).2 with ⟨r, rfl, rfl⟩ | ⟨c, ch, j, pc, p, pc', rfl, hpc, hs, rfl⟩ |
        ⟨w, ch, wk, p, rfl, hk, hs, rfl⟩
      · exact absurd rfl hsome
      · simp only [obs, hpc] at hsome
        have htear := PoolCount.tearingDown_of_drops (hb.shaped c pc hpc) hsome
        have hself := List.getElem?_set_self (a := pc') (List.getElem?_eq_some_iff.mp hpc).1
        have hhalt := callStep_halting hs htear
        -- the Submit of the task has placed it, and all calls but the Shutdown have returned
        obtain ⟨px, hpx, hplaced⟩ := placed_of_dropped hb' hx₀
        have hlt : x < t.calls.length := by simpa using (List.getElem?_eq_some_iff.mp hpx).1
        have hne : x ≠ c := by
          rintro rfl
          obtain rfl := Option.some.inj (hself.symm.trans hpx)
          rw [placed_of_halting hhalt] at hplaced
          exact Nat.lt_irrefl 0 hplaced
        have hlast : c + 1 = t.calls.length :=
          (reachable_lone hr.forget c pc hpc (PoolCycles.shuttingDown_of_tearingDown htear)).1
        exact ⟨c, by omega, pc', hself, hhalt⟩
      · simp only [obs, hk] at hsome
        exact absurd (PoolCount.workerEvents_drops (hb.ledger.shaped w wk hk)) hsome

theorem mem_starts (hb : Books t h) (hx : x ∈ rets h) : x ∈ starts h := by
  obtain ⟨w, hw⟩ : ∃ w, x ∈ rets (ofWorker w h) := mem_ofWorker hx
  have hsub : rets (ofWorker w h) ⊆ starts (ofWorker w h) := by
    cases hk : t.pool.heap[w]? with
    | none =>
        rw [hb.ledger.unborn w (List.getElem?_eq_none_iff.mp hk)]
        exact List.Subset.refl _
    | some wk =>
        have ha := hb.ledger.accounted w wk hk
        have hle : returning wk ⊆ inProgress wk := by
          unfold returning inProgress
          cases wk.pc <;> simp
        rw [ha.returned, ha.started]
        exact List.append_subset.mpr ⟨List.subset_append_left _ _, fun y hy => List.mem_append_right _ (hle hy)⟩
  exact mem_of_mem_ofWorker (hsub hw)

/-- At rest the tasks accepted that have neither run nor been discarded are those accepted
after a Shutdown, with no Shutdown since. -/
theorem rest_left (hr : Reachable (logged (ThreadPool.system hw) obs) (fun p a => ShutdownAlone p.1 a) (t, h))
    (hf : t.pool.fault = false) (hrest : AtRest (ThreadPool.system hw) PoolRest.Moves t)
    (hx : t.calls[x]? = some (.done (.submitted true))) :
    (x ∉ rets h ∧ x ∉ Fifo.drops (traffic h)) ↔
      (∃ d < x, t.calls[d]? = some (.done .shutDown)) ∧ ∀ d, x < d → t.calls[d]? ≠ some (.done .shutDown) := by
  have hb := reachable_books hr
  have hran (hm : x ∈ ends h) : x ∈ rets h :=
    List.count_pos_iff.mp (Nat.lt_of_lt_of_le (List.count_pos_iff.mpr hm) (count_ends_le hb x))
  have hended {d : Nat} (hd : Halting t d) : t.calls[d]? = some (.done .shutDown) := by
    obtain ⟨pc, hpc, htear | rfl⟩ := hd
    · have hdone := PoolHalt.rest_all_done hr.forget hf hrest hpc
      have hshut := PoolCycles.shuttingDown_of_tearingDown htear
      rw [not_shuttingDown_of_isDone hdone] at hshut
      cases hshut
    · exact hpc
  constructor
  · rintro ⟨hret, hdrop⟩
    have hlater (d : Nat) (hlt : x < d) : t.calls[d]? ≠ some (.done .shutDown) := by
      intro hd
      rcases (reachable_closed hr hd x hlt _ hx).2 rfl with hm | hm
      · exact hret (hran hm)
      · exact hdrop hm
    refine ⟨?_, hlater⟩
    cases hs : t.pool.stopRequested with
    | false => exact absurd (hran (PoolRest.rest_ended hr hs hrest hx)) hret
    | true =>
        obtain ⟨d, hd⟩ := reachable_halting hr.forget hs
        have hd := hended hd
        refine ⟨d, ?_, hd⟩
        by_contra hge
        rcases Nat.lt_or_eq_of_le (Nat.le_of_not_lt hge) with hlt | rfl
        · exact hlater d hlt hd
        · cases hx.symm.trans hd
  · rintro ⟨⟨d, hlt, hd⟩, hlater⟩
    refine ⟨fun hm => ?_, fun hm => ?_⟩
    · exact (PoolRestart.reachable_afterlife hr hd).not_started hb hlt (mem_starts hb hm)
    · obtain ⟨e, hlt, he⟩ := reachable_dropped hr hm
      exact hlater e hlt (hended he)

end Pool

variable {E V : Type} {hw : Nat} {outcome : Nat → Except E V} {s : PoolExec.State E V} {h : List Event}

/-- However exec, Startup and Shutdown follow one another in cycles, at rest every exec has returned
a future, open just where the pool took the task after a Shutdown and no other has followed. -/
theorem exec_returns
    (hr : Reachable (logged (PoolExec.system hw outcome) execObs) (fun p a => ShutdownApart p.1 a) (s, h)) :
    (∃ n, ∀ as s', (∀ a ∈ as, Moves a) → run (PoolExec.system hw outcome) s as = some s' → as.length ≤ n) ∧
      (∃ as s', (∀ a ∈ as, Moves a) ∧ run (PoolExec.system hw outcome) s as = some s' ∧
        AtRest (PoolExec.system hw outcome) Moves s') ∧
      (AtRest (PoolExec.system hw outcome) Moves s → s.base.pool.fault = false →
        ∀ (c : Nat) e, s.execs[c]? = some (some e) →
          ∃ b, e.pc = .returned b ∧ s.base.calls[c]? = some (.done (.submitted b)) ∧ e.promise.twice = false ∧
            (∀ o, e.promise.result = some o → o =
              if b then if c ∈ rets h then .of (outcome c) else .brokenPromise
              else .runtimeError "submit task failed") ∧
            (e.promise.result = none ↔ b = true ∧ (∃ d < c, s.base.calls[d]? = some (.done .shutDown)) ∧
              ∀ d, c < d → s.base.calls[d]? ≠ some (.done .shutDown))) := by
  have hbase := reachable_base hr
  have hset := FuturesRest.settles (PoolHalt.settles hw) outcome
  refine ⟨⟨FuturesRest.measure PoolHalt.measure s, fun as s' hm hrun => ?_⟩, hset.exists_rest hbase.forget_any,
    fun hrest hf c e he => ?_⟩
  · exact Nat.le_of_add_right_le (hset.length_add_le hbase.forget_any hm hrun)
  · have hsound := (reachable_futures hr).sound c e he
    have hmanned := PoolCycles.reachable_manned hbase.forget
    have hdown := FuturesRest.rest_base hrest
    obtain ⟨b, hp⟩ := FuturesRest.rest_returned hr.forget hf hrest he hsound.agrees fun pc hc =>
      ⟨PoolHalt.rest_all_done hbase.forget hf hdown hc, (hmanned.caught c pc hc).2⟩
    obtain ⟨hc, hres⟩ := hsound.returned (Tally.of_books (reachable_books hbase) c) hp
    refine ⟨b, hp, hc, hsound.once, fun o ho => ?_, ?_⟩
    · rw [hres] at ho
      cases b with
      | false => exact (Option.some.inj ho).symm
      | true =>
          by_cases hran : c ∈ rets h
          · simpa [hran] using ho.symm
          · by_cases hdrop : c ∈ Fifo.drops (traffic h)
            · simpa [hran, hdrop] using ho.symm
            · simp [hran, hdrop] at ho
    · rw [hres]
      cases b with
      | false => simp
      | true =>
          have hleft := rest_left hbase hf hdown hc
          by_cases hran : c ∈ rets h <;> by_cases hdrop : c ∈ Fifo.drops (traffic h) <;>
            simpa [hran, hdrop] using hleft

theorem atRest_of_returned (hb : AtRest (ThreadPool.system hw) PoolRest.Moves s.base)
    (he : ∀ o ∈ s.execs, ∀ e, o = some e → ∃ b, e.pc = .returned b) : AtRest (PoolExec.system hw outcome) Moves s := by
  intro a ha
  cases hn : (PoolExec.system hw outcome).next s a with
  | none => rfl
  | some s' =>
      have hn : PoolExec.next hw outcome s a = some s' := hn
      rcases PoolExec.next_cases hn with ⟨r, b, e, hcall, -⟩ | ⟨a', b, rfl, -, hbn, -⟩ | ⟨c, e, e', pc, rfl, hc, -, h, -⟩
      · rcases hcall with ⟨rfl, -⟩ | ⟨rfl, -⟩ <;> exact ha.elim
      · cases (hb a' ha).symm.trans hbn
      · obtain ⟨b, hp⟩ := he _ (List.mem_of_getElem? hc) e rfl
        simp [Exec.step, hp] at h

/-- One task has run, the next one was discarded by a Shutdown, and the third one was taken by
the pool started again. -/
theorem exec_returns_cycles : ∃ (s : PoolExec.State Unit Nat) (e₁ e₂ e₅ : Exec Unit Nat),
    AtRest (PoolExec.system 1 fun _ => .ok 7) Moves s ∧ s.execs[1]? = some (some e₁) ∧ s.execs[2]? = some (some e₂) ∧
      s.execs[5]? = some (some e₅) ∧ e₁.promise.result = some (.value 7) ∧
      e₂.promise.result = some .brokenPromise ∧ e₅.promise.result = none := by
  obtain ⟨⟨s, h⟩, hr, hp⟩ := exists_of_run
    (logged (PoolExec.system 1 (fun _ => .ok 7 : Nat → Except Unit Nat)) execObs)
    (fun p a => ShutdownApart p.1 a)
    (fun p a => !(baseAction a).any isCall || p.1.base.calls.all isDone)
    ({}, []) (List.flatten [[.call (.startup ⟨1, 5, false⟩)], poolWalk 0 8,
      [.exec], poolWalk 1 11, [.wrap 1, .wrap 1], poolWork 0 9, [.exec], poolWalk 2 14, [.wrap 2, .wrap 2],
      [.call .shutdown], poolWalk 3 11, poolWork 0 3, poolWalk 3 3,
      [.call (.startup ⟨1, 5, false⟩)], poolWalk 4 8, [.exec], poolWalk 5 11, [.wrap 5, .wrap 5], poolWork 1 1])
    (fun p => decide (p.1.base.calls = [.done .started, .done (.submitted true), .done (.submitted true),
        .done .shutDown, .done .started, .done (.submitted true)] ∧
      p.1.base.pool.fault = false ∧ rets p.2 = [1] ∧
      p.1.base.pool.heap.map (fun wk => wk.pc) = [.exited, .exited] ∧
      p.1.execs.map (fun o => o.map fun e => e.pc) = [none, some (.returned true), some (.returned true), none, none,
        some (.returned true)]))
    (by
      rintro p a ha a' he r rfl
      simp only [he, Option.any_some, isCall, Bool.not_true, Bool.false_or] at ha
      have hdone := List.all_eq_true.mp ha
      exact ⟨fun pc hm => not_shuttingDown_of_isDone (hdone pc hm), fun _ => hdone⟩)
    ⟨rfl, rfl⟩ (by decide)
  obtain ⟨hcalls, hf, hran, hheap, hexecs⟩ := of_decide_eq_true hp
  change s.base.calls = _ at hcalls
  change rets h = _ at hran
  have hexec (c : Nat) (o : Option ExecPc) (hc : (s.execs.map fun o => o.map fun e => e.pc)[c]? = some o) :
      ∃ o', s.execs[c]? = some o' ∧ o'.map (fun e => e.pc) = o := by
    simpa [List.getElem?_map] using hc
  have hbase : AtRest (ThreadPool.system 1) PoolRest.Moves s.base := by
    refine PoolHalt.atRest_of_ended (by simp [hcalls, isDone]) fun wk hwk => ?_
    have hm : wk.pc ∈ s.base.pool.heap.map fun wk => wk.pc := List.mem_map_of_mem hwk
    simpa [hheap] using hm
  have hrest : AtRest (PoolExec.system 1 (fun _ => .ok 7 : Nat → Except Unit Nat)) Moves s := by
    refine atRest_of_returned hbase ?_
    rintro _ ho e rfl
    have hm : some e.pc ∈ s.execs.map fun o => o.map fun e => e.pc := List.mem_map.mpr ⟨_, ho, rfl⟩
    exact ⟨true, by simpa [hexecs] using hm⟩
  have hall := (exec_returns hr).2.2 hrest hf
  obtain ⟨_, h₁, he₁⟩ := hexec 1 (some (.returned true)) (by rw [hexecs]; rfl)
  obtain ⟨_, h₂, he₂⟩ := hexec 2 (some (.returned true)) (by rw [hexecs]; rfl)
  obtain ⟨_, h₅, he₅⟩ := hexec 5 (some (.returned true)) (by rw [hexecs]; rfl)
  obtain ⟨e₁, rfl, -⟩ := Option.map_eq_some_iff.mp he₁
  obtain ⟨e₂, rfl, -⟩ := Option.map_eq_some_iff.mp he₂
  obtain ⟨e₅, rfl, -⟩ := Option.map_eq_some_iff.mp he₅
  obtain ⟨b₁, -, hc₁, -, hres₁, hopen₁⟩ := hall 1 e₁ h₁
  obtain ⟨b₂, -, hc₂, -, hres₂, hopen₂⟩ := hall 2 e₂ h₂
  obtain ⟨b₅, -, hc₅, -, -, hopen₅⟩ := hall 5 e₅ h₅
  rw [hcalls] at hc₁ hc₂ hc₅ hopen₁ hopen₂ hopen₅
  cases hc₁
  cases hc₂
  cases hc₅
  refine ⟨s, e₁, e₂, e₅, hrest, h₁, h₂, h₅, ?_, ?_, hopen₅.mpr ⟨rfl, ⟨3, by decide, rfl⟩, fun d hd hs => ?_⟩⟩
  · cases hres : e₁.promise.result with
    | none =>
        obtain ⟨-, ⟨d, hd, hs⟩, -⟩ := hopen₁.mp hres
        obtain rfl : d = 0 := by omega
        cases hs
    | some o => simpa [hran, Outcome.of] using hres₁ o hres
  · cases hres : e₂.promise.result with
    | none =>
        obtain ⟨-, ⟨d, hd, hs⟩, -⟩ := hopen₂.mp hres
        obtain rfl | rfl : d = 0 ∨ d = 1 := by omega
        · cases hs
        · cases hs
    | some o => simpa [hran] using hres₂ o hres
  · rw [List.getElem?_eq_none (Nat.succ_le_of_lt hd)] at hs
    cases hs

end Enigma.FuturesHalt
