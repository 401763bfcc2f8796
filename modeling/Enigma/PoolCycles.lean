import Enigma.PoolTeardown
import Enigma.PoolFront
import Enigma.PoolRouting

namespace Enigma.PoolCycles

open Transition SyncQueue ThreadPool PoolStep PoolCalls PoolView PoolTeardown PoolFront Indexed

variable {hw c w : Nat} {s s' : Pool} {wk : Worker} {pc pc' : CallPc} {t t' : State}

def torn : CallPc → Nat
  | .shutdownClear i | .destroyClear i _ _ | .destroyStop i _ _ | .destroyJoin i _ => i
  | _ => 0

def chosen : CallPc → Option Nat
  | .pushCount w false | .pushTask w false _ => some w
  | _ => none

def Dead (s : Pool) (w : Nat) : Prop := ∃ wk, s.heap[w]? = some wk ∧ wk.destroyed = true

/-- The elements of _workers are different workers, alive but for those a Shutdown has come
past; a Submit has a worker of its own, or one of them. -/
structure Standing (t : State) : Prop where
  once : t.pool.workers.Nodup
  past : ∀ (i w : Nat), t.pool.workers[i]? = some w → Dead t.pool w →
    ∃ (c : Nat) (pc : CallPc), t.calls[c]? = some pc ∧ i < torn pc
  fresh : ∀ (c : Nat) (pc : CallPc) (w : Nat), t.calls[c]? = some pc → freshFor pc = some w →
    w ∉ t.pool.workers ∧ ¬ Dead t.pool w
  chosen : ∀ (c : Nat) (pc : CallPc) (w : Nat), t.calls[c]? = some pc → chosen pc = some w → w ∈ t.pool.workers

theorem tearingDown_of_torn {i : Nat} (h : i < torn pc) : tearingDown pc = true := by
  cases pc <;> first | rfl | simp [torn] at h

theorem shuttingDown_of_tearingDown (h : tearingDown pc = true) : shuttingDown pc = true := by
  cases pc <;> first | rfl | cases h

theorem locked_of_freshFor (h : freshFor pc = some w) : locked pc = true := by
  cases pc <;> first | rfl | cases h

theorem locked_of_chosen (h : chosen pc = some w) : locked pc = true := by
  cases pc <;> first | rfl | cases h

theorem not_done_of_locked (h : locked pc = true) : isDone pc = false := by
  cases pc <;> first | rfl | cases h

theorem callStep_dead (h : CallStep hw c s pc s' pc') (hd : Dead s' w) :
    Dead s w ∨ ∃ i, pc = .destroyJoin i w ∧ pc' = .shutdownClear (i + 1) := by
  obtain ⟨wk', hk', hd⟩ := hd
  cases h with
  | startupCreate | expand =>
      rcases append_cases hk' with ⟨-, rfl⟩ | hk'
      · cases hd
      · exact .inl ⟨wk', hk', hd⟩
  | clearStep i v p p' wk q hk | stopStep i v p p' wk q hk | pushStep v fresh p p' wk q hk =>
      rcases set_cases hk' with ⟨rfl, rfl, -⟩ | ⟨-, hk'⟩
      · exact .inl ⟨wk, hk, hd⟩
      · exact .inl ⟨wk', hk', hd⟩
  | joined i v wk hk =>
      rcases set_cases hk' with ⟨rfl, -, -⟩ | ⟨-, hk'⟩
      · exact .inr ⟨i, rfl, rfl⟩
      · exact .inl ⟨wk', hk', hd⟩
  | _ => exact .inl ⟨wk', hk', hd⟩

theorem workerStep_dead {v : Nat} (h : WorkerStep s w wk s') (hk : s.heap[w]? = some wk) (hd : Dead s' v) :
    Dead s v := by
  obtain ⟨wk', hh, hdead, -⟩ := workerStep_turn h
  obtain ⟨vk, hv, hd⟩ := hd
  rw [hh] at hv
  rcases set_cases hv with ⟨rfl, rfl, -⟩ | ⟨-, hv⟩
  · exact ⟨wk, hk, hdead ▸ hd⟩
  · exact ⟨vk, hv, hd⟩

theorem callStep_elements (h : CallStep hw c s pc s' pc') :
    s'.workers = s.workers ∨
      (s'.workers = s.workers ++ [s.heap.length] ∧ s'.heap = s.heap ++ [newWorker] ∧ locked pc = true) ∨
      (s'.workers = s.workers ++ (freshFor pc).toList ∧ s'.heap = s.heap ∧ locked pc = true) ∨
      (s'.workers = [] ∧ tearingDown pc = true ∧ torn pc' = 0) := by
  cases h with
  | startupCreate => exact .inr (.inl ⟨rfl, rfl, rfl⟩)
  | emplace => exact .inr (.inr (.inl ⟨rfl, rfl, rfl⟩))
  | shutdownCleared => exact .inr (.inr (.inr ⟨rfl, rfl, rfl⟩))
  | _ => exact .inl rfl

theorem callStep_torn_le (h : CallStep hw c s pc s' pc') (hw : s'.workers ≠ []) : torn pc ≤ torn pc' := by
  cases h with
  | shutdownCleared => exact absurd rfl hw
  | joined => exact Nat.le_succ _
  | _ => exact Nat.le_refl _

theorem callStep_fresh (h : CallStep hw c s pc s' pc') (hf : freshFor pc' = some w) :
    s'.workers = s.workers ∧ (freshFor pc = some w ∨ (w = s.heap.length ∧ s'.heap = s.heap ++ [newWorker])) := by
  cases h with
  | expand =>
      cases hf
      exact ⟨rfl, .inr ⟨rfl, rfl⟩⟩
  | count v fresh | pushStep v fresh =>
      cases fresh with
      | true => exact ⟨rfl, .inl hf⟩
      | false => cases hf
  | pushedFresh | dangling => exact ⟨rfl, .inl hf⟩
  | _ => cases hf

theorem callStep_chosen (h : CallStep hw c s pc s' pc') (hf : chosen pc' = some w) :
    s'.workers = s.workers ∧ (chosen pc = some w ∨ w ∈ s.workers) := by
  cases h with
  | scanIdle i v wk hi | picked i v _ hi =>
      cases hf
      exact ⟨rfl, .inr (List.mem_of_getElem? hi)⟩
  | count v fresh | pushStep v fresh =>
      cases fresh with
      | true => cases hf
      | false => exact ⟨rfl, .inl hf⟩
  | dangling => exact ⟨rfl, .inl hf⟩
  | expand => cases hf
  | _ => cases hf

theorem eq_of_tearingDown (hl : Lone t) (hc : t.calls[c]? = some pc) (ht : tearingDown pc = true) {d : Nat}
    {pd : CallPc} (hd : t.calls[d]? = some pd) (hne : isDone pd = false) : d = c := by
  by_contra he
  have hdone := (hl c pc hc (shuttingDown_of_tearingDown ht)).2 d pd he hd
  rw [hne] at hdone
  cases hdone

theorem not_dead_length {l : List Worker} (h : s.heap = l ++ [newWorker]) : ¬ Dead s l.length := by
  rintro ⟨wk, hk, hd⟩
  rw [h, List.getElem?_concat_length] at hk
  cases hk
  cases hd

section Step

variable {p : Pool}

theorem Standing.step_once (hs : Standing t) (h : CallStep hw c t.pool pc p pc') (hpc : t.calls[c]? = some pc)
    (haddr : ∀ w ∈ t.pool.workers, w < t.pool.heap.length) : p.workers.Nodup := by
  have happend {v : Nat} (hv : v ∉ t.pool.workers) : (t.pool.workers ++ [v]).Nodup :=
    List.nodup_append.mpr ⟨hs.once, by simp, fun a ha b hb => by rintro rfl; exact hv (List.mem_singleton.mp hb ▸ ha)⟩
  rcases callStep_elements h with he | ⟨he, -, -⟩ | ⟨he, -, -⟩ | ⟨he, -, -⟩ <;> rw [he]
  · exact hs.once
  · exact happend fun hin => Nat.lt_irrefl _ (haddr _ hin)
  · cases hf : freshFor pc with
    | none => simpa using hs.once
    | some v => exact happend (hs.fresh c pc v hpc hf).1
  · exact List.nodup_nil

theorem Standing.step_past (hs : Standing t) (h : CallStep hw c t.pool pc p pc') (hpc : t.calls[c]? = some pc)
    (ht : Torn t.pool pc) {i : Nat} (hi : p.workers[i]? = some w) (hd : Dead p w) :
    ∃ (d : Nat) (pd : CallPc), (t.calls.set c pc')[d]? = some pd ∧ i < torn pd := by
  have hself : (t.calls.set c pc')[c]? = some pc' := List.getElem?_set_self (List.getElem?_eq_some_iff.mp hpc).1
  have hne : p.workers ≠ [] := by
    intro hnil
    simp [hnil] at hi
  have hold (hi : t.pool.workers[i]? = some w) :
      ∃ (d : Nat) (pd : CallPc), (t.calls.set c pc')[d]? = some pd ∧ i < torn pd := by
    rcases callStep_dead h hd with hd | ⟨j, rfl, rfl⟩
    · obtain ⟨d, pd, hd, hlt⟩ := hs.past i w hi hd
      by_cases he : d = c
      · subst he
        cases hpc.symm.trans hd
        exact ⟨d, pc', hself, Nat.lt_of_lt_of_le hlt (callStep_torn_le h hne)⟩
      · exact ⟨d, pd, by rw [List.getElem?_set_ne (Ne.symm he)]; exact hd, hlt⟩
    · have hij : i = j := (List.getElem?_inj (List.getElem?_eq_some_iff.mp hi).1 hs.once).mp (hi.trans ht.1.symm)
      exact ⟨c, _, hself, by rw [hij]; exact Nat.lt_succ_self j⟩
  rcases callStep_elements h with he | ⟨he, hh, -⟩ | ⟨he, hh, -⟩ | ⟨he, -, -⟩
  · exact hold (he ▸ hi)
  · rw [he] at hi
    rcases append_cases hi with ⟨-, rfl⟩ | hi
    · exact absurd hd (not_dead_length hh)
    · exact hold hi
  · rw [he] at hi
    cases hf : freshFor pc with
    | none =>
        simp only [hf, Option.toList_none, List.append_nil] at hi
        exact hold hi
    | some v =>
        simp only [hf, Option.toList_some] at hi
        rcases append_cases hi with ⟨-, rfl⟩ | hi
        · have hlive := (hs.fresh c pc w hpc hf).2
          rw [Dead, hh] at hd
          exact absurd hd hlive
        · exact hold hi
  · exact absurd he hne

theorem Standing.step_fresh (hs : Standing t) (h : CallStep hw c t.pool pc p pc') (hpc : t.calls[c]? = some pc)
    (hl : Lone t) (haddr : ∀ w ∈ t.pool.workers, w < t.pool.heap.length)
    (hlocked : ∀ (d : Nat) pd, t.calls[d]? = some pd → locked pc = true → locked pd = true → d = c) {d : Nat} {pd : CallPc}
    (hd : (t.calls.set c pc')[d]? = some pd) (hf : freshFor pd = some w) : w ∉ p.workers ∧ ¬ Dead p w := by
  rcases set_cases hd with ⟨rfl, rfl, -⟩ | ⟨hne, hd⟩
  · obtain ⟨he, hf | ⟨rfl, hh⟩⟩ := callStep_fresh h hf
    · obtain ⟨hnin, hlive⟩ := hs.fresh d pc w hpc hf
      refine ⟨he ▸ hnin, fun hdead => ?_⟩
      rcases callStep_dead h hdead with hdead | ⟨j, rfl, -⟩
      · exact hlive hdead
      · cases hf
    · exact ⟨fun hin => Nat.lt_irrefl _ (haddr _ (he ▸ hin)), not_dead_length hh⟩
  · obtain ⟨hnin, hlive⟩ := hs.fresh d pd w hd hf
    have hlock := locked_of_freshFor hf
    refine ⟨?_, fun hdead => ?_⟩
    · rcases callStep_elements h with he | ⟨-, -, hl⟩ | ⟨-, -, hl⟩ | ⟨he, -, -⟩
      · exact he ▸ hnin
      · exact absurd (hlocked d pd hd hl hlock) hne
      · exact absurd (hlocked d pd hd hl hlock) hne
      · rw [he]
        exact List.not_mem_nil
    · rcases callStep_dead h hdead with hdead | ⟨j, rfl, -⟩
      · exact hlive hdead
      · exact hne (eq_of_tearingDown hl hpc rfl hd (not_done_of_locked hlock))

theorem Standing.step_chosen (hs : Standing t) (h : CallStep hw c t.pool pc p pc') (hpc : t.calls[c]? = some pc)
    (hl : Lone t) {d : Nat} {pd : CallPc} (hd : (t.calls.set c pc')[d]? = some pd) (hf : PoolCycles.chosen pd = some w) :
    w ∈ p.workers := by
  rcases set_cases hd with ⟨rfl, rfl, -⟩ | ⟨hne, hd⟩
  · obtain ⟨he, hf | hin⟩ := callStep_chosen h hf
    · exact he ▸ hs.chosen d pc w hpc hf
    · exact he ▸ hin
  · have hin := hs.chosen d pd w hd hf
    rcases callStep_elements h with he | ⟨he, -, -⟩ | ⟨he, -, -⟩ | ⟨-, htear, -⟩
    · exact he ▸ hin
    · rw [he]
      exact List.mem_append_left _ hin
    · rw [he]
      exact List.mem_append_left _ hin
    · exact absurd (eq_of_tearingDown hl hpc htear hd (not_done_of_locked (locked_of_chosen hf))) hne

end Step

theorem reachable_standing (hr : Reachable (system hw) ShutdownAlone t) : Standing t := by
  refine hr.invariant (P := Standing) ?_ ?_
  · rintro t rfl
    exact ⟨List.nodup_nil, fun i w hi => by simp at hi, fun c pc w hc => by simp at hc, fun c pc w hc => by simp at hc⟩
  · intro t a t' hr hs _ hn
    rcases (next_cases hn).2 with ⟨r, rfl, rfl⟩ | ⟨c, ch, j, pc, p, pc', rfl, hpc, h, rfl⟩ |
      ⟨v, ch, vk, p, rfl, hk, h, rfl⟩
    · refine ⟨hs.once, fun i w hi hd => ?_, fun c pc w hc hf => ?_, fun c pc w hc hf => ?_⟩
      · obtain ⟨c, pc, hc, hlt⟩ := hs.past i w hi hd
        exact ⟨c, pc, by rw [List.getElem?_append_left (List.getElem?_eq_some_iff.mp hc).1]; exact hc, hlt⟩
      · rcases append_cases hc with ⟨-, rfl⟩ | hc
        · cases r <;> cases hf
        · exact hs.fresh c pc w hc hf
      · rcases append_cases hc with ⟨-, rfl⟩ | hc
        · cases r <;> cases hf
        · exact hs.chosen c pc w hc hf
    · have hl := reachable_lone hr
      have haddr := (reachable_addresses hr).1
      have hlocked (d : Nat) (pd : CallPc) (hd : t.calls[d]? = some pd) (h₁ : locked pc = true) (h₂ : locked pd = true) :
          d = c := locked_unique hr hpc hd h₁ h₂
      exact ⟨hs.step_once h hpc haddr, fun i w => hs.step_past h hpc ((reachable_teardown hr).2 c pc hpc),
        fun d pd w => hs.step_fresh h hpc hl haddr hlocked, fun d pd w => hs.step_chosen h hpc hl⟩
    · have hw := workerStep_workers h
      refine ⟨hw ▸ hs.once, fun i w hi hd => ?_, fun c pc w hc hf => ?_, fun c pc w hc hf => ?_⟩
      · exact hs.past i w (hw ▸ hi) (workerStep_dead h hk hd)
      · obtain ⟨hnin, hlive⟩ := hs.fresh c pc w hc hf
        exact ⟨hw ▸ hnin, fun hd => hlive (workerStep_dead h hk hd)⟩
      · exact hw ▸ hs.chosen c pc w hc hf

/-- Whoever is in the middle of a call while an element of _workers is destroyed is a
Shutdown that has come past it. -/
theorem lt_torn_of_dead (hr : Reachable (system hw) ShutdownAlone t) (hc : t.calls[c]? = some pc)
    (hdone : isDone pc = false) {i : Nat} (hi : t.pool.workers[i]? = some w) (hd : Dead t.pool w) : i < torn pc := by
  obtain ⟨d, pd, hpd, hlt⟩ := (reachable_standing hr).past i w hi hd
  obtain rfl := eq_of_tearingDown (reachable_lone hr) hpd (tearingDown_of_torn hlt) hc hdone
  cases hc.symm.trans hpd
  exact hlt

theorem target_alive (hr : Reachable (system hw) ShutdownAlone t) (hc : t.calls[c]? = some pc)
    (ht : target t.pool pc = some w) : ¬ Dead t.pool w := by
  have hs := reachable_standing hr
  intro hd
  cases pc with
  | destroyClear i v p | destroyStop i v p | destroyJoin i v =>
      cases ht
      have htorn := (reachable_teardown hr).2 c _ hc
      exact Nat.lt_irrefl i (lt_torn_of_dead hr hc rfl htorn.1 hd)
  | submitScan i => exact Nat.not_lt_zero i (lt_torn_of_dead hr hc rfl ht hd)
  | pushCount v fresh | pushTask v fresh p =>
      cases ht
      cases fresh with
      | true => exact (hs.fresh c _ w hc rfl).2 hd
      | false =>
          obtain ⟨i, hi⟩ := List.mem_iff_getElem?.mp (hs.chosen c _ w hc rfl)
          exact Nat.not_lt_zero i (lt_torn_of_dead hr hc rfl hi hd)
  | _ => cases ht

/-- So the only way into undefined behaviour is the front() of an empty queue. -/
theorem reachable_faulted (hr : Reachable (system hw) ShutdownAlone t) (hf : t.pool.fault = true) :
    ∃ (w : Nat) (wk : Worker), t.pool.heap[w]? = some wk ∧ wk.pc = .pop .fault := by
  revert hf
  refine hr.invariant (P := fun t => t.pool.fault = true →
    ∃ (w : Nat) (wk : Worker), t.pool.heap[w]? = some wk ∧ wk.pc = .pop .fault) ?_ ?_
  · rintro t rfl hf
    cases hf
  · intro t a t' hr _ _ hn hf'
    obtain ⟨hf, hn⟩ := next_cases hn
    rcases hn with ⟨r, rfl, rfl⟩ | ⟨c, ch, j, pc, p, pc', rfl, hpc, h, rfl⟩ | ⟨v, ch, vk, p, rfl, hk, h, rfl⟩
    · exact absurd hf' (by simp [hf])
    · cases h with
      | dangling pc w wk ht hk hd => exact absurd ⟨wk, hk, hd⟩ (target_alive hr hpc ht)
      | _ => exact absurd hf' (by simp [put, hf])
    · have hlt := (List.getElem?_eq_some_iff.mp hk).1
      cases h with
      | pop p p' q hp hq =>
          have hfault : p' = .fault := of_decide_eq_true hf'
          exact ⟨v, _, List.getElem?_set_self hlt, by rw [hfault]⟩
      | _ => exact absurd hf' (by simp [put, hf])

theorem reachable_no_fault (hr : Reachable (system hw) (fun s a => ShutdownAlone s a ∧ RecheckCovered s a) t) :
    t.pool.fault = false := by
  by_contra hf
  obtain ⟨w, wk, hk, hp⟩ := reachable_faulted (hr.mono fun _ _ h => h.1) (by simpa using hf)
  have hstock := reachable_stocked (hr.mono fun _ _ h => h.2) w wk hk
  simp only [Stocked, hp] at hstock

section Manned

open PoolRouting (relies createCount_pos callStep_threw)

/-- A started pool has a worker in _workers, until the end of a Shutdown, and so no Submit
draws from an empty one. -/
structure Manned (t : State) : Prop where
  started : t.pool.start = true → t.pool.workers ≠ [] ∨ ∃ c : Nat, t.calls[c]? = some .shutdownEnd
  relied : ∀ (c : Nat) pc, t.calls[c]? = some pc → relies pc = true → t.pool.workers ≠ []
  caught : ∀ (c : Nat) pc, t.calls[c]? = some pc → pc ≠ .submitThrow ∧ pc ≠ .done .threw

theorem not_done_of_relies (h : relies pc = true) : isDone pc = false := by
  cases pc <;> first | rfl | cases h

theorem callStep_kept (h : CallStep hw c s pc s' pc') (hw : s.workers ≠ []) :
    s'.workers ≠ [] ∨ (tearingDown pc = true ∧ pc' = .shutdownEnd) := by
  cases h with
  | shutdownCleared => exact .inr ⟨rfl, rfl⟩
  | startupCreate | emplace => exact .inl (by simp)
  | _ => exact .inl hw

theorem callStep_manned (h : CallStep hw c s pc s' pc') (hp : relies pc' = true)
    (hw : relies pc = true → s.workers ≠ []) (hstart : s.start = true → pc = .submitCheck → s.workers ≠ []) :
    s'.workers ≠ [] := by
  cases h with
  | startupCreate | emplace => simp
  | startupCreated a i hi =>
      have hpos := createCount_pos a
      exact hw (decide_eq_true (by omega))
  | submitChecked hs => exact hstart hs rfl
  | dangling => exact hw hp
  | startupLock => cases hp
  | startupStart | submitLock | overLimit | withinLimit | scanBusy | scanIdle | scanned | routeRandom | expand
  | picked | count | pushStep | pushedFresh | pushed => exact hw rfl
  | startupRefused | startupChecked | startupMax | startupExpand | startupUnlock | shutdownRefused
  | shutdownChecked | shutdownRequest | destroy | shutdownCleared | clearStep | cleared | stopStep | stopped
  | joined | shutdownEnd | submitRefused | outOfRange | submitReturn | submitThrow => cases hp

theorem callStep_start (h : CallStep hw c s pc s' pc') (hs : s'.start = true) :
    (s.start = true ∧ pc ≠ .shutdownEnd) ∨ relies pc = true := by
  cases h with
  | startupStart => exact .inr rfl
  | shutdownEnd => cases hs
  | dangling pc w wk ht =>
      refine .inl ⟨hs, ?_⟩
      rintro rfl
      cases ht
  | _ => exact .inl ⟨hs, nofun⟩

theorem reachable_manned (hr : Reachable (system hw) ShutdownAlone t) : Manned t := by
  refine hr.invariant (P := Manned) ?_ ?_
  · rintro t rfl
    exact ⟨fun hs => (by cases hs), fun c pc hc => by simp at hc, fun c pc hc => by simp at hc⟩
  · intro t a t' hr hm _ hn
    rcases (next_cases hn).2 with ⟨r, rfl, rfl⟩ | ⟨c, ch, j, pc, p, pc', rfl, hpc, h, rfl⟩ |
      ⟨v, ch, vk, p, rfl, hk, h, rfl⟩
    · refine ⟨fun hs => (hm.started hs).imp_right ?_, fun c pc hc hp => ?_, fun c pc hc => ?_⟩
      · rintro ⟨c, hc⟩
        exact ⟨c, by rw [List.getElem?_append_left (List.getElem?_eq_some_iff.mp hc).1]; exact hc⟩
      · rcases append_cases hc with ⟨-, rfl⟩ | hc
        · cases r <;> cases hp
        · exact hm.relied c pc hc hp
      · rcases append_cases hc with ⟨-, rfl⟩ | hc
        · cases r <;> exact ⟨nofun, nofun⟩
        · exact hm.caught c pc hc
    · have hlone := reachable_lone hr
      have hself : (t.calls.set c pc')[c]? = some pc' :=
        List.getElem?_set_self (List.getElem?_eq_some_iff.mp hpc).1
      refine ⟨fun hs => ?_, fun d pd hd hp => ?_, fun d pd hd => ?_⟩
      · have hbefore : t.pool.workers ≠ [] ∨ ∃ d : Nat, d ≠ c ∧ t.calls[d]? = some .shutdownEnd := by
          rcases callStep_start h hs with ⟨hs, hne⟩ | hp
          · refine (hm.started hs).imp_right ?_
            rintro ⟨d, hd⟩
            refine ⟨d, ?_, hd⟩
            rintro rfl
            exact hne (Option.some.inj (hpc.symm.trans hd))
          · exact .inl (hm.relied c pc hpc hp)
        rcases hbefore with hw | ⟨d, hne, hd⟩
        · exact (callStep_kept h hw).imp_right fun ⟨_, he⟩ => ⟨c, he ▸ hself⟩
        · exact .inr ⟨d, by rw [List.getElem?_set_ne (Ne.symm hne)]; exact hd⟩
      · rcases set_cases hd with ⟨rfl, rfl, -⟩ | ⟨hne, hd⟩
        · refine callStep_manned h hp (hm.relied d pc hpc) fun hs hcheck => ?_
          -- a Submit that begins finds no Shutdown in progress
          refine (hm.started hs).resolve_right ?_
          rintro ⟨e, he⟩
          subst hcheck
          obtain rfl := eq_of_tearingDown hlone he rfl hpc rfl
          cases hpc.symm.trans he
        · rcases callStep_kept h (hm.relied d pd hd hp) with hw | ⟨htear, -⟩
          · exact hw
          · exact absurd (eq_of_tearingDown hlone hpc htear hd (not_done_of_relies hp)) hne
      · rcases set_cases hd with ⟨rfl, rfl, -⟩ | ⟨-, hd⟩
        · exact callStep_threw h (hm.caught d pc hpc) fun he => hm.relied d pc hpc (he ▸ rfl)
        · exact hm.caught d pd hd
    · obtain ⟨hstart, hworkers, -⟩ := PoolRouting.workerStep_staffed h
      refine ⟨fun hs => ?_, fun c pc hc hp => ?_, hm.caught⟩
      · rw [hworkers]
        exact hm.started (hstart ▸ hs)
      · rw [hworkers]
        exact hm.relied c pc hc hp

end Manned

/-- A pool that is used in cycles never touches a worker after its destruction, forgets none and has
none twice; what is left of undefined behaviour is the front() of an empty queue. -/
theorem workers_accounted (hr : Reachable (system hw) ShutdownAlone t) :
    (∀ (c : Nat) pc w, t.calls[c]? = some pc → target t.pool pc = some w → ¬ Dead t.pool w) ∧
      t.pool.workers.Nodup ∧
      (∀ (w : Nat) wk, t.pool.heap[w]? = some wk → wk.destroyed = true ∨ w ∈ t.pool.workers ∨
        ∃ (c : Nat) (pc : CallPc), t.calls[c]? = some pc ∧ freshFor pc = some w) ∧
      (t.pool.fault = true → ∃ (w : Nat) (wk : Worker), t.pool.heap[w]? = some wk ∧ wk.pc = .pop .fault) :=
  ⟨fun _ _ _ hc ht => target_alive hr hc ht, (reachable_standing hr).once, (reachable_teardown hr).1,
    reachable_faulted hr⟩

/-- Every call finds the pool free of others, or is no Shutdown and finds no Shutdown. -/
def alone (t : State) : Action → Bool
  | .call r => t.calls.all (fun pc => !shuttingDown pc) && (r != .shutdown || t.calls.all isDone)
  | _ => true

theorem alone_shutdownAlone (t : State) (a : Action) (h : alone t a = true) : ShutdownAlone t a := by
  rintro r rfl
  simp only [alone, Bool.and_eq_true, Bool.or_eq_true, List.all_eq_true, Bool.not_eq_true', bne_iff_ne] at h
  exact ⟨h.1, fun hr => h.2.resolve_left fun hne => hne hr⟩

theorem workers_accounted_second : ∃ t : State, t.calls[1]? = some (.destroyJoin 1 1) ∧ Dead t.pool 0 ∧
    ¬ Dead t.pool 1 := by
  obtain ⟨t, hr, hp⟩ := exists_of_run (system 2) ShutdownAlone alone {}
    ([.call (.startup ⟨2, 5, false⟩)] ++ walk 0 9 ++ [.call .shutdown] ++ walk 1 9 ++ work 0 1 ++ walk 1 10)
    (fun t => t.calls[1]? == some (CallPc.destroyJoin 1 1) && (t.pool.heap[0]?).any fun wk => wk.destroyed)
    alone_shutdownAlone rfl (by decide)
  simp only [Bool.and_eq_true, beq_iff_eq, Option.any_eq_true] at hp
  obtain ⟨hjoin, wk, hk, hd⟩ := hp
  exact ⟨t, hjoin, ⟨wk, hk, hd⟩, (workers_accounted hr).1 1 _ 1 hjoin rfl⟩

end Enigma.PoolCycles
