import Enigma.PoolIdle

namespace Enigma.PoolScan

open Transition SyncQueue QueueStep ThreadPool PoolStep PoolCalls PoolView PoolFront PoolIdle Indexed
open PoolLog (Shaped)

variable {hw c w : Nat} {s s' : Pool} {wk : Worker} {pc pc' : CallPc}

def waiting : Pc Nat → Bool
  | .lock _ | .test _ | .block _ | .wait _ => true
  | _ => false

/-- The thread of the worker waits in Pop, and its queue is empty. -/
def Idle (wk : Worker) : Prop := (∃ p, wk.pc = .pop p ∧ waiting p = true) ∧ wk.tasks.queue = []

/-- The worker has no task in its queue, and where its flag is down it is idle. -/
def Agrees (wk : Worker) : Prop := wk.tasks.queue = [] ∧ (wk.busy = false → Idle wk)

def IdleAt (s : Pool) (w : Nat) : Prop := ∃ wk, s.heap[w]? = some wk ∧ Idle wk

def AgreesAt (s : Pool) (w : Nat) : Prop := ∃ wk, s.heap[w]? = some wk ∧ Agrees wk

/-- From the `i`-th element of _workers on there is an idle worker, and up to it
the flags tell the truth. -/
def Finds (s : Pool) (i : Nat) : Prop := ∃ j w, i ≤ j ∧ s.workers[j]? = some w ∧ IdleAt s w ∧
  ∀ k v, i ≤ k → k < j → s.workers[k]? = some v → AgreesAt s v

def StaysStarted (s : State) (a : Action) : Prop := ∀ c ch j, a = .step c ch j → s.calls[c]? ≠ some .shutdownRequest

/-- Wherever the run goes from `s`, call `c` pushes its task to a worker that is
idle at this moment. -/
def PlacesIdle (hw : Nat) (s : State) (c : Nat) : Prop := ∀ s' w fresh x,
  Reachable (startingAt (system hw) s) StaysStarted s' →
    s'.calls[c]? = some (.pushTask w fresh (.push x)) → IdleAt s'.pool w

theorem idle_agrees (hi : Idle wk) : Agrees wk := ⟨hi.2, fun _ => hi⟩

theorem Idle.lowered (hi : Idle wk) (hr : Regular wk) : wk.busy = false := by
  obtain ⟨⟨p, hp, -⟩, -⟩ := hi
  exact (hr.lowered p hp).1

theorem workerStep_idle (h : WorkerStep s w wk s') (hr : Regular wk) (hs : s.stopRequested = false) (hi : Idle wk) :
    ∃ wk', s'.heap = s.heap.set w wk' ∧ Idle wk' := by
  obtain ⟨⟨p₀, hp₀, hw₀⟩, hq₀⟩ := hi
  cases h with
  | pop p p' q hp hq =>
      rw [hp₀] at hp
      cases hp
      have hw := (hr.lowered p₀ hp₀).2
      refine ⟨_, rfl, ⟨p', rfl, ?_⟩, ?_⟩
      · cases hq with
        | lock op => cases hw; rfl
        | testTrue c h =>
            rcases h with h | h | ⟨-, h⟩
            · exact absurd hq₀ h
            · rw [hr.unstopped] at h
              cases h
            · rw [hs] at h
              cases h
        | testFalse | block | spurious | resume => rfl
        | _ => cases hw₀
      · cases hq with
        | lock | testTrue | testFalse | block | spurious | resume => exact hq₀
        | _ => cases hw₀
  | exit hp | enter hp | idle hp | nothing hp | got x hp | start x hp | finish x hp | decrement x hp =>
      rw [hp₀] at hp
      cases hp
      try cases hw₀

theorem workerStep_agrees (h : WorkerStep s w wk s') (hr : Regular wk) (hs : s.stopRequested = false)
    (ha : Agrees wk) : ∃ wk', s'.heap = s.heap.set w wk' ∧ Agrees wk' := by
  obtain ⟨hq, hidle⟩ := ha
  -- outside Pop the flag is up
  have hup (hp : ∀ p, wk.pc ≠ .pop p) : wk.busy ≠ false := by
    intro hb
    obtain ⟨⟨p, hpc, -⟩, -⟩ := hidle hb
    exact hp p hpc
  cases h with
  | pop p p' q hp hstep =>
      obtain ⟨wk', hh, hi⟩ := workerStep_idle (.pop p p' q hp hstep) hr hs (hidle (hr.lowered p hp).1)
      exact ⟨wk', hh, idle_agrees hi⟩
  | idle hp => exact ⟨_, rfl, idle_agrees ⟨⟨_, rfl, rfl⟩, hq⟩⟩
  | nothing hp | got x hp => exact ⟨_, rfl, hq, fun hb => by cases hb⟩
  | exit hp | enter hp | start x hp | finish x hp | decrement x hp =>
      exact ⟨_, rfl, hq, fun hb => absurd hb (hup (by simp [hp]))⟩

structure Keeps (s s' : Pool) : Prop where
  workers : s'.workers = s.workers
  idle : ∀ v, IdleAt s v → IdleAt s' v
  agrees : ∀ v, AgreesAt s v → AgreesAt s' v

theorem Keeps.finds (hk : Keeps s s') {i : Nat} (hf : Finds s i) : Finds s' i := by
  obtain ⟨j, w, hij, hj, hi, hbefore⟩ := hf
  refine ⟨j, w, hij, by rw [hk.workers]; exact hj, hk.idle w hi, fun k v hik hkj hv => ?_⟩
  rw [hk.workers] at hv
  exact hk.agrees v (hbefore k v hik hkj hv)

theorem at_set {P : Worker → Prop} {wk' : Worker} {v : Nat} (hk : s.heap[w]? = some wk)
    (hh : s'.heap = s.heap.set w wk') (hp : P wk → P wk') (hv : ∃ vk, s.heap[v]? = some vk ∧ P vk) :
    ∃ vk, s'.heap[v]? = some vk ∧ P vk := by
  obtain ⟨vk, hvk, hpv⟩ := hv
  rw [hh]
  by_cases he : v = w
  · subst he
    cases hk.symm.trans hvk
    exact ⟨wk', List.getElem?_set_self (List.getElem?_eq_some_iff.mp hk).1, hp hpv⟩
  · exact ⟨vk, by rw [List.getElem?_set_ne (Ne.symm he)]; exact hvk, hpv⟩

theorem workerStep_keeps (h : WorkerStep s w wk s') (hk : s.heap[w]? = some wk) (hr : Regular wk)
    (hs : s.stopRequested = false) : Keeps s s' := by
  obtain ⟨wk', hh, -⟩ := workerStep_regular h hr hs
  have hlt := (List.getElem?_eq_some_iff.mp hk).1
  have hsame {wk'' : Worker} (hh' : s'.heap = s.heap.set w wk'') : wk'' = wk' := by
    have he := congrArg (·[w]?) (hh'.symm.trans hh)
    simpa [hlt] using he
  refine ⟨workerStep_workers h, fun v => at_set hk hh fun hi => ?_, fun v => at_set hk hh fun ha => ?_⟩
  · obtain ⟨wk'', hh', hi'⟩ := workerStep_idle h hr hs hi
    exact hsame hh' ▸ hi'
  · obtain ⟨wk'', hh', ha'⟩ := workerStep_agrees h hr hs ha
    exact hsame hh' ▸ ha'

theorem callStep_keeps (h : CallStep hw c s pc s' pc') (hl : locked pc = false) (ht : tearingDown pc = false) :
    Keeps s s' := by
  have hsame (hh : s'.heap = s.heap) (hw : s'.workers = s.workers) : Keeps s s' :=
    ⟨hw, fun v hi => by rw [IdleAt, hh]; exact hi, fun v ha => by rw [AgreesAt, hh]; exact ha⟩
  cases h with
  | startupCreate | startupCreated | startupStart | startupUnlock | overLimit | withinLimit | scanBusy | scanIdle
  | scanned | routeRandom | expand | picked | outOfRange | count | pushStep | pushedFresh | pushed | emplace
  | submitReturn | submitThrow => cases hl
  | destroy | shutdownCleared | clearStep | cleared | stopStep | stopped | joined | shutdownEnd => cases ht
  | startupRefused | startupChecked | startupMax | startupExpand | startupLock | shutdownRefused | shutdownChecked
  | shutdownRequest | submitRefused | submitChecked | submitLock | dangling => exact hsame rfl rfl

def Tracks (s : Pool) : CallPc → Prop
  | .submitScan i => Finds s i
  | .pushCount w _ | .pushTask w _ (.lock _) | .pushTask w _ (.push _) => IdleAt s w
  | .pushTask _ _ _ | .submitEmplace _ | .submitReturn _ | .done _ => True
  | _ => False

theorem Keeps.tracks (hk : Keeps s s') (ht : Tracks s pc) : Tracks s' pc := by
  cases pc with
  | submitScan => exact hk.finds ht
  | pushCount => exact hk.idle _ ht
  | pushTask w fresh p =>
      cases p with
      | lock | push => exact hk.idle _ ht
      | _ => trivial
  | submitEmplace | submitReturn | done => trivial
  | _ => cases ht

theorem callStep_unstopped (h : CallStep hw c s pc s' pc') (hne : pc ≠ .shutdownRequest) :
    s'.stopRequested = s.stopRequested := by
  cases h with
  | shutdownRequest => exact absurd rfl hne
  | _ => rfl

/-- The scan passes a worker whose flag is up and stops at the first one whose
flag is down, which is idle if the flags tell the truth. -/
theorem callStep_tracks (h : CallStep hw c s pc s' pc') (hsh : Shaped c pc)
    (hr : ∀ (w : Nat) wk, s.heap[w]? = some wk → Regular wk) (ht : Tracks s pc) : Tracks s' pc' := by
  cases h with
  | scanBusy i w wk hi hk hd hb =>
      obtain ⟨j, v, hij, hj, ⟨vk, hvk, hv⟩, hbefore⟩ := ht
      have hne : i ≠ j := by
        rintro rfl
        cases hi.symm.trans hj
        cases hk.symm.trans hvk
        rw [hv.lowered (hr w wk hk)] at hb
        cases hb
      refine ⟨j, v, by omega, hj, ⟨vk, hvk, hv⟩, fun k u hik hkj => hbefore k u (by omega) hkj⟩
  | scanIdle i w wk hi hk hd hb =>
      obtain ⟨j, v, hij, hj, hv, hbefore⟩ := ht
      rcases Nat.eq_or_lt_of_le hij with rfl | hlt
      · cases hi.symm.trans hj
        exact hv
      · obtain ⟨wk', hk', -, hidle⟩ := hbefore i w (Nat.le_refl i) hlt hi
        cases hk.symm.trans hk'
        exact ⟨wk, hk, hidle hb⟩
  | scanned i hi =>
      obtain ⟨j, v, hij, hj, -⟩ := ht
      rw [List.getElem?_eq_none_iff] at hi
      rw [List.getElem?_eq_none (by omega)] at hj
      cases hj
  | count => exact ht
  | pushStep w fresh p p' wk q hk hd hq =>
      have hw : Within (.push c) p := hsh
      cases hq with
      | lock op hm =>
          cases hw
          refine at_set (P := Idle) hk rfl (fun hi => ?_) ht
          exact hi
      | push | notifyNone | notifyOne | unlock => trivial
      | _ => cases hw
  | pushedFresh | pushed | emplace | submitReturn => trivial
  | dangling pc w wk _ hk hd =>
      rw [(hr w wk hk).alive] at hd
      cases hd
  | _ => cases ht

theorem run_unstopped {s s' : State} (hs : s.pool.stopRequested = false)
    (hrun : Reachable (startingAt (system hw) s) StaysStarted s') : s'.pool.stopRequested = false := by
  refine hrun.invariant (P := fun s' => s'.pool.stopRequested = false) ?_ ?_
  · rintro s' rfl
    exact hs
  · rintro t a t' _ hstop hok hn
    rcases (next_cases hn).2 with ⟨r, rfl, rfl⟩ | ⟨d, ch, j, pd, p, pd', rfl, hpd, h, rfl⟩ |
      ⟨w, ch, wk, p, rfl, hk, h, rfl⟩
    · exact hstop
    · have hne : pd ≠ .shutdownRequest := by
        rintro rfl
        exact hok d ch j rfl hpd
      exact (callStep_unstopped h hne).trans hstop
    · exact (workerStep_stopRequested h).trans hstop

theorem run_tracks {s s' : State} (hr : Reachable (system hw) Any s) (hs : s.pool.stopRequested = false)
    (hc : s.calls[c]? = some pc) (ht : Tracks s.pool pc)
    (hrun : Reachable (startingAt (system hw) s) StaysStarted s') :
    ∃ pc', s'.calls[c]? = some pc' ∧ Tracks s'.pool pc' := by
  refine hrun.invariant (P := fun s' => ∃ pc', s'.calls[c]? = some pc' ∧ Tracks s'.pool pc') ?_ ?_
  · rintro s' rfl
    exact ⟨pc, hc, ht⟩
  · rintro t a t' hrt ⟨pc, hc, ht⟩ _ hn
    have hstop := run_unstopped hs hrt
    have hreach : Reachable (system hw) Any t := hr.trans hrt.any
    have hreg := reachable_regular hreach hstop
    rcases (next_cases hn).2 with ⟨r, rfl, rfl⟩ | ⟨d, ch, j, pd, p, pd', rfl, hpd, h, rfl⟩ |
      ⟨w, ch, wk, p, rfl, hk, h, rfl⟩
    · refine ⟨pc, ?_, ht⟩
      rw [List.getElem?_append_left (List.getElem?_eq_some_iff.mp hc).1]
      exact hc
    · by_cases he : d = c
      · subst he
        cases hc.symm.trans hpd
        exact ⟨pd', List.getElem?_set_self (List.getElem?_eq_some_iff.mp hc).1,
          callStep_tracks h (reachable_shaped hreach d pc hc) hreg ht⟩
      · refine ⟨pc, by rw [List.getElem?_set_ne he]; exact hc, ?_⟩
        cases hl : locked pc with
        | true =>
            have hld : locked pd = false := by
              by_contra hld
              exact he (locked_unique hreach hc hpd hl (by simpa using hld))
            have htd : tearingDown pd = false := by
              by_contra htd
              rw [reachable_tearingDown hreach d pd hpd (by simpa using htd)] at hstop
              cases hstop
            exact (callStep_keeps h hld htd).tracks ht
        | false =>
            -- the Submit has returned
            cases pc with
            | done r => trivial
            | submitScan | pushCount | pushTask | submitEmplace | submitReturn => cases hl
            | _ => cases ht
    · exact ⟨pc, hc, (workerStep_keeps h hk (hreg w wk hk) hstop).tracks ht⟩

theorem finds_places {s : State} (hr : Reachable (system hw) Any s) (hs : s.pool.stopRequested = false)
    (hc : s.calls[c]? = some (.submitScan 0)) (hf : Finds s.pool 0) : PlacesIdle hw s c := by
  intro s' w fresh x hrun hpush
  obtain ⟨pc', hpc', ht⟩ := run_tracks hr hs hc hf hrun
  cases hpush.symm.trans hpc'
  exact ht

end Enigma.PoolScan
