import Enigma.Rest
import Enigma.QueueRest
import Enigma.PoolScan
import Enigma.PoolCount
import Enigma.PoolTeardown
import Mathlib.Algebra.Order.BigOperators.Group.List

namespace Enigma.PoolRest

open Transition SyncQueue QueueStep ThreadPool PoolStep PoolCalls PoolView PoolFront PoolIdle PoolTeardown Indexed Rest
open PoolLog (Shaped WorkerShaped Event obs)
open QueueRest (popRank pushRank)

variable {hw c w : Nat} {s s' : Pool} {wk : Worker} {pc pc' : CallPc}

/-- Nobody calls Shutdown. -/
def Open (_ : State) (a : Action) : Prop := a ≠ .call .shutdown

/-- What the threads in the pool do without being called, but for spurious wakeups. -/
def Moves : Action → Prop
  | .call _ => False
  | .step _ _ _ => True
  | .worker _ ch => ch ≠ .spurious

section Open

variable {t : State}

theorem reachable_open (hr : Reachable (system hw) Open t) :
    t.pool.stopRequested = false ∧ ∀ (c : Nat) pc, t.calls[c]? = some pc → shuttingDown pc = false := by
  refine hr.invariant (P := fun t => t.pool.stopRequested = false ∧
    ∀ (c : Nat) pc, t.calls[c]? = some pc → shuttingDown pc = false) ?_ ?_
  · rintro t rfl
    exact ⟨rfl, fun c pc hc => by simp at hc⟩
  · rintro t a t' - ⟨hs, hc⟩ hok hn
    rcases (next_cases hn).2 with ⟨r, rfl, rfl⟩ | ⟨c, ch, j, pc, p, pc', rfl, hpc, h, rfl⟩ |
      ⟨w, ch, wk, p, rfl, hk, h, rfl⟩
    · refine ⟨hs, forall_append hc ?_⟩
      cases r with
      | startup | submit => rfl
      | shutdown => exact absurd rfl hok
    · have hne : pc ≠ .shutdownRequest := by
        rintro rfl
        cases hc c _ hpc
      refine ⟨(PoolScan.callStep_unstopped h hne).trans hs, forall_set hc ?_⟩
      by_contra hsd
      have hbefore := callStep_shuttingDown h (by simpa using hsd)
      rw [hc c pc hpc] at hbefore
      cases hbefore
    · exact ⟨(workerStep_stopRequested h).trans hs, hc⟩

theorem open_move {a : Action} {t' : State} (hr : Reachable (system hw) Open t) (ha : Moves a)
    (hn : (system hw).next t a = some t') : Reachable (system hw) Open t' := by
  refine .step hr ?_ hn
  rintro rfl
  exact ha

end Open

section Views

variable {t t' : State} {a : Action} {ok : State → Action → Prop}

theorem inside_not_popping (hsh : Shaped c pc) : QueueConsumer.popping (inside w pc) = false := by
  cases pc with
  | pushTask v fresh p | destroyClear i v p | destroyStop i v p =>
      simp only [inside]
      split
      · exact QueueConsumer.not_popping_of_within hsh (by simp)
      · rfl
  | _ => rfl

theorem popping_worker (hr : Reachable (system hw) ok t) (a : Agent)
    (hp : QueueConsumer.popping ((view t w wk).pc a) = true) : a = .worker := by
  cases a with
  | worker => rfl
  | call c =>
      simp only [view] at hp
      cases hc : t.calls[c]? with
      | none => simp [hc, QueueConsumer.popping] at hp
      | some pc => simp [hc, inside_not_popping (w := w) (reachable_shaped hr c pc hc)] at hp

theorem next_turn (hr : Reachable (system hw) ok t) (hn : next hw t a = some t') {wk' : Worker}
    (hk' : t'.pool.heap[w]? = some wk') (hd : wk'.destroyed = false) :
    (w = t.pool.heap.length ∧ view t' w wk' = QueueThreads.initial) ∨
      ∃ wk u q p, t.pool.heap[w]? = some wk ∧ wk.destroyed = false ∧
        QueueThreads.Turn u wk.tasks ((view t w wk).pc u) q p ∧
          view t' w wk' = ⟨q, Function.update (view t w wk).pc u p⟩ := by
  have hsame {wk : Worker} (hk : t.pool.heap[w]? = some wk) (hd : wk.destroyed = false)
      (hv : view t' w wk' = view t w wk) : ∃ wk u q p, t.pool.heap[w]? = some wk ∧ wk.destroyed = false ∧
        QueueThreads.Turn u wk.tasks ((view t w wk).pc u) q p ∧
          view t' w wk' = ⟨q, Function.update (view t w wk).pc u p⟩ := by
    refine ⟨wk, .worker, wk.tasks, _, hk, hd, .stay _, ?_⟩
    rw [hv, Function.update_eq_self]
    rfl
  rcases (next_cases hn).2 with ⟨r, rfl, rfl⟩ | ⟨c, ch, j, pc, p, pc', rfl, hpc, hs, rfl⟩ |
    ⟨v, ch, vk, p, rfl, hk, hs, rfl⟩
  · exact .inr (hsame hk' hd (view_call t r w wk'))
  · rcases callStep_turn hs hk' hd with ⟨rfl, rfl, hidle⟩ | ⟨wk, hk, hlive, hpcs, hturn⟩
    · -- no call can be in the queue of a worker that did not exist
      have hold := (reachable_addresses hr).2
      refine .inl ⟨rfl, view_newWorker ?_⟩
      apply forall_set (P := fun _ pd => inside t.pool.heap.length pd = .idle) ?_ hidle
      intro d pd hd
      apply inside_of_holds_ne
      exact fun hh => Nat.lt_irrefl _ (hold d pd hd _ hh)
    · refine .inr ⟨wk, .call c, wk'.tasks, inside w pc', hk, hlive, ?_, view_set hpc pc' w hpcs⟩
      simpa [view, hpc] using hturn
  · obtain ⟨vk', hh, hdead, hturn⟩ := workerStep_turn hs
    have hk' : p.heap[w]? = some wk' := hk'
    rw [hh] at hk'
    rcases set_cases hk' with ⟨rfl, rfl, -⟩ | ⟨-, hk'⟩
    · exact .inr ⟨vk, .worker, wk'.tasks, within wk', hk, hdead ▸ hd, hturn, view_work t p w vk wk'⟩
    · exact .inr (hsame hk' hd rfl)

end Views

section Open

variable {t : State}

theorem reachable_alive (hr : Reachable (system hw) Open t) (hk : t.pool.heap[w]? = some wk) : Regular wk :=
  reachable_regular hr (reachable_open hr).1 w wk hk

/-- Before the stop is requested each worker is the one consumer of its queue. -/
theorem reachable_served {ok : State → Action → Prop} (hr : Reachable (system hw) ok t)
    (hs : t.pool.stopRequested = false) :
    ∀ (w : Nat) wk, t.pool.heap[w]? = some wk → QueueConsumer.Served .worker (view t w wk) := by
  revert hs
  refine hr.invariant (P := fun t => t.pool.stopRequested = false → ∀ (w : Nat) wk, t.pool.heap[w]? = some wk →
    QueueConsumer.Served .worker (view t w wk)) ?_ ?_
  · rintro t rfl - w wk hk
    simp at hk
  · intro t a t' hr hserved hok hn hs' w wk' hk'
    have hs := unstopped_before hn hs'
    have halive := (reachable_regular (.step hr hok hn) hs' w wk' hk').alive
    rcases next_turn hr hn hk' halive with ⟨-, hnew⟩ | ⟨wk, u, q, p, hk, hd, hturn, hv'⟩
    · rw [hnew]
      exact ⟨fun b hb => (by cases hb), fun hin => by cases hin⟩
    · have hv := reachable_view hr w wk hk hd
      rw [hv']
      exact QueueConsumer.turn_served (hserved hs w wk hk) (QueueThreads.reachable_exclusive hv)
        (QueueWaiters.reachable_tracked hv) (popping_worker hr) hturn

end Open

section Measure

/-- The steps a worker makes until it blocks, if no more tasks are pushed: five outside
Pop for each task. -/
def workerLoad (wk : Worker) : Nat := match wk.pc with
  | .pop p => QueueRest.load 5 Agent.worker wk.tasks p
  | .idle => 11 * wk.tasks.queue.length + 5
  | .loop => 11 * wk.tasks.queue.length + 6
  | .decrement _ => 11 * wk.tasks.queue.length + 7
  | .running _ => 11 * wk.tasks.queue.length + 8
  | .ready _ => 11 * wk.tasks.queue.length + 9
  | .exited => 0

def additions : CallPc → Nat
  | .startupCheck a | .startupMax a | .startupExpand a | .startupLock a => a.createCount
  | .startupCreate a i => a.createCount - i
  | .submitCheck | .submitLock | .submitLimit | .submitScan _ | .submitRoute | .submitEmplace _ => 1
  | .pushCount _ fresh | .pushTask _ fresh _ => fresh.toNat
  | _ => 0

/-- The steps of a call, with those of the workers that it creates or wakes up, where
_workers never has more than `b` elements. -/
def callRank (b : Nat) : CallPc → Nat
  | .startupCheck a => 7 * a.createCount + 7
  | .startupMax a => 7 * a.createCount + 6
  | .startupExpand a => 7 * a.createCount + 5
  | .startupLock a => 7 * a.createCount + 4
  | .startupCreate a i => 7 * (a.createCount - i) + 3
  | .startupStart => 2
  | .startupUnlock => 1
  | .submitCheck => b + 34
  | .submitLock => b + 33
  | .submitLimit => b + 32
  | .submitScan i => (b - i) + 31
  | .submitRoute => 30
  | .submitRandom => 24
  | .pushCount _ _ => 23
  | .pushTask _ _ p => pushRank 5 p + 3
  | .submitEmplace _ => 2
  | .submitReturn _ | .submitThrow => 1
  | _ => 0

def bound (t : State) : Nat := t.pool.workers.length + (t.calls.map additions).sum

def measure (t : State) : Nat := (t.calls.map (callRank (bound t))).sum + (t.pool.heap.map workerLoad).sum

theorem callRank_mono {b b' : Nat} (h : b' ≤ b) (pc : CallPc) : callRank b' pc ≤ callRank b pc := by
  cases pc <;> simp only [callRank] <;> omega

theorem sum_callRank_mono {b b' : Nat} (h : b' ≤ b) (calls : List CallPc) :
    (calls.map (callRank b')).sum ≤ (calls.map (callRank b)).sum :=
  List.sum_le_sum fun pc _ => callRank_mono h pc

theorem callStep_additions (h : CallStep hw c s pc s' pc') :
    s'.workers.length + additions pc' ≤ s.workers.length + additions pc := by
  cases h with
  | startupCreate a i hi =>
      simp only [additions, List.length_append, List.length_singleton]
      omega
  | _ => simp [additions, put]

theorem push_load {p p' : Pc Nat} {q : Queue Agent Nat} (h : Step s.stopRequested (.call c) wk.tasks p q p')
    (hw : Within (.push c) p) (hr : Regular wk) :
    workerLoad { wk with tasks := q } + pushRank 5 p' < workerLoad wk + pushRank 5 p := by
  have hstep (pu : Pc Nat) := QueueRest.step_pushRank (n := 5) h hw Agent.worker pu
  have hout : 11 * q.queue.length + pushRank 5 p' < 11 * wk.tasks.queue.length + pushRank 5 p := hstep .idle
  cases hp : wk.pc with
  | pop pu =>
      simp only [workerLoad, hp]
      exact hstep pu
  | exited => exact absurd hp hr.staying
  | loop | idle | ready | running | decrement =>
      simp only [workerLoad, hp]
      omega

theorem callStep_measure (h : CallStep hw c s pc s' pc') (hsh : Shaped c pc) (hsd : shuttingDown pc = false)
    (hr : ∀ (w : Nat) wk, s.heap[w]? = some wk → Regular wk) {b : Nat} (hb : s.workers.length ≤ b) :
    (s'.heap.map workerLoad).sum + callRank b pc' < (s.heap.map workerLoad).sum + callRank b pc := by
  have hless (hh : s'.heap = s.heap) (hlt : callRank b pc' < callRank b pc) :
      (s'.heap.map workerLoad).sum + callRank b pc' < (s.heap.map workerLoad).sum + callRank b pc := by
    rw [hh]
    exact Nat.add_lt_add_left hlt _
  have hnew : workerLoad newWorker = 6 := rfl
  cases h with
  | startupCreate a i hi =>
      simp only [List.map_append, List.sum_append, List.map_singleton, List.sum_singleton, hnew, callRank]
      omega
  | expand =>
      simp only [List.map_append, List.sum_append, List.map_singleton, List.sum_singleton, hnew, callRank]
      omega
  | scanBusy i w wk hi =>
      have hlt := (List.getElem?_eq_some_iff.mp hi).1
      refine hless rfl ?_
      simp only [callRank]
      omega
  | pushStep w fresh p p' wk q hk hd hq =>
      have hlt := push_load hq hsh (hr w wk hk)
      have hsum := sum_map_set hk { wk with tasks := q } workerLoad
      simp only [put, callRank]
      omega
  | shutdownRefused | shutdownChecked | shutdownRequest | destroy | shutdownCleared | clearStep | cleared
  | stopStep | stopped | joined | shutdownEnd => cases hsd
  | dangling pc w wk _ hk hd =>
      rw [(hr w wk hk).alive] at hd
      cases hd
  | _ =>
      refine hless rfl ?_
      simp only [callRank, pushRank]
      omega

theorem workerStep_load {ch : Choice Agent} (h : workerStep s w wk ch = some s') (hch : ch ≠ .spurious)
    (hr : Regular wk) (hs : s.stopRequested = false)
    (hone : CondVar.Awake wk.tasks.cv .worker → Agent.worker ∉ wk.tasks.cv.waiting) :
    ∃ wk', s'.heap = s.heap.set w wk' ∧ workerLoad wk' < workerLoad wk := by
  unfold workerStep at h
  split at h
  case h_1 hp =>
      cases h
      exact ⟨_, rfl, by simp [workerLoad, hp, hs]⟩
  case h_5 p _ _ hp =>
      obtain ⟨r, hstep, rfl⟩ := Option.map_eq_some_iff.mp h
      refine ⟨_, rfl, ?_⟩
      have hw := (hr.lowered p hp).2
      simp only [workerLoad, hp]
      exact QueueRest.step_load (step_sound hstep) hw hr.unstopped hone (QueueRest.step_ne hstep hch hw)
  case h_9 => cases h
  all_goals
    rename_i hp
    cases h
    exact ⟨_, rfl, by simp [workerLoad, hp, QueueRest.load, popRank]⟩

/-- Every move uses up some of what the pool can still do by itself. -/
theorem move_measure {t t' : State} {a : Action} (hr : Reachable (system hw) Open t) (ha : Moves a)
    (hn : (system hw).next t a = some t') : measure t' < measure t := by
  cases a with
  | call r => exact ha.elim
  | step c ch j =>
      have hn : next hw t (.step c ch j) = some t' := hn
      rcases (next_cases hn).2 with ⟨r, he, -⟩ | ⟨d, ch, j, pc, p, pc', he, hpc, h, rfl⟩ | ⟨w, ch, wk, p, he, -⟩
      · cases he
      · cases he
        have hbound : bound ⟨p, t.calls.set c pc'⟩ ≤ bound t := by
          have hadd := callStep_additions h
          have hsum := sum_map_set hpc pc' additions
          simp only [bound]
          omega
        have hroom : t.pool.workers.length ≤ bound t := Nat.le_add_right _ _
        have hlt := callStep_measure h (reachable_shaped hr c pc hpc) ((reachable_open hr).2 c pc hpc)
          (fun w wk hk => reachable_alive hr hk) hroom
        have hsum := sum_map_set hpc pc' (callRank (bound t))
        have hmono := sum_callRank_mono hbound (t.calls.set c pc')
        simp only [measure]
        omega
      · cases he
  | worker w ch =>
      simp only [system, next] at hn
      split at hn
      case isTrue => cases hn
      case isFalse =>
          split at hn
          case h_1 => cases hn
          case h_2 wk hk =>
              obtain ⟨p, hstep, rfl⟩ := Option.map_eq_some_iff.mp hn
              have halive := reachable_alive hr hk
              have ht := QueueWaiters.reachable_tracked (reachable_view hr w wk hk halive.alive)
              obtain ⟨wk', hh, hlt⟩ := workerStep_load hstep ha halive (reachable_open hr).1
                fun hawake hin => ht.not_awake hin hawake
              have hsum := sum_map_set hk wk' workerLoad
              have hworkers := workerStep_workers (workerStep_sound hstep)
              simp only [measure, bound, hh, hworkers]
              omega

theorem settles (hw : Nat) : Settles (system hw) Moves (Reachable (system hw) Open) measure where
  keeps _ _ _ hr ha hn := open_move hr ha hn
  drops _ _ _ hr ha hn := move_measure hr ha hn

end Measure

section AtRest

variable {t : State} {ok : State → Action → Prop}

theorem callStep_owner (h : CallStep hw c s pc s' pc') :
    (s'.workerMtx = s.workerMtx ∧ (locked pc = true → locked pc' = true)) ∨
      (s'.workerMtx = some c ∧ locked pc' = true) ∨ s'.workerMtx = none := by
  cases h with
  | startupLock | submitLock => exact .inr (.inl ⟨rfl, rfl⟩)
  | startupUnlock | submitReturn | submitThrow => exact .inr (.inr rfl)
  | dangling => exact .inl ⟨rfl, id⟩
  | startupCreate | startupCreated | startupStart | overLimit | withinLimit | scanBusy | scanIdle | scanned
  | routeRandom | expand | picked | outOfRange | count | pushStep | pushedFresh | pushed | emplace =>
      exact .inl ⟨rfl, fun _ => rfl⟩
  | startupRefused | startupChecked | startupMax | startupExpand | shutdownRefused | shutdownChecked
  | shutdownRequest | destroy | shutdownCleared | clearStep | cleared | stopStep | stopped | joined | shutdownEnd
  | submitRefused | submitChecked => exact .inl ⟨rfl, fun hl => by cases hl⟩

theorem reachable_owner (hr : Reachable (system hw) ok t) :
    ∀ c, t.pool.workerMtx = some c → ∃ pc, t.calls[c]? = some pc ∧ locked pc = true := by
  refine hr.invariant (P := fun t => ∀ c, t.pool.workerMtx = some c → ∃ pc, t.calls[c]? = some pc ∧ locked pc = true)
    ?_ ?_
  · rintro t rfl c hc
    cases hc
  · rintro t a t' - ho - hn
    rcases (next_cases hn).2 with ⟨r, rfl, rfl⟩ | ⟨c, ch, j, pc, p, pc', rfl, hpc, h, rfl⟩ |
      ⟨w, ch, wk, p, rfl, hk, h, rfl⟩
    · intro c hc
      obtain ⟨pc, hpc, hl⟩ := ho c hc
      refine ⟨pc, ?_, hl⟩
      rw [List.getElem?_append_left (List.getElem?_eq_some_iff.mp hpc).1]
      exact hpc
    · have hself : (t.calls.set c pc')[c]? = some pc' :=
        List.getElem?_set_self (List.getElem?_eq_some_iff.mp hpc).1
      intro d hd
      rcases callStep_owner h with ⟨hm, hl⟩ | ⟨hm, hl⟩ | hm
      · obtain ⟨pd, hpd, hld⟩ := ho d (hm.symm.trans hd)
        by_cases he : d = c
        · subst he
          cases hpc.symm.trans hpd
          exact ⟨pc', hself, hl hld⟩
        · exact ⟨pd, by rw [List.getElem?_set_ne (Ne.symm he)]; exact hpd, hld⟩
      · cases hm.symm.trans hd
        exact ⟨pc', hself, hl⟩
      · cases hm.symm.trans hd
    · intro c hc
      exact ho c ((workerStep_workerMtx h).symm.trans hc)

theorem call_stuck (hf : t.pool.fault = false) (hrest : AtRest (system hw) Moves t) (hc : t.calls[c]? = some pc)
    (ch : Choice Agent) (j : Nat) : callStep hw c t.pool ch j pc = none := by
  have hn : next hw t (.step c ch j) = none := hrest (.step c ch j) trivial
  simpa [next, hf, hc] using hn

theorem worker_stuck (hf : t.pool.fault = false) (hrest : AtRest (system hw) Moves t) (hk : t.pool.heap[w]? = some wk)
    {ch : Choice Agent} (hch : ch ≠ .spurious) : workerStep t.pool w wk ch = none := by
  have hn : next hw t (.worker w ch) = none := hrest (.worker w ch) hch
  simpa [next, hf, hk] using hn

theorem step_idle {b : Bool} {a : Agent} {q : Queue Agent Nat} (ch : Choice Agent) : step b a q .idle ch = none := by
  cases ch <;> rfl

theorem step_returned {b : Bool} {a : Agent} {q : Queue Agent Nat} (r : Ret Nat) (ch : Choice Agent) :
    step b a q (.returned r) ch = none := by
  cases ch <;> rfl

theorem workerStep_pop {p : Pc Nat} {ch : Choice Agent} (hp : wk.pc = .pop p)
    (h : workerStep s w wk ch = none) : step s.stopRequested .worker wk.tasks p ch = none := by
  cases p with
  | returned r => exact step_returned r ch
  | _ => simpa [workerStep, hp] using h

theorem workerStep_shaped (h : WorkerStep s w wk s') (hs : WorkerShaped wk) :
    ∃ wk', s'.heap = s.heap.set w wk' ∧ WorkerShaped wk' := by
  cases h with
  | pop p p' q hp hq =>
      refine ⟨_, rfl, fun p'' hp'' => ?_⟩
      cases hp''
      exact step_within hq (hs p hp)
  | idle hp =>
      refine ⟨_, rfl, fun p hp => ?_⟩
      cases hp
      exact .lock (by simp)
  | exit | enter | nothing | got | start | finish | decrement => exact ⟨_, rfl, fun p hp => by cases hp⟩

theorem reachable_workerShaped (hr : Reachable (system hw) ok t) :
    ∀ (w : Nat) wk, t.pool.heap[w]? = some wk → WorkerShaped wk := by
  refine hr.invariant (P := fun t => ∀ (w : Nat) wk, t.pool.heap[w]? = some wk → WorkerShaped wk) ?_ ?_
  · rintro t rfl w wk hk
    simp at hk
  · intro t a t' _ hs _ hn
    rcases (next_cases hn).2 with ⟨r, rfl, rfl⟩ | ⟨c, ch, j, pc, p, pc', rfl, hpc, h, rfl⟩ |
      ⟨v, ch, vk, p, rfl, hk, h, rfl⟩
    · exact hs
    · intro w wk' hk'
      rcases callStep_ages h hk' with ⟨-, rfl, -⟩ | ⟨wk, hk, hpcs, -⟩
      · exact fun p hp => by cases hp
      · rw [WorkerShaped, hpcs]
        exact hs w wk hk
    · obtain ⟨vk', hh, hvk'⟩ := workerStep_shaped h (hs v vk hk)
      show ∀ (w : Nat) wk, p.heap[w]? = some wk → WorkerShaped wk
      rw [hh]
      exact forall_set (P := fun _ => WorkerShaped) hs hvk'

theorem rest_still (hf : t.pool.fault = false) (hrest : AtRest (system hw) Moves t) (hk : t.pool.heap[w]? = some wk)
    (hd : wk.destroyed = false) : QueueRest.Still t.pool.stopRequested (view t w wk) := by
  intro a ch hch
  cases a with
  | worker =>
      show step _ _ wk.tasks (within wk) ch = none
      cases hp : wk.pc with
      | pop p =>
          simp only [within, hp]
          exact workerStep_pop hp (worker_stuck hf hrest hk hch)
      | _ =>
          simp only [within, hp]
          exact step_idle ch
  | call c =>
      show step _ _ wk.tasks (((t.calls[c]?).map (inside w)).getD .idle) ch = none
      cases hc : t.calls[c]? with
      | none => exact step_idle ch
      | some pc =>
          show step _ _ wk.tasks (inside w pc) ch = none
          cases pc with
          | pushTask v fresh p | destroyClear i v p | destroyStop i v p =>
              simp only [inside]
              split
              case isFalse => exact step_idle ch
              case isTrue he =>
                  subst he
                  have hstuck := call_stuck hf hrest hc ch 0
                  cases p with
                  | returned r => exact step_returned r ch
                  | _ => simpa [callStep, inQueue, onWorker, hk, hd] using hstuck
          | _ => exact step_idle ch

theorem reachable_unfaulted (hr : Reachable (system hw) ok t) (hf : t.pool.fault = false)
    (hk : t.pool.heap[w]? = some wk) : wk.pc ≠ .pop .fault := by
  revert hf
  revert w wk
  refine hr.invariant (P := fun t => ∀ {w : Nat} {wk}, t.pool.heap[w]? = some wk → t.pool.fault = false →
    wk.pc ≠ .pop .fault) ?_ ?_
  · rintro t rfl w wk hk
    simp at hk
  · intro t a t' _ hu _ hn w wk' hk' hf'
    obtain ⟨hf, hn⟩ := next_cases hn
    rcases hn with ⟨r, rfl, rfl⟩ | ⟨c, ch, j, pc, p, pc', rfl, hpc, hs, rfl⟩ | ⟨v, ch, vk, p, rfl, hk, hs, rfl⟩
    · exact hu hk' hf
    · rcases callStep_ages hs hk' with ⟨-, rfl, -⟩ | ⟨wk, hk, hpcs, -⟩
      · nofun
      · rw [hpcs]
        exact hu hk hf
    · obtain ⟨vk', hh, -, -⟩ := workerStep_turn hs
      have hk₁ : p.heap[w]? = some wk' := hk'
      rw [hh] at hk₁
      rcases set_cases hk₁ with ⟨rfl, rfl, -⟩ | ⟨-, hk₁⟩
      · have hlt := (List.getElem?_eq_some_iff.mp hk).1
        cases hs with
        | pop p p' q hp hq =>
            have hk' : (t.pool.heap.set w _)[w]? = some wk' := hk'
            rw [List.getElem?_set_self hlt] at hk'
            cases hk'
            intro hfault
            cases hfault
            exact absurd hf' (by simp)
        | exit hp | enter hp | idle hp | nothing hp | got x hp | start x hp | finish x hp | decrement x hp =>
            have hk' : (t.pool.heap.set w _)[w]? = some wk' := hk'
            rw [List.getElem?_set_self hlt] at hk'
            cases hk'
            simp
      · exact hu hk₁ hf

theorem rest_free (hr : Reachable (system hw) ok t) (hf : t.pool.fault = false) (hrest : AtRest (system hw) Moves t)
    (hk : t.pool.heap[w]? = some wk) (hd : wk.destroyed = false) : wk.tasks.mutex = none := by
  have hin := QueueConsumer.reachable_inSection (reachable_view hr w wk hk hd)
  refine (rest_still hf hrest hk hd).free hin fun a ha => ?_
  obtain rfl := popping_worker hr a (by rw [ha]; rfl)
  have ha : within wk = .fault := ha
  unfold within at ha
  split at ha
  case h_1 p hp => exact reachable_unfaulted hr hf hk (by rw [hp, ha])
  case h_2 => cases ha

theorem rest_returned (hr : Reachable (system hw) ok t) (hf : t.pool.fault = false)
    (hrest : AtRest (system hw) Moves t) (hk : t.pool.heap[w]? = some wk) (hd : wk.destroyed = false)
    (hc : t.calls[c]? = some pc) {op : Op Nat} (hin : Within op (inside w pc)) (hop : ∀ b, op ≠ .pop b) :
    ∃ r, inside w pc = .returned r := by
  have hpc : (view t w wk).pc (.call c) = inside w pc := by simp [view, hc]
  have hx := QueueThreads.reachable_exclusive (reachable_view hr w wk hk hd)
  rw [← hpc] at hin ⊢
  exact (rest_still hf hrest hk hd).returned (rest_free hr hf hrest hk hd) hx hin hop

/-- To use a worker is always possible, if only to end the run. -/
theorem alive_of_stuck {f : Worker → Option (Pool × CallPc)} (hlt : w < t.pool.heap.length)
    (hnone : onWorker t.pool w pc f = none) :
    ∃ wk, t.pool.heap[w]? = some wk ∧ wk.destroyed = false ∧ f wk = none := by
  have hk : t.pool.heap[w]? = some t.pool.heap[w] := List.getElem?_eq_getElem hlt
  cases hd : t.pool.heap[w].destroyed with
  | true => simp [onWorker, hk, hd] at hnone
  | false => exact ⟨_, hk, hd, by simpa [onWorker, hk, hd] using hnone⟩

theorem rest_not_locked (hr : Reachable (system hw) ok t) (hf : t.pool.fault = false)
    (hrest : AtRest (system hw) Moves t) (hc : t.calls[c]? = some pc) : locked pc = false := by
  have hrun := call_stuck hf hrest hc .run 0
  obtain ⟨hworkers, hholds⟩ := reachable_addresses hr
  cases pc with
  | submitScan i =>
      simp only [callStep] at hrun
      split at hrun
      case h_1 w hi =>
          obtain ⟨wk, -, -, hnone⟩ := alive_of_stuck (hworkers w (List.mem_of_getElem? hi)) hrun
          cases hnone
      case h_2 => cases hrun
  | pushCount w fresh =>
      obtain ⟨wk, -, -, hnone⟩ := alive_of_stuck (hholds c _ hc w rfl) hrun
      cases hnone
  | pushTask w fresh p =>
      have hlt := hholds c _ hc w rfl
      have hk : t.pool.heap[w]? = some t.pool.heap[w] := List.getElem?_eq_getElem hlt
      cases p with
      | returned r => cases hrun
      | _ =>
          obtain ⟨wk, hk, hd, -⟩ := alive_of_stuck hlt hrun
          have hin : Within (.push c) _ := reachable_shaped hr c _ hc
          obtain ⟨r, hret⟩ := rest_returned hr hf hrest hk hd hc (by simpa [inside] using hin) (by simp)
          simp [inside] at hret
  | submitRandom =>
      simp only [callStep, Nat.zero_le, if_true] at hrun
      split at hrun <;> cases hrun
  | submitRoute | startupCreate =>
      simp only [callStep] at hrun
      split at hrun <;> cases hrun
  | startupStart | startupUnlock | submitLimit | submitEmplace | submitReturn | submitThrow => cases hrun
  | _ => rfl

theorem rest_done (hr : Reachable (system hw) ok t) (hf : t.pool.fault = false) (hrest : AtRest (system hw) Moves t)
    (hc : t.calls[c]? = some pc) (hsd : shuttingDown pc = false) : isDone pc = true := by
  have hrun := call_stuck hf hrest hc .run 0
  have hfree : t.pool.workerMtx = none := by
    cases hm : t.pool.workerMtx with
    | none => rfl
    | some d =>
        obtain ⟨pd, hd, hl⟩ := reachable_owner hr d hm
        rw [rest_not_locked hr hf hrest hd] at hl
        cases hl
  cases pc with
  | done => rfl
  | startupLock | submitLock => simp [callStep, hfree] at hrun
  | startupCheck | startupMax | startupExpand | submitCheck => cases hrun
  | shutdownCheck | shutdownRequest | shutdownClear | destroyClear | destroyStop | destroyJoin | shutdownEnd => cases hsd
  | startupCreate | startupStart | startupUnlock | submitLimit | submitScan | submitRoute | submitRandom | pushCount
  | pushTask | submitEmplace | submitReturn | submitThrow => cases rest_not_locked hr hf hrest hc

theorem rest_worker (hr : Reachable (system hw) ok t) (hf : t.pool.fault = false)
    (hrest : AtRest (system hw) Moves t) (hk : t.pool.heap[w]? = some wk) (hd : wk.destroyed = false) :
    wk.pc = .exited ∨ (wk.pc = .pop (.wait true) ∧ Agent.worker ∈ wk.tasks.cv.waiting) := by
  have hv := reachable_view hr w wk hk hd
  have hstuck : workerStep t.pool w wk .run = none := worker_stuck hf hrest hk nofun
  cases hp : wk.pc with
  | pop p =>
      have hw := reachable_workerShaped hr w wk hk p hp
      have hpc : (view t w wk).pc .worker = p := by simp [view, within, hp]
      have hret (r : Ret Nat) : p ≠ .returned r := by
        rintro rfl
        cases hw with
        | @returnedPop c v => cases v <;> simp [workerStep, hp] at hstuck
      obtain ⟨hwait, hin⟩ := (rest_still hf hrest hk hd).blocked (c := true) (rest_free hr hf hrest hk hd)
        (QueueWaiters.reachable_tracked hv) (QueueThreads.reachable_exclusive hv)
        (by rw [hpc]; exact hw) (by rw [hpc]; exact hret)
      rw [hpc] at hwait
      exact .inr ⟨by rw [hwait], hin⟩
  | exited => exact .inl rfl
  | loop | idle | ready | running | decrement => simp [workerStep, hp] at hstuck

/-- Before the stop is requested every worker waits for a task, and there is none for it. -/
theorem rest_waiting (hr : Reachable (system hw) ok t) (hs : t.pool.stopRequested = false)
    (hrest : AtRest (system hw) Moves t) (hk : t.pool.heap[w]? = some wk) :
    wk.pc = .pop (.wait true) ∧ wk.tasks.queue = [] := by
  have hreg := reachable_regular hr hs w wk hk
  have hf := reachable_no_fault hr.any hs
  rcases rest_worker hr hf hrest hk hreg.alive with hp | ⟨hp, hin⟩
  · exact absurd hp hreg.staying
  · refine ⟨hp, ?_⟩
    rcases (reachable_served hr hs w wk hk).waiting hin with hq | ⟨u, ho, -⟩
    · exact hq
    · have hfree : (view t w wk).queue.mutex = none := rest_free hr hf hrest hk hreg.alive
      rw [hfree] at ho
      cases ho

end AtRest

open PoolTasks PoolPlaces PoolCount in
/-- A task whose Submit has returned true has been run, as none is left where it could be. -/
theorem rest_ended {ok : State × List Event → Action → Prop} {t : State} {h : List Event}
    (hr : Reachable (logged (system hw) obs) ok (t, h)) (hs : t.pool.stopRequested = false)
    (hrest : AtRest (system hw) Moves t) {x : Nat} (hx : t.calls[x]? = some (.done (.submitted true))) :
    x ∈ ends h := by
  have hbase := hr.forget_any
  obtain ⟨p, hp, -⟩ := (accepted_in_one_place hr.any).1 x hx
  cases p with
  | queued w =>
      simp only [copies, queueOf] at hp
      cases hk : t.pool.heap[w]? with
      | none => simp [hk] at hp
      | some wk => simp [hk, (rest_waiting hbase hs hrest hk).2] at hp
  | held w =>
      simp only [copies, handsOf] at hp
      cases hk : t.pool.heap[w]? with
      | none => simp [hk] at hp
      | some wk => simp [hk, inProgress, unstarted, held, (rest_waiting hbase hs hrest hk).1] at hp
  | finished w =>
      have hmem : x ∈ ends (ofWorker w h) := List.count_pos_iff.mp (by simp only [copies] at hp; omega)
      exact mem_of_mem_ofWorker hmem
  | discarded w =>
      have hmem : x ∈ Fifo.drops (traffic (ofWorker w h)) :=
        List.count_pos_iff.mp (by simp only [copies] at hp; omega)
      rw [drops_traffic] at hmem
      have hdrop : x ∈ Fifo.drops (traffic h) := by
        rw [drops_traffic]
        exact mem_of_mem_ofWorker hmem
      have hstop := stopRequested_of_drops hr (List.ne_nil_of_mem hdrop ∘ List.eq_nil_of_length_eq_zero)
      rw [hs] at hstop
      cases hstop

/-- As long as nobody calls Shutdown: only so many steps, spurious wakeups apart, and at rest every
call has returned, every task accepted has been run, and every worker waits with an empty queue. -/
theorem pool_settles {t : State} {h : List Event}
    (hr : Reachable (logged (system hw) obs) (fun p a => Open p.1 a) (t, h)) :
    (∃ n, ∀ as t', (∀ a ∈ as, Moves a) → run (system hw) t as = some t' → as.length ≤ n) ∧
      (∃ as t', (∀ a ∈ as, Moves a) ∧ run (system hw) t as = some t' ∧ AtRest (system hw) Moves t') ∧
      (AtRest (system hw) Moves t →
        (∀ pc ∈ t.calls, isDone pc = true) ∧
          (∀ x, t.calls[x]? = some (.done (.submitted true)) → x ∈ PoolTasks.ends h) ∧
          (∀ wk ∈ t.pool.heap, PoolScan.Idle wk) ∧ t.pool.currTaskCount = 0) := by
  have hopen := hr.forget
  refine ⟨⟨measure t, fun as t' hm hrun => ?_⟩, (settles hw).exists_rest hopen, fun hrest => ?_⟩
  · exact Nat.le_of_add_right_le ((settles hw).length_add_le hopen hm hrun)
  · have hdone : ∀ pc ∈ t.calls, isDone pc = true := by
      intro pc hpc
      obtain ⟨c, hc⟩ := List.mem_iff_getElem?.mp hpc
      have hf := reachable_no_fault hopen.any (reachable_open hopen).1
      exact rest_done hopen hf hrest hc ((reachable_open hopen).2 c pc hc)
    have hs := (reachable_open hopen).1
    have hends (x : Nat) (hx : t.calls[x]? = some (.done (.submitted true))) := rest_ended hr hs hrest hx
    refine ⟨hdone, hends, ?_, ?_⟩
    · intro wk hwk
      obtain ⟨w, hk⟩ := List.mem_iff_getElem?.mp hwk
      obtain ⟨hp, hq⟩ := rest_waiting hopen hs hrest hk
      exact ⟨⟨_, hp, rfl⟩, hq⟩
    · refine (PoolCount.task_count_exact hr.any hs).2.2 (fun pc hpc => ?_) hends
      have hd := hdone pc hpc
      cases pc <;> first | rfl | cases hd

def isOpen : Action → Bool
  | .call .shutdown => false
  | _ => true

theorem open_of_isOpen (p : State × List Event) (a : Action) (h : isOpen a = true) : Open p.1 a := by
  rintro rfl
  cases h

def twoTasks : List Action :=
  List.flatten [[.call (.startup ⟨1, 5, false⟩)], walk 0 8, [.call .submit], walk 1 11, work 0 9, [.call .submit], walk 2 14]

theorem pool_settles_two : ∃ t as t', t.pool.currTaskCount = 2 ∧ (∀ a ∈ as, Moves a) ∧
    run (system 1) t as = some t' ∧ t'.pool.currTaskCount = 0 ∧ ∀ wk ∈ t'.pool.heap, PoolScan.Idle wk := by
  obtain ⟨⟨t, h⟩, hr, hp⟩ := exists_of_run (logged (system 1) obs) (fun p a => Open p.1 a) (fun _ a => isOpen a) ({}, [])
    twoTasks (fun p : State × List Event => decide (p.1.pool.currTaskCount = 2)) open_of_isOpen ⟨rfl, rfl⟩ (by decide)
  obtain ⟨-, ⟨as, t', hm, hrun, hrest⟩, -⟩ := pool_settles hr
  have hopen (p : State × List Event) (a : Action) (ha : Moves a) : Open p.1 a := by
    rintro rfl
    exact ha
  obtain ⟨h', hr'⟩ := reachable_run hr hopen hm hrun
  obtain ⟨-, -, hdrained⟩ := pool_settles hr'
  obtain ⟨-, -, hidle, hcount⟩ := hdrained hrest
  exact ⟨t, as, t', of_decide_eq_true hp, hm, hrun, hcount, hidle⟩

end Enigma.PoolRest
