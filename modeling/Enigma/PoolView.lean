import Enigma.PoolCalls

namespace Enigma.PoolView

open Transition SyncQueue QueueStep ThreadPool PoolStep PoolCalls Indexed

variable {hw c w : Nat} {s s' : Pool} {wk : Worker} {pc pc' : CallPc}

def holds : CallPc → Option Nat
  | .destroyClear _ w _ | .destroyStop _ w _ | .destroyJoin _ w | .pushCount w _ | .pushTask w _ _
  | .submitEmplace w => some w
  | _ => none

theorem callStep_heap_le (h : CallStep hw c s pc s' pc') : s.heap.length ≤ s'.heap.length := by
  cases h with
  | startupCreate | expand => simp
  | clearStep | stopStep | pushStep | joined => simp [put]
  | _ => exact Nat.le_refl _

theorem workerStep_heap_length (h : WorkerStep s w wk s') : s'.heap.length = s.heap.length := by
  cases h <;> simp [put]

theorem workerStep_workers (h : WorkerStep s w wk s') : s'.workers = s.workers := by
  cases h <;> rfl

theorem callStep_holds (h : CallStep hw c s pc s' pc') (hs : ∀ w ∈ s.workers, w < s.heap.length)
    (hp : ∀ w, holds pc = some w → w < s.heap.length) :
    (∀ w ∈ s'.workers, w < s'.heap.length) ∧ ∀ w, holds pc' = some w → w < s'.heap.length := by
  have hle := callStep_heap_le h
  cases h with
  | startupCreate a i =>
      refine ⟨fun v hv => ?_, fun v hv => by cases hv⟩
      simp only [List.mem_append, List.mem_singleton, List.length_append, List.length_singleton] at hv ⊢
      rcases hv with hv | rfl
      · exact Nat.lt_succ_of_lt (hs v hv)
      · exact Nat.lt_succ_self _
  | expand =>
      simp only [List.length_append, List.length_singleton]
      refine ⟨fun v hv => Nat.lt_succ_of_lt (hs v hv), fun v hv => ?_⟩
      cases hv
      exact Nat.lt_succ_self _
  | emplace v =>
      refine ⟨fun u hu => ?_, fun u hu => by cases hu⟩
      rcases List.mem_append.mp hu with hu | hu
      · exact hs u hu
      · exact hp u (congrArg some (List.mem_singleton.mp hu).symm)
  | shutdownCleared => exact ⟨fun v hv => (by cases hv), fun v hv => by cases hv⟩
  | destroy i v hi =>
      refine ⟨hs, fun u hu => ?_⟩
      cases hu
      exact hs v (List.mem_of_getElem? hi)
  | scanIdle i v wk hi | picked j v hj hi =>
      refine ⟨hs, fun u hu => ?_⟩
      cases hu
      exact hs v (List.mem_of_getElem? hi)
  | clearStep | stopStep | pushStep =>
      simp only [put, List.length_set]
      exact ⟨hs, hp⟩
  | joined =>
      simp only [put, List.length_set]
      exact ⟨hs, fun v hv => by cases hv⟩
  | cleared | stopped | count | pushedFresh | dangling => exact ⟨hs, hp⟩
  | startupRefused | startupChecked | startupMax | startupExpand | startupLock | startupCreated
  | startupStart | startupUnlock | shutdownRefused | shutdownChecked | shutdownRequest
  | shutdownEnd | submitRefused | submitChecked | submitLock | overLimit | withinLimit | scanBusy
  | scanned | routeRandom | outOfRange | pushed | submitReturn | submitThrow =>
      exact ⟨hs, fun v hv => by cases hv⟩

theorem reachable_addresses {ok : State → Action → Prop} {s : State} (hr : Reachable (system hw) ok s) :
    (∀ w ∈ s.pool.workers, w < s.pool.heap.length) ∧ ∀ (c : Nat) pc, s.calls[c]? = some pc →
      ∀ w, holds pc = some w → w < s.pool.heap.length := by
  apply pool_invariant (Q := fun s => ∀ w ∈ s.workers, w < s.heap.length)
    (P := fun s _ pc => ∀ w, holds pc = some w → w < s.heap.length) ?_ ?_ ?_ ?_ ?_ hr
  · intro w hw
    cases hw
  · intro s c r _ w hw
    cases r <;> cases hw
  · exact callStep_holds
  · intro c s pc s' pc' d pd h _ _ _ hd w hw
    exact Nat.lt_of_lt_of_le (hd w hw) (callStep_heap_le h)
  · intro s w wk s' h hq
    rw [workerStep_workers h, workerStep_heap_length h]
    exact ⟨hq, fun _ _ hp => hp⟩

def inside (w : Nat) : CallPc → Pc Nat
  | .pushTask v _ p | .destroyClear _ v p | .destroyStop _ v p => if v = w then p else .idle
  | _ => .idle

def within (wk : Worker) : Pc Nat :=
  match wk.pc with
  | .pop p => p
  | _ => .idle

def view (s : State) (w : Nat) (wk : Worker) : QueueThreads.State Agent Nat where
  queue := wk.tasks
  pc
    | .worker => within wk
    | .call c => ((s.calls[c]?).map (inside w)).getD .idle

theorem inside_of_holds_ne (h : holds pc ≠ some w) : inside w pc = .idle := by
  unfold inside
  split
  all_goals first | rfl | exact if_neg fun he => h (congrArg some he)

theorem callStep_turn (h : CallStep hw c s pc s' pc') {wk' : Worker} (hk' : s'.heap[w]? = some wk')
    (hd : wk'.destroyed = false) :
    (w = s.heap.length ∧ wk' = newWorker ∧ inside w pc' = .idle) ∨
    ∃ wk, s.heap[w]? = some wk ∧ wk.destroyed = false ∧ wk'.pc = wk.pc ∧
      QueueThreads.Turn (.call c) wk.tasks (inside w pc) wk'.tasks (inside w pc') := by
  have hsame {pc pc'} (hh : s'.heap = s.heap)
      (ht : QueueThreads.Turn (.call c) wk'.tasks (inside w pc) wk'.tasks (inside w pc')) :
      ∃ wk, s.heap[w]? = some wk ∧ wk.destroyed = false ∧ wk'.pc = wk.pc ∧
        QueueThreads.Turn (.call c) wk.tasks (inside w pc) wk'.tasks (inside w pc') :=
    ⟨wk', hh ▸ hk', hd, rfl, ht⟩
  -- an instruction inside the queue of worker `v`
  have hqueue {v p p' pc pc' q wk} (hk : s.heap[v]? = some wk) (hlive : wk.destroyed = false)
      (hs : Step s.stopRequested (.call c) wk.tasks p q p')
      (hh : s'.heap = s.heap.set v { wk with tasks := q })
      (hpc : inside w pc = if v = w then p else .idle)
      (hpc' : inside w pc' = if v = w then p' else .idle) :
      ∃ wk, s.heap[w]? = some wk ∧ wk.destroyed = false ∧ wk'.pc = wk.pc ∧
        QueueThreads.Turn (.call c) wk.tasks (inside w pc) wk'.tasks (inside w pc') := by
    rw [hh] at hk'
    rw [hpc, hpc']
    rcases set_cases hk' with ⟨rfl, rfl, -⟩ | ⟨hne, hk'⟩
    · rw [if_pos rfl, if_pos rfl]
      exact ⟨wk, hk, hlive, rfl, .step _ hs⟩
    · rw [if_neg (Ne.symm hne), if_neg (Ne.symm hne)]
      exact ⟨wk', hk', hd, rfl, .stay _⟩
  cases h with
  | startupCreate | expand =>
      rcases append_cases hk' with ⟨rfl, rfl⟩ | hk'
      · exact .inl ⟨rfl, rfl, rfl⟩
      · exact .inr ⟨wk', hk', hd, rfl, .stay _⟩
  | clearStep i v p p' wk q hk hlive hs => exact .inr (hqueue hk hlive hs rfl rfl rfl)
  | stopStep i v p p' wk q hk hlive hs => exact .inr (hqueue hk hlive hs rfl rfl rfl)
  | pushStep v fresh p p' wk q hk hlive hs => exact .inr (hqueue hk hlive hs rfl rfl rfl)
  | joined i v wk hk hlive he =>
      rcases set_cases hk' with ⟨rfl, rfl, -⟩ | ⟨-, hk'⟩
      · cases hd
      · exact .inr ⟨wk', hk', hd, rfl, .stay _⟩
  | destroy i v => exact .inr (hsame rfl (.call_if _ _ _ .clear))
  | count v => exact .inr (hsame rfl (.call_if _ _ _ (.push c)))
  | cleared i v r =>
      refine .inr (hsame rfl ?_)
      simp only [inside]
      split
      · exact .call .stop rfl
      · exact .stay _
  | stopped i v r => exact .inr (hsame rfl (.leave_if _ _ _ r))
  | pushedFresh v r | pushed v r => exact .inr (hsame rfl (.leave_if _ _ _ r))
  | startupRefused | startupChecked | startupMax | startupExpand | startupLock
  | startupCreated | startupStart | startupUnlock | shutdownRefused | shutdownChecked
  | shutdownRequest | shutdownCleared | shutdownEnd | submitRefused | submitChecked
  | submitLock | overLimit | withinLimit | scanBusy | scanIdle | scanned | routeRandom | picked
  | outOfRange | emplace | submitReturn | submitThrow | dangling => exact .inr (hsame rfl (.stay _))

theorem callStep_destroyed (h : CallStep hw c s pc s' pc') {wk' : Worker} (hk' : s'.heap[w]? = some wk')
    (hd : wk'.destroyed = true) :
    (wk'.pc = .exited ∧ wk'.tasks.queue = []) ∨ s.heap[w]? = some wk' := by
  have hset {v : Nat} {wk : Worker} {q : Queue Agent Nat} (hlive : wk.destroyed = false)
      (hh : s'.heap = s.heap.set v { wk with tasks := q }) : s.heap[w]? = some wk' := by
    rw [hh] at hk'
    rcases set_cases hk' with ⟨rfl, rfl, -⟩ | ⟨-, hk'⟩
    · rw [hlive] at hd
      cases hd
    · exact hk'
  cases h with
  | startupCreate | expand =>
      rcases append_cases hk' with ⟨-, rfl⟩ | hk'
      · cases hd
      · exact .inr hk'
  | clearStep i v p p' wk q _ hlive => exact .inr (hset hlive rfl)
  | stopStep i v p p' wk q _ hlive => exact .inr (hset hlive rfl)
  | pushStep v fresh p p' wk q _ hlive => exact .inr (hset hlive rfl)
  | joined i v wk hk hlive he =>
      rcases set_cases hk' with ⟨rfl, rfl, -⟩ | ⟨-, hk'⟩
      · exact .inl ⟨he, rfl⟩
      · exact .inr hk'
  | _ => exact .inr hk'

theorem workerStep_turn (h : WorkerStep s w wk s') : ∃ wk', s'.heap = s.heap.set w wk' ∧
    wk'.destroyed = wk.destroyed ∧
    QueueThreads.Turn .worker wk.tasks (within wk) wk'.tasks (within wk') := by
  cases h with
  | pop p p' q hp hs =>
      refine ⟨_, rfl, rfl, ?_⟩
      simp only [within, hp]
      exact .step _ hs
  | idle hp =>
      refine ⟨_, rfl, rfl, ?_⟩
      simp only [within, hp]
      exact .call (.pop true) rfl
  | nothing hp | got x hp =>
      refine ⟨_, rfl, rfl, ?_⟩
      simp only [within, hp]
      exact .leave rfl
  | exit hp | enter hp | start x hp | finish x hp | decrement x hp =>
      refine ⟨_, rfl, rfl, ?_⟩
      simp only [within, hp]
      exact .stay _

theorem view_call (s : State) (r : Request) (w : Nat) (wk : Worker) :
    view ⟨s.pool, s.calls ++ [r.entry]⟩ w wk = view s w wk := by
  have hr : inside w r.entry = .idle := by cases r <;> rfl
  simp only [view, QueueThreads.State.mk.injEq, true_and]
  funext t
  cases t with
  | worker => rfl
  | call d =>
      show ((s.calls ++ [r.entry])[d]?.map (inside w)).getD .idle = ((s.calls[d]?).map (inside w)).getD .idle
      rcases Nat.lt_trichotomy d s.calls.length with hd | rfl | hd
      · rw [List.getElem?_append_left hd]
      · rw [List.getElem?_concat_length, List.getElem?_eq_none (Nat.le_refl _)]
        exact hr
      · rw [List.getElem?_eq_none (by simp; omega), List.getElem?_eq_none (by omega)]

theorem view_set {s : State} {p : Pool} {wk wk' : Worker} (hc : s.calls[c]? = some pc) (pc' : CallPc)
    (w : Nat) (hw : wk'.pc = wk.pc) : view ⟨p, s.calls.set c pc'⟩ w wk' =
      ⟨wk'.tasks, Function.update (view s w wk).pc (.call c) (inside w pc')⟩ := by
  simp only [view, QueueThreads.State.mk.injEq, true_and]
  funext t
  cases t with
  | worker => simp [within, hw]
  | call d =>
      by_cases hd : d = c
      · subst hd
        have hlt := (List.getElem?_eq_some_iff.mp hc).1
        simp [hlt]
      · rw [Function.update_of_ne (by simpa using hd)]
        simp [Ne.symm hd]

theorem view_work (s : State) (p : Pool) (w : Nat) (wk wk' : Worker) : view ⟨p, s.calls⟩ w wk' =
    ⟨wk'.tasks, Function.update (view s w wk).pc .worker (within wk')⟩ := by
  simp only [view, QueueThreads.State.mk.injEq, true_and]
  funext t
  cases t with
  | worker => simp
  | call d => simp

theorem view_newWorker {s : State} (h : ∀ (d : Nat) pd, s.calls[d]? = some pd → inside w pd = .idle) :
    view s w newWorker = QueueThreads.initial := by
  simp only [view, QueueThreads.initial, QueueThreads.State.mk.injEq]
  refine ⟨rfl, ?_⟩
  funext t
  cases t with
  | worker => rfl
  | call d =>
      cases hd : s.calls[d]? with
      | none => simp [hd]
      | some pd => simp [hd, h d pd hd]

/-- Refinement: in every run of the pool, the queue of every worker alive goes
through a run of the queue on its own. -/
theorem reachable_view {ok : State → Action → Prop} {s : State} (hr : Reachable (system hw) ok s) :
    ∀ (w : Nat) wk, s.pool.heap[w]? = some wk → wk.destroyed = false →
      Reachable (QueueThreads.system Agent Nat) Any (view s w wk) := by
  refine hr.invariant (P := fun s => ∀ (w : Nat) wk, s.pool.heap[w]? = some wk →
    wk.destroyed = false → Reachable (QueueThreads.system Agent Nat) Any (view s w wk)) ?_ ?_
  · rintro s rfl w wk hk
    simp at hk
  · intro s a s' hr hv _ hn
    rcases (next_cases hn).2 with ⟨r, rfl, rfl⟩ | ⟨c, ch, j, pc, p, pc', rfl, hpc, hs, rfl⟩ |
      ⟨v, ch, vk, p, rfl, hk, hs, rfl⟩
    · intro w wk hk hd
      rw [view_call]
      exact hv w wk hk hd
    · intro w wk' hk' hd
      rcases callStep_turn hs hk' hd with ⟨rfl, rfl, hidle⟩ | ⟨wk, hk, hlive, hsame, hturn⟩
      · -- no call can be in the queue of a worker that did not exist
        have hold := (reachable_addresses hr).2
        apply Reachable.init
        apply view_newWorker
        apply forall_set (P := fun _ pd => inside s.pool.heap.length pd = .idle) ?_ hidle
        intro d pd hd
        apply inside_of_holds_ne
        exact fun hh => Nat.lt_irrefl _ (hold d pd hd _ hh)
      · rw [view_set hpc pc' w hsame]
        apply QueueThreads.Turn.reachable (hv w wk hk hlive)
        simpa [view, hpc] using hturn
    · obtain ⟨vk', hh, hdead, hturn⟩ := workerStep_turn hs
      intro w wk' hk' hd
      simp only [hh] at hk'
      rcases set_cases hk' with ⟨rfl, rfl, -⟩ | ⟨-, hk'⟩
      · rw [view_work s p w vk]
        exact QueueThreads.Turn.reachable (hv w vk hk (hdead ▸ hd)) hturn
      · exact hv w wk' hk' hd

end Enigma.PoolView
