import Enigma.Rest
import Enigma.QueueRest
import Enigma.LoggerView

namespace Enigma.LoggerRest

open Transition SyncQueue QueueStep Logger LoggerOrder LoggerView Rest
open QueueRest (popRank pushRank)

variable {σ : Type} {K : Sink σ} {s s' : State σ}

/-- Nobody calls Uninit. -/
def Open (_ : State σ) (a : Action σ) : Prop := a ≠ .uninit

def Moves : Action σ → Prop
  | .step _ ch => ch ≠ .spurious
  | _ => False

def closing : ControlPc σ → Bool
  | .uninitQueue _ | .uninitRequest | .uninitJoin | .uninitSink _ => true
  | _ => false

structure Running (s : State σ) : Prop where
  queue : s.queue.stopRequested = false
  thread : ∀ pc b, s.thread = some ⟨pc, b⟩ → b = false ∧ pc ≠ .exited
  control : ∀ pc, s.control = some pc → closing pc = false

theorem step_unstopped {a : Agent} {q q' : Queue Agent Message} {p p' : Pc Message} {op : Op Message}
    (h : Step false a q p q' p') (hw : Within op p) (hop : op ≠ .stop) : q'.stopRequested = q.stopRequested := by
  cases h with
  | requestStop =>
      cases hw
      exact absurd rfl hop
  | _ => rfl

theorem move_running {a : Action σ} (hp : Placed s) (hs : Running s) (ha : a ≠ .uninit) (hn : Move K s a s') :
    Running s' := by
  cases hn with
  | logIt | leave => exact ⟨hs.queue, hs.thread, hs.control⟩
  | init => exact ⟨hs.queue, hs.thread, fun pc hpc => by cases hpc; rfl⟩
  | uninit => exact absurd rfl ha
  | client c ch p' q hstep =>
      refine ⟨?_, hs.thread, hs.control⟩
      rcases hp.client c with hidle | ⟨msg, hw⟩
      · rw [hidle] at hstep
        cases hstep
      · exact (step_unstopped hstep hw (by simp)).trans hs.queue
  | thread ch pc b s' ht hstep =>
      obtain ⟨rfl, -⟩ := hs.thread pc b ht
      have hstay {pc' : LoopPc} (hne : pc' ≠ .exited) (pc : LoopPc) (b : Bool)
          (h : (some ⟨pc', false⟩ : Option Loop) = some ⟨pc, b⟩) : b = false ∧ pc ≠ .exited := by
        cases h
        exact ⟨rfl, hne⟩
      cases hstep with
      | exit hb => cases hb
      | pop p p' q hq =>
          have hw := hp.thread p false ht
          exact ⟨(step_unstopped hq hw (by simp)).trans hs.queue, hstay (by simp), hs.control⟩
      | enter | got | nothing | log | logged => exact ⟨hs.queue, hstay (by simp), hs.control⟩
  | control ch pc pc' s' hc hstep =>
      have hopen := hs.control pc hc
      cases hstep with
      | spawn =>
          refine ⟨hs.queue, fun pc b ht => ?_, fun pc hpc => by cases hpc; rfl⟩
          cases ht
          exact ⟨rfl, by simp⟩
      | refused | assign | initSink | initialised | failed =>
          exact ⟨hs.queue, hs.thread, fun pc hpc => by cases hpc; rfl⟩
      | left | thrown => exact ⟨hs.queue, hs.thread, fun pc hpc => by cases hpc⟩
      | queueStopped | stopQueue | request | notJoinable | joined | uninitSink | uninitialised => cases hopen

theorem reachable_running (hr : Reachable (system K) Open s) : Running s := by
  refine hr.invariant (P := Running) ?_ ?_
  · rintro s rfl
    exact ⟨rfl, fun pc b ht => (by cases ht), fun pc hc => by cases hc⟩
  · intro s a s' hr hs hok hn
    exact move_running (reachable_placed hr) hs hok (next_sound hn)

theorem popping_thread (hr : Reachable (system K) Open s) (a : Agent)
    (hp : QueueConsumer.popping (viewPc s a) = true) : a = .thread := by
  cases a with
  | thread => rfl
  | client c =>
      rcases (reachable_placed hr).client c with hidle | ⟨msg, hw⟩
      · rw [viewPc, hidle] at hp
        cases hp
      · rw [viewPc, QueueConsumer.not_popping_of_within hw (by simp)] at hp
        cases hp
  | control =>
      simp only [viewPc] at hp
      cases hc : s.control with
      | none => simp [hc, QueueConsumer.popping] at hp
      | some pc =>
          have hopen := (reachable_running hr).control pc hc
          cases pc with
          | uninitQueue => cases hopen
          | _ => simp [hc, controlQueue, QueueConsumer.popping] at hp

theorem reachable_served (hr : Reachable (system K) Open s) : QueueConsumer.Served .thread (view s) := by
  refine hr.invariant (P := fun s => QueueConsumer.Served .thread (view s)) ?_ ?_
  · rintro s rfl
    exact ⟨fun c hc => (by cases hc), fun hin => by cases hin⟩
  · intro s a s' hr hs _ hn
    obtain ⟨t, p, hturn, hpc⟩ := move_turn (reachable_placed hr) (next_sound hn)
    have hv := reachable_view hr
    rw [view, hpc]
    exact QueueConsumer.turn_served hs (QueueThreads.reachable_exclusive hv) (QueueWaiters.reachable_tracked hv)
      (popping_thread hr) hturn

theorem reachable_supplied (hr : Reachable (system K) Open s) : QueueFifo.Served s.queue (viewPc s .thread) := by
  refine hr.invariant (P := fun s => QueueFifo.Served s.queue (viewPc s .thread)) ?_ ?_
  · rintro s rfl
    trivial
  · intro s a s' hr hs hok hn
    have hplaced := reachable_placed (hr.step hok hn)
    obtain ⟨t, p, hturn, hpc⟩ := move_turn (reachable_placed hr) (next_sound hn)
    have hx := QueueThreads.reachable_exclusive (reachable_view hr)
    rw [hpc]
    refine QueueRest.turn_supplied (v := view s) hs hx ?_ hturn
    -- the thread of the logger enters nothing but Pop()
    rintro rfl c rfl
    have hself : viewPc s' .thread = .lock (.pop c) := by rw [hpc, Function.update_self]
    cases ht : s'.thread with
    | none => simp [viewPc, ht] at hself
    | some l =>
        obtain ⟨pc, b⟩ := l
        cases pc with
        | pop p' =>
            have hw := hplaced.thread p' b ht
            simp only [viewPc, ht, Option.elim_some, threadQueue] at hself
            rw [hself] at hw
            cases hw
            rfl
        | check | log | exited => simp [viewPc, ht, threadQueue] at hself

section Measure

/-- The number of sinks, which an Init in progress may be about to change. -/
def sinkCount (s : State σ) : Nat := match s.control with
  | some (.initAssign _ sinks) => if sinks.isEmpty then s.sinks.length else sinks.length
  | _ => s.sinks.length

/-- The steps of the thread until it blocks, if nothing more is pushed: for each message
one for each of `k` sinks and two more. -/
def threadLoad (k : Nat) (s : State σ) : Nat := match s.thread with
  | some ⟨.pop p, _⟩ => QueueRest.load (k + 2) Agent.thread s.queue p
  | some ⟨.check, _⟩ => (k + 2 + 6) * s.queue.queue.length + 5
  | some ⟨.log i _, _⟩ => (k + 2 + 6) * s.queue.queue.length + (k - i) + 6
  | _ => (k + 2 + 6) * s.queue.queue.length

def controlRank (k : Nat) : Option (ControlPc σ) → Nat
  | some (.initAssign _ _) => k + 9
  | some (.initSink i _) => (k - i) + 8
  | some .initSpawn => 7
  | some (.returned _) | some .threw => 1
  | _ => 0

def clientRank (k : Nat) : Pc Message → Nat
  | .idle => 0
  | p => pushRank (k + 2) p + 1

def measure (n : Nat) (s : State σ) : Nat :=
  (∑ c ∈ Finset.range n, clientRank (sinkCount s) (s.client c)) + threadLoad (sinkCount s) s +
    controlRank (sinkCount s) s.control

theorem sum_update {n c : Nat} (hc : c < n) (f : Nat → Pc Message) (p : Pc Message) (g : Pc Message → Nat) :
    (∑ d ∈ Finset.range n, g (Function.update f c p d)) + g (f c) = (∑ d ∈ Finset.range n, g (f d)) + g p := by
  have hsum := sum_of_eq_elsewhere (f := fun d => g (f d)) (g := fun d => g (Function.update f c p d)) hc fun d hd => by
    rw [Function.update_of_ne hd]
  simpa using hsum

theorem push_load {c k : Nat} {q : Queue Agent Message} {p : Pc Message} {msg : Message}
    (h : Step false (.client c) s.queue (s.client c) q p) (hw : Within (.push msg) (s.client c)) :
    threadLoad k (setClient { s with queue := q } c p) + pushRank (k + 2) p <
      threadLoad k s + pushRank (k + 2) (s.client c) := by
  have hstep (pu : Pc Message) := QueueRest.step_pushRank (n := k + 2) h hw Agent.thread pu
  have hout : (k + 2 + 6) * q.queue.length + pushRank (k + 2) p <
      (k + 2 + 6) * s.queue.queue.length + pushRank (k + 2) (s.client c) := hstep .idle
  cases ht : s.thread with
  | none =>
      simp only [threadLoad, setClient, ht]
      exact hout
  | some l =>
      obtain ⟨pc, b⟩ := l
      cases pc with
      | pop pu =>
          simp only [threadLoad, setClient, ht]
          exact hstep pu
      | check | log | exited =>
          simp only [threadLoad, setClient, ht]
          omega

theorem loopStep_load {ch : Choice Agent} {pc : LoopPc} (h : loopStep K s false ch pc = some s') (hch : ch ≠ .spurious)
    (ht : s.thread = some ⟨pc, false⟩) (hw : ∀ p, pc = .pop p → Within (.pop false) p)
    (hstop : s.queue.stopRequested = false) (hone : CondVar.Awake s.queue.cv .thread → Agent.thread ∉ s.queue.cv.waiting) :
    threadLoad s.sinks.length s' < threadLoad s.sinks.length s := by
  unfold loopStep at h
  split at h
  case h_1 =>
      cases h
      simp [threadLoad, setThread, ht, QueueRest.load, Op.entry, popRank]
  case h_2 | h_3 =>
      cases h
      simp only [threadLoad, setThread, ht, QueueRest.load, popRank]
      omega
  case h_4 p _ _ =>
      obtain ⟨r, hstep, rfl⟩ := Option.map_eq_some_iff.mp h
      have hin := hw p rfl
      simp only [threadLoad, setThread, ht]
      exact QueueRest.step_load (step_sound hstep) hin hstop hone (QueueRest.step_ne hstep hch hin)
  case h_5 i msg =>
      split at h
      case h_1 k hk =>
          have hlt := (List.getElem?_eq_some_iff.mp hk).1
          cases h
          simp only [threadLoad, setThread, ht]
          omega
      case h_2 =>
          cases h
          simp only [threadLoad, setThread, ht]
          omega
  case h_6 => cases h

theorem controlStep_sinkCount {pc : ControlPc σ} {pc' : Option (ControlPc σ)} (h : ControlStep K s pc s' pc')
    (hc : s.control = some pc) : sinkCount (setControl s' pc') = sinkCount s := by
  cases h with
  | assign lvl sinks hne => simp [sinkCount, setControl, hc, hne]
  | refused | initSink | initialised | failed | spawn | queueStopped | stopQueue | request | notJoinable | joined
  | uninitSink | uninitialised | left | thrown => simp [sinkCount, setControl, hc]

theorem controlStep_load {pc : ControlPc σ} {pc' : Option (ControlPc σ)} (h : ControlStep K s pc s' pc')
    (hc : s.control = some pc) (hopen : closing pc = false) (hi : Initialising pc → s.thread = none) :
    threadLoad (sinkCount s) (setControl s' pc') + controlRank (sinkCount s) pc' <
      threadLoad (sinkCount s) s + controlRank (sinkCount s) (some pc) := by
  have hsame {t : State σ} (hq : t.queue = s.queue) (ht : t.thread = s.thread)
      (hlt : controlRank (sinkCount s) pc' < controlRank (sinkCount s) (some pc)) :
      threadLoad (sinkCount s) (setControl t pc') + controlRank (sinkCount s) pc' <
        threadLoad (sinkCount s) s + controlRank (sinkCount s) (some pc) := by
    have hload : threadLoad (sinkCount s) (setControl t pc') = threadLoad (sinkCount s) s := by
      simp only [threadLoad, setControl, hq, ht]
    rw [hload]
    exact Nat.add_lt_add_left hlt _
  cases h with
  | spawn =>
      have hnone := hi trivial
      simp only [threadLoad, setControl, hnone, controlRank]
      omega
  | initSink i b k hk =>
      have hlt := (List.getElem?_eq_some_iff.mp hk).1
      have hcount : sinkCount s = s.sinks.length := by simp [sinkCount, hc]
      refine hsame rfl rfl ?_
      simp only [controlRank, hcount]
      omega
  | refused | assign | initialised | failed | left | thrown =>
      refine hsame rfl rfl ?_
      simp only [controlRank]
      omega
  | queueStopped | stopQueue | request | notJoinable | joined | uninitSink | uninitialised => cases hopen

theorem client_clientRank {c k : Nat} {q : Queue Agent Message} {p : Pc Message} {msg : Message}
    (h : Step false (.client c) s.queue (s.client c) q p) (hw : Within (.push msg) (s.client c)) :
    clientRank k (s.client c) = pushRank (k + 2) (s.client c) + 1 ∧ clientRank k p = pushRank (k + 2) p + 1 := by
  have hrank {p : Pc Message} (hw : Within (.push msg) p) : clientRank k p = pushRank (k + 2) p + 1 := by
    cases hw <;> rfl
  exact ⟨hrank hw, hrank (step_within h hw)⟩

def Busy (K : Sink σ) (n : Nat) (s : State σ) : Prop :=
  Reachable (system K) Open s ∧ ∀ c, n ≤ c → s.client c = .idle

theorem open_move {a : Action σ} (hr : Reachable (system K) Open s) (ha : Moves a)
    (hn : (system K).next s a = some s') : Reachable (system K) Open s' := by
  refine .step hr ?_ hn
  rintro rfl
  exact ha

theorem move_idle {a : Action σ} {c : Nat} (hn : Move K s a s') (hc : s.client c = .idle)
    (hne : ∀ msg, a ≠ .logIt c msg) : s'.client c = .idle := by
  have hset {t : State σ} (ht : t.client = s.client) {d : Nat} {p : Pc Message} (hd : c ≠ d) :
      (setClient t d p).client c = .idle := by
    simpa [setClient, hd, ht] using hc
  cases hn with
  | logIt d msg => exact hset rfl (by rintro rfl; exact hne msg rfl)
  | init | uninit => exact hc
  | leave d ch r hd =>
      refine hset rfl ?_
      rintro rfl
      cases hc.symm.trans hd
  | client d ch p' q hs =>
      refine hset rfl ?_
      rintro rfl
      rw [hc] at hs
      cases hs
  | thread ch pc b s' ht hs =>
      rw [(loopStep_frame hs).1]
      exact hc
  | control ch pc pc' s' hk hs =>
      have hsame := controlStep_client hs
      simpa [setControl, hsame] using hc

theorem move_busy {n : Nat} {a : Action σ} (hb : Busy K n s) (ha : Moves a) (hn : (system K).next s a = some s') :
    Busy K n s' := by
  refine ⟨open_move hb.1 ha hn, fun c hc => move_idle (next_sound hn) (hb.2 c hc) ?_⟩
  rintro msg rfl
  exact ha

theorem move_measure {n : Nat} {a : Action σ} (hb : Busy K n s) (ha : Moves a) (hn : (system K).next s a = some s') :
    measure n s' < measure n s := by
  obtain ⟨hr, hidle⟩ := hb
  have hplaced := reachable_placed hr
  have hrun := reachable_running hr
  have hbelow {c : Nat} (hc : s.client c ≠ .idle) : c < n := by
    by_contra hle
    exact hc (hidle c (by omega))
  have hmove : Move K s a s' := next_sound hn
  cases a with
  | logIt | init | uninit => exact ha.elim
  | step a ch =>
      cases a with
      | client c =>
          cases hmove with
          | leave _ _ r hc =>
              have hne : s.client c ≠ .idle := by simp [hc]
              have hsum := sum_update (hbelow hne) s.client .idle (clientRank (sinkCount s))
              have hone : clientRank (sinkCount s) (s.client c) = 1 := by simp [hc, clientRank, pushRank]
              have hzero : clientRank (sinkCount s) .idle = 0 := rfl
              have hcount : sinkCount (setClient s c .idle) = sinkCount s := rfl
              have hload : threadLoad (sinkCount s) (setClient s c .idle) = threadLoad (sinkCount s) s := rfl
              simp only [measure, hcount, hload]
              simp only [setClient]
              omega
          | client _ _ p q hs =>
              rcases hplaced.client c with hc | ⟨msg, hw⟩
              · rw [hc] at hs
                cases hs
              · have hne : s.client c ≠ .idle := by
                  intro hc
                  rw [hc] at hw
                  cases hw
                have hsum := sum_update (hbelow hne) s.client p (clientRank (sinkCount s))
                obtain ⟨hold, hnew⟩ := client_clientRank (k := sinkCount s) hs hw
                have hlt := push_load (k := sinkCount s) hs hw
                have hcount : sinkCount (setClient { s with queue := q } c p) = sinkCount s := rfl
                simp only [measure, hcount]
                simp only [setClient] at hlt ⊢
                omega
      | thread =>
          obtain ⟨⟨pc, b⟩, ht, hs⟩ := Option.bind_eq_some_iff.mp hn
          obtain ⟨rfl, -⟩ := hrun.thread pc b ht
          have htracked := QueueWaiters.reachable_tracked (reachable_view hr)
          have hlt := loopStep_load hs ha ht (fun p he => hplaced.thread p false (he ▸ ht)) hrun.queue
            fun hawake hin => htracked.not_awake hin hawake
          obtain ⟨hc, hk, hlen, -⟩ := loopStep_frame (loopStep_sound hs)
          -- an Init in progress would mean that there is no thread
          have hcount : sinkCount s = s.sinks.length := by
            unfold sinkCount
            split
            case h_1 lvl sinks hi => exact absurd (ht.symm.trans (hplaced.init _ hi trivial)) (by simp)
            case h_2 => rfl
          have hcount' : sinkCount s' = s.sinks.length := by
            rw [sinkCount, hk, hlen]
            exact hcount
          simp only [measure, hcount, hcount', hc, hk]
          omega
      | control =>
          obtain ⟨pc, hc, hs⟩ := Option.bind_eq_some_iff.mp hn
          obtain ⟨s₁, pc', hstep, rfl⟩ := controlStep_sound hs
          have hlt := controlStep_load hstep hc (hrun.control pc hc) (hplaced.init pc hc)
          have hcount := controlStep_sinkCount hstep hc
          have hclient := controlStep_client hstep
          simp only [measure, hcount, hc]
          simp only [setControl, hclient] at hlt ⊢
          omega

theorem settles (K : Sink σ) (n : Nat) : Settles (system K) Moves (Busy K n) (measure n) where
  keeps _ _ _ hb ha hn := move_busy hb ha hn
  drops _ _ _ hb ha hn := move_measure hb ha hn

theorem exists_busy (hr : Reachable (system K) Open s) : ∃ n, Busy K n s := by
  have hfew : ∃ n, ∀ c, n ≤ c → s.client c = .idle := by
    refine hr.invariant (P := fun s => ∃ n, ∀ c, n ≤ c → s.client c = .idle) ?_ ?_
    · rintro s rfl
      exact ⟨0, fun c _ => rfl⟩
    · intro s a s' hr hn' hok hn
      obtain ⟨n, hidle⟩ := hn'
      have hmove : Move K s a s' := next_sound hn
      cases a with
      | logIt d msg =>
          refine ⟨max n (d + 1), fun c hc => move_idle hmove (hidle c (by omega)) fun msg' he => ?_⟩
          cases he
          omega
      | init | uninit | step => exact ⟨n, fun c hc => move_idle hmove (hidle c hc) fun msg' he => by cases he⟩
  obtain ⟨n, hidle⟩ := hfew
  exact ⟨n, hr, hidle⟩

end Measure

section AtRest

theorem step_returned {a : Agent} {q : Queue Agent Message} (r : Ret Message) (ch : Choice Agent) :
    step false a q (.returned r) ch = none := by
  cases ch <;> rfl

theorem step_idle {a : Agent} {q : Queue Agent Message} (ch : Choice Agent) : step false a q .idle ch = none := by
  cases ch <;> rfl

theorem client_stuck {c : Nat} {ch : Choice Agent} (h : next K s (.step (.client c) ch) = none) :
    step false (.client c) s.queue (s.client c) ch = none := by
  simp only [next] at h
  split at h
  case h_1 => cases h
  case h_2 => simpa using h

theorem thread_stuck {p : Pc Message} {b : Bool} {ch : Choice Agent} (ht : s.thread = some ⟨.pop p, b⟩)
    (h : next K s (.step .thread ch) = none) : step false .thread s.queue p ch = none := by
  simp only [next, ht, Option.bind_some] at h
  cases p with
  | returned r => exact step_returned r ch
  | _ => simpa [loopStep] using h

theorem rest_still (hr : Reachable (system K) Open s) (hrest : AtRest (system K) Moves s) :
    QueueRest.Still false (view s) := by
  intro a ch hch
  have hstuck : next K s (.step a ch) = none := hrest (.step a ch) hch
  show step false a s.queue (viewPc s a) ch = none
  cases a with
  | client c => exact client_stuck hstuck
  | thread =>
      simp only [viewPc]
      cases ht : s.thread with
      | none => exact step_idle ch
      | some l =>
          obtain ⟨pc, b⟩ := l
          cases pc with
          | pop p => exact thread_stuck ht hstuck
          | check | log | exited => exact step_idle ch
  | control =>
      simp only [viewPc]
      cases hc : s.control with
      | none => exact step_idle ch
      | some pc =>
          have hopen := (reachable_running hr).control pc hc
          cases pc with
          | uninitQueue => cases hopen
          | _ => exact step_idle ch

theorem rest_free (hr : Reachable (system K) Open s) (hrest : AtRest (system K) Moves s) : s.queue.mutex = none := by
  refine (rest_still hr hrest).free (QueueConsumer.reachable_inSection (reachable_view hr)) fun a hf => ?_
  have hf : viewPc s a = .fault := hf
  obtain rfl := popping_thread hr a (by rw [hf]; rfl)
  have hsupplied := reachable_supplied hr
  rw [hf] at hsupplied
  exact hsupplied

theorem rest_clients (hr : Reachable (system K) Open s) (hrest : AtRest (system K) Moves s) (c : Nat) :
    s.client c = .idle := by
  have hfree := rest_free hr hrest
  have hcrit (hp : critical (s.client c) = true) : False := by
    have ho := QueueThreads.reachable_exclusive (reachable_view hr) (.client c) hp
    cases ho.symm.trans hfree
  rcases (reachable_placed hr).client c with hidle | ⟨msg, hw⟩
  · exact hidle
  · have hstuck : next K s (.step (.client c) .run) = none := hrest (.step (.client c) .run) (by simp [Moves])
    generalize hp : s.client c = p at hw hcrit
    cases hw with
    | lock =>
        have hp : (view s).pc (.client c) = .lock (.push msg) := hp
        exact absurd hp ((rest_still hr hrest).not_lock hfree _)
    | returnedPush => simp [next, hp] at hstuck
    | push | notifyOne | unlockPush => exact (hcrit rfl).elim

theorem rest_control (hr : Reachable (system K) Open s) (hrest : AtRest (system K) Moves s) : s.control = none := by
  have hstuck : next K s (.step .control .run) = none := hrest (.step .control .run) (by simp [Moves])
  cases hc : s.control with
  | none => rfl
  | some pc =>
      have hopen := (reachable_running hr).control pc hc
      simp only [next, hc, Option.bind_some] at hstuck
      cases pc with
      | initAssign | initSink =>
          simp only [controlStep] at hstuck
          split at hstuck <;> cases hstuck
      | initSpawn | returned | threw => cases hstuck
      | uninitQueue | uninitRequest | uninitJoin | uninitSink => cases hopen

theorem rest_waiting (hr : Reachable (system K) Open s) (hrest : AtRest (system K) Moves s) {pc : LoopPc} {b : Bool}
    (ht : s.thread = some ⟨pc, b⟩) : pc = .pop (.wait false) ∧ s.queue.queue = [] := by
  have hstuck : next K s (.step .thread .run) = none := hrest (.step .thread .run) (by simp [Moves])
  simp only [next, ht, Option.bind_some] at hstuck
  have hv := reachable_view hr
  cases pc with
  | pop p =>
      have hpc : viewPc s .thread = p := by simp [viewPc, ht, threadQueue]
      have hw := (reachable_placed hr).thread p b ht
      have hret (r : Ret Message) : p ≠ .returned r := by
        rintro rfl
        cases hw with
        | @returnedPop c v => cases v <;> simp [loopStep] at hstuck
      have hfree : (view s).queue.mutex = none := rest_free hr hrest
      obtain ⟨hwait, hq⟩ := (rest_still hr hrest).waiting (u := .thread) (c := false) hfree (reachable_served hr)
        (QueueWaiters.reachable_tracked hv) (QueueThreads.reachable_exclusive hv)
        (by show Within _ (viewPc s .thread); rw [hpc]; exact hw) (by show ∀ r, viewPc s .thread ≠ _; rw [hpc]; exact hret)
      have hwait : viewPc s .thread = .wait false := hwait
      rw [hpc] at hwait
      exact ⟨by rw [hwait], hq⟩
  | exited => exact absurd rfl ((reachable_running hr).thread _ b ht).2
  | check => cases hstuck
  | log =>
      simp only [loopStep] at hstuck
      split at hstuck <;> cases hstuck

end AtRest

/-- As long as nobody calls Uninit: only so many steps, spurious wakeups apart, and at rest every
call has returned and every sink has been called with every message for it, in order. -/
theorem logger_settles {log : List Entry} (hr : Reachable (logged (system K) obs) (fun p a => Open p.1 a) (s, log)) :
    (∃ n, ∀ as s', (∀ a ∈ as, Moves a) → run (system K) s as = some s' → as.length ≤ n) ∧
      (∃ as s', (∀ a ∈ as, Moves a) ∧ run (system K) s as = some s' ∧ AtRest (system K) Moves s') ∧
      (AtRest (system K) Moves s →
        (∀ c, s.client c = .idle) ∧ s.control = none ∧
          (s.thread ≠ none → s.queue.queue = [] ∧ ∀ i, i < s.sinks.length → calls i log = queued log)) := by
  have hopen := hr.forget
  obtain ⟨n, hbusy⟩ := exists_busy hopen
  refine ⟨⟨measure n s, fun as s' hm hrun => ?_⟩, (settles K n).exists_rest hbusy, fun hrest => ?_⟩
  · exact Nat.le_of_add_right_le ((settles K n).length_add_le hbusy hm hrun)
  · refine ⟨rest_clients hopen hrest, rest_control hopen hrest, fun hthread => ?_⟩
    obtain ⟨⟨pc, b⟩, ht⟩ := Option.ne_none_iff_exists'.mp hthread
    obtain ⟨rfl, hq⟩ := rest_waiting hopen hrest ht
    refine ⟨hq, fun i hi => ?_⟩
    have horder := (reachable_conserved hr.any).order i hi
    rw [hq, List.append_nil] at horder
    simpa [hand, ht, loopHand, held] using horder.symm

def isOpen : Action Unit → Bool
  | .uninit => false
  | _ => true

theorem open_of_isOpen (p : State Unit × List Entry) (a : Action Unit) (h : isOpen a = true) : Open p.1 a := by
  rintro rfl
  cases h

theorem logger_settles_queued : ∃ (s s' : State Unit) (log log' : List Entry) (as : List (Action Unit)),
    queued log = [note "a"] ∧ calls 0 log = [] ∧ (∀ a ∈ as, Moves a) ∧ run (system silent) s as = some s' ∧
      (s'.thread ≠ none → ∀ i, i < s'.sinks.length → calls i log' = queued log') := by
  obtain ⟨⟨s, log⟩, hr, hp⟩ := exists_of_run (logged (system silent) obs) (fun p a => Open p.1 a) (fun _ a => isOpen a)
    ({}, []) logOne (fun p => decide (queued p.2 = [note "a"] ∧ calls 0 p.2 = [])) open_of_isOpen ⟨rfl, rfl⟩ (by decide)
  obtain ⟨hq, hc⟩ := of_decide_eq_true hp
  obtain ⟨-, ⟨as, s', hm, hrun, hrest⟩, -⟩ := logger_settles hr
  have hopen (p : State Unit × List Entry) (a : Action Unit) (ha : Moves a) : Open p.1 a := by
    rintro rfl
    exact ha
  obtain ⟨log', hr'⟩ := reachable_run hr hopen hm hrun
  obtain ⟨-, -, hall⟩ := logger_settles hr'
  obtain ⟨-, -, hthread⟩ := hall hrest
  exact ⟨s, s', log, log ++ log', as, hq, hc, hm, hrun, fun ht => (hthread ht).2⟩

end Enigma.LoggerRest
