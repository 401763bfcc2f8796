import Enigma.LoggerOrder
import Enigma.QueueConsumer

namespace Enigma.LoggerView

open Transition SyncQueue QueueStep Logger LoggerOrder QueueThreads

variable {σ : Type} {K : Sink σ} {s s' : State σ}

def threadQueue : LoopPc → Pc Message
  | .pop p => p
  | _ => .idle

def controlQueue : ControlPc σ → Pc Message
  | .uninitQueue p => p
  | _ => .idle

def viewPc (s : State σ) : Agent → Pc Message
  | .client c => s.client c
  | .thread => s.thread.elim .idle fun l => threadQueue l.pc
  | .control => s.control.elim .idle controlQueue

def view (s : State σ) : QueueThreads.State Agent Message := ⟨s.queue, viewPc s⟩

theorem viewPc_client (s : State σ) (c : Nat) (p : Pc Message) :
    viewPc (setClient s c p) = Function.update (viewPc s) (.client c) p := by
  funext a
  cases a with
  | client d => by_cases hd : d = c <;> simp [viewPc, setClient, hd]
  | thread | control => simp [viewPc, setClient]

theorem viewPc_thread {pc : LoopPc} {b : Bool} (ht : s'.thread = some ⟨pc, b⟩) (hc : s'.client = s.client)
    (hk : s'.control = s.control) : viewPc s' = Function.update (viewPc s) .thread (threadQueue pc) := by
  funext a
  cases a with
  | thread => simp [viewPc, ht]
  | client | control => simp [viewPc, hc, hk]

theorem viewPc_control (pc : Option (ControlPc σ)) (hc : s'.client = s.client)
    (ht : viewPc s' .thread = viewPc s .thread) :
    viewPc (setControl s' pc) = Function.update (viewPc s) .control (pc.elim .idle controlQueue) := by
  funext a
  cases a with
  | control => simp [viewPc, setControl]
  | client => simp [viewPc, setControl, hc]
  | thread => simpa [viewPc, setControl] using ht

theorem loopStep_turn {b : Bool} {pc : LoopPc} (hs : LoopStep K s b pc s') :
    ∃ pc', s'.thread = some ⟨pc', b⟩ ∧ Turn Agent.thread s.queue (threadQueue pc) s'.queue (threadQueue pc') := by
  cases hs with
  | enter hb => exact ⟨_, rfl, .call (.pop false) rfl⟩
  | got | nothing => exact ⟨_, rfl, .leave rfl⟩
  | pop p p' q hs => exact ⟨_, rfl, .step false hs⟩
  | exit | log | logged => exact ⟨_, rfl, .stay _⟩

theorem controlStep_turn {pc : ControlPc σ} {pc' : Option (ControlPc σ)} (hs : ControlStep K s pc s' pc')
    (hi : Initialising pc → s.thread = none) :
    viewPc s' .thread = viewPc s .thread ∧
      Turn Agent.control s.queue (controlQueue pc) s'.queue (pc'.elim .idle controlQueue) := by
  cases hs with
  | stopQueue p p' q hs => exact ⟨rfl, .step false hs⟩
  | queueStopped r => exact ⟨rfl, .leave rfl⟩
  | spawn => exact ⟨by simp [viewPc, hi trivial, threadQueue], .stay _⟩
  | request =>
      refine ⟨?_, .stay _⟩
      cases ht : s.thread <;> simp [viewPc, ht]
  | joined b ht => exact ⟨by simp [viewPc, ht, threadQueue], .stay _⟩
  | refused | assign | initSink | initialised | failed | notJoinable | uninitSink | uninitialised | left | thrown =>
      exact ⟨rfl, .stay _⟩

theorem move_turn {a : Action σ} (hp : Placed s) (hn : Move K s a s') :
    ∃ t p, Turn t s.queue (viewPc s t) s'.queue p ∧ viewPc s' = Function.update (viewPc s) t p := by
  cases hn with
  | logIt c msg hc => exact ⟨.client c, _, by rw [viewPc, hc]; exact .call (.push msg) rfl, viewPc_client s c _⟩
  | init lvl sinks hc =>
      refine ⟨.control, .idle, ?_, viewPc_control _ rfl rfl⟩
      simp only [viewPc, hc]
      exact .stay _
  | uninit hc =>
      refine ⟨.control, .requestStop, ?_, viewPc_control _ rfl rfl⟩
      simp only [viewPc, hc]
      exact .call .stop rfl
  | leave c ch r hc => exact ⟨.client c, _, by rw [viewPc, hc]; exact .leave rfl, viewPc_client s c _⟩
  | client c ch p' q hs => exact ⟨.client c, p', .step false hs, viewPc_client { s with queue := q } c p'⟩
  | thread ch pc b s' ht hs =>
      obtain ⟨hc, hk, -, -⟩ := loopStep_frame hs
      obtain ⟨pc', ht', hturn⟩ := loopStep_turn hs
      refine ⟨.thread, _, ?_, viewPc_thread ht' hc hk⟩
      simpa [viewPc, ht] using hturn
  | control ch pc pc' s' hc hs =>
      obtain ⟨ht, hturn⟩ := controlStep_turn hs (hp.init pc hc)
      refine ⟨.control, _, ?_, viewPc_control pc' (controlStep_client hs) ht⟩
      have hcontrol : viewPc s .control = controlQueue pc := by simp [viewPc, hc]
      rw [hcontrol]
      exact hturn

theorem reachable_placed {ok : State σ → Action σ → Prop} (hr : Reachable (system K) ok s) : Placed s := by
  refine hr.invariant (P := Placed) ?_ ?_
  · rintro s rfl
    exact ⟨fun c => .inl rfl, fun p b ht => (by cases ht), fun p hq => (by cases hq), fun _ _ _ => rfl⟩
  · intro s a s' _ hs _ hn
    exact move_placed hs (next_sound hn)

/-- Refinement: in every run of the program the queue of the logger goes through a run of
the queue on its own. -/
theorem reachable_view {ok : State σ → Action σ → Prop} (hr : Reachable (system K) ok s) :
    Reachable (QueueThreads.system Agent Message) Any (view s) := by
  refine hr.invariant (P := fun s => Reachable (QueueThreads.system Agent Message) Any (view s)) ?_ ?_
  · rintro s rfl
    refine .init ?_
    show view _ = initial
    rw [view, initial, QueueThreads.State.mk.injEq]
    refine ⟨rfl, ?_⟩
    funext a
    cases a <;> rfl
  · intro s a s' hr hv _ hn
    obtain ⟨t, p, hturn, hpc⟩ := move_turn (reachable_placed hr) (next_sound hn)
    rw [view, hpc]
    exact Turn.reachable hv hturn

end Enigma.LoggerView
