import Enigma.Logger

namespace Enigma.LoggerOrder

open Transition SyncQueue QueueStep Logger

variable {σ : Type} {K : Sink σ}

/-- What is seen of a run: Init takes over its sinks, with what is in the queue then,
a message is queued, the Log or the Uninit of a sink is called. -/
inductive Entry
  | opened (backlog : List Message)
  | queued (msg : Message)
  | called (i : Nat) (lvl : LogLevel) (msg : Message)
  | closed (i : Nat)
  deriving DecidableEq, Repr

def loopObs (s : State σ) : LoopPc → List Entry
  | .log i msg => if i < s.sinks.length then [.called i s.lvl msg] else []
  | _ => []

def controlObs (s : State σ) : ControlPc σ → List Entry
  | .initAssign _ sinks => if sinks.isEmpty then [] else [.opened s.queue.queue]
  | .uninitSink i => if i < s.sinks.length then [.closed i] else []
  | _ => []

def obs (s : State σ) : Action σ → List Entry
  | .step (.client c) _ => (Fifo.pushes (emits s.queue (s.client c))).map .queued
  | .step .thread _ => s.thread.elim [] fun l => loopObs s l.pc
  | .step .control _ => s.control.elim [] (controlObs s)
  | _ => []

def Entry.queue (msgs : List Message) : Entry → List Message
  | .opened backlog => backlog
  | .queued msg => msgs ++ [msg]
  | .called _ _ _ | .closed _ => msgs

def Entry.calls (i : Nat) (msgs : List Message) : Entry → List Message
  | .opened _ => []
  | .called j _ msg => if j = i then msgs ++ [msg] else msgs
  | .queued _ | .closed _ => msgs

/-- The messages for the sinks of the last Init: what it found in the queue and what
was queued since. -/
def queued (log : List Entry) : List Message := log.foldl Entry.queue []

/-- The messages that the Log of sink `i` has been called with since the last Init. -/
def calls (i : Nat) (log : List Entry) : List Message := log.foldl (Entry.calls i) []

theorem queued_append (log es : List Entry) : queued (log ++ es) = es.foldl Entry.queue (queued log) :=
  List.foldl_append

theorem calls_append (i : Nat) (log es : List Entry) : calls i (log ++ es) = es.foldl (Entry.calls i) (calls i log) :=
  List.foldl_append

theorem foldl_queued (msgs new : List Message) : (new.map Entry.queued).foldl Entry.queue msgs = msgs ++ new := by
  induction new generalizing msgs with
  | nil => simp
  | cons msg new ih => simp [Entry.queue, ih]

theorem foldl_calls_queued (i : Nat) (msgs new : List Message) :
    (new.map Entry.queued).foldl (Entry.calls i) msgs = msgs := by
  induction new with
  | nil => rfl
  | cons msg new ih => exact ih

/-- The message that the thread has taken and not yet brought to sink `i`. -/
def loopHand (i : Nat) : LoopPc → List Message
  | .pop p => held p
  | .log j msg => if i < j then [] else [msg]
  | .check | .exited => []

def hand (s : State σ) (i : Nat) : List Message := s.thread.elim [] fun l => loopHand i l.pc

def Idle (p : Pc Message) : Prop := p = .idle ∨ ∃ msg, Within (.push msg) p

/-- Init runs only while there is no thread. -/
def Initialising : ControlPc σ → Prop
  | .initAssign _ _ | .initSink _ _ | .initSpawn => True
  | _ => False

structure Placed (s : State σ) : Prop where
  client : ∀ c, Idle (s.client c)
  thread : ∀ p b, s.thread = some ⟨.pop p, b⟩ → Within (.pop false) p
  queue : ∀ p, s.control = some (.uninitQueue p) → Within .stop p
  init : ∀ pc, s.control = some pc → Initialising pc → s.thread = none

structure Conserved (s : State σ) (log : List Entry) : Prop where
  placed : Placed s
  order : ∀ i, i < s.sinks.length → queued log = calls i log ++ hand s i ++ s.queue.queue

theorem loopStep_frame {s s' : State σ} {b : Bool} {pc : LoopPc} (hs : LoopStep K s b pc s') :
    s'.client = s.client ∧ s'.control = s.control ∧ s'.sinks.length = s.sinks.length ∧
      ∃ pc', s'.thread = some ⟨pc', b⟩ := by
  cases hs with
  | log i msg k hk => exact ⟨rfl, rfl, List.length_set, _, rfl⟩
  | exit | enter | got | nothing | pop | logged => exact ⟨rfl, rfl, rfl, _, rfl⟩

theorem loopStep_within {s s' : State σ} {b b' : Bool} {pc : LoopPc} {p : Pc Message} (hs : LoopStep K s b pc s')
    (hp : ∀ p, pc = .pop p → Within (.pop false) p) (ht : s'.thread = some ⟨.pop p, b'⟩) : Within (.pop false) p := by
  cases hs with
  | enter hb =>
      cases ht
      exact .lock (by simp)
  | pop p p' q hs =>
      cases ht
      exact step_within hs (hp _ rfl)
  | exit | got | nothing | log | logged => cases ht

theorem loopStep_order {s s' : State σ} {b : Bool} {pc : LoopPc} {i : Nat} {log : List Entry}
    (hs : LoopStep K s b pc s') (hp : ∀ p, pc = .pop p → Within (.pop false) p) (hi : i < s.sinks.length)
    (ho : queued log = calls i log ++ loopHand i pc ++ s.queue.queue) :
    queued (log ++ loopObs s pc) = calls i (log ++ loopObs s pc) ++ hand s' i ++ s'.queue.queue := by
  rw [queued_append, calls_append]
  cases hs with
  | exit | enter => exact ho
  | got msg => simpa [loopObs, hand, setThread, loopHand, held] using ho
  | nothing r hr =>
      have hnone : held (.returned r : Pc Message) = [] := by
        cases hp _ rfl with
        | @returnedPop c v =>
            cases v with
            | none => rfl
            | some v => exact absurd rfl (hr v)
      simpa [loopObs, hand, setThread, loopHand, hnone] using ho
  | pop p p' q hs =>
      have horder := step_pop_order hs (hp _ rfl)
      simp only [loopHand, List.append_assoc] at ho
      simpa [loopObs, hand, setThread, loopHand, horder] using ho
  | log j msg k hk =>
      have hj : j < s.sinks.length := (List.getElem?_eq_some_iff.mp hk).1
      simp only [loopObs, hj, if_true, List.foldl_cons, List.foldl_nil, Entry.queue, Entry.calls]
      rw [ho]
      rcases Nat.lt_trichotomy i j with hlt | rfl | hgt
      · simp [hand, setThread, loopHand, hlt, Nat.lt_succ_of_lt hlt, Nat.ne_of_gt hlt]
      · simp [hand, setThread, loopHand]
      · simp [hand, setThread, loopHand, Nat.lt_asymm hgt, Nat.ne_of_lt hgt, Nat.not_lt.mpr (Nat.succ_le_of_lt hgt)]
  | logged j msg hk =>
      have hj : s.sinks.length ≤ j := List.getElem?_eq_none_iff.mp hk
      simpa [loopObs, Nat.not_lt.mpr hj, hand, setThread, loopHand, Nat.lt_of_lt_of_le hi hj] using ho

theorem controlStep_client {s s' : State σ} {pc : ControlPc σ} {pc' : Option (ControlPc σ)}
    (hs : ControlStep K s pc s' pc') : s'.client = s.client := by
  cases hs <;> rfl

theorem controlStep_thread {s s' : State σ} {pc : ControlPc σ} {pc' : Option (ControlPc σ)}
    {p : Pc Message} {b : Bool} (hs : ControlStep K s pc s' pc') (ht : s'.thread = some ⟨.pop p, b⟩) : ∃ b, s.thread = some ⟨.pop p, b⟩ := by
  cases hs with
  | spawn | joined => cases ht
  | request =>
      obtain ⟨⟨pc, b₀⟩, hl, he⟩ := Option.map_eq_some_iff.mp ht
      cases he
      exact ⟨b₀, hl⟩
  | _ => exact ⟨b, ht⟩

theorem controlStep_placed {s s' : State σ} {pc : ControlPc σ} {pc' : Option (ControlPc σ)} (hp : Placed s)
    (hc : s.control = some pc) (hs : ControlStep K s pc s' pc') : Placed (setControl s' pc') where
  client c := by
    have hsame := controlStep_client hs
    simpa [setControl, hsame] using hp.client c
  thread p b ht := by
    obtain ⟨b, ht⟩ := controlStep_thread hs ht
    exact hp.thread p b ht
  queue p hq := by
    have hq : pc' = some (.uninitQueue p) := hq
    cases hs with
    | stopQueue p p' q hs =>
        cases hq
        exact step_within hs (hp.queue p hc)
    | _ => cases hq
  init pc₁ hpc hi := by
    have hpc : pc' = some pc₁ := hpc
    cases hs with
    | assign | initSink | initialised => exact hp.init _ hc trivial
    | _ => cases hpc <;> cases hi

theorem controlStep_order {s s' : State σ} {pc : ControlPc σ} {pc' : Option (ControlPc σ)} {i : Nat}
    {log : List Entry} (hs : ControlStep K s pc s' pc') (hp : ∀ p, pc = .uninitQueue p → Within .stop p)
    (hinit : Initialising pc → s.thread = none) (hi : i < s'.sinks.length)
    (ho : i < s.sinks.length → queued log = calls i log ++ hand s i ++ s.queue.queue) :
    queued (log ++ controlObs s pc) = calls i (log ++ controlObs s pc) ++ hand s' i ++ s'.queue.queue := by
  rw [queued_append, calls_append]
  cases hs with
  | assign lvl sinks hne =>
      have hnone := hinit trivial
      simp [controlObs, hne, Entry.queue, Entry.calls, hand, hnone]
  | initSink j b k hk => exact ho (by simpa using hi)
  | spawn =>
      have hnone := hinit trivial
      simpa [controlObs, hand, hnone, loopHand] using ho hi
  | stopQueue p p' q hs =>
      have hcrit : critical p = false := by cases hp _ rfl <;> rfl
      have hq := step_queue_of_not_critical hs hcrit
      simpa [controlObs, hand, hq] using ho hi
  | request =>
      have hsame : hand { s with thread := s.thread.map fun l => { l with stopRequested := true } } i = hand s i := by
        cases ht : s.thread <;> simp [hand, ht]
      rw [hsame]
      exact ho hi
  | joined b ht => simpa [controlObs, hand, ht, loopHand] using ho hi
  | uninitSink j k hk =>
      have hj : j < s.sinks.length := (List.getElem?_eq_some_iff.mp hk).1
      simp only [controlObs, hj, if_true, List.foldl_cons, List.foldl_nil, Entry.queue, Entry.calls]
      exact ho (by simpa using hi)
  | uninitialised j hk =>
      have hj : s.sinks.length ≤ j := List.getElem?_eq_none_iff.mp hk
      simpa [controlObs, Nat.not_lt.mpr hj] using ho hi
  | refused | initialised | failed | queueStopped | notJoinable | left | thrown => exact ho hi

theorem move_placed {s s' : State σ} {a : Action σ} (hp : Placed s) (hn : Move K s a s') : Placed s' := by
  have hclient (c : Nat) {p : Pc Message} (hidle : Idle p) (c' : Nat) : Idle (Function.update s.client c p c') := by
    by_cases hc : c' = c
    · subst hc
      simpa using hidle
    · simpa [hc] using hp.client c'
  cases hn with
  | logIt c msg => exact ⟨hclient c (.inr ⟨msg, .lock (by simp)⟩), hp.thread, hp.queue, hp.init⟩
  | init lvl sinks hc ht =>
      exact ⟨hp.client, hp.thread, fun p hq => (by cases hq), fun _ _ _ => ht⟩
  | uninit hc =>
      refine ⟨hp.client, hp.thread, fun p hq => ?_, fun pc hpc hi => ?_⟩
      · cases hq
        exact .requestStop
      · cases hpc
        cases hi
  | leave c => exact ⟨hclient c (.inl rfl), hp.thread, hp.queue, hp.init⟩
  | client c ch p' q hs =>
      refine ⟨hclient c ?_, hp.thread, hp.queue, hp.init⟩
      rcases hp.client c with hidle | ⟨msg, hw⟩
      · rw [hidle] at hs
        cases hs
      · exact .inr ⟨msg, step_within hs hw⟩
  | thread ch pc b s' ht hs =>
      obtain ⟨hc, hcontrol, -, pc', ht'⟩ := loopStep_frame hs
      refine ⟨fun c => ?_, fun p b' hp' => ?_, fun p hq => ?_, fun pc₁ hpc hi => ?_⟩
      · rw [hc]
        exact hp.client c
      · exact loopStep_within hs (fun p he => hp.thread p b (he ▸ ht)) hp'
      · rw [hcontrol] at hq
        exact hp.queue p hq
      · rw [hcontrol] at hpc
        exact absurd (ht.symm.trans (hp.init pc₁ hpc hi)) (by simp)
  | control ch pc pc' s' hc hs => exact controlStep_placed hp hc hs

theorem move_conserved {s s' : State σ} {a : Action σ} {log : List Entry} (hs : Conserved s log)
    (hn : Move K s a s') : Conserved s' (log ++ obs s a) := by
  refine ⟨move_placed hs.placed hn, fun i hi => ?_⟩
  cases hn with
  | logIt => simpa [obs, hand, setClient] using hs.order i hi
  | init | uninit => simpa [obs, hand, setControl] using hs.order i hi
  | leave c ch r hc => simpa [obs, hc, emits, Fifo.pushes, hand, setClient] using hs.order i hi
  | client c ch p' q hstep =>
      have ho := hs.order i hi
      have hq : q.queue = s.queue.queue ++ Fifo.pushes (emits s.queue (s.client c)) := by
        rcases hs.placed.client c with hidle | ⟨msg, hw⟩
        · rw [hidle] at hstep
          cases hstep
        · have horder := step_push_order hstep hw
          rw [← step_pushes hstep hw, ← List.append_assoc] at horder
          exact List.append_cancel_right horder
      rw [queued_append, calls_append, obs, foldl_queued, foldl_calls_queued, ho]
      simp [hq, hand, setClient]
  | thread ch pc b s' ht hstep =>
      obtain ⟨-, -, hlen, -⟩ := loopStep_frame hstep
      have hi : i < s.sinks.length := hlen ▸ hi
      have ho := hs.order i hi
      simp only [hand, ht, Option.elim_some] at ho
      simpa [obs, ht] using loopStep_order hstep (fun p he => hs.placed.thread p b (he ▸ ht)) hi ho
  | control ch pc pc' s' hc hstep =>
      have hp (p : Pc Message) (he : pc = .uninitQueue p) : Within .stop p := hs.placed.queue p (he ▸ hc)
      have ho : queued (log ++ controlObs s pc) = calls i (log ++ controlObs s pc) ++ hand s' i ++ s'.queue.queue :=
        controlStep_order hstep hp (hs.placed.init pc hc) hi (hs.order i)
      simpa [obs, hc, hand, setControl] using ho

theorem reachable_conserved {ok : State σ × List Entry → Action σ → Prop} {s : State σ} {log : List Entry}
    (hr : Reachable (logged (system K) obs) ok (s, log)) : Conserved s log := by
  refine hr.logged_invariant (P := Conserved) ?_ ?_
  · rintro s rfl
    refine ⟨⟨fun c => .inl rfl, fun p b ht => ?_, fun p hq => ?_, fun pc hpc _ => rfl⟩, fun i hi => ?_⟩
    · cases ht
    · cases hq
    · cases hi
  · intro s log a s' _ hs _ hn
    exact move_conserved hs (next_sound hn)

theorem hand_cases (s : State σ) {i j : Nat} (hij : i < j) :
    hand s j = hand s i ∨ (hand s i = [] ∧ ∃ msg, hand s j = [msg]) := by
  unfold hand
  cases s.thread with
  | none => exact .inl rfl
  | some l =>
      simp only [Option.elim_some]
      cases l.pc with
      | log k msg =>
          by_cases hi : i < k
          · by_cases hj : j < k
            · exact .inl (by simp [loopHand, hi, hj])
            · exact .inr ⟨by simp [loopHand, hi], msg, by simp [loopHand, hj]⟩
          · have hj : ¬ j < k := fun hj => hi (Nat.lt_trans hij hj)
            exact .inl (by simp [loopHand, hi, hj])
      | check | pop | exited => exact .inl rfl

/-- The sinks of the last Init are called for the messages in the order of the
queue, without a gap, and each at most one message after the one before it. -/
theorem sinks_in_order {s : State σ} {log : List Entry} (hr : Reachable (logged (system K) obs) Any (s, log)) :
    (∀ i, i < s.sinks.length → calls i log <+: queued log) ∧
    ∀ i j, i < j → j < s.sinks.length → calls j log = calls i log ∨ ∃ msg, calls i log = calls j log ++ [msg] := by
  have hs := reachable_conserved hr
  refine ⟨fun i hi => ?_, fun i j hij hj => ?_⟩
  · rw [hs.order i hi, List.append_assoc]
    exact List.prefix_append _ _
  · have hsame := (hs.order j hj).symm.trans (hs.order i (Nat.lt_trans hij hj))
    have hcalls := List.append_cancel_right hsame
    rcases hand_cases s hij with he | ⟨hnone, msg, hmsg⟩
    · rw [he] at hcalls
      exact .inl (List.append_cancel_right hcalls)
    · rw [hnone, hmsg, List.append_nil] at hcalls
      exact .inr ⟨msg, hcalls.symm⟩

section Runs

def silent : Sink Unit := ⟨fun k => (k, true), id, fun _ _ k => (k, true)⟩

def steps (a : Agent) (k : Nat) : List (Action Unit) := List.replicate k (.step a .run)

def note (content : String) : Message := ⟨.info, 0, 0, none, content⟩

def logOne : List (Action Unit) :=
  List.flatten [[.init .info [(), ()]], steps .control 6, [.logIt 0 (note "a")], steps (.client 0) 5]

theorem sinks_in_order_half : ∃ log : List Entry, calls 0 log = [note "a"] ∧ calls 1 log = [] ∧
    (calls 1 log = calls 0 log ∨ ∃ msg, calls 0 log = calls 1 log ++ [msg]) := by
  obtain ⟨⟨s, log⟩, hr, hp⟩ := exists_of_run (logged (system silent) obs) Any (fun _ _ => true) ({}, [])
    (logOne ++ steps .thread 8)
    (fun p => decide (p.1.sinks.length = 2 ∧ calls 0 p.2 = [note "a"] ∧ calls 1 p.2 = [])) (fun _ _ _ => trivial)
    ⟨rfl, rfl⟩ (by decide)
  obtain ⟨hlen, h0, h1⟩ := of_decide_eq_true hp
  exact ⟨log, h0, h1, (sinks_in_order hr).2 0 1 (by decide) (by rw [hlen]; decide)⟩

end Runs

end Enigma.LoggerOrder
