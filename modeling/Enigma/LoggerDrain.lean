import Enigma.LoggerOrder

namespace Enigma.LoggerDrain

open Transition SyncQueue QueueStep Logger LoggerOrder

variable {σ : Type} {K : Sink σ}

def Stepping : Action σ → Prop
  | .step _ _ => True
  | _ => False

/-- What is in the queue and not about to be taken out of it. -/
def leftover (s : State σ) : List Message := match s.thread with
  | some ⟨.pop (.take _), _⟩ => s.queue.queue.tail
  | _ => s.queue.queue

theorem leftover_of_pop {s : State σ} {pc : LoopPc} {b : Bool} (ht : s.thread = some ⟨pc, b⟩)
    (hne : ∀ c, pc ≠ .pop (.take c)) : leftover s = s.queue.queue := by
  unfold leftover
  split
  case h_1 c _ hl =>
      rw [ht] at hl
      cases hl
      exact absurd rfl (hne c)
  case h_2 => rfl

theorem loopStep_leftover {s s' : State σ} {b : Bool} {pc : LoopPc} (hs : LoopStep K s b pc s')
    (ht : s.thread = some ⟨pc, b⟩) (hstop : s.queue.stopRequested = true)
    (hp : ∀ p, pc = .pop p → Within (.pop false) p) :
    leftover s' = leftover s ∧ s'.queue.stopRequested = true := by
  have hsame (hne : ∀ c, pc ≠ .pop (.take c)) : leftover s = s.queue.queue := leftover_of_pop ht hne
  cases hs with
  | pop p p' q hs =>
      refine ⟨?_, step_stopRequested hs hstop⟩
      cases hs with
      | take c v rest hq => simp [leftover, setThread, ht, hq]
      | fault c hq => simp [leftover, setThread, ht, hq]
      | checked c hs =>
          rw [hstop] at hs
          cases hs
      | lock op => cases hp _ rfl; rw [hsame (by simp)]; rfl
      | testTrue | testFalse | block | spurious | resume | stopped | unlock => rw [hsame (by simp)]; rfl
      | push | notifyNone | notifyOne | clearOne | cleared | size | requestStop | notifyAll => cases hp _ rfl
  | exit | enter | got | nothing | log | logged =>
      rw [hsame (by simp)]
      exact ⟨rfl, hstop⟩

def Assigned : ControlPc σ → Prop
  | .initSink _ _ | .initSpawn => True
  | _ => False

structure Equipped (s : State σ) : Prop where
  thread : s.thread ≠ none → s.sinks ≠ []
  init : ∀ pc, s.control = some pc → Assigned pc → s.sinks ≠ []

theorem ne_nil_of_length {l l' : List σ} (hl : l'.length = l.length) (hne : l ≠ []) : l' ≠ [] := by
  rintro rfl
  exact hne (List.length_eq_zero_iff.mp hl.symm)

theorem controlStep_equipped {s s' : State σ} {pc : ControlPc σ} {pc' : Option (ControlPc σ)} (he : Equipped s)
    (hc : s.control = some pc) (hs : ControlStep K s pc s' pc') : Equipped (setControl s' pc') := by
  have hleaves {s' : State σ} {pc' : ControlPc σ} (ht : s'.thread ≠ none → s'.sinks ≠ []) (hna : ¬ Assigned pc') :
      Equipped (setControl s' (some pc')) := by
    refine ⟨ht, fun pc hpc hi => ?_⟩
    cases hpc
    exact absurd hi hna
  cases hs with
  | assign lvl sinks hne => exact ⟨fun _ => hne, fun _ _ _ => hne⟩
  | initSink i b k hk =>
      have hne : s.sinks.set i (K.init k).1 ≠ [] := ne_nil_of_length List.length_set (he.init _ hc trivial)
      exact ⟨fun _ => hne, fun _ _ _ => hne⟩
  | initialised | spawn =>
      have hne := he.init _ hc trivial
      exact ⟨fun _ => hne, fun _ _ _ => hne⟩
  | uninitSink i k hk => exact hleaves (fun ht => ne_nil_of_length List.length_set (he.thread ht)) id
  | joined b ht => exact hleaves (fun ht => absurd rfl ht) id
  | request => exact hleaves (fun ht => he.thread fun hnone => ht (by simp [hnone])) id
  | refused | failed | queueStopped | stopQueue | notJoinable | uninitialised => exact hleaves he.thread id
  | left | thrown => exact ⟨he.thread, fun pc hpc => by cases hpc⟩

theorem move_equipped {s s' : State σ} {a : Action σ} (he : Equipped s) (hn : Move K s a s') : Equipped s' := by
  cases hn with
  | logIt | leave | client => exact ⟨he.thread, he.init⟩
  | init | uninit =>
      refine ⟨he.thread, fun pc hpc hi => ?_⟩
      cases hpc
      cases hi
  | thread ch pc b s' ht hs =>
      obtain ⟨-, -, hlen, -⟩ := loopStep_frame hs
      have hne : s.sinks ≠ [] := he.thread (by simp [ht])
      exact ⟨fun _ => ne_nil_of_length hlen hne, fun _ _ _ => ne_nil_of_length hlen hne⟩
  | control ch pc pc' s' hc hs => exact controlStep_equipped he hc hs

theorem reachable_equipped {ok : State σ × List Entry → Action σ → Prop} {s : State σ} {log : List Entry}
    (hr : Reachable (logged (system K) obs) ok (s, log)) : Equipped s := by
  refine hr.logged_invariant (P := fun s _ => Equipped s) ?_ ?_
  · rintro s rfl
    exact ⟨fun ht => absurd rfl ht, fun pc hpc => by cases hpc⟩
  · intro s log a s' _ hs _ hn
    exact move_equipped hs (next_sound hn)

section Closing

variable {base rest : List Entry}

/-- The Uninit of sink `i` has been called, and no Log after it. -/
def Ended (base rest : List Entry) (i : Nat) : Prop :=
  ∃ pre post, rest = pre ++ .closed i :: post ∧ calls i (base ++ pre) = calls i (base ++ rest)

theorem Ended.append {i : Nat} {es : List Entry} (he : Ended base rest i)
    (hcalls : calls i (base ++ (rest ++ es)) = calls i (base ++ rest)) : Ended base (rest ++ es) i := by
  obtain ⟨pre, post, hrest, hpre⟩ := he
  exact ⟨pre, post ++ es, by simp [hrest], hpre.trans hcalls.symm⟩

/-- Where Uninit stands after its first instruction: it waits for the thread, then it
closes the sinks. -/
inductive Phase (base rest : List Entry) (s : State σ) : Option (ControlPc σ) → Prop
  | stopping (p : Pc Message) (ht : s.thread ≠ none) : Phase base rest s (some (.uninitQueue p))
  | requesting (ht : s.thread ≠ none) : Phase base rest s (some .uninitRequest)
  | joining (ht : s.thread ≠ none) : Phase base rest s (some .uninitJoin)
  | closing (i : Nat) (ht : s.thread = none) (he : ∀ j, j < i → Ended base rest j) :
      Phase base rest s (some (.uninitSink i))
  | closed (ht : s.thread = none) (he : ∀ j, j < s.sinks.length → Ended base rest j) :
      Phase base rest s (some (.returned none))
  | left : Phase base rest s none

theorem Phase.running {s s' : State σ} {pc : Option (ControlPc σ)} {es : List Entry} (hp : Phase base rest s pc)
    (ht : s.thread ≠ none) (ht' : s'.thread ≠ none) : Phase base (rest ++ es) s' pc := by
  cases hp with
  | stopping p => exact .stopping p ht'
  | requesting => exact .requesting ht'
  | joining => exact .joining ht'
  | closing i hnone => exact absurd hnone ht
  | closed hnone => exact absurd hnone ht
  | left => exact .left

theorem controlStep_phase {s s' : State σ} {pc : ControlPc σ} {pc' : Option (ControlPc σ)}
    (hp : Phase base rest s (some pc)) (hs : ControlStep K s pc s' pc') :
    Phase base (rest ++ controlObs s pc) (setControl s' pc') pc' ∧ s'.sinks.length = s.sinks.length := by
  cases hp with
  | stopping p ht =>
      cases hs with
      | queueStopped r => exact ⟨.requesting ht, rfl⟩
      | stopQueue p p' q hs => exact ⟨.stopping p' ht, rfl⟩
  | requesting ht =>
      cases hs with
      | request => exact ⟨.joining (by simpa [setControl] using ht), rfl⟩
  | joining ht =>
      cases hs with
      | notJoinable hnone => exact absurd hnone ht
      | joined b hexited => exact ⟨.closing 0 rfl fun j hj => absurd hj (Nat.not_lt_zero j), rfl⟩
  | closing i ht he =>
      cases hs with
      | uninitSink i k hk =>
          have hi : i < s.sinks.length := (List.getElem?_eq_some_iff.mp hk).1
          have hcalls (j : Nat) : calls j (base ++ (rest ++ [.closed i])) = calls j (base ++ rest) := by
            rw [← List.append_assoc, calls_append]
            rfl
          simp only [controlObs, hi, if_true]
          refine ⟨.closing (i + 1) ht fun j hj => ?_, List.length_set⟩
          rcases Nat.lt_succ_iff_lt_or_eq.mp hj with hlt | rfl
          · exact (he j hlt).append (hcalls j)
          · exact ⟨rest, [], rfl, (hcalls j).symm⟩
      | uninitialised i hk =>
          have hi : s.sinks.length ≤ i := List.getElem?_eq_none_iff.mp hk
          simp only [controlObs, Nat.not_lt.mpr hi, if_false, List.append_nil]
          exact ⟨.closed ht fun j hj => he j (Nat.lt_of_lt_of_le hj hi), trivial⟩
  | closed ht he =>
      cases hs with
      | left r => exact ⟨.left, rfl⟩

def Quiet (es : List Entry) : Prop := ∀ e ∈ es, (∃ i lvl msg, e = .called i lvl msg) ∨ ∃ i, e = .closed i

theorem queued_of_quiet (log : List Entry) {es : List Entry} (hq : Quiet es) : queued (log ++ es) = queued log := by
  induction es generalizing log with
  | nil => simp
  | cons e es ih =>
      have hes : Quiet es := fun e he => hq e (List.mem_cons_of_mem _ he)
      rw [List.append_cons, ih (log ++ [e]) hes, queued_append]
      rcases hq e List.mem_cons_self with ⟨i, lvl, msg, rfl⟩ | ⟨i, rfl⟩ <;> rfl

theorem calls_of_quiet (i : Nat) (log : List Entry) {es : List Entry} (hq : Quiet es) :
    calls i log <+: calls i (log ++ es) := by
  induction es generalizing log with
  | nil => simp
  | cons e es ih =>
      have hes : Quiet es := fun e he => hq e (List.mem_cons_of_mem _ he)
      rw [List.append_cons]
      refine .trans ?_ (ih (log ++ [e]) hes)
      rw [calls_append]
      rcases hq e List.mem_cons_self with ⟨j, lvl, msg, rfl⟩ | ⟨j, rfl⟩
      · simp only [List.foldl_cons, List.foldl_nil, Entry.calls]
        split
        · exact List.prefix_append _ _
        · exact List.prefix_rfl
      · exact List.prefix_rfl

theorem quiet_loopObs (s : State σ) (pc : LoopPc) : Quiet (loopObs s pc) := by
  intro e he
  cases pc with
  | log i msg =>
      simp only [loopObs] at he
      split at he
      · exact .inl ⟨i, s.lvl, msg, List.mem_singleton.mp he⟩
      · cases he
  | check | pop | exited => cases he

theorem quiet_controlObs {s : State σ} {pc : ControlPc σ} (hp : Phase base rest s (some pc)) :
    Quiet (controlObs s pc) := by
  intro e he
  cases hp with
  | closing i =>
      simp only [controlObs] at he
      split at he
      · exact .inr ⟨i, List.mem_singleton.mp he⟩
      · cases he
  | stopping | requesting | joining | closed => cases he

theorem Quiet.append {es es' : List Entry} (hq : Quiet es) (hq' : Quiet es') : Quiet (es ++ es') := by
  intro e he
  rcases List.mem_append.mp he with he | he
  · exact hq e he
  · exact hq' e he

/-- After the queue has been asked to stop: nobody logs, the thread takes no message
any more but the one it was about to take, and Uninit goes on. -/
structure Ending (left : List Message) (k : Nat) (base : List Entry) (s : State σ) (rest : List Entry) : Prop where
  conserved : Conserved s (base ++ rest)
  stopped : s.queue.stopRequested = true
  idle : ∀ c, s.client c = .idle
  left : leftover s = left
  sinks : s.sinks.length = k
  phase : Phase base rest s s.control
  quiet : Quiet rest

theorem controlStep_leftover {s s' : State σ} {pc : ControlPc σ} {pc' : Option (ControlPc σ)}
    (hp : Phase base rest s (some pc)) (hw : ∀ p, pc = .uninitQueue p → Within .stop p)
    (hs : ControlStep K s pc s' pc') (hstop : s.queue.stopRequested = true) :
    leftover s' = leftover s ∧ s'.queue.stopRequested = true := by
  cases hs with
  | stopQueue p p' q hs =>
      have hcrit : critical p = false := by cases hw _ rfl <;> rfl
      have hq := step_queue_of_not_critical hs hcrit
      refine ⟨?_, step_stopRequested hs hstop⟩
      simp only [leftover, hq]
  | request =>
      refine ⟨?_, hstop⟩
      cases ht : s.thread with
      | none => simp [leftover, ht]
      | some l =>
          obtain ⟨pc, b⟩ := l
          cases pc with
          | pop p => cases p <;> simp [leftover, ht]
          | check | log | exited => simp [leftover, ht]
  | joined b ht => exact ⟨by simp [leftover, ht], hstop⟩
  | queueStopped | notJoinable | uninitSink | uninitialised | left => exact ⟨rfl, hstop⟩
  | refused | assign | initSink | initialised | failed | spawn | thrown => cases hp

theorem move_ending {left : List Message} {k : Nat} {s s' : State σ} {a : Action σ} (hs : Ending left k base s rest)
    (ha : Stepping a) (hn : Move K s a s') : Ending left k base s' (rest ++ obs s a) := by
  have hcons : Conserved s' (base ++ (rest ++ obs s a)) := by
    rw [← List.append_assoc]
    exact move_conserved hs.conserved hn
  cases hn with
  | logIt | init | uninit => cases ha
  | leave c ch r hc => exact absurd ((hs.idle c).symm.trans hc) (by simp)
  | client c ch p' q hstep =>
      rw [hs.idle c] at hstep
      cases hstep
  | thread ch pc b s' ht hstep =>
      obtain ⟨hclient, hcontrol, hlen, pc', ht'⟩ := loopStep_frame hstep
      have hp (p : Pc Message) (he : pc = .pop p) : Within (.pop false) p := hs.conserved.placed.thread p b (he ▸ ht)
      obtain ⟨hleft, hstop⟩ := loopStep_leftover hstep ht hs.stopped hp
      have hobs : obs s (.step .thread ch) = loopObs s pc := by simp [obs, ht]
      refine ⟨hcons, hstop, fun c => ?_, hleft.trans hs.left, hlen.trans hs.sinks, ?_, ?_⟩
      · rw [hclient]
        exact hs.idle c
      · rw [hcontrol]
        exact hs.phase.running (by simp [ht]) (by simp [ht'])
      · rw [hobs]
        exact hs.quiet.append (quiet_loopObs s pc)
  | control ch pc pc' s' hc hstep =>
      have hphase : Phase base rest s (some pc) := hc ▸ hs.phase
      have hw (p : Pc Message) (he : pc = .uninitQueue p) : Within .stop p := hs.conserved.placed.queue p (he ▸ hc)
      obtain ⟨hleft, hstop⟩ := controlStep_leftover hphase hw hstep hs.stopped
      obtain ⟨hnext, hlen⟩ := controlStep_phase hphase hstep
      have hobs : obs s (.step .control ch) = controlObs s pc := by simp [obs, hc]
      rw [hobs] at hcons ⊢
      refine ⟨hcons, hstop, fun c => ?_, hleft.trans hs.left, hlen.trans hs.sinks, hnext, ?_⟩
      · have hsame := controlStep_client hstep
        simpa [setControl, hsame] using hs.idle c
      · exact hs.quiet.append (quiet_controlObs hphase)

end Closing

theorem move_requestStop {s s' : State σ} {ch : Choice Agent} (hc : s.control = some (.uninitQueue .requestStop))
    (hn : Move K s (.step .control ch) s') :
    s' = setControl { s with queue := { s.queue with stopRequested := true } } (some (.uninitQueue .notifyAll)) := by
  cases hn with
  | control ch pc pc' s' hpc hstep =>
      cases Option.some.inj (hc.symm.trans hpc)
      cases hstep with
      | stopQueue p p' q hstop =>
          cases hstop
          rfl

/-- An Uninit that has returned has brought all messages to all sinks exactly if none was left in
the queue when it was asked to stop, but for one about to be taken. -/
theorem uninit_drains_iff {s₁ s₂ s : State σ} {log rest : List Entry} {ch : Choice Agent}
    (hr : Reachable (logged (system K) obs) Any (s₁, log)) (ht : s₁.thread ≠ none)
    (hidle : ∀ c, s₁.client c = .idle) (hc : s₁.control = some (.uninitQueue .requestStop))
    (hn : next K s₁ (.step .control ch) = some s₂)
    (hrun : Reachable (logged (startingAt (system K) s₂) obs) (fun _ a => Stepping a) (s, rest))
    (hreturned : s.control = some (.returned none)) :
    (∀ i, i < s.sinks.length →
      ∃ pre post, rest = pre ++ .closed i :: post ∧ calls i (log ++ pre) = queued log) ↔ leftover s₁ = [] := by
  have hs₁ := reachable_conserved hr
  have hequipped := reachable_equipped hr
  have hs : Ending (leftover s₁) s₁.sinks.length log s rest := by
    refine hrun.logged_invariant (P := Ending (leftover s₁) s₁.sinks.length log) ?_ ?_
    · rintro s rfl
      have hcons := move_conserved hs₁ (next_sound hn)
      rw [show obs s₁ (.step .control ch) = [] by simp [obs, hc, controlObs]] at hcons
      have hs₂ := move_requestStop hc (next_sound hn)
      subst hs₂
      exact ⟨hcons, rfl, hidle, rfl, rfl, .stopping _ ht, fun e he => by cases he⟩
    · intro s rest a s' _ hs ha hn
      exact move_ending hs ha (next_sound hn)
  -- Uninit returns after the thread is gone
  have hphase := hs.phase
  rw [hreturned] at hphase
  obtain ⟨hnone, hended⟩ : s.thread = none ∧ ∀ j, j < s.sinks.length → Ended log rest j := by
    cases hphase with
    | closed ht he => exact ⟨ht, he⟩
  have hleft : s.queue.queue = leftover s₁ := by
    rw [← hs.left]
    simp [leftover, hnone]
  have horder (i : Nat) (hi : i < s.sinks.length) : queued log = calls i (log ++ rest) ++ leftover s₁ := by
    rw [← queued_of_quiet log hs.quiet, hs.conserved.order i hi, hleft]
    simp [hand, hnone]
  constructor
  · intro hall
    have hpos : 0 < s.sinks.length := by
      rw [hs.sinks]
      exact List.length_pos_iff.mpr (hequipped.thread ht)
    obtain ⟨pre, post, hrest, hcalls⟩ := hall 0 hpos
    have hquiet : Quiet (.closed 0 :: post) := fun e he => hs.quiet e (by rw [hrest]; exact List.mem_append_right _ he)
    have hprefix := (calls_of_quiet 0 (log ++ pre) hquiet).length_le
    rw [List.append_assoc, ← hrest, hcalls, horder 0 hpos, List.length_append] at hprefix
    exact List.length_eq_zero_iff.mp (by omega)
  · intro hempty i hi
    obtain ⟨pre, post, hrest, hcalls⟩ := hended i hi
    refine ⟨pre, post, hrest, ?_⟩
    rw [hcalls, horder i hi, hempty, List.append_nil]

section Runs

theorem reachable_idle {s : State σ} {log : List Entry}
    (hr : Reachable (logged (system K) obs) (fun _ a => ∀ c msg, a = .logIt c msg → c = 0) (s, log)) (c : Nat)
    (hc : c ≠ 0) : s.client c = .idle := by
  refine hr.logged_invariant (P := fun s _ => s.client c = .idle) ?_ ?_
  · rintro s rfl
    rfl
  · intro s log a s' _ hs hok hn
    cases next_sound hn with
    | logIt c' msg => simpa [setClient, hok c' msg rfl, hc] using hs
    | leave c' ch r hc' =>
        by_cases he : c = c'
        · simp [setClient, he]
        · simpa [setClient, he] using hs
    | client c' ch p' q hstep =>
        by_cases he : c = c'
        · subst he
          rw [hs] at hstep
          cases hstep
        · simpa [setClient, he] using hs
    | thread ch pc b s' ht hstep =>
        rw [(loopStep_frame hstep).1]
        exact hs
    | control ch pc pc' s' hc' hstep =>
        have hsame := controlStep_client hstep
        simpa [setControl, hsame] using hs
    | init | uninit => exact hs

def onlyFirst : Action Unit → Bool
  | .logIt c _ => c == 0
  | _ => true

def sameAs (t : State Unit) (msgs : List Message) (p : State Unit × List Entry) : Bool :=
  decide (p.1.queue = t.queue ∧ p.1.lvl = t.lvl ∧ p.1.sinks = t.sinks ∧ p.1.thread = t.thread ∧
    p.1.control = t.control ∧ p.1.client 0 = .idle ∧ queued p.2 = msgs ∧ calls 0 p.2 = [])

theorem exists_reachable (t : State Unit) (msgs : List Message) (as : List (Action Unit))
    (ht : t.client = fun _ => .idle)
    (hrun : (run (guarded (logged (system silent) obs) fun _ a => onlyFirst a) ({}, []) as).any (sameAs t msgs) =
      true) :
    ∃ log, queued log = msgs ∧ calls 0 log = [] ∧ Reachable (logged (system silent) obs) Any (t, log) := by
  have hfirst (p : State Unit × List Entry) (a : Action Unit) (ha : onlyFirst a = true) (c : Nat) (msg : Message)
      (he : a = .logIt c msg) : c = 0 := by
    subst he
    simpa [onlyFirst] using ha
  obtain ⟨⟨s, log⟩, hr, hp⟩ := exists_of_run (logged (system silent) obs)
    (fun _ a => ∀ c msg, a = .logIt c msg → c = 0) (fun _ a => onlyFirst a) ({}, []) as (sameAs t msgs) hfirst
    ⟨rfl, rfl⟩ hrun
  obtain ⟨hqueue, hlvl, hsinks, hthread, hcontrol, hzero, hqueued, hcalls⟩ := of_decide_eq_true hp
  have hclient : s.client = fun _ => .idle := by
    funext c
    by_cases hc : c = 0
    · rw [hc]
      exact hzero
    · exact reachable_idle hr c hc
  obtain ⟨q, lvl, sinks, thread, client, control⟩ := s
  dsimp only at hqueue hlvl hsinks hthread hcontrol hclient
  subst hqueue hlvl hsinks hthread hcontrol hclient
  rw [← ht] at hr
  exact ⟨log, hqueued, hcalls, hr.any⟩

/-- The thread is about to take the message when Uninit asks the queue to stop. -/
def aboutToTake : State Unit where
  queue := { queue := [note "a"], mutex := some .thread }
  lvl := .info
  sinks := [(), ()]
  thread := some ⟨.pop (.take false), false⟩
  control := some (.uninitQueue .requestStop)

def asked : State Unit := (next silent aboutToTake (.step .control .run)).getD {}

def isStep : Action Unit → Bool
  | .step _ _ => true
  | _ => false

theorem stepping_of_isStep (a : Action Unit) (ha : isStep a = true) : Stepping a := by
  cases a with
  | step => trivial
  | logIt | init | uninit => cases ha

theorem uninit_drains_taken : ∃ log rest : List Entry, queued log = [note "a"] ∧
    ∀ i, i < 2 → ∃ pre post, rest = pre ++ .closed i :: post ∧ calls i (log ++ pre) = queued log := by
  obtain ⟨log, hlog, -, hr⟩ := exists_reachable aboutToTake [note "a"] (logOne ++ steps .thread 4 ++ [.uninit]) rfl
    (by decide)
  obtain ⟨⟨s, rest⟩, hrun, hp⟩ := exists_of_run (logged (startingAt (system silent) asked) obs)
    (fun _ a => Stepping a) (fun _ a => isStep a) (asked, [])
    (List.flatten [steps .thread 6, steps .control 3, steps .thread 1, steps .control 4])
    (fun p => decide (p.1.control = some (.returned none) ∧ p.1.sinks.length = 2))
    (fun _ a => stepping_of_isStep a) ⟨rfl, rfl⟩ (by decide)
  obtain ⟨hreturned, hlen⟩ := of_decide_eq_true hp
  have hn : next silent aboutToTake (.step .control .run) = some asked := rfl
  have hiff := uninit_drains_iff hr (by decide) (fun _ => rfl) rfl hn hrun hreturned
  rw [hlen] at hiff
  exact ⟨log, rest, hlog, hiff.mpr rfl⟩

def oneQueued : State Unit where
  queue := { queue := [note "a"] }
  lvl := .info
  sinks := [(), ()]
  thread := some {}

def uninitialising : State Unit := (next silent oneQueued .uninit).getD {}

theorem uninit_loses_message : ¬ ∀ (s₁ s₂ s : State Unit) (log rest : List Entry),
    Reachable (logged (system silent) obs) Any (s₁, log) → s₁.thread ≠ none → (∀ c, s₁.client c = .idle) →
    next silent s₁ .uninit = some s₂ →
    Reachable (logged (startingAt (system silent) s₂) obs) (fun _ a => Stepping a) (s, rest) →
    s.control = some (.returned none) → ∀ i, i < s.sinks.length →
      ∃ pre post, rest = pre ++ .closed i :: post ∧ calls i (log ++ pre) = queued log := by
  intro hall
  obtain ⟨log, hlog, hcalls, hr⟩ := exists_reachable oneQueued [note "a"] logOne rfl (by decide)
  obtain ⟨⟨s, rest⟩, hrun, hp⟩ := exists_of_run (logged (startingAt (system silent) uninitialising) obs)
    (fun _ a => Stepping a) (fun _ a => isStep a) (uninitialising, [])
    (List.flatten [steps .control 4, steps .thread 1, steps .control 4])
    (fun p => decide (p.1.control = some (.returned none) ∧ p.1.sinks.length = 2 ∧ p.2 = [.closed 0, .closed 1]))
    (fun _ a => stepping_of_isStep a) ⟨rfl, rfl⟩ (by decide)
  obtain ⟨hreturned, hlen, hrest⟩ := of_decide_eq_true hp
  have hn : next silent oneQueued .uninit = some uninitialising := rfl
  obtain ⟨pre, post, he, hpre⟩ := hall oneQueued uninitialising s log rest hr (by decide) (fun _ => rfl) hn hrun
    hreturned 0 (by rw [hlen]; decide)
  have hnil : pre = [] := by
    dsimp only at hrest
    rw [hrest] at he
    match pre, he with
    | [], _ => rfl
    | [_], he => simp at he
    | _ :: _ :: _, he => simp at he
  rw [hnil, List.append_nil, hcalls, hlog] at hpre
  cases hpre

end Runs

end Enigma.LoggerDrain
