import Enigma.LoggerOrder

namespace Enigma.LoggerSinks

open Transition SyncQueue QueueStep Logger LoggerOrder

variable {σ : Type} {K : Sink σ}

/-- A record that a kind of sink keeps: `fresh` before its Init, `live` once Init has succeeded,
with the messages that Log was called with since, and `holds` at any time. -/
structure Contract (K : Sink σ) (fresh : σ → Prop) (live holds : LogLevel → List Message → σ → Prop) : Prop where
  fresh_holds : ∀ lvl k, fresh k → holds lvl [] k
  init_holds : ∀ lvl k, fresh k → holds lvl [] (K.init k).1
  init_live : ∀ lvl k, fresh k → (K.init k).2 = true → live lvl [] (K.init k).1
  log_live : ∀ lvl msgs msg k, live lvl msgs k → live lvl (msgs ++ [msg]) (K.log lvl msg k).1
  live_holds : ∀ lvl msgs k, live lvl msgs k → holds lvl msgs k
  uninit_holds : ∀ lvl msgs k, holds lvl msgs k → holds lvl msgs (K.uninit k)

variable {fresh : σ → Prop} {live holds : LogLevel → List Message → σ → Prop}

def Unused (fresh : σ → Prop) (a : Action σ) : Prop := ∀ lvl sinks, a = .init lvl sinks → ∀ k ∈ sinks, fresh k

structure Kept (fresh : σ → Prop) (live holds : LogLevel → List Message → σ → Prop) (s : State σ)
    (log : List Entry) : Prop where
  holds : ∀ (i : Nat) k, s.sinks[i]? = some k → holds s.lvl (calls i log) k
  running : s.thread ≠ none → ∀ (i : Nat) k, s.sinks[i]? = some k → live s.lvl (calls i log) k
  assign : ∀ lvl sinks, s.control = some (.initAssign lvl sinks) → ∀ k ∈ sinks, fresh k
  init : ∀ j b, s.control = some (.initSink j b) → ∀ (i : Nat) k, s.sinks[i]? = some k → calls i log = [] ∧
    (j ≤ i → fresh k) ∧ (i < j → b = true → live s.lvl [] k)
  spawn : s.control = some .initSpawn → ∀ (i : Nat) k, s.sinks[i]? = some k → calls i log = [] ∧ live s.lvl [] k
  closing : ∀ i, s.control = some (.uninitSink i) → s.thread = none

theorem calls_called (i j : Nat) (lvl : LogLevel) (msg : Message) (log : List Entry) :
    calls i (log ++ [.called j lvl msg]) = if j = i then calls i log ++ [msg] else calls i log := by
  rw [calls_append]
  rfl

theorem calls_closed (i j : Nat) (log : List Entry) : calls i (log ++ [.closed j]) = calls i log := by
  rw [calls_append]
  rfl

theorem Kept.congr {s s' : State σ} {log log' : List Entry} (h : Kept fresh live holds s log)
    (hs : s'.sinks = s.sinks) (hl : s'.lvl = s.lvl) (hc : ∀ i, calls i log' = calls i log)
    (ht : s'.thread ≠ none → s.thread ≠ none)
    (hi : ∀ pc, s'.control = some pc → Initialising pc → s.control = some pc)
    (hu : ∀ i, s'.control = some (.uninitSink i) → s'.thread = none) : Kept fresh live holds s' log' := by
  refine ⟨fun i k hk => ?_, fun ht' i k hk => ?_, fun lvl sinks hpc => ?_, fun j b hpc i k hk => ?_,
    fun hpc i k hk => ?_, hu⟩
  · rw [hl, hc]
    exact h.holds i k (hs ▸ hk)
  · rw [hl, hc]
    exact h.running (ht ht') i k (hs ▸ hk)
  · exact h.assign lvl sinks (hi _ hpc trivial)
  · rw [hl, hc]
    exact h.init j b (hi _ hpc trivial) i k (hs ▸ hk)
  · rw [hl, hc]
    exact h.spawn (hi _ hpc trivial) i k (hs ▸ hk)

theorem set_cases {ks : List σ} {i j : Nat} {k k' x : σ} (hk : ks[i]? = some k) (hx : (ks.set i k')[j]? = some x) :
    (j = i ∧ x = k') ∨ (j ≠ i ∧ ks[j]? = some x) := by
  by_cases he : i = j
  · subst he
    rw [List.getElem?_set_self (List.getElem?_eq_some_iff.mp hk).1] at hx
    exact .inl ⟨rfl, (Option.some.inj hx).symm⟩
  · rw [List.getElem?_set_ne he] at hx
    exact .inr ⟨Ne.symm he, hx⟩

theorem loopStep_kept (hK : Contract K fresh live holds) {s s' : State σ} {b : Bool} {pc : LoopPc}
    {log : List Entry} (h : Kept fresh live holds s log) (hp : Placed s) (ht : s.thread = some ⟨pc, b⟩)
    (hs : LoopStep K s b pc s') : Kept fresh live holds s' (log ++ loopObs s pc) := by
  have hrun : s.thread ≠ none := by simp [ht]
  cases hs with
  | log i msg k hk =>
      have hi : i < s.sinks.length := (List.getElem?_eq_some_iff.mp hk).1
      simp only [loopObs, hi, if_true]
      have hlive (j : Nat) (x : σ) (hx : (s.sinks.set i (K.log s.lvl msg k).1)[j]? = some x) :
          live s.lvl (calls j (log ++ [.called i s.lvl msg])) x := by
        rw [calls_called]
        rcases set_cases hk hx with ⟨rfl, rfl⟩ | ⟨hne, hx⟩
        · rw [if_pos rfl]
          exact hK.log_live _ _ _ _ (h.running hrun j k hk)
        · rw [if_neg (Ne.symm hne)]
          exact h.running hrun j x hx
      -- while there is a thread, there is no Init
      have hnone {pc₁ : ControlPc σ} (hpc : s.control = some pc₁) (hi : Initialising pc₁) : False :=
        hrun (hp.init pc₁ hpc hi)
      exact ⟨fun j x hx => hK.live_holds _ _ _ (hlive j x hx), fun _ => hlive,
        fun lvl sinks hpc => (hnone hpc trivial).elim, fun j b hpc => (hnone hpc trivial).elim,
        fun hpc => (hnone hpc trivial).elim, fun j hpc => (hrun (h.closing j hpc)).elim⟩
  | logged i msg hk =>
      have hi : s.sinks.length ≤ i := List.getElem?_eq_none_iff.mp hk
      simp only [loopObs, Nat.not_lt.mpr hi, if_false, List.append_nil]
      exact h.congr rfl rfl (fun _ => rfl) (fun _ => hrun) (fun _ hpc _ => hpc)
        fun j hpc => (hrun (h.closing j hpc)).elim
  | exit | enter | got | nothing | pop =>
      simp only [loopObs, List.append_nil]
      exact h.congr rfl rfl (fun _ => rfl) (fun _ => hrun) (fun _ hpc _ => hpc)
        fun j hpc => (hrun (h.closing j hpc)).elim

theorem controlStep_kept (hK : Contract K fresh live holds) {s s' : State σ} {pc : ControlPc σ}
    {pc' : Option (ControlPc σ)} {log : List Entry} (h : Kept fresh live holds s log) (hp : Placed s)
    (hc : s.control = some pc) (hs : ControlStep K s pc s' pc') :
    Kept fresh live holds (setControl s' pc') (log ++ controlObs s pc) := by
  cases hs with
  | assign lvl sinks hne =>
      have hempty (i : Nat) : calls i (log ++ [.opened s.queue.queue]) = [] := by
        rw [calls_append]
        rfl
      have hfresh (i : Nat) (k : σ) (hk : sinks[i]? = some k) : fresh k :=
        h.assign lvl sinks hc k (List.mem_of_getElem? hk)
      simp only [controlObs, List.isEmpty_eq_false_iff.mpr hne, Bool.false_eq_true, if_false]
      refine ⟨fun i k hk => ?_, fun ht => absurd (hp.init _ hc trivial) ht, fun lvl sinks hpc => (by cases hpc),
        fun j b hpc i k hk => ?_, fun hpc => (by cases hpc), fun j hpc => by cases hpc⟩
      · rw [hempty]
        exact hK.fresh_holds lvl k (hfresh i k hk)
      · cases hpc
        exact ⟨hempty i, fun _ => hfresh i k hk, fun hlt => by omega⟩
  | initSink i b k hk =>
      simp only [controlObs, List.append_nil]
      have hinit := h.init i b hc
      have hown := hinit i k hk
      refine ⟨fun j x hx => ?_, fun ht => absurd (hp.init _ hc trivial) ht, fun lvl sinks hpc => (by cases hpc),
        fun j' b' hpc j x hx => ?_, fun hpc => (by cases hpc), fun j hpc => by cases hpc⟩
      · rcases set_cases hk hx with ⟨rfl, rfl⟩ | ⟨-, hx⟩
        · rw [hown.1]
          exact hK.init_holds _ k (hown.2.1 (Nat.le_refl _))
        · exact h.holds j x hx
      · cases hpc
        rcases set_cases hk hx with ⟨rfl, rfl⟩ | ⟨hne, hx⟩
        · refine ⟨hown.1, fun hle => by omega, fun _ hb => ?_⟩
          exact hK.init_live _ k (hown.2.1 (Nat.le_refl _)) (Bool.and_eq_true_iff.mp hb).2
        · obtain ⟨hnil, hfresh, hlive⟩ := hinit j x hx
          exact ⟨hnil, fun hle => hfresh (by omega), fun hlt hb => hlive (by omega) (Bool.and_eq_true_iff.mp hb).1⟩
  | initialised j hk =>
      simp only [controlObs, List.append_nil]
      refine ⟨h.holds, h.running, fun lvl sinks hpc => (by cases hpc), fun j b hpc => (by cases hpc),
        fun _ i k hi => ?_, fun j hpc => by cases hpc⟩
      have hlt : i < j := Nat.lt_of_lt_of_le (List.getElem?_eq_some_iff.mp hi).1 (List.getElem?_eq_none_iff.mp hk)
      obtain ⟨hnil, -, hlive⟩ := h.init j true hc i k hi
      exact ⟨hnil, hlive hlt rfl⟩
  | spawn =>
      simp only [controlObs, List.append_nil]
      refine ⟨h.holds, fun _ i k hk => ?_, fun lvl sinks hpc => (by cases hpc), fun j b hpc => (by cases hpc),
        fun hpc => (by cases hpc), fun j hpc => by cases hpc⟩
      obtain ⟨hnil, hlive⟩ := h.spawn hc i k hk
      rw [hnil]
      exact hlive
  | uninitSink i k hk =>
      have hi : i < s.sinks.length := (List.getElem?_eq_some_iff.mp hk).1
      have hnone := h.closing i hc
      simp only [controlObs, hi, if_true]
      refine ⟨fun j x hx => ?_, fun ht => absurd hnone ht, fun lvl sinks hpc => (by cases hpc),
        fun j b hpc => (by cases hpc), fun hpc => (by cases hpc), fun _ _ => hnone⟩
      rw [calls_closed]
      rcases set_cases hk hx with ⟨rfl, rfl⟩ | ⟨-, hx⟩
      · exact hK.uninit_holds _ _ _ (h.holds j k hk)
      · exact h.holds j x hx
  | uninitialised i hk =>
      have hi : s.sinks.length ≤ i := List.getElem?_eq_none_iff.mp hk
      simp only [controlObs, Nat.not_lt.mpr hi, if_false, List.append_nil]
      exact h.congr rfl rfl (fun _ => rfl) id (fun pc hpc hi => by cases hpc; cases hi) fun j hpc => by cases hpc
  | request =>
      simp only [controlObs, List.append_nil]
      refine h.congr rfl rfl (fun _ => rfl) (fun ht => ?_) (fun pc hpc hi => by cases hpc; cases hi)
        fun j hpc => by cases hpc
      rintro hnone
      exact ht (by simp [setControl, hnone])
  | joined b ht =>
      simp only [controlObs, List.append_nil]
      exact h.congr rfl rfl (fun _ => rfl) (fun ht => absurd rfl ht) (fun pc hpc hi => by cases hpc; cases hi)
        fun _ _ => rfl
  | refused lvl =>
      simp only [controlObs, List.isEmpty_nil, if_true, List.append_nil]
      exact h.congr rfl rfl (fun _ => rfl) id (fun pc hpc hi => by cases hpc; cases hi) fun j hpc => by cases hpc
  | failed | queueStopped | stopQueue | notJoinable | left | thrown =>
      simp only [controlObs, List.append_nil]
      exact h.congr rfl rfl (fun _ => rfl) id (fun pc hpc hi => by cases hpc <;> cases hi) fun j hpc => by cases hpc

theorem move_kept (hK : Contract K fresh live holds) {s s' : State σ} {a : Action σ} {log : List Entry}
    (h : Kept fresh live holds s log) (hp : Placed s) (hok : Unused fresh a) (hn : Move K s a s') :
    Kept fresh live holds s' (log ++ obs s a) := by
  cases hn with
  | logIt c msg hc =>
      simp only [obs, List.append_nil]
      exact h.congr rfl rfl (fun _ => rfl) id (fun _ hpc _ => hpc) h.closing
  | init lvl sinks hc ht =>
      simp only [obs, List.append_nil]
      refine ⟨h.holds, h.running, fun lvl' sinks' hpc => ?_, fun j b hpc => (by cases hpc), fun hpc => (by cases hpc),
        fun j hpc => by cases hpc⟩
      cases hpc
      exact hok lvl sinks rfl
  | uninit hc =>
      simp only [obs, List.append_nil]
      exact h.congr rfl rfl (fun _ => rfl) id (fun pc hpc hi => by cases hpc; cases hi) fun j hpc => by cases hpc
  | leave c ch r hc =>
      exact h.congr rfl rfl (fun i => by rw [calls_append, obs, foldl_calls_queued]) id (fun _ hpc _ => hpc) h.closing
  | client c ch p' q hs =>
      exact h.congr rfl rfl (fun i => by rw [calls_append, obs, foldl_calls_queued]) id (fun _ hpc _ => hpc) h.closing
  | thread ch pc b s' ht hs =>
      simp only [obs, ht, Option.elim_some]
      exact loopStep_kept hK h hp ht hs
  | control ch pc pc' s' hc hs =>
      simp only [obs, hc, Option.elim_some]
      exact controlStep_kept hK h hp hc hs

/-- What a kind of sink keeps up through its own calls, every sink of the logger keeps
up in every run: the calls of Log since its Init are those of the log. -/
theorem reachable_kept (hK : Contract K fresh live holds) {s : State σ} {log : List Entry}
    (hr : Reachable (logged (system K) obs) (fun _ a => Unused fresh a) (s, log)) : Kept fresh live holds s log := by
  refine hr.logged_invariant (P := Kept fresh live holds) ?_ ?_
  · rintro s rfl
    exact ⟨fun i k hk => (by simp at hk), fun ht => absurd rfl ht, fun lvl sinks hpc => (by cases hpc),
      fun j b hpc => (by cases hpc), fun hpc => (by cases hpc), fun j hpc => by cases hpc⟩
  · intro s log a s' hr hs hok hn
    exact move_kept hK hs (reachable_conserved hr).placed hok (next_sound hn)

/-- A sink after its Init and these calls of Log. -/
def fed (K : Sink σ) (lvl : LogLevel) (msgs : List Message) (k : σ) : σ :=
  msgs.foldl (fun k msg => (K.log lvl msg k).1) (K.init k).1

theorem fed_contract (K : Sink σ) (fresh : σ → Prop) : Contract K fresh
    (fun lvl msgs k => ∃ k₀, fresh k₀ ∧ (K.init k₀).2 = true ∧ k = fed K lvl msgs k₀) fun _ _ _ => True where
  fresh_holds _ _ _ := trivial
  init_holds _ _ _ := trivial
  init_live _ k h hi := ⟨k, h, hi, rfl⟩
  log_live lvl msgs msg k h := by
    obtain ⟨k₀, hfresh, hi, rfl⟩ := h
    exact ⟨k₀, hfresh, hi, by simp [fed]⟩
  live_holds _ _ _ _ := trivial
  uninit_holds _ _ _ _ := trivial

/-- While the logger has a thread, a sink is what its Init and the calls of the log have
made of one that was handed to Init. -/
theorem sinks_fed {s : State σ} {log : List Entry}
    (hr : Reachable (logged (system K) obs) (fun _ a => Unused fresh a) (s, log)) (ht : s.thread ≠ none) {i : Nat} {k : σ}
    (hk : s.sinks[i]? = some k) :
    ∃ k₀, fresh k₀ ∧ (K.init k₀).2 = true ∧ k = fed K s.lvl (calls i log) k₀ :=
  (reachable_kept (fed_contract K fresh) hr).running ht i k hk

end Enigma.LoggerSinks
