import Enigma.Logger
import Mathlib.Data.List.Induction

namespace Enigma.LoggerCalls

open Transition Logger

variable {σ : Type}

structure Members (σ : Type) where
  sinks : List σ := []
  lvl : LogLevel := .trace
  joinable : Bool := false
  queueStopped : Bool := false

/-- `ends`: a thread that is there comes to read its token, since a message reaches it or it
has not come to its first Pop. -/
inductive Call (σ : Type)
  | init (lvl : LogLevel) (sinks : List σ) (ends : Bool)
  | uninit

inductive Answer
  | initialised (b : Bool)
  | blocked
  | uninitialised
  | threw
  deriving DecidableEq

variable (K : Sink σ)

/-- Every sink is initialised, also after one that fails. -/
def initSinks (sinks : List σ) : List σ × Bool := (sinks.map fun k => (K.init k).1, sinks.all fun k => (K.init k).2)

/-- The assignment of the thread asks the one that there may be to stop and joins it. That
one stays in Pop, and Init with it, unless the queue has been asked to stop. -/
def init (lvl : LogLevel) (sinks : List σ) (ends : Bool) (m : Members σ) : Members σ × Answer :=
  if sinks.isEmpty then (m, .initialised false)
  else
    let r := initSinks K sinks
    let m := { m with sinks := r.1, lvl := lvl }
    if !r.2 then (m, .initialised false)
    else if m.joinable && !m.queueStopped && !ends then (m, .blocked)
    else ({ m with joinable := true }, .initialised true)

/-- The join throws before the sinks are uninitialised. -/
def uninit (m : Members σ) : Members σ × Answer :=
  let m := { m with queueStopped := true }
  if m.joinable then ({ m with joinable := false, sinks := m.sinks.map K.uninit }, .uninitialised) else (m, .threw)

def Call.apply (m : Members σ) : Call σ → Members σ × Answer
  | .init lvl sinks ends => LoggerCalls.init K lvl sinks ends m
  | .uninit => LoggerCalls.uninit K m

/-- The members after the calls, and what the calls answered. After one that does not
return there is none. -/
def calls (cs : List (Call σ)) : Members σ × List Answer :=
  cs.foldl (fun r c => if .blocked ∈ r.2 then r else ((c.apply K r.1).1, r.2 ++ [(c.apply K r.1).2])) ({}, [])

def Accepted (sinks : List σ) : Prop := sinks ≠ [] ∧ ∀ k ∈ sinks, (K.init k).2 = true

def Started (cs : List (Call σ)) : Prop :=
  ∃ before lvl sinks ends after, cs = before ++ .init lvl sinks ends :: after ∧ Accepted K sinks ∧ .uninit ∉ after

/-- The last call is an Init that waits for ever to join the thread of an earlier one. -/
def Waits (cs : List (Call σ)) (c : Call σ) : Prop :=
  ∃ lvl sinks, c = .init lvl sinks false ∧ Accepted K sinks ∧ Started K cs ∧ .uninit ∉ cs

def Hangs (cs : List (Call σ)) : Prop := ∃ before c after, cs = before ++ c :: after ∧ Waits K before c

variable {K} {cs : List (Call σ)} {c : Call σ} {m : Members σ} {lvl : LogLevel} {sinks : List σ} {ends : Bool}

theorem calls_concat (cs : List (Call σ)) (c : Call σ) :
    calls K (cs ++ [c]) = if .blocked ∈ (calls K cs).2 then calls K cs
      else ((c.apply K (calls K cs).1).1, (calls K cs).2 ++ [(c.apply K (calls K cs).1).2]) := by
  rw [calls, List.foldl_append]
  rfl

theorem init_accepted (h : Accepted K sinks) : init K lvl sinks ends m =
    if m.joinable && !m.queueStopped && !ends then ({ m with sinks := (initSinks K sinks).1, lvl := lvl }, .blocked)
    else ({ m with sinks := (initSinks K sinks).1, lvl := lvl, joinable := true }, .initialised true) := by
  have hall : (initSinks K sinks).2 = true := List.all_eq_true.mpr h.2
  rw [init, if_neg (by simpa using h.1)]
  dsimp only
  rw [hall]
  rfl

theorem init_refused (h : ¬Accepted K sinks) : (init K lvl sinks ends m).1.joinable = m.joinable ∧
    (init K lvl sinks ends m).1.queueStopped = m.queueStopped ∧
    (init K lvl sinks ends m).2 = .initialised false := by
  rw [init]
  split
  case isTrue => exact ⟨rfl, rfl, rfl⟩
  case isFalse hne =>
      have hall : (initSinks K sinks).2 = false := by
        refine Bool.eq_false_iff.mpr fun hall => h ⟨by simpa using hne, List.all_eq_true.mp hall⟩
      dsimp only
      rw [hall]
      exact ⟨rfl, rfl, rfl⟩

theorem uninit_joinable (m : Members σ) : (uninit K m).1.joinable = false ∧ (uninit K m).1.queueStopped = true ∧
    (uninit K m).2 ≠ .blocked ∧ ((uninit K m).2 = .threw ↔ m.joinable = false) := by
  rw [uninit]
  dsimp only
  cases m.joinable <;> simp

theorem concat_cases {before after : List (Call σ)} {b : Call σ} (h : cs ++ [c] = before ++ b :: after) :
    (after = [] ∧ cs = before ∧ c = b) ∨ ∃ after', after = after' ++ [c] ∧ cs = before ++ b :: after' := by
  cases after using List.reverseRecOn with
  | nil =>
      obtain ⟨rfl, he⟩ := List.append_inj' h rfl
      exact .inl ⟨rfl, rfl, List.singleton_inj.mp he⟩
  | append_singleton after d =>
      rw [← List.cons_append, ← List.append_assoc] at h
      obtain ⟨rfl, he⟩ := List.append_inj' h rfl
      obtain rfl := List.singleton_inj.mp he
      exact .inr ⟨after, rfl, rfl⟩

theorem started_nil : ¬Started K [] := by
  rintro ⟨before, lvl, sinks, ends, after, h, -⟩
  simp at h

theorem started_concat_init (cs : List (Call σ)) (lvl : LogLevel) (sinks : List σ) (ends : Bool) :
    Started K (cs ++ [.init lvl sinks ends]) ↔ Accepted K sinks ∨ Started K cs := by
  constructor
  · rintro ⟨before, lvl', sinks', ends', after, h, ha, hu⟩
    obtain ⟨-, -, he⟩ | ⟨after, rfl, rfl⟩ := concat_cases h
    · cases he
      exact .inl ha
    · exact .inr ⟨before, lvl', sinks', ends', after, rfl, ha, fun hin => hu (List.mem_append_left _ hin)⟩
  · rintro (ha | ⟨before, lvl', sinks', ends', after, rfl, ha, hu⟩)
    · exact ⟨cs, lvl, sinks, ends, [], rfl, ha, List.not_mem_nil⟩
    · exact ⟨before, lvl', sinks', ends', after ++ [.init lvl sinks ends], by simp, ha, by simpa using hu⟩

theorem started_concat_uninit (cs : List (Call σ)) : ¬Started K (cs ++ [.uninit]) := by
  rintro ⟨before, lvl, sinks, ends, after, h, -, hu⟩
  obtain ⟨-, -, he⟩ | ⟨after, rfl, -⟩ := concat_cases h
  · cases he
  · exact hu (List.mem_append_right _ (List.mem_singleton.mpr rfl))

theorem hangs_nil : ¬Hangs K [] := by
  rintro ⟨before, c, after, h, -⟩
  simp at h

theorem hangs_concat (cs : List (Call σ)) (c : Call σ) : Hangs K (cs ++ [c]) ↔ Hangs K cs ∨ Waits K cs c := by
  constructor
  · rintro ⟨before, b, after, h, hw⟩
    obtain ⟨-, rfl, rfl⟩ | ⟨after, -, rfl⟩ := concat_cases h
    · exact .inr hw
    · exact .inl ⟨before, b, after, rfl, hw⟩
  · rintro (⟨before, b, after, rfl, hw⟩ | hw)
    · exact ⟨before, b, after ++ [c], by simp, hw⟩
    · exact ⟨cs, c, [], rfl, hw⟩

/-- What the calls made say of the members, as long as each has returned. -/
structure Tells (K : Sink σ) (cs : List (Call σ)) : Prop where
  blocked : .blocked ∈ (calls K cs).2 ↔ Hangs K cs
  joinable : ¬Hangs K cs → ((calls K cs).1.joinable = true ↔ Started K cs)
  stopped : ¬Hangs K cs → ((calls K cs).1.queueStopped = true ↔ .uninit ∈ cs)

theorem apply_blocked (h : Tells K cs) (hr : ¬Hangs K cs) :
    (c.apply K (calls K cs).1).2 = .blocked ↔ Waits K cs c := by
  cases c with
  | init lvl sinks ends =>
      by_cases ha : Accepted K sinks
      · have hwaits : Waits K cs (.init lvl sinks ends) ↔ ends = false ∧ Started K cs ∧ .uninit ∉ cs := by
          constructor
          · rintro ⟨lvl', sinks', he, -, hst, hu⟩
            cases he
            exact ⟨rfl, hst, hu⟩
          · rintro ⟨rfl, hst, hu⟩
            exact ⟨lvl, sinks, rfl, ha, hst, hu⟩
        rw [hwaits, Call.apply, init_accepted ha, ← h.joinable hr, ← h.stopped hr]
        cases (calls K cs).1.joinable <;> cases (calls K cs).1.queueStopped <;> cases ends <;> simp
      · refine iff_of_false ?_ ?_
        · rw [Call.apply, (init_refused ha).2.2]
          simp
        · rintro ⟨lvl', sinks', he, ha', -⟩
          cases he
          exact ha ha'
  | uninit =>
      refine iff_of_false (uninit_joinable _).2.2.1 ?_
      rintro ⟨lvl, sinks, he, -⟩
      cases he

theorem tells_concat (h : Tells K cs) (c : Call σ) : Tells K (cs ++ [c]) := by
  by_cases hr : Hangs K cs
  · have hr' : Hangs K (cs ++ [c]) := (hangs_concat cs c).mpr (.inl hr)
    refine ⟨iff_of_true ?_ hr', fun hn => absurd hr' hn, fun hn => absurd hr' hn⟩
    rw [calls_concat, if_pos (h.blocked.mpr hr)]
    exact h.blocked.mpr hr
  · have hreturned : .blocked ∉ (calls K cs).2 := fun hb => hr (h.blocked.mp hb)
    have happly := apply_blocked (c := c) h hr
    refine ⟨?_, fun hn => ?_, fun hn => ?_⟩
    · rw [calls_concat, if_neg hreturned, hangs_concat, or_iff_right hr, List.mem_append, or_iff_right hreturned,
        List.mem_singleton, eq_comm, happly]
    · have hw : ¬Waits K cs c := fun hw => hn ((hangs_concat cs c).mpr (.inr hw))
      rw [calls_concat, if_neg hreturned]
      cases c with
      | init lvl sinks ends =>
          rw [started_concat_init, ← h.joinable hr]
          by_cases ha : Accepted K sinks
          · refine iff_of_true ?_ (.inl ha)
            rw [← happly, Call.apply, init_accepted ha] at hw
            dsimp only
            rw [Call.apply, init_accepted ha]
            split
            case isTrue hb => simp [hb] at hw
            case isFalse => rfl
          · rw [or_iff_right ha]
            exact iff_of_eq (congrArg (· = true) (init_refused ha).1)
      | uninit =>
          refine iff_of_false ?_ (started_concat_uninit cs)
          rw [Call.apply, (uninit_joinable _).1]
          exact Bool.false_ne_true
    · rw [calls_concat, if_neg hreturned]
      cases c with
      | init lvl sinks ends =>
          have hsame : (init K lvl sinks ends (calls K cs).1).1.queueStopped = (calls K cs).1.queueStopped := by
            by_cases ha : Accepted K sinks
            · rw [init_accepted ha]
              split <;> rfl
            · exact (init_refused ha).2.1
          rw [Call.apply, hsame, h.stopped hr]
          simp
      | uninit => exact iff_of_true (uninit_joinable _).2.1 (by simp)

theorem tells (K : Sink σ) (cs : List (Call σ)) : Tells K cs := by
  induction cs using List.reverseRecOn with
  | nil =>
      exact ⟨iff_of_false List.not_mem_nil hangs_nil, fun _ => iff_of_false Bool.false_ne_true started_nil,
        fun _ => iff_of_false Bool.false_ne_true List.not_mem_nil⟩
  | append_singleton cs c ih => exact tells_concat ih c

theorem apply_threw (hr : ¬Hangs K cs) : (c.apply K (calls K cs).1).2 = .threw ↔ c = .uninit ∧ ¬Started K cs := by
  cases c with
  | init lvl sinks ends =>
      refine iff_of_false (fun h => ?_) fun h => (by cases h.1)
      by_cases ha : Accepted K sinks
      · rw [Call.apply, init_accepted ha] at h
        split at h <;> cases h
      · rw [Call.apply, (init_refused ha).2.2] at h
        cases h
  | uninit =>
      rw [Call.apply, (uninit_joinable _).2.2.2, ← (tells K cs).joinable hr, Bool.not_eq_true]
      exact (and_iff_right rfl).symm

/-- Uninit never joins a thread that is not joinable exactly when every Uninit that is
reached has an Init before it that was accepted, with no other Uninit in between. -/
theorem uninit_safe (K : Sink σ) (cs : List (Call σ)) : .threw ∉ (calls K cs).2 ↔
    ∀ before after, cs = before ++ .uninit :: after → ¬Hangs K before → Started K before := by
  induction cs using List.reverseRecOn with
  | nil => exact iff_of_true List.not_mem_nil fun before after h => by simp at h
  | append_singleton cs c ih =>
      have hlast : (∀ before after, cs ++ [c] = before ++ .uninit :: after → ¬Hangs K before → Started K before) ↔
          (∀ before after, cs = before ++ .uninit :: after → ¬Hangs K before → Started K before) ∧
            (c = .uninit → ¬Hangs K cs → Started K cs) := by
        constructor
        · intro h
          exact ⟨fun before after he => h before (after ++ [c]) (by rw [he]; simp), fun hc => h cs [] (by rw [hc])⟩
        · rintro ⟨hcs, hc⟩ before after h
          obtain ⟨-, rfl, he⟩ | ⟨after, -, he⟩ := concat_cases h
          · exact hc he
          · exact hcs before after he
      rw [hlast, ← ih, calls_concat]
      by_cases hr : Hangs K cs
      · rw [if_pos ((tells K cs).blocked.mpr hr)]
        exact (and_iff_left fun _ hn => absurd hr hn).symm
      · rw [if_neg fun hb => hr ((tells K cs).blocked.mp hb), List.mem_append, not_or, List.mem_singleton, eq_comm,
          apply_threw hr, not_and, not_not]
        exact and_congr_right fun _ => imp_congr_right fun _ => ⟨fun h _ => h, fun h => h hr⟩

theorem uninit_alone : (calls (⟨fun k => (k, true), id, fun _ _ k => (k, true)⟩ : Sink Unit) [.uninit]).2 = [.threw] := rfl

/-- The second Init waits for ever. -/
example : (calls (⟨fun k => (k, true), id, fun _ _ k => (k, true)⟩ : Sink Unit)
    [.init .info [()] false, .init .info [()] false, .uninit, .uninit]).2 = [.initialised true, .blocked] := rfl

/-! ### In the threads of the program -/

def obs (_ : State σ) : Action σ → List (Call σ)
  | .init lvl sinks => [.init lvl sinks true]
  | .uninit => [.uninit]
  | .logIt _ _ | .step _ _ => []

def Agrees (K : Sink σ) (s : State σ) (cs : List (Call σ)) : Option (ControlPc σ) → Prop
  | none | some (.returned _) | some (.uninitSink _) => s.thread.isSome ↔ Started K cs
  | some (.initAssign _ sinks) => s.thread = none ∧ (Started K cs ↔ Accepted K sinks)
  | some (.initSink i b) =>
      s.thread = none ∧ (Started K cs ↔ b = true ∧ ∀ k ∈ s.sinks.drop i, (K.init k).2 = true)
  | some .initSpawn => s.thread = none ∧ Started K cs
  | some (.uninitQueue _) | some .uninitRequest | some .uninitJoin =>
      ∃ before, cs = before ++ [.uninit] ∧ (s.thread.isSome ↔ Started K before)
  | some .threw => ∃ before, cs = before ++ [.uninit] ∧ s.thread = none ∧ ¬Started K before

theorem not_started_of_init {s : State σ} (h : s.thread = none) (ha : s.thread.isSome ↔ Started K cs) :
    ¬Started K cs := by
  rw [h] at ha
  exact fun hs => by cases ha.mpr hs

theorem controlStep_agrees {s s' : State σ} {pc : ControlPc σ} {pc' : Option (ControlPc σ)}
    (hs : ControlStep K s pc s' pc') (ha : Agrees K s cs (some pc)) : Agrees K s' cs pc' := by
  cases hs with
  | refused lvl =>
      refine iff_of_false ?_ fun hst => (ha.2.mp hst).1 rfl
      rw [ha.1]
      exact Bool.false_ne_true
  | assign lvl sinks hne =>
      refine ⟨ha.1, ha.2.trans ?_⟩
      rw [List.drop_zero]
      exact ⟨fun h => ⟨rfl, h.2⟩, fun h => ⟨hne, h.2⟩⟩
  | initSink i b k hk =>
      refine ⟨ha.1, ha.2.trans ?_⟩
      obtain ⟨hi, rfl⟩ := List.getElem?_eq_some_iff.mp hk
      rw [List.drop_eq_getElem_cons hi, List.forall_mem_cons, Bool.and_eq_true, and_assoc,
        List.drop_set_of_lt (Nat.lt_succ_self i)]
  | initialised i hk =>
      refine ⟨ha.1, ha.2.mpr ⟨rfl, ?_⟩⟩
      rw [List.drop_eq_nil_of_le (List.getElem?_eq_none_iff.mp hk)]
      exact List.forall_mem_nil _
  | failed i hk =>
      refine iff_of_false ?_ fun hst => Bool.false_ne_true (ha.2.mp hst).1
      rw [ha.1]
      exact Bool.false_ne_true
  | spawn => exact iff_of_true rfl ha.2
  | queueStopped r => exact ha
  | stopQueue p p' q hs => exact ha
  | request =>
      obtain ⟨before, hcs, hb⟩ := ha
      exact ⟨before, hcs, by rw [← hb, Option.isSome_map]⟩
  | notJoinable ht =>
      obtain ⟨before, hcs, hb⟩ := ha
      exact ⟨before, hcs, ht, not_started_of_init ht hb⟩
  | joined b ht =>
      obtain ⟨before, rfl, -⟩ := ha
      exact iff_of_false Bool.false_ne_true (started_concat_uninit before)
  | uninitSink i k hk => exact ha
  | uninitialised i hk => exact ha
  | left r => exact ha
  | thrown =>
      obtain ⟨before, rfl, ht, -⟩ := ha
      refine iff_of_false ?_ (started_concat_uninit before)
      rw [ht]
      exact Bool.false_ne_true

theorem agrees_of_thread {s s' : State σ} {pc : Option (ControlPc σ)} (ht : s.thread.isSome = true)
    (ht' : s'.thread.isSome = true) (ha : Agrees K s cs pc) : Agrees K s' cs pc := by
  have hsome : s.thread ≠ none := Option.isSome_iff_ne_none.mp ht
  have hsame : s'.thread.isSome ↔ s.thread.isSome := iff_of_true ht' ht
  cases pc with
  | none => exact hsame.trans ha
  | some pc =>
      cases pc with
      | returned | uninitSink => exact hsame.trans ha
      | initAssign | initSink | initSpawn => exact absurd ha.1 hsome
      | uninitQueue | uninitRequest | uninitJoin =>
          obtain ⟨before, hcs, hb⟩ := ha
          exact ⟨before, hcs, hsame.trans hb⟩
      | threw =>
          obtain ⟨before, -, hnone, -⟩ := ha
          exact absurd hnone hsome

theorem agrees_frame {s s' : State σ} {pc : Option (ControlPc σ)} (ht : s'.thread = s.thread)
    (hk : s'.sinks = s.sinks) (ha : Agrees K s cs pc) : Agrees K s' cs pc := by
  cases pc with
  | none => simpa only [Agrees, ht] using ha
  | some pc => cases pc <;> simpa only [Agrees, ht, hk] using ha

theorem loopStep_thread {s s' : State σ} {b : Bool} {pc : LoopPc} (hs : LoopStep K s b pc s') :
    s'.thread.isSome = true ∧ s'.control = s.control := by
  cases hs <;> exact ⟨rfl, rfl⟩

theorem move_agrees {s s' : State σ} {a : Action σ} (hn : Move K s a s') (ha : Agrees K s cs s.control) :
    Agrees K s' (cs ++ obs s a) s'.control := by
  cases hn with
  | logIt c msg hc | leave c ch r hc | client c ch p' q hs =>
      rw [obs, List.append_nil]
      exact agrees_frame rfl rfl ha
  | init lvl sinks hc ht =>
      rw [hc] at ha
      refine ⟨ht, (started_concat_init cs lvl sinks true).trans ?_⟩
      exact or_iff_left (not_started_of_init ht ha)
  | uninit hc =>
      rw [hc] at ha
      exact ⟨cs, rfl, ha⟩
  | thread ch pc b s' ht hs =>
      obtain ⟨ht', hc⟩ := loopStep_thread hs
      rw [obs, List.append_nil, hc]
      exact agrees_of_thread (by rw [ht]; rfl) ht' ha
  | control ch pc pc' s' hc hs =>
      rw [hc] at ha
      rw [obs, List.append_nil]
      have ha' := controlStep_agrees hs ha
      exact agrees_frame rfl rfl ha'

theorem reachable_agrees {s : State σ} (hr : Reachable (logged (system K) obs) Any (s, cs)) : Agrees K s cs s.control := by
  refine hr.logged_invariant (P := fun s cs => Agrees K s cs s.control) ?_ ?_
  · rintro s rfl
    exact iff_of_false Bool.false_ne_true started_nil
  · intro s cs a s' _ ha _ hn
    exact move_agrees (next_sound hn) ha

/-- There the calls all return: an Init is made while there is no thread. -/
theorem reachable_returns {s : State σ} (hr : Reachable (logged (system K) obs) Any (s, cs)) : ¬Hangs K cs := by
  have hends : ∀ lvl sinks, Call.init lvl sinks false ∉ cs := by
    refine hr.logged_invariant (P := fun _ cs => ∀ lvl sinks, Call.init lvl sinks false ∉ cs) ?_ ?_
    · exact fun s _ lvl sinks => List.not_mem_nil
    · intro s cs a s' _ hs _ _ lvl sinks hm
      rcases List.mem_append.mp hm with hm | hm
      · exact hs lvl sinks hm
      · cases a <;> simp [obs] at hm
  rintro ⟨before, c, after, rfl, lvl, sinks, rfl, -⟩
  exact hends lvl sinks (by simp)

/-- With Init and Uninit as calls of one thread beside the others, the thread of the logger
is there when the calls leave it joinable, and an Uninit throws where its call does. -/
theorem threads_agree {s : State σ} (hr : Reachable (logged (system K) obs) Any (s, cs)) :
    (s.control = none → s.thread.isSome = (calls K cs).1.joinable) ∧
      (s.control = some .threw → (calls K cs).2.getLast? = some .threw) := by
  have ha := reachable_agrees hr
  have hreturns := reachable_returns hr
  constructor
  · intro hc
    rw [hc] at ha
    exact Bool.eq_iff_iff.mpr (ha.trans ((tells K cs).joinable hreturns).symm)
  · intro hc
    rw [hc] at ha
    obtain ⟨before, rfl, -, hb⟩ := ha
    have hbefore : ¬Hangs K before := fun hh => hreturns ((hangs_concat before _).mpr (.inl hh))
    rw [calls_concat, if_neg fun hm => hbefore ((tells K before).blocked.mp hm), List.getLast?_concat]
    exact congrArg some ((apply_threw hbefore).mpr ⟨rfl, hb⟩)

end Enigma.LoggerCalls
