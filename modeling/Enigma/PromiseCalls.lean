import Enigma.Promise

namespace Enigma.PromiseCalls

open Promise

variable {V : Side → Type} {C E : Type} {τ : Traits V C} {s : SharedState V C} {d : Side}

def settles : Request V C E → Bool
  | .settle _ _ => true
  | _ => false

def registered (d : Side) (rs : List (Request V C E)) : List C := rs.filterMap fun
  | .register d' c => if d' = d then some c else none
  | _ => none

/-- The callbacks a settled promise hands its value to, one after the other:
each gets the object as the ones before have left it. -/
def handOut (τ : Traits V C) (d : Side) : Option (V d) → List C → List (Call V C)
  | _, [] => []
  | x, c :: cs =>
      if τ.void d then ⟨d, c, none⟩ :: handOut τ d x cs
      else match x with
        | some x => ⟨d, c, some x⟩ :: handOut τ d (some (τ.leaves d c x)) cs
        | none => handOut τ d none cs

theorem apply_register (s : SharedState V C) (d : Side) (c : C) :
    apply (E := E) τ s (.register d c) = setFunc τ d (some c) s := by
  cases d <;> rfl

theorem apply_settle (s : SharedState V C) (d : Side) (arg : Except E (V d)) :
    apply τ s (.settle d arg) = ((settle τ d arg s).state, (settle τ d arg s).calls) := by
  cases d <;> rfl

theorem settledAs_iff : settledAs s d = true ↔ s.isFinished = true ∧ s.isSuccessed = decide (d = .success) := by
  cases d <;> simp [settledAs]

theorem settledAs_open (h : s.isFinished = false) (d : Side) : settledAs s d = false := by
  cases d <;> simp [settledAs, h]

theorem run_open (h : s.isFinished = false) (rs : List (Request V C E))
    (hrs : ∀ r ∈ rs, settles r = false) :
    run τ s rs = ({ s with func := fun d => (registered d rs).getLast?.or (s.func d) }, []) := by
  induction rs generalizing s with
  | nil => simp [run, registered]
  | cons r rs ih =>
      have hrest : ∀ r ∈ rs, settles r = false := fun r hr => hrs r (List.mem_cons_of_mem _ hr)
      cases r with
      | settle d arg => cases hrs _ List.mem_cons_self
      | isFinished | isSuccessed =>
          simp only [run, apply, ih h hrest, registered, List.filterMap_cons, List.nil_append]
      | register d c =>
          simp only [run, apply_register, setFunc, settledAs_open h d, Bool.false_eq_true, if_false]
          rw [ih (s := { s with func := Function.update s.func d (some c) }) h hrest]
          simp only [List.nil_append, Prod.mk.injEq, SharedState.mk.injEq, true_and, and_true]
          funext d'
          by_cases hd : d' = d
          · subst hd
            simp [registered, List.getLast?_cons]
          · simp [registered, hd, Ne.symm hd]

theorem invoke_calls (τ : Traits V C) (d : Side) (c : C) (s : SharedState V C) (cs : List C) :
    (invoke τ d c s).2 ++ handOut τ d ((invoke τ d c s).1.value d) cs =
      handOut τ d (s.value d) (c :: cs) := by
  unfold invoke
  by_cases hv : τ.void d = true
  · simp [hv, handOut]
  · cases hx : s.value d with
    | none => simp [hv, hx, handOut]
    | some x => simp [hv, handOut]

theorem invoke_settledAs (τ : Traits V C) (d d' : Side) (c : C) (s : SharedState V C) :
    settledAs (invoke τ d c s).1 d' = settledAs s d' := by
  unfold invoke
  split
  · rfl
  · split <;> cases d' <;> rfl

/-- Once settled, a promise serves every new callback of the winning side at
once, and nothing else. -/
theorem run_settled (h : settledAs s d = true) (rs : List (Request V C E)) :
    (run τ s rs).2 = handOut τ d (s.value d) (registered d rs) ∧ settledAs (run τ s rs).1 d = true := by
  induction rs generalizing s with
  | nil => exact ⟨rfl, h⟩
  | cons r rs ih =>
      cases r with
      | isFinished | isSuccessed => simpa [run, apply, registered] using ih h
      | settle d' arg =>
          have hf := (settledAs_iff.mp h).1
          simpa [run, apply_settle, settle, hf, registered] using ih h
      | register d' c =>
          simp only [run, apply_register, setFunc]
          by_cases hd : d' = d
          · subst hd
            obtain ⟨hcalls, hstill⟩ := ih (s := (invoke τ d' c s).1) ((invoke_settledAs τ d' d' c s).trans h)
            rw [if_pos h, hcalls, invoke_calls]
            simp only [registered, List.filterMap_cons, if_true]
            exact ⟨trivial, hstill⟩
          · have hlost : settledAs s d' = false := by
              obtain ⟨hf, hs⟩ := settledAs_iff.mp h
              cases d <;> cases d' <;> simp_all [settledAs]
            have hkeep : settledAs { s with func := Function.update s.func d' (some c) } d = true := by
              cases d <;> exact h
            rw [if_neg (by simp [hlost])]
            simpa [registered, hd] using ih hkeep

theorem handOut_void (h : τ.void d = true) (x : Option (V d)) (cs : List C) :
    handOut τ d x cs = cs.map fun c => ⟨d, c, none⟩ := by
  induction cs with
  | nil => rfl
  | cons c cs ih => simp [handOut, h, ih]

theorem handOut_none (h : τ.void d = false) (cs : List C) : handOut τ d none cs = [] := by
  induction cs with
  | nil => rfl
  | cons c cs ih => simp [handOut, h, ih]

theorem runFunc_calls (τ : Traits V C) (d : Side) (s : SharedState V C) (cs : List C) :
    (runFunc τ d s).2 ++ handOut τ d ((runFunc τ d s).1.value d) cs =
      handOut τ d (s.value d) ((s.func d).toList ++ cs) := by
  unfold runFunc
  cases hc : s.func d with
  | none => rfl
  | some c => exact invoke_calls τ d c s cs

theorem runFunc_settledAs (τ : Traits V C) (d d' : Side) (s : SharedState V C) :
    settledAs (runFunc τ d s).1 d' = settledAs s d' := by
  unfold runFunc
  cases s.func d with
  | none => rfl
  | some c => exact invoke_settledAs τ d d' c s

theorem settle_decides (h : s.isFinished = false) (hx : s.value d = none) (arg : Except E (V d)) (cs : List C) :
    (settle τ d arg s).calls ++ handOut τ d ((settle τ d arg s).state.value d) cs =
      handOut τ d arg.toOption ((s.func d).toList ++ cs) ∧
    settledAs (settle τ d arg s).state d = true := by
  unfold settle
  by_cases hv : τ.void d = true
  · simp only [h, hv, Bool.false_eq_true, if_false, if_true]
    refine ⟨?_, ?_⟩
    · rw [runFunc_calls, handOut_void hv, handOut_void hv]
    · rw [runFunc_settledAs]
      cases d <;> rfl
  · simp only [h, hv, Bool.false_eq_true, if_false]
    have hv : τ.void d = false := by simpa using hv
    cases arg with
    | error e =>
        refine ⟨?_, ?_⟩
        · simp only [hx, Except.toOption, handOut_none hv, List.append_nil]
        · cases d <;> rfl
    | ok v =>
        refine ⟨?_, ?_⟩
        · rw [runFunc_calls]
          simp [Except.toOption]
        · rw [runFunc_settledAs]
          cases d <;> rfl

theorem run_decided (τ : Traits V C) (d : Side) (arg : Except E (V d)) {pre : List (Request V C E)}
    (post : List (Request V C E)) (hpre : ∀ r ∈ pre, settles r = false) :
    (run τ {} (pre ++ .settle d arg :: post)).2 =
      handOut τ d arg.toOption ((registered d pre).getLast?.toList ++ registered d post) ∧
    settledAs (run τ {} (pre ++ .settle d arg :: post)).1 d = true := by
  have hopen := run_open (τ := τ) (s := {}) rfl pre hpre
  have hsettle := settle_decides (τ := τ)
    (s := { func := fun d => (registered d pre).getLast?.or none }) rfl rfl arg (registered d post)
  obtain ⟨hcalls, hstill⟩ := run_settled (τ := τ) hsettle.2 post
  rw [run_append, hopen]
  simp only [run, apply_settle, List.nil_append]
  refine ⟨?_, hstill⟩
  rw [hcalls, hsettle.1]
  simp

/-- The callbacks a sequence of operations comes to, read off the sequence:
`pre` is what precedes the first settling call. -/
def answered (τ : Traits V C) (pre : List (Request V C E)) : List (Request V C E) → List (Call V C)
  | [] => []
  | .settle d arg :: post =>
      handOut τ d arg.toOption ((registered d pre).getLast?.toList ++ registered d post)
  | r :: rs => answered τ (pre ++ [r]) rs

theorem run_answered (τ : Traits V C) {pre : List (Request V C E)} (hpre : ∀ r ∈ pre, settles r = false)
    (rs : List (Request V C E)) : (run τ {} (pre ++ rs)).2 = answered τ pre rs := by
  induction rs generalizing pre with
  | nil => rw [List.append_nil, run_open rfl pre hpre, answered]
  | cons r rs ih =>
      cases r with
      | settle d arg => exact (run_decided τ d arg _ hpre).1
      | isFinished | isSuccessed | register d c =>
          rw [List.append_cons, answered]
          · apply ih
            intro r' hr'
            rcases List.mem_append.mp hr' with hr' | hr'
            · exact hpre r' hr'
            · rw [List.mem_singleton.mp hr']
              rfl
          · intro d arg h
            cases h

def fired (c : Call V C) : Side × C := (c.side, c.func)

theorem fired_handOut (τ : Traits V C) (d : Side) (v : V d) (cs : List C) :
    (handOut τ d (some v) cs).map fired = cs.map fun c => (d, c) := by
  induction cs generalizing v with
  | nil => rfl
  | cons c cs ih =>
      by_cases hv : τ.void d = true
      · simp [handOut, hv, fired, ih]
      · simp [handOut, hv, fired, ih]

/-- The first call that settles the promise decides for ever: the callbacks invoked are the last one
registered on that side before and every one registered on it after. -/
theorem callbacks_invoked (τ : Traits V C) (ops : List (Op V C E)) :
    ((∀ r ∈ requests τ {} ops, settles r = false) →
      (issueAll τ {} ops).2 = [] ∧ (issueAll τ {} ops).1.shared.isFinished = false) ∧
    ∀ pre d v post, requests τ {} ops = pre ++ .settle d (.ok v) :: post →
      (∀ r ∈ pre, settles r = false) →
      (issueAll τ {} ops).2.map fired =
        ((registered d pre).getLast?.toList ++ registered d post).map (fun c => (d, c)) ∧
      ∀ f, attached (issueAll τ {} ops).1.futures f = true →
        futureIsFinished (issueAll τ {} ops).1 f = true ∧
        futureIsSuccessed (issueAll τ {} ops).1 f = decide (d = .success) := by
  obtain ⟨hshared, hlog⟩ := Prod.ext_iff.mp (issueAll_eq_run τ {} ops)
  simp only at hshared hlog
  refine ⟨fun hnone => ?_, fun pre d v post hrs hpre => ?_⟩
  · rw [hshared, hlog, run_open (s := ({} : SharedState V C)) rfl _ hnone]
    exact ⟨rfl, rfl⟩
  · obtain ⟨hcalls, hstill⟩ := run_decided τ d (.ok v) post hpre
    rw [← hrs] at hcalls hstill
    refine ⟨?_, fun f hf => ?_⟩
    · rw [hlog, hcalls]
      exact fired_handOut τ d v _
    · obtain ⟨hfin, hsucc⟩ := settledAs_iff.mp hstill
      rw [← hshared] at hfin hsucc
      simp [futureIsFinished, futureIsSuccessed, isSuccessed, hf, hfin, hsucc]

/-- Two callbacks replace each other; after the promise has succeeded a third one
is served at once, and a late failure changes nothing. -/
theorem callbacks_invoked_late :
    let ops : List (Op (fun _ => Nat) Nat Unit) := [.getFuture 0, .thenDo 0 (some 1), .getFuture 0,
      .thenDo 1 (some 2), .fail 0 (some 7), .setSuccessed 0 (.ok 42), .setFailed 0 (.ok 5), .thenDo 0 (some 3)]
    let τ : Traits (fun _ => Nat) Nat := ⟨fun _ => false, fun _ _ x => x⟩
    (issueAll τ {} ops).2.map fired = [(.success, 2), (.success, 3)] ∧
      futureIsSuccessed (issueAll τ {} ops).1 1 = true := by
  intro ops τ
  obtain ⟨hcalls, hfut⟩ := (callbacks_invoked τ ops).2
    [.register .success 1, .register .success 2, .register .fail 7] .success 42
    [.settle .fail (.ok 5), .register .success 3] rfl (by
      intro r hr
      simp only [List.mem_cons, List.not_mem_nil, or_false] at hr
      rcases hr with rfl | rfl | rfl <;> rfl)
  exact ⟨hcalls, (hfut 1 (by decide +kernel)).2⟩

theorem mem_handOut_iff (h : τ.void d = false) (v : V d) (cs : List C) :
    (∀ call ∈ handOut τ d (some v) cs, ∃ c, call = ⟨d, c, some v⟩) ↔
      ∀ c ∈ cs.dropLast, τ.leaves d c v = v := by
  induction cs with
  | nil => simp [handOut]
  | cons c cs ih =>
      cases cs with
      | nil => simp [handOut, h]
      | cons c' cs =>
          have hcons (x : V d) : handOut τ d (some x) (c' :: cs) =
              ⟨d, c', some x⟩ :: handOut τ d (some (τ.leaves d c' x)) cs := by
            simp [handOut, h]
          rw [handOut, if_neg (by simp [h]), List.dropLast_cons_cons]
          constructor
          · intro hall
            -- the second callback receives what the first one has left
            have hsecond : τ.leaves d c v = v := by
              obtain ⟨c'', he⟩ := hall ⟨d, c', some (τ.leaves d c v)⟩ (by simp [hcons])
              simp only [Call.mk.injEq, heq_eq_eq, Option.some.injEq, true_and] at he
              exact he.2
            rw [hsecond] at hall
            intro b hb
            rcases List.mem_cons.mp hb with rfl | hb
            · exact hsecond
            · exact ih.mp (fun call hc => hall call (List.mem_cons_of_mem _ hc)) b hb
          · intro hall call hc
            have hfirst := hall c List.mem_cons_self
            rw [hfirst] at hc
            rcases List.mem_cons.mp hc with rfl | hc
            · exact ⟨c, rfl⟩
            · exact ih.mpr (fun b hb => hall b (List.mem_cons_of_mem _ hb)) call hc

/-- Every callback receives the deciding value if and only if none that is
invoked before another one changes the object it is handed. -/
theorem arguments_intact_iff (τ : Traits V C) (ops : List (Op V C E)) {pre post : List (Request V C E)}
    {d : Side} {v : V d} (hrs : requests τ {} ops = pre ++ .settle d (.ok v) :: post)
    (hpre : ∀ r ∈ pre, settles r = false) (hvoid : τ.void d = false) :
    (∀ call ∈ (issueAll τ {} ops).2, ∃ c, call = ⟨d, c, some v⟩) ↔
      ∀ c ∈ ((registered d pre).getLast?.toList ++ registered d post).dropLast, τ.leaves d c v = v := by
  have hlog := (Prod.ext_iff.mp (issueAll_eq_run τ {} ops)).2
  simp only at hlog
  rw [hlog, hrs, (run_decided τ d (.ok v) _ hpre).1]
  exact mem_handOut_iff hvoid v _

theorem arguments_intact_single :
    let ops : List (Op (fun _ => Nat) Nat Unit) := [.getFuture 0, .thenDo 0 (some 1), .setSuccessed 0 (.ok 42)]
    let τ : Traits (fun _ => Nat) Nat := ⟨fun _ => false, fun _ _ _ => 0⟩
    ∀ call ∈ (issueAll τ {} ops).2, ∃ c, call = ⟨.success, c, some 42⟩ := by
  intro ops τ
  have hrs : requests τ {} ops = [.register .success 1] ++ .settle .success (.ok 42) :: [] := rfl
  refine (arguments_intact_iff τ ops hrs ?_ rfl).mpr ?_
  · intro r hr
    rw [List.mem_singleton.mp hr]
    rfl
  · intro c hc
    cases hc

/-- The first callback moves from the value, and the late one receives what is
left of it. -/
theorem late_argument_moved : ¬ ∀ (ops : List (Op (fun _ => Nat) Nat Unit)) (pre post : List _) (v : Nat),
    requests ⟨fun _ => false, fun _ _ _ => 0⟩ {} ops = pre ++ .settle .success (.ok v) :: post →
    (∀ r ∈ pre, settles r = false) →
    ∀ call ∈ (issueAll ⟨fun _ => false, fun _ _ _ => 0⟩ {} ops).2, ∃ c, call = ⟨.success, c, some v⟩ := by
  intro hall
  obtain ⟨c, hc⟩ := hall [.getFuture 0, .thenDo 0 (some 1), .setSuccessed 0 (.ok 42), .thenDo 0 (some 2)]
    [.register .success 1] [.register .success 2] 42 rfl
    (by
      intro r hr
      rw [List.mem_singleton.mp hr]
      rfl)
    ⟨.success, 2, some 0⟩ (by simp [issueAll, issue, request, handle, attached, apply, setSuccessFunc, setFunc,
      settledAs, setSuccessed, settle, runFunc, invoke])
  simp at hc

theorem invoke_isFinished (τ : Traits V C) (d : Side) (c : C) (s : SharedState V C) :
    (invoke τ d c s).1.isFinished = s.isFinished := by
  unfold invoke
  split
  · rfl
  · split <;> rfl

theorem settle_isFinished (τ : Traits V C) (d : Side) (arg : Except E (V d)) (s : SharedState V C) :
    (settle τ d arg s).state.isFinished = true := by
  have hrun (s : SharedState V C) (hs : s.isFinished = true) : (runFunc τ d s).1.isFinished = true := by
    unfold runFunc
    cases s.func d with
    | none => exact hs
    | some c => exact (invoke_isFinished τ d c s).trans hs
  unfold settle
  split
  · assumption
  · split
    · exact hrun _ rfl
    · cases arg with
      | error e => rfl
      | ok x => exact hrun _ rfl

theorem run_isFinished (τ : Traits V C) (s : SharedState V C) (rs : List (Request V C E)) :
    (run τ s rs).1.isFinished = (s.isFinished || rs.any settles) := by
  induction rs generalizing s with
  | nil => simp [run]
  | cons r rs ih =>
      have hstep : (apply τ s r).1.isFinished = (s.isFinished || settles r) := by
        cases r with
        | isFinished | isSuccessed => simp [apply, settles]
        | settle d arg => simp [apply_settle, settle_isFinished, settles]
        | register d c =>
            simp only [apply_register, setFunc, settles, Bool.or_false]
            split
            · exact invoke_isFinished τ d c s
            · rfl
      rw [run, ih, hstep, List.any_cons, Bool.or_assoc]

theorem settle_thrown {arg : Except E (V d)} {e : E} (h : (settle τ d arg s).thrown = some e) :
    s.isFinished = false ∧ τ.void d = false ∧
      (settle τ d arg s).state = { s with isFinished := true, isSuccessed := decide (d = .success) } := by
  unfold settle at h ⊢
  split at h
  · cases h
  · split at h
    · cases h
    · cases arg with
      | ok x => cases h
      | error e' => simp_all

/-- A settling call that is left by an exception has changed the state, and has
lost every callback: none registered before or after it, on either side, is ever
invoked, whatever else is called. -/
theorem throwing_settle_loses (τ : Traits V C) (rs : List (Request V C E)) (d : Side) (arg : Except E (V d))
    (e : E) (hthrow : (settle τ d arg (run τ {} rs).1).thrown = some e) :
    (settle τ d arg (run τ {} rs).1).state ≠ (run τ {} rs).1 ∧
    ∀ rs' : List (Request V C E), (run τ (settle τ d arg (run τ {} rs).1).state rs').2 = [] := by
  obtain ⟨hopen, hvoid, hstate⟩ := settle_thrown hthrow
  have hquiet : ∀ r ∈ rs, settles r = false := by
    rw [run_isFinished] at hopen
    simpa using hopen
  refine ⟨fun heq => ?_, fun rs' => ?_⟩
  · rw [heq] at hstate
    have := congrArg SharedState.isFinished hstate
    rw [hopen] at this
    cases this
  · have hvalue : (run τ {} rs).1.value d = none := by
      rw [run_open (s := ({} : SharedState V C)) rfl rs hquiet]
    have hsettled : settledAs (settle τ d arg (run τ {} rs).1).state d = true := by
      rw [hstate]
      cases d <;> rfl
    rw [(run_settled hsettled rs').1, hstate]
    simp only [hvalue]
    exact handOut_none hvoid _

/-- The construction of the value throws; the failure reported in its place is
dropped, with both callbacks. -/
theorem throwing_settle_loses_failure :
    let τ : Traits (fun _ => Nat) Nat := ⟨fun _ => false, fun _ _ x => x⟩
    let rs : List (Request (fun _ => Nat) Nat Unit) := [.register .success 1, .register .fail 7]
    (run τ (settle τ .success (.error ()) (run τ {} rs).1).state
      [(.settle .fail (.ok 5) : Request (fun _ => Nat) Nat Unit)]).2 = [] := by
  intro τ rs
  exact (throwing_settle_loses τ rs .success (.error ()) () rfl).2 _

theorem throwing_settle_finishes : ¬ ∀ (rs : List (Request (fun _ => Nat) Nat Unit)) (arg : Except Unit Nat) (e : Unit),
    (settle ⟨fun _ => false, fun _ _ x => x⟩ .success arg (run ⟨fun _ => false, fun _ _ x => x⟩ {} rs).1).thrown = some e →
    (settle ⟨fun _ => false, fun _ _ x => x⟩ .success arg (run ⟨fun _ => false, fun _ _ x => x⟩ {} rs).1).state =
      (run ⟨fun _ => false, fun _ _ x => x⟩ {} rs).1 := by
  intro hall
  have hkept := hall [.register .success 1] (.error ()) () rfl
  cases congrArg SharedState.isFinished hkept

end Enigma.PromiseCalls
