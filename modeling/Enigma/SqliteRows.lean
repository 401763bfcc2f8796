import Enigma.Loop
import Enigma.Sqlite

namespace Enigma.SqliteRows

open Sqlite Loop

variable {ε : Type}

/-! ### The loop of Exec -/

structure ExecState (ε : Type) where
  code : Code
  rows : List Columns
  engine : ε

/-- No branch steps the statement again. -/
def execBody (A : Api ε) (stmt : Option Nat) (st : ExecState ε) : ExecState ε ⊕ (List Columns × ε) :=
  if st.code = .locked ∨ st.code = .busy then .inl st
  else if st.code = .done then .inr (st.rows, (A.finalize stmt st.engine).2)
  else if st.code = .row then
    .inl { st with rows := st.rows ++ [readRow (A.malloc · st.engine) (A.columns stmt st.engine)] }
  else .inl st

def execLoop (A : Api ε) (fuel : Nat) (sql : String) (rows : List Columns) (s : Impl ε) :
    Option (Result × List Columns × Impl ε) :=
  if sql = "" then some ((false, "invalid sql"), rows, s)
  else if s.db = none then some ((false, "invalid db"), rows, s)
  else
    let p := A.prepareV2 s.db sql (castInt sql.utf8ByteSize) s.engine
    if p.1.1 ≠ .ok then
      let r := error A { s with engine := p.2 }
      some ((false, r.1), rows, r.2)
    else
      let t := A.step p.1.2 p.2
      (iterate (execBody A p.1.2) fuel ⟨t.1, [], t.2⟩).map fun r => ((true, ""), r.1, { s with engine := r.2 })

variable {A : Api ε} {stmt : Option Nat} {st : ExecState ε} {fuel : Nat} {sql : String} {rows : List Columns}
  {s : Impl ε} {r : Result × List Columns × Impl ε}

theorem execBody_done (h : st.code = .done) :
    execBody A stmt st = .inr (st.rows, (A.finalize stmt st.engine).2) := by
  rw [execBody, h, if_neg (by decide), if_pos rfl]

/-- A round keeps the code, so that the loop ends in its first round or not at all. -/
theorem execBody_next (h : st.code ≠ .done) : ∃ st', execBody A stmt st = .inl st' ∧ st'.code = st.code := by
  unfold execBody
  split
  · exact ⟨_, rfl, rfl⟩
  · split <;> exact ⟨_, rfl, rfl⟩

theorem loop_done (h : st.code = .done) (n : Nat) :
    iterate (execBody A stmt) (n + 1) st = some (st.rows, (A.finalize stmt st.engine).2) :=
  iterate_exit (execBody_done h) n

theorem loop_stuck (h : st.code ≠ .done) (n : Nat) : iterate (execBody A stmt) n st = none := by
  refine iterate_eq_none (I := fun st => st.code ≠ .done) (fun st hst => ?_) h n
  obtain ⟨st', hb, hc⟩ := @execBody_next ε A stmt st hst
  exact ⟨st', hb, hc ▸ hst⟩

theorem loop_iff (st : ExecState ε) (r : List Columns × ε) : (∃ fuel, iterate (execBody A stmt) fuel st = some r) ↔
    st.code = .done ∧ r = (st.rows, (A.finalize stmt st.engine).2) := by
  by_cases h : st.code = .done
  · constructor
    · rintro ⟨fuel, hr⟩
      cases fuel with
      | zero => cases hr
      | succ n =>
          rw [loop_done h n, Option.some.injEq] at hr
          exact ⟨h, hr.symm⟩
    · rintro ⟨-, rfl⟩
      exact ⟨1, loop_done h 0⟩
  · refine iff_of_false ?_ fun hr => h hr.1
    rintro ⟨fuel, hr⟩
    rw [loop_stuck h] at hr
    cases hr

theorem execLoop_iff : (∃ fuel, execLoop A fuel sql rows s = some r) ↔ exec A sql rows s = some r := by
  unfold execLoop exec
  split
  · exact exists_const Nat
  split
  · exact exists_const Nat
  dsimp only
  split
  · exact exists_const Nat
  simp only [Option.map_eq_some_iff]
  rw [exists_comm]
  simp only [exists_and_right, loop_iff]
  generalize A.step _ _ = t
  by_cases hdone : t.1 = .done
  · rw [if_neg (by rw [hdone]; decide), if_pos hdone]
    simp [hdone]
  · rw [if_neg hdone, ite_self]
    simp [hdone]

/-! ### A statement that gives rows -/

/-- The rows a statement has still to give and the code after them, the row it stands on,
and the code of the last call on it. -/
structure Cursor where
  rest : List (List (String × Column))
  last : Code
  current : List (String × Column) := []
  code : Code := .ok
  finalized : Bool := false

def Cursor.step (e : Cursor) : Code × Cursor := match e.rest with
  | [] => (e.last, { e with code := e.last })
  | row :: rest => (.row, { e with rest := rest, current := row, code := .row })

def api (errstr : Code → String) (malloc : Nat → Bool) : Api Cursor :=
  { still Cursor.code errstr with
    step := fun _ e => e.step
    columns := fun _ e => e.current
    finalize := fun _ e => (.ok, { e with finalized := true })
    malloc := fun n _ => malloc n }

theorem Cursor.step_nil {e : Cursor} (h : e.rest = []) : e.step = (e.last, { e with code := e.last }) := by
  unfold Cursor.step
  split
  case h_1 => rfl
  case h_2 row rest hrest =>
      rw [h] at hrest
      cases hrest

theorem Cursor.step_cons {e : Cursor} {row : List (String × Column)} {rest : List (List (String × Column))}
    (h : e.rest = row :: rest) : e.step = (.row, { e with rest := rest, current := row, code := .row }) := by
  unfold Cursor.step
  split
  case h_1 hrest =>
      rw [h] at hrest
      cases hrest
  case h_2 row' rest' hrest =>
      rw [h] at hrest
      cases hrest
      rfl

theorem Cursor.step_done (e : Cursor) : e.step.1 = .done ↔ e.rest = [] ∧ e.last = .done := by
  cases h : e.rest with
  | nil => simp [Cursor.step_nil h]
  | cons row rest =>
      have hne : Code.row ≠ Code.done := by decide
      rw [Cursor.step_cons h]
      exact iff_of_false hne fun hn => List.cons_ne_nil _ _ hn.1

section Stream

variable {errstr : Code → String} {malloc : Nat → Bool} {c : Impl Cursor} {cols : Columns}

theorem exec_cursor (hsql : sql ≠ "") (hdb : c.db ≠ none) : exec (api errstr malloc) sql rows c =
    if c.engine.step.1 = .done then
      some ((true, ""), [], { c with engine := { c.engine.step.2 with finalized := true } })
    else none := by
  rw [exec, if_neg hsql, if_neg hdb]
  dsimp only [api, still]
  rw [if_neg (not_not.mpr rfl)]
  by_cases h : c.engine.step.1 = .done
  · rw [if_neg (by rw [h]; decide)]
  · rw [if_neg h, ite_self]

/-- Exec gives the rows of a statement, with success or not as the statement ends, and
finalizes it, exactly when there are no rows and the statement ends well: nothing steps it
again. -/
theorem exec_rows (hsql : sql ≠ "") (hdb : c.db ≠ none) :
    (∃ fuel r, execLoop (api errstr malloc) fuel sql rows c = some r ∧
      r.2.1 = c.engine.rest.map (readRow malloc) ∧ (r.1.1 = true ↔ c.engine.last = .done) ∧
      r.2.2.engine.finalized = true) ↔ c.engine.rest = [] ∧ c.engine.last = .done := by
  rw [exists_comm]
  simp only [exists_and_right, execLoop_iff, exec_cursor hsql hdb]
  rw [← Cursor.step_done]
  constructor
  · rintro ⟨r, hr, -⟩
    by_contra h
    rw [if_neg h] at hr
    cases hr
  · intro h
    obtain ⟨hrest, hlast⟩ := c.engine.step_done.mp h
    exact ⟨_, if_pos h, by rw [hrest]; rfl, iff_of_true rfl hlast, rfl⟩

theorem exec_rows_none :
    (∃ fuel r, execLoop (api (fun _ => "") fun _ => true) fuel "DELETE FROM t" [] ⟨some 0, ⟨[], .done, [], .ok, false⟩⟩ = some r ∧
      r.2.1 = [] ∧ (r.1.1 = true ↔ Code.done = .done) ∧ r.2.2.engine.finalized = true) ↔
      ([] : List (List (String × Column))) = [] ∧ Code.done = .done :=
  exec_rows (by decide) (by decide)

/-- A statement of one row keeps Exec in its loop. -/
theorem exec_one_row : ¬∃ fuel r, execLoop (api (fun _ => "") fun _ => true) fuel "SELECT 1" []
    ⟨some 0, ⟨[[("1", .integer 1)]], .done, [], .ok, false⟩⟩ = some r := by
  rintro ⟨fuel, r, h⟩
  have hr := execLoop_iff.mp ⟨fuel, h⟩
  rw [exec_cursor (by decide) (by decide), if_neg (by decide)] at hr
  cases hr

/-! ### Stepping -/

structure Context where
  ctx : Option Nat
  done : Bool := false

/-- Step on a context; it writes to none of its fields. -/
def stepContext (A : Api ε) (x : Context) (cols : Columns) (s : Impl ε) : Result × Columns × Context × Impl ε :=
  let r := step A x.ctx cols s
  (r.1, r.2.1, x, r.2.2)

def stepCalls (A : Api ε) : Nat → Context → Columns → Impl ε → List (Result × Columns) × Context × Impl ε
  | 0, x, _, s => ([], x, s)
  | n + 1, x, cols, s =>
    let r := stepContext A x cols s
    let t := stepCalls A n r.2.2.1 r.2.1 r.2.2.2
    ((r.1, r.2.1) :: t.1, t.2)

variable {x : Context} {stmt : Nat}

theorem step_cons {row : List (String × Column)} {rest : List (List (String × Column))}
    (h : c.engine.rest = row :: rest) : step (api errstr malloc) (some stmt) cols c =
      ((true, ""), readRow malloc row, { c with engine := { c.engine with rest := rest, current := row, code := .row } }) := by
  have hs : (api errstr malloc).step (some stmt) c.engine =
      (.row, { c.engine with rest := rest, current := row, code := .row }) := Cursor.step_cons h
  rw [step]
  dsimp only
  rw [hs, if_neg (not_not.mpr rfl)]
  rfl

theorem step_nil (h : c.engine.rest = []) (hlast : c.engine.last ≠ .row) :
    ∃ text s', step (api errstr malloc) (some stmt) cols c = ((false, text), (fun _ => none), s') := by
  have hs : (api errstr malloc).step (some stmt) c.engine =
      (c.engine.last, { c.engine with code := c.engine.last }) := Cursor.step_nil h
  rw [step]
  dsimp only
  rw [hs, if_pos hlast]
  exact ⟨_, _, rfl⟩

/-- The rows come in order; the call after them reports a failure, whatever the code. -/
theorem stepCalls_stream (hx : x.ctx = some stmt) (hlast : c.engine.last ≠ .row) :
    ∃ text s', stepCalls (api errstr malloc) (c.engine.rest.length + 1) x cols c =
      (c.engine.rest.map (fun row => ((true, ""), readRow malloc row)) ++ [((false, text), fun _ => none)], x, s') := by
  induction hrest : c.engine.rest generalizing c cols with
  | nil =>
      obtain ⟨text, s', hstep⟩ := @step_nil errstr malloc c cols stmt hrest hlast
      refine ⟨text, s', ?_⟩
      simp [stepCalls, stepContext, hx, hstep]
  | cons row rest ih =>
      obtain ⟨text, s', hcalls⟩ := @ih { c with engine := { c.engine with rest := rest, current := row, code := .row } }
        (readRow malloc row) hlast rfl
      refine ⟨text, s', ?_⟩
      rw [List.length_cons, stepCalls]
      simp only [stepContext, hx, step_cons hrest]
      rw [hcalls]
      rfl

/-- Repeated calls of Step give the rows of a statement and then report how it ended exactly when it
ended with an error: an end that went well is reported as a failure too. -/
theorem step_stream (hx : x.ctx = some stmt) (hdone : x.done = false) (hlast : c.engine.last ≠ .row) :
    (∃ final x' s', stepCalls (api errstr malloc) (c.engine.rest.length + 1) x cols c =
        (c.engine.rest.map (fun row => ((true, ""), readRow malloc row)) ++ [final], x', s') ∧
      (final.1.1 = false ↔ c.engine.last ≠ .done) ∧ (x'.done = true ↔ c.engine.last = .done)) ↔
      c.engine.last ≠ .done := by
  obtain ⟨text, s', hcalls⟩ := @stepCalls_stream errstr malloc c cols x stmt hx hlast
  rw [hcalls]
  constructor
  · rintro ⟨final, x', s'', he, -, hx'⟩ h
    simp only [Prod.mk.injEq] at he
    rw [he.2.1, hx'.mpr h] at hdone
    cases hdone
  · intro h
    refine ⟨_, x, s', rfl, iff_of_true rfl h, iff_of_false ?_ h⟩
    rw [hdone]
    exact Bool.false_ne_true

theorem step_stream_constraint :
    (∃ final x' s', stepCalls (api (fun _ => "") fun _ => true) 2 ⟨some 0, false⟩ (fun _ => none)
        ⟨some 0, ⟨[[("1", .integer 1)]], 19, [], .ok, false⟩⟩ =
        ([[("1", .integer 1)]].map (fun row => ((true, ""), readRow (fun _ => true) row)) ++ [final], x', s') ∧
      (final.1.1 = false ↔ (19 : Code) ≠ .done) ∧ (x'.done = true ↔ (19 : Code) = .done)) ↔ (19 : Code) ≠ .done :=
  @step_stream (fun _ => "") (fun _ => true) ⟨some 0, ⟨[[("1", .integer 1)]], 19, [], .ok, false⟩⟩ (fun _ => none)
    ⟨some 0, false⟩ 0 rfl rfl (by decide)

/-- A statement without rows that ends well, such as an insertion, is reported as failed. -/
theorem insert_reported_failed : ((stepContext (api (fun _ => "") fun _ => true) ⟨some 0, false⟩ (fun _ => none)
      ⟨some 0, ⟨[], .done, [], .ok, false⟩⟩).1.1 = false) ∧
    (stepContext (api (fun _ => "") fun _ => true) ⟨some 0, false⟩ (fun _ => none)
      ⟨some 0, ⟨[], .done, [], .ok, false⟩⟩).2.2.1.done = false := by decide

end Stream

end Enigma.SqliteRows
