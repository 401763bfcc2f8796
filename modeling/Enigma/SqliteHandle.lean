import Enigma.Sqlite
import Enigma.Transition

namespace Enigma.SqliteHandle

open Sqlite Transition

inductive Status
  | live
  | closed
  | freed
deriving DecidableEq

/-- An answer of the engine: its code, whether it hands out an object, and the row. -/
structure Answer where
  code : Code := .ok
  object : Bool := true
  row : List (String × Column) := []

/-- The engine as far as connections go. The answers of a call are laid down before it,
and every connection passed is noted with what it was then. -/
structure Engine where
  conns : Nat := 0
  status : Nat → Status := fun _ => .live
  code : Nat → Code := fun _ => .ok
  stmts : Nat := 0
  owner : Nat → Nat := fun _ => 0
  row : List (String × Column) := []
  script : List Answer := []
  passed : List (Option Status) := []

namespace Engine

def head (e : Engine) : Answer := e.script.headD {}

def take (e : Engine) : Engine := { e with script := e.script.tail }

def pass (e : Engine) (db : Option Nat) : Engine := { e with passed := e.passed ++ [db.map e.status] }

def setCode (e : Engine) (db : Option Nat) (c : Code) : Engine :=
  match db with
  | none => e
  | some d => { e with code := Function.update e.code d c }

def setStatus (e : Engine) (db : Option Nat) (st : Status) : Engine :=
  match db with
  | none => e
  | some d => { e with status := Function.update e.status d st }

def openV2 (e : Engine) : (Code × Option Nat) × Engine :=
  if e.head.code = .ok ∨ e.head.object then
    ((e.head.code, some e.conns),
      ((({ e with conns := e.conns + 1 } : Engine).setStatus e.conns .live).setCode e.conns e.head.code).take)
  else ((e.head.code, none), e.take)

def exec (db : Option Nat) (e : Engine) : Code × Engine :=
  (e.head.code, ((e.pass db).setCode db e.head.code).take)

/-- A null connection is misuse, and a text without a statement in it leaves none. -/
def prepareV2 (db : Option Nat) (e : Engine) : (Code × Option Nat) × Engine :=
  match db with
  | none => ((.misuse, none), (e.pass none).take)
  | some d =>
      if e.head.code = .ok ∧ e.head.object then
        ((.ok, some e.stmts), ({ (e.pass d).setCode d .ok with
          stmts := e.stmts + 1, owner := Function.update e.owner e.stmts d }).take)
      else ((e.head.code, none), ((e.pass d).setCode d e.head.code).take)

def stmtCall (stmt : Nat) (e : Engine) : Code × Engine :=
  (e.head.code, (e.setCode (e.owner stmt) e.head.code).take)

def step (stmt : Option Nat) (e : Engine) : Code × Engine :=
  match stmt with
  | none => (.misuse, e.take)
  | some t => stmtCall t { e with row := e.head.row }

def finalize (stmt : Option Nat) (e : Engine) : Code × Engine :=
  match stmt with
  | none => (.ok, e)
  | some t => stmtCall t e

variable (e : Engine) (db : Option Nat) (c : Code)

@[simp] theorem take_passed : e.take.passed = e.passed := rfl
@[simp] theorem take_status : e.take.status = e.status := rfl
@[simp] theorem take_code : e.take.code = e.code := rfl
@[simp] theorem pass_passed : (e.pass db).passed = e.passed ++ [db.map e.status] := rfl
@[simp] theorem pass_status : (e.pass db).status = e.status := rfl
@[simp] theorem pass_code : (e.pass db).code = e.code := rfl

@[simp] theorem setCode_passed : (e.setCode db c).passed = e.passed := by
  cases db <;> rfl

@[simp] theorem setCode_status : (e.setCode db c).status = e.status := by
  cases db <;> rfl

@[simp] theorem setStatus_passed (st : Status) : (e.setStatus db st).passed = e.passed := by
  cases db <;> rfl

end Engine

variable (errstr : Code → String) (malloc : Nat → Bool)

def api : Api Engine where
  openV2 _ _ e := e.openV2
  closeV2 db e := (e.pass db).setStatus db .closed
  errcode db e := ((db.map e.code).getD .misuse, e.pass db)
  errstr := errstr
  free db e := (e.pass db).setStatus db .freed
  exec db _ e := e.exec db
  prepareV2 db _ _ e := e.prepareV2 db
  bindInt64 t _ _ e := some (e.stmtCall t)
  bindDouble t _ _ e := some (e.stmtCall t)
  bindText t _ _ _ e := some (e.stmtCall t)
  bindBlob t _ _ _ e := some (e.stmtCall t)
  bindNull t _ e := some (e.stmtCall t)
  step t e := e.step t
  columns _ e := e.row
  finalize t e := e.finalize t
  malloc n _ := malloc n

inductive Op
  | openDb (db : String) (flags : Nat)
  | close
  | error
  | begin
  | commit
  | rollback
  | exec (sql : String)
  | prepare (sql : String) (k : Nat)
  | bindValue (k : Nat) (v : Value)
  | bindValues (k : Nat) (vs : List Value)
  | step (k : Nat)
  | finalize (k : Nat)

structure Act where
  op : Op
  script : List Answer := []

structure State where
  impl : Impl Engine
  ctxs : Nat → Option Nat

def start : State := ⟨⟨none, {}⟩, fun _ => none⟩

def load (i : Impl Engine) (script : List Answer) : Impl Engine :=
  { i with engine := { i.engine with script := script } }

def perform (s : State) (i : Impl Engine) : Op → Option State
  | .openDb db flags => some { s with impl := (Sqlite.openDb (api errstr malloc) db flags i).2 }
  | .close => some { s with impl := Sqlite.close (api errstr malloc) i }
  | .error => some { s with impl := (Sqlite.error (api errstr malloc) i).2 }
  | .begin => some { s with impl := (Sqlite.begin (api errstr malloc) i).2 }
  | .commit => some { s with impl := (Sqlite.commit (api errstr malloc) i).2 }
  | .rollback => some { s with impl := (Sqlite.rollback (api errstr malloc) i).2 }
  | .exec sql => (Sqlite.exec (api errstr malloc) sql [] i).map fun r => { s with impl := r.2.2 }
  | .prepare sql k =>
      let r := Sqlite.prepare (api errstr malloc) sql (s.ctxs k) i
      some ⟨r.2.2, Function.update s.ctxs k r.2.1⟩
  | .bindValue k v => (Sqlite.bindValue (api errstr malloc) (s.ctxs k) v i).map fun r => { s with impl := r.2 }
  | .bindValues k vs =>
      (Sqlite.bindValues (api errstr malloc) (s.ctxs k) vs i).map fun r => { s with impl := r.2 }
  | .step k => some { s with impl := (Sqlite.step (api errstr malloc) (s.ctxs k) (fun _ => none) i).2.2 }
  | .finalize k =>
      let r := Sqlite.finalize (api errstr malloc) (s.ctxs k) i
      some ⟨r.2.2, Function.update s.ctxs k r.2.1⟩

def next (s : State) (a : Act) : Option State := perform errstr malloc s (load s.impl a.script) a.op

def system : System State Act := ⟨(· = start), next errstr malloc⟩

/-- Only live connections have been passed, and the one at hand is live. -/
structure Sound (i : Impl Engine) : Prop where
  passed : ∀ p ∈ i.engine.passed, p = some .live
  live : ∀ d, i.db = some d → i.engine.status d = .live

/-- A null connection has been passed, or the one at hand is gone. -/
def Broken (i : Impl Engine) : Prop :=
  none ∈ i.engine.passed ∨ ∃ d, i.db = some d ∧ i.engine.status d = .freed

def Quiet (i : Impl Engine) : Prop := ∀ d, i.db = some d → i.engine.code d = .ok

def Hangs (p : Prop) (i : Impl Engine) : Prop := (p → Sound i) ∧ (¬p → Broken i)

def codeAt (script : List Answer) (n : Nat) : Code := (script.getD n {}).code

def Reports (i : Impl Engine) (stmt : Nat) (c : Code) : Prop :=
  ∃ d, i.db = some d ∧ (if i.engine.owner stmt = d then c else i.engine.code d) ≠ .ok

/-- The call does not run into Error() with something to report, and prepares nothing
without a connection. -/
def Usable (s : State) (a : Act) : Prop :=
  match a.op with
  | .openDb db _ => db = "" ∨ codeAt a.script 0 = .ok ∨ (a.script.getD 0 {}).object = false
  | .close => True
  | .error => Quiet s.impl
  | .begin | .commit | .rollback => s.impl.db = none ∨ codeAt a.script 0 = .ok
  | .exec sql => sql = "" ∨ s.impl.db = none ∨ codeAt a.script 0 = .ok
  | .prepare sql _ => sql = "" ∨ s.impl.db ≠ none ∧ codeAt a.script 0 = .ok
  | .bindValue k _ | .finalize k =>
      ∀ t, s.ctxs k = some t → codeAt a.script 0 ≠ .ok → ¬Reports s.impl t (codeAt a.script 0)
  | .bindValues k vs => ∀ t, s.ctxs k = some t →
      ∀ n < vs.length, codeAt a.script n ≠ .ok → ¬Reports s.impl t (codeAt a.script n)
  | .step k =>
      ∀ t, s.ctxs k = some t → codeAt a.script 0 ≠ .row → ¬Reports s.impl t (codeAt a.script 0)

variable {errstr malloc}

section calls

variable {i : Impl Engine} {e : Engine} {db : Option Nat} {c : Code} {p q : Prop}

theorem Hangs.of_sound (h : Sound i) (hp : p) : Hangs p i := by
  refine ⟨fun _ => h, fun hn => absurd hp hn⟩

theorem Hangs.congr (h : Hangs p i) (hpq : p ↔ q) : Hangs q i := by
  rw [Hangs, ← hpq]
  exact h

theorem Sound.same (hs : Sound i) (hst : e.status = i.engine.status) (hp : e.passed = i.engine.passed) :
    Sound { i with engine := e } := by
  constructor
  · simpa only [hp] using hs.passed
  · simpa only [hst] using hs.live

theorem Sound.passing (hs : Sound i) {d : Nat} (hd : i.db = some d) (hst : e.status = i.engine.status)
    (hp : e.passed = (i.engine.pass i.db).passed) : Sound { i with engine := e } := by
  constructor
  · intro p hm
    change p ∈ e.passed at hm
    rw [hp, Engine.pass_passed, List.mem_append] at hm
    obtain hm | hm := hm
    · exact hs.passed p hm
    · rw [List.mem_singleton.mp hm, hd, Option.map_some, hs.live d hd]
  · simpa only [hst] using hs.live

theorem error_hangs (hs : Sound i) : Hangs (Quiet i) (error (api errstr malloc) i).2 := by
  cases hd : i.db with
  | none =>
      refine Hangs.of_sound ?_ fun d h => by simp [hd] at h
      simpa [error, hd] using hs
  | some d =>
      have hq : Quiet i ↔ i.engine.code d = .ok := by simp [Quiet, hd]
      have hpass : Sound { i with engine := i.engine.pass i.db } := hs.passing hd rfl rfl
      refine ⟨fun h => ?_, fun h => ?_⟩
      · rw [hq] at h
        simpa [error, api, hd, h] using hpass
      · rw [hq] at h
        refine Or.inr ⟨d, ?_⟩
        simp [error, api, hd, h, Engine.setStatus]

theorem answer_hangs (hs : Sound i) : Hangs (c ≠ .ok → Quiet i) (answer (api errstr malloc) c i).2 := by
  by_cases hc : c = .ok
  · refine Hangs.of_sound ?_ fun h => absurd hc h
    simpa [answer, hc] using hs
  · have he : Hangs (Quiet i) (error (api errstr malloc) i).2 := error_hangs hs
    rw [answer, if_neg hc]
    exact he.congr ⟨fun h _ => h, fun h => h hc⟩

theorem head_code (e : Engine) : e.head.code = codeAt e.script 0 := by
  cases h : e.script <;> simp [Engine.head, codeAt, h]

theorem head_object (e : Engine) : e.head.object = (e.script.getD 0 {}).object := by
  cases h : e.script <;> simp [Engine.head, h]

theorem openV2_hangs (hs : Sound i) : Sound ⟨i.engine.openV2.1.2, i.engine.openV2.2⟩ ∧
    (Quiet ⟨i.engine.openV2.1.2, i.engine.openV2.2⟩ ↔ i.engine.head.code = .ok ∨ i.engine.head.object = false) := by
  by_cases ho : i.engine.head.code = .ok ∨ i.engine.head.object
  · rw [Engine.openV2, if_pos ho]
    refine ⟨⟨?_, ?_⟩, ?_⟩
    · simpa using hs.passed
    · intro d hd
      cases hd
      simp [Engine.setStatus]
    · have hq : i.engine.head.object = false → i.engine.head.code = .ok := by grind
      simpa [Quiet, Engine.setCode] using hq
  · rw [Engine.openV2, if_neg ho]
    refine ⟨⟨hs.passed, fun d hd => by cases hd⟩, ?_⟩
    have hn : i.engine.head.object = false := by grind
    simp [Quiet, hn]

theorem openDb_hangs (hs : Sound i) (file : String) (flags : Nat) :
    Hangs (file = "" ∨ codeAt i.engine.script 0 = .ok ∨ (i.engine.script.getD 0 {}).object = false)
      (openDb (api errstr malloc) file flags i).2 := by
  rw [← head_code, ← head_object]
  by_cases hf : file = ""
  · refine Hangs.of_sound ?_ (Or.inl hf)
    simpa [openDb, hf] using hs
  · obtain ⟨hs', hq⟩ := openV2_hangs hs
    have hc : i.engine.openV2.1.1 = i.engine.head.code := by
      rw [Engine.openV2]
      split <;> rfl
    rw [openDb, if_neg hf]
    refine (answer_hangs hs').congr ?_
    change (i.engine.openV2.1.1 ≠ .ok → _) ↔ _
    rw [hq, hc]
    grind

theorem transaction_hangs (hs : Sound i) (sql : String) :
    Hangs (i.db = none ∨ codeAt i.engine.script 0 = .ok) (transaction (api errstr malloc) sql i).2 := by
  rw [← head_code]
  cases hd : i.db with
  | none =>
      refine Hangs.of_sound ?_ (Or.inl rfl)
      simpa [transaction, hd] using hs
  | some d =>
      have hs' : Sound { i with engine := (i.engine.exec i.db).2 } :=
        hs.passing hd (by simp [Engine.exec]) (by simp [Engine.exec])
      have hq : Quiet { i with engine := (i.engine.exec i.db).2 } ↔ i.engine.head.code = .ok := by
        simp [Quiet, Engine.exec, Engine.setCode, hd]
      rw [transaction, if_neg (by simp [hd])]
      refine (answer_hangs hs').congr ?_
      rw [hq]
      simp only [api, Engine.exec]
      grind

theorem prepareV2_sound {d : Nat} (hs : Sound ⟨some d, e⟩) : Sound ⟨some d, (e.prepareV2 (some d)).2⟩ := by
  rw [Engine.prepareV2]
  split
  case isTrue => exact hs.passing rfl (by simp) (by simp)
  case isFalse => exact hs.passing rfl (by simp) (by simp)

theorem prepareV2_code (d : Nat) : (e.prepareV2 (some d)).1.1 = codeAt e.script 0 := by
  rw [Engine.prepareV2, ← head_code]
  split
  case isTrue h => exact h.1.symm
  case isFalse => rfl

theorem quiet_prepareV2 (d : Nat) : Quiet ⟨some d, (e.prepareV2 (some d)).2⟩ ↔ codeAt e.script 0 = .ok := by
  rw [Engine.prepareV2, ← head_code]
  split
  case isTrue h => simp [Quiet, Engine.setCode, h.1]
  case isFalse => simp [Quiet, Engine.setCode]

theorem prepare_hangs (hs : Sound i) (sql : String) (ctx : Option Nat) :
    Hangs (sql = "" ∨ i.db ≠ none ∧ codeAt i.engine.script 0 = .ok)
      (prepare (api errstr malloc) sql ctx i).2.2 := by
  by_cases hf : sql = ""
  · refine Hangs.of_sound ?_ (Or.inl hf)
    simpa [prepare, hf] using hs
  · obtain ⟨db, e⟩ := i
    rw [prepare, if_neg hf]
    cases db with
    | none =>
        have hmisuse : Code.misuse ≠ .ok := by decide
        refine ⟨fun h => by simp [hf] at h, fun _ => Or.inl ?_⟩
        simp [api, Engine.prepareV2, answer, error, hmisuse]
    | some d =>
        refine (answer_hangs (prepareV2_sound hs)).congr ?_
        change ((e.prepareV2 (some d)).1.1 ≠ .ok → _) ↔ _
        rw [quiet_prepareV2 d, prepareV2_code d]
        grind

theorem stmtCall_sound (hs : Sound i) (t : Nat) : Sound { i with engine := (i.engine.stmtCall t).2 } :=
  hs.same (by simp [Engine.stmtCall]) (by simp [Engine.stmtCall])

theorem step_sound (hs : Sound i) (t : Option Nat) : Sound { i with engine := (i.engine.step t).2 } := by
  cases t with
  | none => exact hs.same rfl rfl
  | some t => exact hs.same (by simp [Engine.step, Engine.stmtCall]) (by simp [Engine.step, Engine.stmtCall])

theorem finalize_sound (hs : Sound i) (t : Option Nat) : Sound { i with engine := (i.engine.finalize t).2 } := by
  cases t with
  | none => exact hs
  | some t => exact stmtCall_sound hs t

theorem exec_hangs (hs : Sound i) {sql : String} {rows : List Columns} {r : Result × List Columns × Impl Engine}
    (hr : exec (api errstr malloc) sql rows i = some r) :
    Hangs (sql = "" ∨ i.db = none ∨ codeAt i.engine.script 0 = .ok) r.2.2 := by
  by_cases hf : sql = ""
  · simp only [exec, if_pos hf, Option.some.injEq] at hr
    subst hr
    exact Hangs.of_sound hs (Or.inl hf)
  obtain ⟨db, e⟩ := i
  cases db with
  | none =>
      simp only [exec, if_neg hf, if_true, Option.some.injEq] at hr
      subst hr
      exact Hangs.of_sound hs (Or.inr (Or.inl rfl))
  | some d =>
      have hs' : Sound ⟨some d, (e.prepareV2 (some d)).2⟩ := prepareV2_sound hs
      rw [exec, if_neg hf, if_neg (by simp)] at hr
      by_cases hc : codeAt e.script 0 = .ok
      · refine Hangs.of_sound ?_ (Or.inr (Or.inr hc))
        rw [← prepareV2_code d] at hc
        rw [if_neg (by simpa [api] using hc)] at hr
        dsimp only at hr
        split at hr
        case isTrue => cases hr
        case isFalse =>
            split at hr
            case isTrue =>
                cases hr
                exact finalize_sound (step_sound hs' _) _
            case isFalse => cases hr
      · have he : Hangs (Quiet ⟨some d, (e.prepareV2 (some d)).2⟩)
            (error (api errstr malloc) ⟨some d, (e.prepareV2 (some d)).2⟩).2 := error_hangs hs'
        have hp : (e.prepareV2 (some d)).1.1 ≠ .ok := by rwa [prepareV2_code]
        rw [if_pos (by simpa [api] using hp)] at hr
        cases hr
        refine Hangs.congr he ?_
        rw [quiet_prepareV2]
        simp [hf]

theorem quiet_stmtCall (i : Impl Engine) (t : Nat) :
    Quiet { i with engine := (i.engine.stmtCall t).2 } ↔ ¬Reports i t (codeAt i.engine.script 0) := by
  simp only [Quiet, Reports, Engine.stmtCall, Engine.take_code, Engine.setCode, head_code, not_exists, not_and,
    not_not]
  refine forall_congr' fun d => imp_congr_right fun _ => ?_
  rw [Function.update_apply]
  simp only [eq_comm]

theorem bind_eq (t : Nat) (v : Value) : bind (api errstr malloc) t e v = some (e.stmtCall t) := by
  cases v <;> rfl

theorem stmtCall_hangs (hs : Sound i) (t : Nat) :
    Hangs (codeAt i.engine.script 0 ≠ .ok → ¬Reports i t (codeAt i.engine.script 0))
      (answer (api errstr malloc) (i.engine.stmtCall t).1 { i with engine := (i.engine.stmtCall t).2 }).2 := by
  refine (answer_hangs (stmtCall_sound hs t)).congr ?_
  rw [quiet_stmtCall, ← head_code, Engine.stmtCall]

theorem bindValue_hangs (hs : Sound i) {ctx : Option Nat} {v : Value} {r : Result × Impl Engine}
    (hr : bindValue (api errstr malloc) ctx v i = some r) :
    Hangs (∀ t, ctx = some t → codeAt i.engine.script 0 ≠ .ok → ¬Reports i t (codeAt i.engine.script 0)) r.2 := by
  cases ctx with
  | none =>
      cases hr
      exact Hangs.of_sound hs (by simp)
  | some t =>
      rw [bindValue, bind_eq, Option.map_some, Option.some.injEq] at hr
      subst hr
      exact (stmtCall_hangs hs t).congr (by simp)

theorem finalize_hangs (hs : Sound i) (ctx : Option Nat) :
    Hangs (∀ t, ctx = some t → codeAt i.engine.script 0 ≠ .ok → ¬Reports i t (codeAt i.engine.script 0))
      (finalize (api errstr malloc) ctx i).2.2 := by
  cases ctx with
  | none => exact Hangs.of_sound hs (by simp)
  | some t => exact (stmtCall_hangs hs t).congr (by simp)

theorem step_hangs (hs : Sound i) (ctx : Option Nat) (cols : Columns) :
    Hangs (∀ t, ctx = some t → codeAt i.engine.script 0 ≠ .row → ¬Reports i t (codeAt i.engine.script 0))
      (step (api errstr malloc) ctx cols i).2.2 := by
  cases ctx with
  | none => exact Hangs.of_sound hs (by simp)
  | some t =>
      have hq : Quiet { i with engine := (i.engine.step (some t)).2 } ↔ ¬Reports i t (codeAt i.engine.script 0) :=
        quiet_stmtCall { i with engine := { i.engine with row := i.engine.head.row } } t
      have hc : (i.engine.step (some t)).1 = codeAt i.engine.script 0 := head_code i.engine
      by_cases hrow : codeAt i.engine.script 0 = .row
      · rw [step, if_neg (by simpa [api, hc] using hrow)]
        exact Hangs.of_sound (step_sound hs (some t)) (by simp [hrow])
      · rw [step, if_pos (by simpa [api, hc] using hrow)]
        refine (error_hangs (step_sound hs (some t))).congr ?_
        simp [hq, hrow]

theorem reports_stmtCall (i : Impl Engine) (t : Nat) (c : Code) :
    Reports { i with engine := (i.engine.stmtCall t).2 } t c ↔ Reports i t c := by
  refine exists_congr fun d => and_congr_right fun _ => ?_
  change (if i.engine.owner t = d then c else Function.update i.engine.code (i.engine.owner t) _ d) ≠ .ok ↔ _
  by_cases ho : i.engine.owner t = d
  · rw [if_pos ho, if_pos ho]
  · rw [if_neg ho, if_neg ho, Function.update_of_ne (Ne.symm ho)]

theorem reports_iff {t : Nat} (hc : c ≠ .ok) :
    Reports i t c ↔ ∃ d, i.db = some d ∧ (i.engine.owner t = d ∨ i.engine.code d ≠ .ok) := by
  refine exists_congr fun d => and_congr_right fun _ => ?_
  by_cases ho : i.engine.owner t = d
  · simp [ho, hc]
  · simp [ho]

theorem codeAt_tail (script : List Answer) (n : Nat) : codeAt script.tail n = codeAt script (n + 1) := by
  cases script <;> rfl

theorem bindValues_hangs (hs : Sound i) {ctx : Option Nat} {vs : List Value} {r : Result × Impl Engine}
    (hr : bindValues (api errstr malloc) ctx vs i = some r) :
    Hangs (∀ t, ctx = some t → ∀ n < vs.length, codeAt i.engine.script n ≠ .ok →
      ¬Reports i t (codeAt i.engine.script n)) r.2 := by
  induction vs generalizing i with
  | nil =>
      cases hr
      exact Hangs.of_sound hs (by simp)
  | cons v vs ih =>
      obtain ⟨u, hu, hr⟩ := Option.bind_eq_some_iff.mp hr
      cases ctx with
      | none =>
          cases hu
          cases hr
          exact Hangs.of_sound hs (by simp)
      | some t =>
          have hb : Hangs _ u.2 := bindValue_hangs hs hu
          rw [bindValue, bind_eq, Option.map_some, Option.some.injEq] at hu
          have hcode : (i.engine.stmtCall t).1 = codeAt i.engine.script 0 := head_code i.engine
          by_cases hc : codeAt i.engine.script 0 = .ok
          · -- the others are bound with the answers after the first
            rw [answer, if_pos (hcode.trans hc)] at hu
            subst hu
            refine (ih (stmtCall_sound hs t) hr).congr ?_
            have ht : ∀ n, codeAt (i.engine.stmtCall t).2.script n = codeAt i.engine.script (n + 1) :=
              codeAt_tail i.engine.script
            simp only [Option.some.injEq, forall_eq', ht, reports_stmtCall, List.length_cons]
            rw [Nat.forall_lt_succ_left]
            exact ⟨fun h => ⟨fun h' => absurd hc h', h⟩, fun h => h.2⟩
          · rw [answer, if_neg (fun h => hc (hcode.symm.trans h))] at hu
            subst hu
            cases hr
            refine hb.congr ?_
            simp only [Option.some.injEq, forall_eq', List.length_cons]
            constructor
            · intro h n _ hn
              rw [reports_iff hn, ← reports_iff hc]
              exact h hc
            · exact fun h => h 0 (by omega)

theorem close_sound (hs : Sound i) : Sound (close (api errstr malloc) i) := by
  cases hd : i.db with
  | none => simpa [close, hd] using hs
  | some d =>
      have hp : Sound { i with engine := i.engine.pass i.db } := hs.passing hd rfl rfl
      rw [close, if_neg (by simp [hd])]
      refine ⟨?_, fun d' h => by cases h⟩
      simpa [api] using hp.passed

end calls

section runs

variable {s s' : State} {a : Act}

theorem load_sound (hs : Sound s.impl) (script : List Answer) : Sound (load s.impl script) :=
  hs.same rfl rfl

/-- Whether a call goes well hangs on Usable, from any state without a mishap so far. -/
theorem next_hangs (hs : Sound s.impl) (hn : next errstr malloc s a = some s') : Hangs (Usable s a) s'.impl := by
  obtain ⟨op, script⟩ := a
  have hs' : Sound (load s.impl script) := load_sound hs script
  cases op with
  | openDb db flags =>
      cases hn
      exact openDb_hangs hs' db flags
  | close =>
      cases hn
      exact Hangs.of_sound (close_sound hs') trivial
  | error =>
      cases hn
      exact error_hangs hs'
  | begin =>
      cases hn
      exact transaction_hangs hs' "BEGIN"
  | commit =>
      cases hn
      exact transaction_hangs hs' "COMMIT"
  | rollback =>
      cases hn
      exact transaction_hangs hs' "ROLLBACK"
  | exec sql =>
      obtain ⟨r, hr, rfl⟩ := Option.map_eq_some_iff.mp hn
      exact exec_hangs hs' hr
  | prepare sql k =>
      cases hn
      exact prepare_hangs hs' sql (s.ctxs k)
  | bindValue k v =>
      obtain ⟨r, hr, rfl⟩ := Option.map_eq_some_iff.mp hn
      exact bindValue_hangs hs' hr
  | bindValues k vs =>
      obtain ⟨r, hr, rfl⟩ := Option.map_eq_some_iff.mp hn
      exact bindValues_hangs hs' hr
  | step k =>
      cases hn
      exact step_hangs hs' (s.ctxs k) fun _ => none
  | finalize k =>
      cases hn
      exact finalize_hangs hs' (s.ctxs k)

theorem close_freed {d : Nat} (hd : s.impl.db = some d) (hf : s.impl.engine.status d = .freed) :
    ∃ s', next errstr malloc s ⟨.close, []⟩ = some s' ∧ some .freed ∈ s'.impl.engine.passed := by
  refine ⟨_, rfl, ?_⟩
  simp [close, load, api, hd, hf]

theorem sound_of_reachable (hr : Reachable (system errstr malloc) Usable s) : Sound s.impl := by
  refine hr.invariant (P := fun s => Sound s.impl) ?_ ?_
  · rintro s rfl
    exact ⟨by simp [start], fun d h => by cases h⟩
  · intro s a s' _ hs hu hn
    exact (next_hangs hs hn).1 hu

/-- As long as no call runs into Error() with something to report, or prepares without a connection,
every connection passed is live. The first call that does breaks this. -/
theorem connections_live (hr : Reachable (system errstr malloc) Usable s) :
    (∀ p ∈ s.impl.engine.passed, p = some .live) ∧ (∀ d, s.impl.db = some d → s.impl.engine.status d = .live) ∧
    ∀ a s', next errstr malloc s a = some s' → ¬Usable s a → none ∈ s'.impl.engine.passed ∨
      ∃ s'', next errstr malloc s' ⟨.close, []⟩ = some s'' ∧ some .freed ∈ s''.impl.engine.passed := by
  have hs : Sound s.impl := sound_of_reachable hr
  refine ⟨hs.passed, hs.live, fun a s' hn hu => ?_⟩
  obtain hnull | ⟨d, hd, hf⟩ := (next_hangs hs hn).2 hu
  · exact Or.inl hnull
  · exact Or.inr (close_freed hd hf)

end runs

theorem connections_live_row : ∃ s, Reachable (system (fun _ => "") fun _ => true) Usable s ∧
    s.impl.db = some 0 ∧ s.impl.engine.passed.length = 1 ∧ ∀ p ∈ s.impl.engine.passed, p = some .live := by
  have hopen : Reachable (system (fun _ => "") fun _ => true) Usable _ :=
    .step (a := ⟨.openDb "a.db" 6, []⟩) (.init rfl) (Or.inr (Or.inl (by decide))) rfl
  have hprepare : Reachable (system (fun _ => "") fun _ => true) Usable _ :=
    .step (a := ⟨.prepare "SELECT 1" 0, []⟩) hopen (Or.inr ⟨by decide, by decide⟩) rfl
  have hstep : Reachable (system (fun _ => "") fun _ => true) Usable _ :=
    .step (a := ⟨.step 0, [⟨.row, true, [("1", .integer 1)]⟩]⟩) hprepare (fun t _ h => absurd rfl h) rfl
  exact ⟨_, hstep, by decide, by decide, (connections_live hstep).1⟩

/-- A statement that has come to the end of its rows costs the connection. -/
theorem exhausted_step_frees :
    ¬∀ s, Reachable (system (fun _ => "") fun _ => true) Any s → ∀ p ∈ s.impl.engine.passed, p = some .live := by
  intro h
  obtain ⟨s, hr, hp⟩ := exists_of_run (system (fun _ => "") fun _ => true) Any (fun _ _ => true) start
    [⟨.openDb "a.db" 6, []⟩, ⟨.prepare "SELECT 1 WHERE 0" 0, []⟩, ⟨.step 0, [⟨.done, true, []⟩]⟩, ⟨.close, []⟩]
    (fun s => s.impl.engine.passed.contains (some .freed)) (fun _ _ _ => trivial) rfl (by decide)
  have hm := h s hr (some .freed) (by simpa using hp)
  cases hm

end Enigma.SqliteHandle
