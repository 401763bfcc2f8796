import Enigma.SqliteHandle
import Enigma.Ownership

namespace Enigma.SqliteLedger

open Sqlite Transition Ownership
open SqliteHandle (Act Answer Engine Op api)

variable {ε : Type}

/-- The statements that are open, and whether one that was not has ever been used. -/
structure Ledger where
  stmts : Memory Nat Unit := fun _ => none
  stale : Bool := false

namespace Ledger

def use (l : Ledger) (t : Option Nat) : Ledger := { l with stale := l.stale || t.any fun t => (l.stmts t).isNone }

def opened (l : Ledger) : Option Nat → Ledger
  | none => l
  | some t => { l with stmts := put l.stmts t () }

def closed (l : Ledger) : Option Nat → Ledger
  | none => l
  | some t => { l with stmts := erase l.stmts t }

end Ledger

def noted (A : Api ε) : Api (ε × Ledger) where
  openV2 db flags e := ((A.openV2 db flags e.1).1, (A.openV2 db flags e.1).2, e.2)
  closeV2 db e := (A.closeV2 db e.1, e.2)
  errcode db e := ((A.errcode db e.1).1, (A.errcode db e.1).2, e.2)
  errstr := A.errstr
  free db e := (A.free db e.1, e.2)
  exec db sql e := ((A.exec db sql e.1).1, (A.exec db sql e.1).2, e.2)
  prepareV2 db sql n e :=
    ((A.prepareV2 db sql n e.1).1, (A.prepareV2 db sql n e.1).2, e.2.opened (A.prepareV2 db sql n e.1).1.2)
  bindInt64 t i x e := (A.bindInt64 t i x e.1).map fun r => (r.1, r.2, e.2.use (some t))
  bindDouble t i x e := (A.bindDouble t i x e.1).map fun r => (r.1, r.2, e.2.use (some t))
  bindText t i x n e := (A.bindText t i x n e.1).map fun r => (r.1, r.2, e.2.use (some t))
  bindBlob t i x n e := (A.bindBlob t i x n e.1).map fun r => (r.1, r.2, e.2.use (some t))
  bindNull t i e := (A.bindNull t i e.1).map fun r => (r.1, r.2, e.2.use (some t))
  step t e := ((A.step t e.1).1, (A.step t e.1).2, e.2.use t)
  columns t e := A.columns t e.1
  finalize t e := ((A.finalize t e.1).1, (A.finalize t e.1).2, (e.2.use t).closed t)
  malloc n e := A.malloc n e.1

structure State where
  impl : Impl (Engine × Ledger)
  ctxs : Nat → Option Nat

def start : State := ⟨⟨none, {}, {}⟩, fun _ => none⟩

def load (i : Impl (Engine × Ledger)) (script : List Answer) : Impl (Engine × Ledger) :=
  { i with engine := ({ i.engine.1 with script := script }, i.engine.2) }

def perform (A : Api (Engine × Ledger)) (s : State) (i : Impl (Engine × Ledger)) : Op → Option State
  | .openDb db flags => some { s with impl := (openDb A db flags i).2 }
  | .close => some { s with impl := close A i }
  | .error => some { s with impl := (error A i).2 }
  | .begin => some { s with impl := (begin A i).2 }
  | .commit => some { s with impl := (commit A i).2 }
  | .rollback => some { s with impl := (rollback A i).2 }
  | .exec sql => (exec A sql [] i).map fun r => { s with impl := r.2.2 }
  | .prepare sql k =>
      let r := prepare A sql (s.ctxs k) i
      some ⟨r.2.2, Function.update s.ctxs k r.2.1⟩
  | .bindValue k v => (bindValue A (s.ctxs k) v i).map fun r => { s with impl := r.2 }
  | .bindValues k vs => (bindValues A (s.ctxs k) vs i).map fun r => { s with impl := r.2 }
  | .step k => some { s with impl := (step A (s.ctxs k) (fun _ => none) i).2.2 }
  | .finalize k =>
      let r := finalize A (s.ctxs k) i
      some ⟨r.2.2, Function.update s.ctxs k r.2.1⟩

def next (errstr : Code → String) (malloc : Nat → Bool) (s : State) (a : Act) : Option State :=
  perform (noted (api errstr malloc)) s (load s.impl a.script) a.op

def system (errstr : Code → String) (malloc : Nat → Bool) : System State Act :=
  ⟨(· = start), next errstr malloc⟩

def conns (e : Engine) : Memory Nat Unit := fun d => if d < e.conns ∧ e.status d = .live then some () else none

/-- The connection in db_, unless it has been given to sqlite3_free. -/
def held (i : Impl (Engine × Ledger)) : Option Nat := i.db.filter fun d => (conns i.engine.1 d).isSome

inductive Handle
  | conn (d : Nat)
  | stmt (t : Nat)
deriving DecidableEq

/-- What a call overwrites: Open the connection that is open, Prepare the statement in the
context. -/
def lost (s : State) (a : Act) : List Handle :=
  match a.op with
  | .openDb db _ => if db = "" then [] else (held s.impl).toList.map .conn
  | .prepare sql k => if sql = "" then [] else (s.ctxs k).toList.map .stmt
  | _ => []

def connOf : Handle → Option Nat
  | .conn d => some d
  | .stmt _ => none

def stmtOf : Handle → Option Nat
  | .conn _ => none
  | .stmt t => some t

section Forget

def bare (i : Impl (ε × Ledger)) : Impl ε := ⟨i.db, i.engine.1⟩

def forget (s : State) : SqliteHandle.State := ⟨bare s.impl, s.ctxs⟩

variable {A : Api ε} {i : Impl (ε × Ledger)}

theorem error_bare : error A (bare i) = ((error (noted A) i).1, bare (error (noted A) i).2) := by
  cases hd : i.db with
  | none => simp [error, bare, hd]
  | some d => by_cases hc : (A.errcode (some d) i.engine.1).1 = .ok <;> simp [error, bare, noted, hd, hc]

theorem answer_bare (c : Code) : answer A c (bare i) = ((answer (noted A) c i).1, bare (answer (noted A) c i).2) := by
  by_cases hc : c = .ok <;> simp [answer, hc, error_bare]

theorem openDb_bare (db : String) (flags : Nat) :
    openDb A db flags (bare i) = ((openDb (noted A) db flags i).1, bare (openDb (noted A) db flags i).2) := by
  by_cases hd : db = ""
  · simp [openDb, hd]
  · rw [openDb, openDb, if_neg hd, if_neg hd]
    exact answer_bare (i := ⟨(A.openV2 db flags i.engine.1).1.2, (A.openV2 db flags i.engine.1).2, i.engine.2⟩) _

theorem close_bare : close A (bare i) = bare (close (noted A) i) := by
  by_cases hd : i.db = none <;> simp [close, bare, noted, hd]

theorem transaction_bare (sql : String) :
    transaction A sql (bare i) = ((transaction (noted A) sql i).1, bare (transaction (noted A) sql i).2) := by
  by_cases hd : i.db = none
  · simp [transaction, bare, hd]
  · rw [transaction, transaction, if_neg hd, if_neg (show ¬(bare i).db = none from hd)]
    exact answer_bare (i := ⟨i.db, (A.exec i.db sql i.engine.1).2, i.engine.2⟩) _

theorem prepare_bare (sql : String) (ctx : Option Nat) : prepare A sql ctx (bare i) =
    ((prepare (noted A) sql ctx i).1, (prepare (noted A) sql ctx i).2.1, bare (prepare (noted A) sql ctx i).2.2) := by
  by_cases hs : sql = ""
  · simp [prepare, hs]
  · let p := A.prepareV2 i.db sql (castInt sql.utf8ByteSize) i.engine.1
    have ha := answer_bare (A := A) (i := ⟨i.db, p.2, i.engine.2.opened p.1.2⟩) p.1.1
    simp only [prepare, if_neg hs]
    exact congrArg (fun r => (r.1, p.1.2, r.2)) ha

theorem exec_bare (sql : String) (rows : List Columns) : exec A sql rows (bare i) =
    (exec (noted A) sql rows i).map fun r => (r.1, r.2.1, bare r.2.2) := by
  by_cases hs : sql = ""
  · simp [exec, hs]
  by_cases hd : i.db = none
  · simp [exec, hs, hd, bare]
  rcases hp : A.prepareV2 i.db sql (castInt sql.utf8ByteSize) i.engine.1 with ⟨⟨c, t⟩, e⟩
  by_cases hc : c = .ok
  · rcases ht : A.step t e with ⟨c', e'⟩
    by_cases hl : c' = .locked ∨ c' = .busy
    · simp [exec, bare, noted, hs, hd, hp, hc, ht, hl]
    · by_cases hdone : c' = .done
      · subst hdone
        simp [exec, bare, noted, hs, hd, hp, hc, ht, hl]
      · simp [exec, bare, noted, hs, hd, hp, hc, ht, hl, hdone]
  · have he := error_bare (A := A) (i := ⟨i.db, e, i.engine.2.opened t⟩)
    simp only [bare] at he
    simp [exec, bare, noted, hs, hd, hp, hc, he]

theorem bind_bare (t : Nat) (v : Value) : Sqlite.bind A t i.engine.1 v =
    (Sqlite.bind (noted A) t i.engine v).map fun r => (r.1, r.2.1) := by
  cases v <;> simp [Sqlite.bind, noted, Option.map_map, Function.comp_def]

theorem bindValue_bare (ctx : Option Nat) (v : Value) : bindValue A ctx v (bare i) =
    (bindValue (noted A) ctx v i).map fun r => (r.1, bare r.2) := by
  cases ctx with
  | none => rfl
  | some t =>
      have hb : Sqlite.bind A t (bare i).engine v = _ := bind_bare t v
      simp only [bindValue, hb, Option.map_map]
      refine Option.map_congr fun r _ => ?_
      exact answer_bare (i := { i with engine := r.2 }) r.1

theorem bindValues_bare (ctx : Option Nat) (vs : List Value) : bindValues A ctx vs (bare i) =
    (bindValues (noted A) ctx vs i).map fun r => (r.1, bare r.2) := by
  induction vs generalizing i with
  | nil => rfl
  | cons v vs ih =>
      rw [bindValues, bindValues, bindValue_bare]
      cases bindValue (noted A) ctx v i with
      | none => rfl
      | some r => cases hr : r.1.1 <;> simp [hr, ih]

theorem step_bare (ctx : Option Nat) (cols : Columns) : step A ctx cols (bare i) =
    ((step (noted A) ctx cols i).1, (step (noted A) ctx cols i).2.1, bare (step (noted A) ctx cols i).2.2) := by
  cases ctx with
  | none => rfl
  | some t =>
      have he := error_bare (A := A) (i := ⟨i.db, (A.step (some t) i.engine.1).2, i.engine.2.use (some t)⟩)
      simp only [bare] at he
      by_cases hr : (A.step (some t) i.engine.1).1 = .row <;> simp [step, bare, noted, hr, he]

theorem finalize_bare (ctx : Option Nat) : finalize A ctx (bare i) =
    ((finalize (noted A) ctx i).1, (finalize (noted A) ctx i).2.1, bare (finalize (noted A) ctx i).2.2) := by
  cases ctx with
  | none => rfl
  | some t =>
      have ha := answer_bare (A := A)
        (i := ⟨i.db, (A.finalize (some t) i.engine.1).2, (i.engine.2.use (some t)).closed (some t)⟩)
        (A.finalize (some t) i.engine.1).1
      exact congrArg (fun r => (r.1, none, r.2)) ha

variable {s s' : State} {a : Act} {errstr : Code → String} {malloc : Nat → Bool}

theorem next_forget (hn : next errstr malloc s a = some s') :
    SqliteHandle.next errstr malloc (forget s) a = some (forget s') := by
  obtain ⟨op, script⟩ := a
  have hload : SqliteHandle.load (forget s).impl script = bare (load s.impl script) := rfl
  rw [SqliteHandle.next, hload]
  cases op with
  | openDb db flags =>
      cases hn
      simp only [SqliteHandle.perform, openDb_bare, forget]
  | close =>
      cases hn
      simp only [SqliteHandle.perform, close_bare, forget]
  | error =>
      cases hn
      simp only [SqliteHandle.perform, error_bare, forget]
  | begin | commit | rollback =>
      cases hn
      simp only [SqliteHandle.perform, begin, commit, rollback, transaction_bare, forget]
  | exec sql =>
      obtain ⟨r, hr, rfl⟩ := Option.map_eq_some_iff.mp hn
      simp only [SqliteHandle.perform, exec_bare, hr, Option.map_some, forget]
  | prepare sql k =>
      cases hn
      simp only [SqliteHandle.perform, forget, prepare_bare]
  | bindValue k v =>
      obtain ⟨r, hr, rfl⟩ := Option.map_eq_some_iff.mp hn
      simp only [SqliteHandle.perform, forget, bindValue_bare, hr, Option.map_some]
  | bindValues k vs =>
      obtain ⟨r, hr, rfl⟩ := Option.map_eq_some_iff.mp hn
      simp only [SqliteHandle.perform, forget, bindValues_bare, hr, Option.map_some]
  | step k =>
      cases hn
      simp only [SqliteHandle.perform, forget, step_bare]
  | finalize k =>
      cases hn
      simp only [SqliteHandle.perform, forget, finalize_bare]

end Forget

section Conns

variable {e : Engine} {db : Option Nat} {d : Nat}

def counts (e : Engine) : Nat × Nat := (e.conns, e.stmts)

theorem conns_congr {e' : Engine} (hc : e'.conns = e.conns) (hs : e'.status = e.status) : conns e' = conns e := by
  funext d
  simp only [conns, hc, hs]

@[simp] theorem conns_take : conns e.take = conns e := rfl

@[simp] theorem conns_pass : conns (e.pass db) = conns e := rfl

@[simp] theorem conns_setCode (c : Code) : conns (e.setCode db c) = conns e := by
  cases db <;> rfl

theorem counts_setCode (c : Code) : counts (e.setCode db c) = counts e := by
  cases db <;> rfl

theorem counts_setStatus (st : SqliteHandle.Status) : counts (e.setStatus db st) = counts e := by
  cases db <;> rfl

theorem conns_exec : conns (e.exec db).2 = conns e := by
  simp [Engine.exec]

theorem conns_stmtCall (t : Nat) : conns (e.stmtCall t).2 = conns e := by
  simp [Engine.stmtCall]

theorem conns_prepareV2 : conns (e.prepareV2 db).2 = conns e := by
  cases db with
  | none => rfl
  | some d =>
      rw [Engine.prepareV2]
      split
      · exact conns_congr rfl (by simp)
      · simp

theorem conns_setStatus {st : SqliteHandle.Status} (hst : st ≠ .live) :
    conns (e.setStatus (some d) st) = erase (conns e) d := by
  funext x
  by_cases hx : x = d
  · subst hx
    simp [conns, Engine.setStatus, erase, hst]
  · simp [conns, Engine.setStatus, erase, hx]

theorem conns_openV2 : Changes (conns e) none (conns e.openV2.2) e.openV2.1.2 := by
  rw [Engine.openV2]
  split
  · have hnew : conns e e.conns = none := by simp [conns]
    have hput : conns (({ e with conns := e.conns + 1 } : Engine).setStatus (some e.conns) .live) =
        put (conns e) e.conns () := by
      funext x
      by_cases hx : x = e.conns
      · subst hx
        simp [conns, Engine.setStatus, put]
      · have hlt : x < e.conns + 1 ↔ x < e.conns := by omega
        simp [conns, Engine.setStatus, put, hx, hlt]
    rw [conns_take, conns_setCode, hput]
    exact changes_new hnew ()
  · exact Changes.refl fun _ h => by cases h

end Conns

section Calls

variable {i i' i'' : Impl (Engine × Ledger)} {p p' p'' : Option Nat} {errstr : Code → String} {malloc : Nat → Bool}

structure Numbered (i : Impl (Engine × Ledger)) : Prop where
  stmt : ∀ t, i.engine.2.stmts t ≠ none → t < i.engine.1.stmts
  conn : ∀ d, i.db = some d → d < i.engine.1.conns

theorem Numbered.keep (hn : Numbered i) (hdb : ∀ d, i'.db = some d → i.db = some d)
    (hl : ∀ t, i'.engine.2.stmts t ≠ none → i.engine.2.stmts t ≠ none)
    (hc : counts i'.engine.1 = counts i.engine.1) : Numbered i' where
  stmt t ht := Nat.lt_of_lt_of_eq (hn.stmt t (hl t ht)) (congrArg Prod.snd hc).symm
  conn d hd := Nat.lt_of_lt_of_eq (hn.conn d (hdb d hd)) (congrArg Prod.fst hc).symm

/-- A call that works with one context, whose statement is `p` before and `p'` after. -/
structure Works (i : Impl (Engine × Ledger)) (p : Option Nat) (i' : Impl (Engine × Ledger)) (p' : Option Nat) :
    Prop where
  conn : Changes (conns i.engine.1) (held i) (conns i'.engine.1) (held i')
  stmt : Changes i.engine.2.stmts p i'.engine.2.stmts p'
  stale : i'.engine.2.stale = i.engine.2.stale
  numbered : Numbered i'

/-- The context at work has no statement, or one that is open. -/
structure Ready (i : Impl (Engine × Ledger)) (p : Option Nat) : Prop where
  numbered : Numbered i
  live : ∀ t, p = some t → i.engine.2.stmts t ≠ none

theorem Ready.empty (hn : Numbered i) : Ready i none := ⟨hn, fun _ h => by cases h⟩

/-- What follows a call finds the context as the call has left it. -/
theorem Works.followed (h : Works i p i' p') (h' : Ready i' p' → Works i' p' i'' p'') : Works i p i'' p'' := by
  have hw := h' ⟨h.numbered, h.stmt.live⟩
  exact ⟨h.conn.trans hw.conn, h.stmt.trans hw.stmt, hw.stale.trans h.stale, hw.numbered⟩

theorem Works.leaves {q : Option Nat} (h : Works i p i' p') (hq : p' = q) : Works i p i' q := hq ▸ h

theorem held_open {d : Nat} (h : held i = some d) : conns i.engine.1 d ≠ none := by
  have hd := (Option.filter_eq_some_iff.mp h).2
  rw [Option.isSome_iff_ne_none] at hd
  exact hd

theorem Works.still (hr : Ready i p) (hdb : i'.db = i.db) (hc : conns i'.engine.1 = conns i.engine.1)
    (hl : i'.engine.2 = i.engine.2) (hs : counts i'.engine.1 = counts i.engine.1) : Works i p i' p := by
  have hheld : held i' = held i := by rw [held, held, hdb, hc]
  refine ⟨?_, ?_, by rw [hl], hr.numbered.keep (fun d h => hdb ▸ h) (fun t h => hl ▸ h) hs⟩
  · rw [hc, hheld]
    exact Changes.refl fun d => held_open
  · rw [hl]
    exact Changes.refl hr.live

theorem Works.refl (hr : Ready i p) : Works i p i p := .still hr rfl rfl rfl rfl

theorem changes_given {d : Nat} (hd : i.db = some d) {e : Engine} (he : conns e = erase (conns i.engine.1) d) :
    Changes (conns i.engine.1) (held i) (conns e) none := by
  rw [he, held, hd]
  cases hopen : conns i.engine.1 d with
  | some u =>
      rw [Option.filter_some_pos (by simp [hopen])]
      exact changes_erase _ d
  | none =>
      have hsame : erase (conns i.engine.1) d = conns i.engine.1 := by
        rw [erase, ← hopen, Function.update_eq_self]
      rw [hsame, Option.filter_some_neg (by simp [hopen])]
      exact Changes.refl fun _ h => by cases h

theorem error_works (hr : Ready i p) :
    Works i p (error (noted (api errstr malloc)) i).2 p := by
  cases hd : i.db with
  | none =>
      rw [error, if_pos hd]
      exact .refl hr
  | some d =>
      rw [error, if_neg (by simp [hd])]
      dsimp only
      split
      · exact .still hr rfl rfl rfl rfl
      · let e : Engine := ((i.engine.1.pass i.db).pass i.db).setStatus i.db .freed
        have he : conns e = erase (conns i.engine.1) d := by
          rw [show e = ((i.engine.1.pass i.db).pass i.db).setStatus (some d) .freed by rw [← hd],
            conns_setStatus (by simp), conns_pass, conns_pass]
        have hheld : held ⟨i.db, (e, i.engine.2)⟩ = none := by
          rw [held, he, hd]
          exact Option.filter_some_neg (by simp [erase])
        have hchange := changes_given hd he
        rw [← hheld] at hchange
        exact ⟨hchange, Changes.refl hr.live, rfl,
          hr.numbered.keep (fun _ h => h) (fun _ h => h) (counts_setStatus .freed)⟩

theorem answer_works (hr : Ready i p) (c : Code) :
    Works i p (answer (noted (api errstr malloc)) c i).2 p := by
  rw [answer]
  split
  · exact .refl hr
  · exact error_works hr

theorem close_works (hr : Ready i p) :
    Works i p (close (noted (api errstr malloc)) i) p := by
  cases hd : i.db with
  | none =>
      rw [close, if_pos hd]
      exact .refl hr
  | some d =>
      rw [close, if_neg (by simp [hd])]
      have he : conns ((i.engine.1.pass i.db).setStatus i.db .closed) = erase (conns i.engine.1) d := by
        rw [hd, conns_setStatus (by simp), conns_pass]
      exact ⟨changes_given hd he, Changes.refl hr.live, rfl,
        hr.numbered.keep (fun _ h => by cases h) (fun _ h => h) (counts_setStatus .closed)⟩

theorem openV2_counts (e : Engine) :
    e.openV2.2.stmts = e.stmts ∧ ∀ d, e.openV2.1.2 = some d → d < e.openV2.2.conns := by
  rw [Engine.openV2]
  split
  · have hc : counts ((({ e with conns := e.conns + 1 } : Engine).setStatus e.conns .live).setCode e.conns
        e.head.code) = (e.conns + 1, e.stmts) := (counts_setCode _).trans (counts_setStatus .live)
    refine ⟨congrArg Prod.snd hc, fun d hd => ?_⟩
    cases hd
    exact Nat.lt_of_lt_of_eq (Nat.lt_succ_self _) (congrArg Prod.fst hc).symm
  · exact ⟨rfl, fun _ h => by cases h⟩

/-- Whatever was in db_ before is overwritten. -/
theorem openDb_works (hr : Ready i p) {db : String} (hdb : db ≠ "") (flags : Nat) :
    Works { i with db := none } p (openDb (noted (api errstr malloc)) db flags i).2 p := by
  rw [openDb, if_neg hdb]
  let i₁ : Impl (Engine × Ledger) := ⟨i.engine.1.openV2.1.2, (i.engine.1.openV2.2, i.engine.2)⟩
  have hnew : Changes (conns i.engine.1) none (conns i.engine.1.openV2.2) i.engine.1.openV2.1.2 := conns_openV2
  have hheld : held i₁ = i.engine.1.openV2.1.2 := by
    show i.engine.1.openV2.1.2.filter _ = _
    cases ho : i.engine.1.openV2.1.2 with
    | none => rfl
    | some d => exact Option.filter_some_pos (Option.isSome_iff_ne_none.mpr (hnew.live d ho))
  obtain ⟨hs, hd⟩ := openV2_counts i.engine.1
  have hn₁ : Numbered i₁ := ⟨fun t ht => Nat.lt_of_lt_of_eq (hr.numbered.stmt t ht) hs.symm, hd⟩
  have hfirst : Works { i with db := none } p i₁ p := by
    refine ⟨?_, Changes.refl hr.live, rfl, hn₁⟩
    rw [hheld]
    exact hnew
  exact hfirst.followed fun hr => answer_works hr _

theorem transaction_works (hr : Ready i p) (sql : String) :
    Works i p (transaction (noted (api errstr malloc)) sql i).2 p := by
  rw [transaction]
  split
  · exact .refl hr
  · have hfirst : Works i p { i with engine := ((i.engine.1.exec i.db).2, i.engine.2) } p :=
      .still hr rfl conns_exec rfl (counts_setCode _)
    exact hfirst.followed fun hr => answer_works hr _

/-- A statement is handed out under a number of its own, and only where the answer is ok. -/
theorem prepareV2_handle (e : Engine) (db : Option Nat) :
    ((e.prepareV2 db).1.2 = none ∧ counts (e.prepareV2 db).2 = counts e) ∨
      ((e.prepareV2 db).1 = (.ok, some e.stmts) ∧ counts (e.prepareV2 db).2 = (e.conns, e.stmts + 1)) := by
  cases db with
  | none => exact .inl ⟨rfl, rfl⟩
  | some d =>
      rw [Engine.prepareV2]
      split
      · exact .inr ⟨rfl, rfl⟩
      · exact .inl ⟨rfl, counts_setCode _⟩

theorem prepareV2_works (hn : Numbered i) : Works i none
    { i with engine := ((i.engine.1.prepareV2 i.db).2, i.engine.2.opened (i.engine.1.prepareV2 i.db).1.2) }
    (i.engine.1.prepareV2 i.db).1.2 := by
  rcases prepareV2_handle i.engine.1 i.db with ⟨ho, hs⟩ | ⟨ho, hs⟩
  · rw [ho]
    exact .still (.empty hn) rfl conns_prepareV2 rfl hs
  · have hnone : i.engine.2.stmts i.engine.1.stmts = none := by
      by_contra hopen
      exact Nat.lt_irrefl _ (hn.stmt _ hopen)
    rw [ho]
    refine ⟨?_, changes_new hnone (), rfl, fun t ht => ?_, fun d hd => ?_⟩
    · simp only [held, conns_prepareV2]
      exact Changes.refl fun d => held_open
    · have hlt : t < i.engine.1.stmts + 1 := by
        by_cases he : t = i.engine.1.stmts
        · omega
        · have hopen : i.engine.2.stmts t ≠ none := by simpa [Ledger.opened, put, he] using ht
          exact Nat.lt_succ_of_lt (hn.stmt t hopen)
      exact Nat.lt_of_lt_of_eq hlt (congrArg Prod.snd hs).symm
    · exact Nat.lt_of_lt_of_eq (hn.conn d hd) (congrArg Prod.fst hs).symm

theorem prepare_works (hn : Numbered i) {sql : String} (hsql : sql ≠ "") (ctx : Option Nat) :
    Works i none (prepare (noted (api errstr malloc)) sql ctx i).2.2
      (prepare (noted (api errstr malloc)) sql ctx i).2.1 := by
  rw [prepare, if_neg hsql]
  exact (prepareV2_works hn).followed fun hr => answer_works hr _

theorem bind_noted (t : Nat) (v : Value) (e : Engine × Ledger) :
    Sqlite.bind (noted (api errstr malloc)) t e v =
      some ((e.1.stmtCall t).1, (e.1.stmtCall t).2, e.2.use (some t)) := by
  cases v <;> rfl

theorem use_open {l : Ledger} {t : Nat} (h : l.stmts t ≠ none) : l.use (some t) = l := by
  cases ho : l.stmts t with
  | none => exact absurd ho h
  | some u => simp [Ledger.use, ho]

theorem stmtCall_works {t : Nat} (hr : Ready i (some t)) :
    Works i (some t) { i with engine := ((i.engine.1.stmtCall t).2, i.engine.2.use (some t)) } (some t) :=
  .still hr rfl (conns_stmtCall t) (use_open (hr.live t rfl)) (counts_setCode _)

theorem bindValue_works (hr : Ready i p) {v : Value} {r : Result × Impl (Engine × Ledger)}
    (hb : bindValue (noted (api errstr malloc)) p v i = some r) : Works i p r.2 p := by
  cases p with
  | none =>
      cases hb
      exact .refl hr
  | some t =>
      rw [bindValue, bind_noted, Option.map_some, Option.some.injEq] at hb
      subst hb
      exact (stmtCall_works hr).followed fun hr => answer_works hr _

theorem bindValues_works (hr : Ready i p) {vs : List Value} {r : Result × Impl (Engine × Ledger)}
    (hb : bindValues (noted (api errstr malloc)) p vs i = some r) : Works i p r.2 p := by
  induction vs generalizing i with
  | nil =>
      cases hb
      exact .refl hr
  | cons v vs ih =>
      obtain ⟨u, hu, hb⟩ := Option.bind_eq_some_iff.mp hb
      have hfirst : Works i p u.2 p := bindValue_works hr hu
      split at hb
      · exact hfirst.followed fun hr => ih hr hb
      · cases hb
        exact hfirst

theorem closed_works {t : Nat} (hr : Ready i (some t)) : Works i (some t)
    { i with engine := ((i.engine.1.stmtCall t).2, (i.engine.2.use (some t)).closed (some t)) } none := by
  have hcall := stmtCall_works hr
  rw [use_open (hr.live t rfl)] at hcall ⊢
  refine ⟨hcall.conn, changes_erase _ t, rfl, hcall.numbered.keep (fun _ h => h) (fun t' ht' hclosed => ht' ?_) rfl⟩
  by_cases he : t' = t
  · simp [Ledger.closed, erase, he]
  · simpa [Ledger.closed, erase, he] using hclosed

theorem finalize_works (hr : Ready i p) :
    Works i p (finalize (noted (api errstr malloc)) p i).2.2 (finalize (noted (api errstr malloc)) p i).2.1 := by
  cases p with
  | none => exact .refl hr
  | some t => exact (closed_works hr).followed fun hr => answer_works hr _

/-- A statement that is stepped: the row it may have got is the engine's own affair. -/
theorem stepped_works {t : Nat} (hr : Ready i (some t)) :
    Works i (some t) { i with engine := ((i.engine.1.step (some t)).2, i.engine.2.use (some t)) } (some t) :=
  .still hr rfl (conns_stmtCall t) (use_open (hr.live t rfl)) (counts_setCode _)

theorem step_works (hr : Ready i p) (cols : Columns) :
    Works i p (step (noted (api errstr malloc)) p cols i).2.2 p := by
  cases p with
  | none => exact .refl hr
  | some t =>
      have hfirst := stepped_works hr
      rw [step]
      dsimp only
      split
      · exact hfirst.followed error_works
      · exact hfirst

theorem ended_works (hn : Numbered i) {t : Nat} (ho : (i.engine.1.prepareV2 i.db).1.2 = some t) : Works i none
    { i with engine := ((noted (api errstr malloc)).finalize (i.engine.1.prepareV2 i.db).1.2
      ((noted (api errstr malloc)).step (i.engine.1.prepareV2 i.db).1.2 ((i.engine.1.prepareV2 i.db).2,
        i.engine.2.opened (i.engine.1.prepareV2 i.db).1.2)).2).2 } none := by
  have hprepared := prepareV2_works hn
  rw [ho] at hprepared ⊢
  exact (hprepared.followed stepped_works).followed closed_works

theorem exec_works (hn : Numbered i) {sql : String} {rows : List Columns}
    {r : Result × List Columns × Impl (Engine × Ledger)}
    (hr : exec (noted (api errstr malloc)) sql rows i = some r) : Works i none r.2.2 none := by
  rw [exec] at hr
  split at hr
  · cases hr
    exact .refl (.empty hn)
  split at hr
  · cases hr
    exact .refl (.empty hn)
  dsimp only at hr
  split at hr
  case isTrue hc =>
      cases hr
      rcases prepareV2_handle i.engine.1 i.db with ⟨ho, -⟩ | ⟨ho, -⟩
      · exact ((prepareV2_works hn).leaves ho).followed error_works
      · exact absurd (congrArg Prod.fst ho) hc
  case isFalse =>
      split at hr
      · cases hr
      split at hr
      case isFalse => cases hr
      case isTrue hdone =>
          cases hr
          change ((i.engine.1.prepareV2 i.db).2.step (i.engine.1.prepareV2 i.db).1.2).1 = .done at hdone
          rcases prepareV2_handle i.engine.1 i.db with ⟨ho, -⟩ | ⟨ho, -⟩
          · rw [ho] at hdone
            exact absurd (show Code.misuse = Code.done from hdone) (by decide)
          · exact ended_works hn (congrArg Prod.snd ho)

end Calls

section Runs

variable {s s' : State} {a : Act} {h : List Handle} {errstr : Code → String} {malloc : Nat → Bool}

/-- What is open is owned or lost, and nothing closed has been used. -/
structure Sound (s : State) (h : List Handle) : Prop where
  conn : Accounts (conns s.impl.engine.1) (fun _ : Unit => held s.impl) (h.filterMap connOf)
  stmt : Accounts s.impl.engine.2.stmts s.ctxs (h.filterMap stmtOf)
  fresh : s.impl.engine.2.stale = false
  numbered : Numbered s.impl

theorem conn_change {m m' : Memory Nat Unit} {o o' : Option Nat} {l : List Nat} (ha : Accounts m (fun _ : Unit => o) l)
    (hc : Changes m o m' o') : Accounts m' (fun _ : Unit => o') l := by
  have hchange := ha.change (i := ()) hc
  rwa [show Function.update (fun _ : Unit => o) () o' = fun _ => o' from funext fun _ => rfl] at hchange

theorem Sound.plain {i : Impl (Engine × Ledger)} (hs : Sound s h) (hw : Works s.impl none i none) :
    Sound ⟨i, s.ctxs⟩ h := by
  refine ⟨conn_change hs.conn hw.conn, ?_, hw.stale.trans hs.fresh, hw.numbered⟩
  have hsame : i.engine.2.stmts = s.impl.engine.2.stmts := funext fun t => hw.stmt.frame t (by simp) (by simp)
  rw [hsame]
  exact hs.stmt

theorem Sound.context {i : Impl (Engine × Ledger)} {p : Option Nat} (hs : Sound s h) (k : Nat)
    (hw : Works s.impl (s.ctxs k) i p) : Sound ⟨i, Function.update s.ctxs k p⟩ h :=
  ⟨conn_change hs.conn hw.conn, hs.stmt.change hw.stmt, hw.stale.trans hs.fresh, hw.numbered⟩

theorem Sound.used {i : Impl (Engine × Ledger)} (hs : Sound s h) (k : Nat)
    (hw : Works s.impl (s.ctxs k) i (s.ctxs k)) : Sound ⟨i, s.ctxs⟩ h := by
  have hc := hs.context k hw
  rwa [Function.update_eq_self] at hc

theorem conns_of_conn (o : Option Nat) : (o.toList.map Handle.conn).filterMap connOf = o.toList ∧
    (o.toList.map Handle.conn).filterMap stmtOf = [] := by
  cases o <;> exact ⟨rfl, rfl⟩

theorem stmts_of_stmt (o : Option Nat) : (o.toList.map Handle.stmt).filterMap connOf = [] ∧
    (o.toList.map Handle.stmt).filterMap stmtOf = o.toList := by
  cases o <;> exact ⟨rfl, rfl⟩

theorem Sound.overwrite {i : Impl (Engine × Ledger)} (hs : Sound s h)
    (hw : Works { s.impl with db := none } none i none) :
    Sound ⟨i, s.ctxs⟩ (h ++ (held s.impl).toList.map .conn) := by
  obtain ⟨hconn, hstmt⟩ := conns_of_conn (held s.impl)
  have hdiscard := hs.conn.discard ()
  rw [show Function.update (fun _ : Unit => held s.impl) () none = fun _ => none from funext fun _ => rfl] at hdiscard
  have hsame : i.engine.2.stmts = s.impl.engine.2.stmts := funext fun t => hw.stmt.frame t (by simp) (by simp)
  refine ⟨?_, ?_, hw.stale.trans hs.fresh, hw.numbered⟩
  · rw [List.filterMap_append, hconn]
    exact conn_change hdiscard hw.conn
  · rw [List.filterMap_append, hstmt, List.append_nil, hsame]
    exact hs.stmt

theorem Sound.replace {i : Impl (Engine × Ledger)} {p : Option Nat} (hs : Sound s h) (k : Nat)
    (hw : Works s.impl none i p) :
    Sound ⟨i, Function.update s.ctxs k p⟩ (h ++ (s.ctxs k).toList.map .stmt) := by
  obtain ⟨hconn, hstmt⟩ := stmts_of_stmt (s.ctxs k)
  have hdiscard := hs.stmt.discard k
  have hchange := hdiscard.change (i := k) (by rw [Function.update_self]; exact hw.stmt)
  rw [Function.update_idem] at hchange
  refine ⟨?_, ?_, hw.stale.trans hs.fresh, hw.numbered⟩
  · rw [List.filterMap_append, hconn, List.append_nil]
    exact conn_change hs.conn hw.conn
  · rw [List.filterMap_append, hstmt]
    exact hchange

theorem next_sound (hs : Sound s h) (hn : next errstr malloc s a = some s') : Sound s' (h ++ lost s a) := by
  obtain ⟨op, script⟩ := a
  have hs₁ : Sound ⟨load s.impl script, s.ctxs⟩ h :=
    hs.plain (.still (.empty hs.numbered) rfl (conns_congr rfl rfl) rfl rfl)
  have hnone : Ready (load s.impl script) none := .empty hs₁.numbered
  have hctx (k : Nat) : Ready (load s.impl script) (s.ctxs k) := ⟨hs₁.numbered, fun t ht => hs₁.stmt.of_owner ht⟩
  cases op with
  | openDb db flags =>
      cases hn
      by_cases hdb : db = ""
      · simpa [lost, hdb, openDb] using hs₁
      · simp only [lost, if_neg hdb]
        exact hs₁.overwrite (openDb_works hnone hdb flags)
  | close =>
      cases hn
      simpa only [lost, List.append_nil] using hs₁.plain (close_works hnone)
  | error =>
      cases hn
      simpa only [lost, List.append_nil] using hs₁.plain (error_works hnone)
  | begin | commit | rollback =>
      cases hn
      simp only [lost, List.append_nil]
      exact hs₁.plain (transaction_works hnone _)
  | exec sql =>
      obtain ⟨r, hr, rfl⟩ := Option.map_eq_some_iff.mp hn
      simpa only [lost, List.append_nil] using hs₁.plain (exec_works hs₁.numbered hr)
  | prepare sql k =>
      cases hn
      by_cases hsql : sql = ""
      · simpa [lost, hsql, prepare] using hs₁
      · simpa only [lost, if_neg hsql] using hs₁.replace k (prepare_works hs₁.numbered hsql (s.ctxs k))
  | bindValue k v =>
      obtain ⟨r, hr, rfl⟩ := Option.map_eq_some_iff.mp hn
      simpa only [lost, List.append_nil] using hs₁.used k (bindValue_works (hctx k) hr)
  | bindValues k vs =>
      obtain ⟨r, hr, rfl⟩ := Option.map_eq_some_iff.mp hn
      simpa only [lost, List.append_nil] using hs₁.used k (bindValues_works (hctx k) hr)
  | step k =>
      cases hn
      simpa only [lost, List.append_nil] using hs₁.used k (step_works (hctx k) fun _ => none)
  | finalize k =>
      cases hn
      simpa only [lost, List.append_nil] using hs₁.context k (finalize_works (hctx k))

theorem reachable_sound {ok : State × List Handle → Act → Prop}
    (hr : Reachable (logged (system errstr malloc) lost) ok (s, h)) : Sound s h := by
  refine hr.logged_invariant (P := Sound) ?_ ?_
  · rintro s rfl
    have hnone : conns start.impl.engine.1 = fun _ => none := by
      funext d
      simp [conns, start]
    refine ⟨?_, ?_, rfl, ⟨fun t ht => absurd rfl ht, fun _ h => by cases h⟩⟩
    · rw [hnone]
      exact ⟨fun _ _ _ h => (by cases h), fun _ _ h => (by cases h), List.nodup_nil, by simp [held, start]⟩
    · exact ⟨fun _ _ _ h => (by cases h), fun _ _ h => (by cases h), List.nodup_nil, by simp [start]⟩
  · intro s h a s' _ hs _ hn
    exact next_sound hs hn

theorem reachable_forget (hr : Reachable (system errstr malloc) (fun s a => SqliteHandle.Usable (forget s) a) s) :
    Reachable (SqliteHandle.system errstr malloc) SqliteHandle.Usable (forget s) := by
  induction hr with
  | init hi =>
      cases hi
      exact .init rfl
  | step _ hok hn ih => exact ih.step hok (next_forget hn)

theorem held_of_usable (hr : Reachable (system errstr malloc) (fun s a => SqliteHandle.Usable (forget s) a) s)
    (hn : Numbered s.impl) : held s.impl = s.impl.db := by
  have hlive := (SqliteHandle.sound_of_reachable (reachable_forget hr)).live
  cases hd : s.impl.db with
  | none => simp [held, hd]
  | some d =>
      have hopen : conns s.impl.engine.1 d = some () := if_pos ⟨hn.conn d hd, hlive d hd⟩
      rw [held, hd]
      exact Option.filter_some_pos (by rw [hopen]; rfl)

/-- What is open is in db_ or in a context, or was overwritten by an Open or a Prepare. No statement
is used or closed after it has been closed. -/
theorem handles_accounted {ok : State × List Handle → Act → Prop}
    (hr : Reachable (logged (system errstr malloc) lost) ok (s, h)) :
    Accounts (conns s.impl.engine.1) (fun _ : Unit => held s.impl) (h.filterMap connOf) ∧
      Accounts s.impl.engine.2.stmts s.ctxs (h.filterMap stmtOf) ∧ s.impl.engine.2.stale = false ∧
      (Reachable (system errstr malloc) (fun s a => SqliteHandle.Usable (forget s) a) s → held s.impl = s.impl.db) := by
  have hs := reachable_sound hr
  exact ⟨hs.conn, hs.stmt, hs.fresh, fun hu => held_of_usable hu hs.numbered⟩

theorem handles_accounted_twice : ∃ (s : State) (h : List Handle), h = [.conn 0, .stmt 0] ∧
    s.impl.db = some 1 ∧ s.ctxs 0 = some 2 ∧ conns s.impl.engine.1 0 ≠ none ∧ s.impl.engine.2.stmts 0 ≠ none ∧
    s.impl.engine.2.stmts 1 = none := by
  obtain ⟨⟨s, h⟩, hr, hp⟩ := exists_of_run (logged (system (fun _ => "") fun _ => true) lost) Any (fun _ _ => true)
    (start, []) [⟨.openDb "a.db" 6, []⟩, ⟨.openDb "b.db" 6, []⟩, ⟨.prepare "SELECT 1" 0, []⟩,
      ⟨.exec "VACUUM", [⟨.ok, true, []⟩, ⟨.done, true, []⟩, ⟨.ok, true, []⟩]⟩, ⟨.prepare "SELECT 2" 0, []⟩]
    (fun p => decide (p.2 = [.conn 0, .stmt 0] ∧ p.1.impl.db = some 1 ∧ p.1.ctxs 0 = some 2) &&
      (p.1.impl.engine.2.stmts 1).isNone)
    (fun _ _ _ => trivial) ⟨rfl, rfl⟩ (by decide)
  simp only [Bool.and_eq_true, decide_eq_true_eq, Option.isNone_iff_eq_none] at hp
  obtain ⟨⟨hlost, hdb, hctx⟩, hexec⟩ := hp
  obtain ⟨hconn, hstmt, -, -⟩ := handles_accounted hr
  rw [hlost] at hconn hstmt
  exact ⟨s, h, hlost, hdb, hctx, (hconn.live 0).mpr (.inr List.mem_cons_self),
    (hstmt.live 0).mpr (.inr List.mem_cons_self), hexec⟩

end Runs

end Enigma.SqliteLedger
