import Enigma.SqliteValue

namespace Enigma.SqliteBind

open Sqlite SqliteValue

def range : Code := 25

/-- A statement with numbered parameters: what each is bound to, and the code of the last
call. -/
structure Params where
  bound : List Column
  code : Code := .ok

/-- A bind of the parameter of this number, the first of which is 1, done as a bind of the only
parameter of a statement. -/
def Params.bindAt (e : Params) (i : Nat) (f : Select → Option (Code × Select)) : Option (Code × Params) :=
  match i with
  | 0 => some (range, { e with code := range })
  | i + 1 => match e.bound[i]? with
    | none => some (range, { e with code := range })
    | some column => (f { bound := column, code := e.code }).map fun r => (r.1, ⟨e.bound.set i r.2.bound, r.1⟩)

def params (errstr : Code → String) : Api Params :=
  { still Params.code errstr with
    bindInt64 := fun stmt i n e => e.bindAt i ((api "" errstr).bindInt64 stmt 1 n)
    bindDouble := fun stmt i d e => e.bindAt i ((api "" errstr).bindDouble stmt 1 d)
    bindText := fun stmt i s n e => e.bindAt i ((api "" errstr).bindText stmt 1 s n)
    bindBlob := fun stmt i data n e => e.bindAt i ((api "" errstr).bindBlob stmt 1 data n)
    bindNull := fun stmt i e => e.bindAt i ((api "" errstr).bindNull stmt 1) }

def stored (v : Value) : Option Column :=
  (Sqlite.bind (api "" fun _ => "") 0 {} v).bind fun r => if r.1 = .ok then some r.2.bound else none

variable {errstr : Code → String} {stmt : Nat} {v : Value} {column : Column} {s : Impl Params}

theorem bindBytes_uniform (column : List UInt8 → Column) (m : List UInt8) (n : Nat) :
    ∃ code c, ∀ e : Select, e.bindBytes column m n = e.bind code c := by
  by_cases h : maxLength < n
  · exact ⟨.tooBig, .null, fun e => by rw [Select.bindBytes, if_pos h]⟩
  · exact ⟨.ok, column (m.take n), fun e => by rw [Select.bindBytes, if_neg h]⟩

/-- A bind answers the same and stores the same whatever the statement, or is undefined. -/
theorem bind_uniform (v : Value) :
    (∃ code column, ∀ errstr stmt e, Sqlite.bind (api "" errstr) stmt e v = some (e.bind code column)) ∨
      ∀ errstr stmt e, Sqlite.bind (api "" errstr) stmt e v = none := by
  cases v with
  | longLong n => exact .inl ⟨.ok, .integer n, fun _ _ _ => rfl⟩
  | double d => exact .inl ⟨.ok, .float d, fun _ _ _ => rfl⟩
  | null => exact .inl ⟨.ok, .null, fun _ _ _ => rfl⟩
  | string t =>
      obtain ⟨code, c, h⟩ := bindBytes_uniform .text t (textLength t)
      exact .inl ⟨code, c, fun _ _ e => congrArg some (h e)⟩
  | blob b =>
      obtain ⟨data, size⟩ := b
      cases data with
      | none => exact .inl ⟨.ok, .null, fun _ _ _ => rfl⟩
      | some m =>
          obtain ⟨code, c, h⟩ := bindBytes_uniform .blob m (castInt size).toNat
          have hb (errstr stmt) (e : Select) : Sqlite.bind (api "" errstr) stmt e (.blob ⟨some m, size⟩) =
              if castInt size < 0 then none else some (e.bind code c) := by
            simp only [Sqlite.bind, api, Select.bindBlob, h]
          by_cases hneg : castInt size < 0
          · exact .inr fun errstr stmt e => by rw [hb, if_pos hneg]
          · exact .inl ⟨code, c, fun errstr stmt e => by rw [hb, if_neg hneg]⟩

theorem bind_stored (h : stored v = some column) (e : Select) :
    Sqlite.bind (api "" errstr) stmt e v = some (e.bind .ok column) := by
  rw [stored] at h
  obtain ⟨code, c, hall⟩ | hnone := bind_uniform v
  · rw [hall, Option.bind_some] at h
    split at h
    case isTrue hok =>
        cases h
        rw [hall, show code = .ok from hok]
        rfl
    case isFalse => cases h
  · rw [hnone] at h
    cases h

theorem bind_first (e : Params) :
    Sqlite.bind (params errstr) stmt e v = e.bindAt 1 fun e => Sqlite.bind (api "" errstr) stmt e v := by
  cases v <;> rfl

/-- Whatever its place in the list, a value goes to the first parameter. -/
theorem bindValue_first (h : stored v = some column) (hne : s.engine.bound ≠ []) :
    bindValue (params errstr) (some stmt) v s =
      some ((true, ""), { s with engine := ⟨s.engine.bound.set 0 column, .ok⟩ }) := by
  have hfirst : s.engine.bound[0]? = some (s.engine.bound.head hne) := by
    rw [← List.head?_eq_getElem?, List.head?_eq_some_head]
  rw [bindValue, bind_first, Params.bindAt, hfirst]
  dsimp only
  rw [bind_stored h]
  rfl

theorem bindValues_first {vs : List Value} {columns : List Column} (h : vs.map stored = columns.map some)
    (hne : s.engine.bound ≠ []) : ∃ s', bindValues (params errstr) (some stmt) vs s = some ((true, ""), s') ∧
      s'.engine.bound = (columns.getLast?.map fun c => s.engine.bound.set 0 c).getD s.engine.bound := by
  induction vs generalizing columns s with
  | nil =>
      obtain rfl := List.map_eq_nil_iff.mp h.symm
      exact ⟨s, rfl, rfl⟩
  | cons v vs ih =>
      cases columns with
      | nil => cases h
      | cons column columns =>
          rw [List.map_cons, List.map_cons, List.cons.injEq] at h
          have hset : s.engine.bound.set 0 column ≠ [] := by simpa using hne
          obtain ⟨s', hvs, hs'⟩ := @ih { s with engine := ⟨s.engine.bound.set 0 column, .ok⟩ } columns h.2 hset
          refine ⟨s', ?_, ?_⟩
          · rw [bindValues, bindValue_first h.1 hne, Option.bind_some, if_pos rfl, hvs]
          · rw [hs', List.getLast?_cons]
            cases columns.getLast? <;> simp

/-- BindValues succeeds and binds every parameter to its value exactly when the first value and the
last are stored alike and the parameters from the second on have their values already. -/
theorem bindValues_all {vs : List Value} {columns : List Column} (h : vs.map stored = columns.map some)
    (hn : s.engine.bound.length = vs.length) :
    (∃ s', bindValues (params errstr) (some stmt) vs s = some ((true, ""), s') ∧ s'.engine.bound = columns) ↔
      columns.head? = columns.getLast? ∧ s.engine.bound.tail = columns.tail := by
  have hlen : vs.length = columns.length := by simpa using congrArg List.length h
  cases columns with
  | nil =>
      obtain rfl := List.map_eq_nil_iff.mp h
      have hb : s.engine.bound = [] := List.length_eq_zero_iff.mp hn
      exact iff_of_true ⟨s, rfl, hb⟩ ⟨rfl, by rw [hb]⟩
  | cons column columns =>
      have hne : s.engine.bound ≠ [] := List.ne_nil_of_length_eq_add_one (hn.trans hlen)
      obtain ⟨b, bs, hb⟩ := List.exists_cons_of_ne_nil hne
      obtain ⟨s', hvs, hs'⟩ := @bindValues_first errstr stmt s vs (column :: columns) h hne
      rw [hvs]
      rw [List.getLast?_cons, Option.map_some, Option.getD_some, hb, List.set_cons_zero] at hs'
      rw [hb, List.getLast?_cons, List.head?_cons, List.tail_cons, List.tail_cons, Option.some.injEq]
      constructor
      · rintro ⟨s'', he, hall⟩
        cases he
        rw [hs', List.cons.injEq] at hall
        exact ⟨hall.1.symm, hall.2⟩
      · rintro ⟨hlast, hrest⟩
        exact ⟨s', rfl, by rw [hs', ← hlast, hrest]⟩

theorem bindValues_rebound : (∃ s', bindValues (params fun _ => "") (some 0) [.longLong 1, .longLong 1]
      ⟨some 0, ⟨[.null, .integer 1], .ok⟩⟩ = some ((true, ""), s') ∧ s'.engine.bound = [.integer 1, .integer 1]) ↔
    [Column.integer 1, .integer 1].head? = [Column.integer 1, .integer 1].getLast? ∧
      [Column.null, .integer 1].tail = [Column.integer 1, .integer 1].tail :=
  @bindValues_all (fun _ => "") 0 ⟨some 0, ⟨[.null, .integer 1], .ok⟩⟩ [.longLong 1, .longLong 1] _ rfl rfl

/-- Of two values the second is in the place of the first, and the place of the second is
still NULL. -/
theorem bindValues_two : (bindValues (params fun _ => "") (some 0) [.longLong 1, .longLong 2]
      ⟨some 0, ⟨[.null, .null], .ok⟩⟩).map (fun r => (r.1, r.2.engine.bound)) =
        some ((true, ""), [.integer 2, .null]) ∧
    ([.integer 2, .null] : List Column) ≠ [.integer 1, .integer 2] := ⟨rfl, by decide⟩

end Enigma.SqliteBind
