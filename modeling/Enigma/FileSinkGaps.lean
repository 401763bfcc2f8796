import Enigma.FileSinkFaults
import Enigma.FileSinkSessions

namespace Enigma.FileSinkGaps

open Directory Logger FileSink FileSinkListing FileSinkRotation FileSinkRuns Transition

variable {env : Env} {cfg : Config} {app name : Name} {d d' : Folder} {f : LogFile} {faults : Faults} {s : State}
  {i n : Nat} {l : List String} {ps qs rs : List (Nat × List String)}

structure Lies (app : Name) (d : Folder) (ps : List (Nat × List String)) : Prop where
  held : ∀ p ∈ ps, d.lookup (logName app p.1) = some (.file (piece p.2))
  free : ∀ i, i ∉ ps.map Prod.fst → d.lookup (logName app i) = none
  only : ∀ name b, d.lookup name = some (.file b) → IsLog app name → ∃ i, name = logName app i

/-- The newest file comes first, and at most one index is left out. -/
structure InLine (ps : List (Nat × List String)) : Prop where
  ascending : (ps.map Prod.fst).Pairwise (· < ·)
  near : ∀ p ∈ ps, p.1 ≤ ps.length

def contents (ps : List (Nat × List String)) : List String := Shelf.all (ps.map Prod.snd)

theorem Lies.move (h : Lies app d (qs ++ (i, l) :: rs)) (hr : rename d (logName app i) (logName app n) = some d')
    (hi : i ∉ (qs ++ rs).map Prod.fst) (hn : n ∉ (qs ++ rs).map Prod.fst) : Lies app d' (qs ++ (n, l) :: rs) := by
  have hlook := rename_lookup hr
  have hl : d.lookup (logName app i) = some (.file (piece l)) := h.held (i, l) (by simp)
  have hkeys (j : Nat) : j ∈ (qs ++ (i, l) :: rs).map Prod.fst ↔ j = i ∨ j ∈ (qs ++ rs).map Prod.fst := by
    simp only [List.map_append, List.map_cons, List.mem_append, List.mem_cons]
    tauto
  refine ⟨fun p hp => ?_, fun j hj => ?_, fun name b hb hlog => ?_⟩
  · have hp : p = (n, l) ∨ p ∈ qs ++ rs := by
      simp only [List.mem_append, List.mem_cons] at hp ⊢
      tauto
    rw [hlook]
    obtain rfl | hp := hp
    · rw [if_pos rfl, hl]
    · have hne {k : Nat} (hk : k ∉ (qs ++ rs).map Prod.fst) : logName app p.1 ≠ logName app k := by
        rw [(logName_injective app).ne_iff]
        rintro rfl
        exact hk (List.mem_map_of_mem hp)
      rw [if_neg (hne hn), if_neg (hne hi)]
      apply h.held
      simp only [List.mem_append, List.mem_cons] at hp ⊢
      tauto
  · have hj : j ≠ n ∧ j ∉ (qs ++ rs).map Prod.fst := by
      simp only [List.map_append, List.map_cons, List.mem_append, List.mem_cons, not_or] at hj ⊢
      tauto
    rw [hlook, if_neg ((logName_injective app).ne hj.1)]
    by_cases he : j = i
    · rw [if_pos (by rw [he])]
    · rw [if_neg ((logName_injective app).ne he)]
      exact h.free j fun hm => ((hkeys j).mp hm).elim he hj.2
  · rw [hlook] at hb
    by_cases he : name = logName app n
    · exact ⟨n, he⟩
    · rw [if_neg he] at hb
      by_cases he' : name = logName app i
      · exact ⟨i, he'⟩
      · rw [if_neg he'] at hb
        exact h.only name b hb hlog

theorem Lies.set (h : Lies app d ps) (l : List String) (hkeys : ∀ i, i ∈ qs.map Prod.fst ↔ i ∈ ps.map Prod.fst ∧ i ≠ 0)
    (hsub : ∀ p ∈ qs, p ∈ ps) : Lies app (d.insert (logName app 0) (.file (piece l))) ((0, l) :: qs) := by
  refine ⟨fun p hp => ?_, fun i hi => ?_, fun name b hb hlog => ?_⟩
  · rw [lookup_put]
    obtain rfl | hp := List.mem_cons.mp hp
    · rw [if_pos rfl]
    · have hpos : p.1 ≠ 0 := ((hkeys p.1).mp (List.mem_map_of_mem hp)).2
      rw [if_neg ((logName_injective app).ne hpos)]
      exact h.held p (hsub p hp)
  · rw [List.map_cons, List.mem_cons, not_or] at hi
    rw [lookup_put, if_neg ((logName_injective app).ne hi.1)]
    exact h.free i fun hm => hi.2 ((hkeys i).mpr ⟨hm, hi.1⟩)
  · rw [lookup_put] at hb
    by_cases he : name = logName app 0
    · exact ⟨0, he⟩
    · rw [if_neg he] at hb
      exact h.only name b hb hlog

theorem ascending_concat (hasc : (qs.map Prod.fst).Pairwise (· < ·)) (h : ∀ p ∈ qs, p.1 < i) (l : List String) :
    ((qs ++ [(i, l)]).map Prod.fst).Pairwise (· < ·) := by
  rw [List.map_append]
  refine List.pairwise_append.mpr ⟨hasc, List.pairwise_singleton _ _, fun j hj k hk => ?_⟩
  obtain ⟨p, hp, rfl⟩ := List.mem_map.mp hj
  rw [List.map_cons, List.map_nil, List.mem_singleton] at hk
  rw [hk]
  exact h p hp

theorem near_concat (h : ∀ p ∈ qs, p.1 ≤ n) (hi : i ≤ n) (l : List String) : ∀ p ∈ qs ++ [(i, l)], p.1 ≤ n :=
  List.forall_mem_append.mpr ⟨h, List.forall_mem_singleton.mpr hi⟩

/-- Wherever the loop ends, it has changed no content and no order, and has left at most
one index out. -/
theorem renameLogs_lies (fails : Nat → Bool) {fs : List LogFile} (h : Lies app d (qs ++ rs))
    (hasc : (qs.map Prod.fst).Pairwise (· < ·)) (hnear : ∀ p ∈ qs, p.1 ≤ qs.length) (hdone : ∀ p ∈ rs, qs.length < p.1)
    (hfs : fs.map LogFile.index = qs.map Prod.fst) :
    ∃ qs', qs'.map Prod.snd = qs.map Prod.snd ∧ (qs'.map Prod.fst).Pairwise (· < ·) ∧
      (∀ p ∈ qs', p.1 ≤ qs.length) ∧ Lies app (renameLogs fails app fs.reverse qs.length d).2 (qs' ++ rs) ∧
      ((renameLogs fails app fs.reverse qs.length d).1.isSome = true →
        qs'.map Prod.fst = List.range' 1 qs.length) := by
  induction qs using List.reverseRecOn generalizing d rs fs with
  | nil =>
      have hnil : fs = [] := List.map_eq_nil_iff.mp hfs
      subst hnil
      exact ⟨[], rfl, .nil, by simp, h, by simp⟩
  | append_singleton qs q ih =>
      obtain ⟨i, l⟩ := q
      obtain ⟨gs, g, rfl⟩ : ∃ gs g, fs = gs ++ [g] := by
        rcases List.eq_nil_or_concat' fs with rfl | hc
        · simp at hfs
        · exact hc
      simp only [List.map_append, List.map_cons, List.map_nil] at hfs hasc
      obtain ⟨hgs, hg⟩ := List.append_inj' hfs rfl
      rw [List.cons.injEq] at hg
      obtain ⟨hasc, -, hlast⟩ := List.pairwise_append.mp hasc
      have hbelow : ∀ p ∈ qs, p.1 < i := fun p hp => hlast p.1 (List.mem_map_of_mem hp) i (by simp)
      have hi : i ≤ qs.length + 1 := by simpa using hnear (i, l) (by simp)
      have habove : ∀ p ∈ rs, qs.length + 1 < p.1 := by simpa using hdone
      rw [List.append_assoc, List.singleton_append] at h
      rw [List.length_append, List.length_singleton, List.reverse_append, List.reverse_singleton, List.singleton_append,
        renameLogs]
      cases hr : g.renameIndex fails app (qs.length + 1) d with
      | none =>
          have hnear' : ∀ p ∈ qs, p.1 ≤ qs.length + 1 := fun p hp => (Nat.le_of_lt (hbelow p hp)).trans hi
          exact ⟨qs ++ [(i, l)], by simp, ascending_concat hasc hbelow l, by simpa using near_concat hnear' hi l,
            by simpa using h, by simp⟩
      | some r =>
          obtain ⟨-, hren, -⟩ := FileSinkFaults.renameIndex_some.mp hr
          rw [hg.1] at hren
          have hfree (j : Nat) (hj : i ≤ j) (hj' : j ≤ qs.length + 1) : j ∉ (qs ++ rs).map Prod.fst := by
            intro hm
            obtain ⟨p, hp, rfl⟩ := List.mem_map.mp hm
            obtain hp | hp := List.mem_append.mp hp
            · exact Nat.lt_irrefl _ ((hbelow p hp).trans_le hj)
            · exact Nat.lt_irrefl _ (hj'.trans_lt (habove p hp))
          have hmoved := h.move hren (hfree i (Nat.le_refl i) hi) (hfree _ hi (Nat.le_refl _))
          have hrest : ∀ p ∈ (qs.length + 1, l) :: rs, qs.length < p.1 :=
            List.forall_mem_cons.mpr ⟨Nat.lt_succ_self _, fun p hp => Nat.lt_of_succ_lt (habove p hp)⟩
          obtain ⟨qs', hsnd, hasc', hnear', hlies, hall⟩ :=
            ih hmoved hasc (fun p hp => Nat.le_of_lt_succ ((hbelow p hp).trans_le hi)) hrest hgs
          refine ⟨qs' ++ [(qs.length + 1, l)], by simp [hsnd], ?_, ?_, ?_, ?_⟩
          · exact ascending_concat hasc' (fun p hp => Nat.lt_succ_of_le (hnear' p hp)) l
          · exact near_concat (fun p hp => (hnear' p hp).trans (Nat.le_succ _)) (Nat.le_refl _) l
          · rw [List.append_assoc, List.singleton_append]
            exact hlies
          · intro hsome
            rw [List.map_append, hall (by simpa using hsome), List.range'_1_concat, Nat.add_comm 1]
            rfl

/-- What a call has done to the files: the new lines come last, and if there are all the
files there may be, the oldest of them can go. -/
def Grows (m : Nat) (ps ps' : List (Nat × List String)) (new : List String) : Prop :=
  Shelf.Extends m (ps.map Prod.snd) (ps'.map Prod.snd) new

theorem Grows.same (m : Nat) (ps : List (Nat × List String)) : Grows m ps ps [] := Shelf.Extends.same m _

theorem grows_of_snd {m : Nat} (h : qs.map Prod.snd = ps.map Prod.snd) : Grows m ps qs [] := by
  rw [Grows, h]
  exact .same m _

structure Stands (cfg : Config) (s : State) (ps : List (Nat × List String)) : Prop where
  lies : Lies cfg.appName s.dir ps
  inLine : InLine ps
  single : cfg.maxFileCount = 1 → ∀ p ∈ ps, p.1 = 0
  opened : ∀ f, s.file = some f → f.isOpen = true → f.index = 0 ∧ ∃ l qs, ps = (0, l) :: qs

theorem Stands.closed (h : Stands cfg s ps) (o : Option LogFile) (ho : ∀ f, o = some f → f.isOpen = false) :
    Stands cfg ⟨o, s.dir⟩ ps where
  lies := h.lies
  inLine := h.inLine
  single := h.single
  opened f hf hopen := by
    rw [ho f hf] at hopen
    cases hopen

theorem InLine.pos (h : InLine ((0, l) :: qs)) : ∀ p ∈ qs, 1 ≤ p.1 := by
  intro p hp
  have hasc := h.ascending
  rw [List.map_cons, List.pairwise_cons] at hasc
  exact hasc.1 p.1 (List.mem_map_of_mem hp)

theorem InLine.mem_tail (h : InLine ((0, l) :: qs)) (i : Nat) :
    i ∈ qs.map Prod.fst ↔ i ∈ ((0, l) :: qs).map Prod.fst ∧ i ≠ 0 := by
  rw [List.map_cons, List.mem_cons]
  refine ⟨fun him => ⟨.inr him, ?_⟩, fun him => him.1.resolve_left him.2⟩
  obtain ⟨p, hp, rfl⟩ := List.mem_map.mp him
  exact Nat.ne_of_gt (h.pos p hp)

theorem InLine.cons (hasc : (qs.map Prod.fst).Pairwise (· < ·)) (hpos : ∀ p ∈ qs, 1 ≤ p.1)
    (hnear : ∀ p ∈ qs, p.1 ≤ qs.length + 1) (l : List String) : InLine ((0, l) :: qs) where
  ascending := by
    rw [List.map_cons, List.pairwise_cons]
    refine ⟨fun i hi => ?_, hasc⟩
    obtain ⟨p, hp, rfl⟩ := List.mem_map.mp hi
    exact hpos p hp
  near p hp := by
    rw [List.length_cons]
    obtain rfl | hp := List.mem_cons.mp hp
    · exact Nat.zero_le _
    · exact hnear p hp

theorem openFile_create (hc : f.isOpen = false) (hi : f.index = 0) {x : Option (Node Bytes)}
    (hl : d.lookup (logName app 0) = x) (hx : x ≠ some .other) (fails : Bool) :
    f.openFile app fails true d = if fails then (true, ⟨false, UInt64.size - 1, 0⟩, d)
      else (true, ⟨true, 0, 0⟩, d.insert (logName app 0) (.file [])) := by
  obtain ⟨isOpen, size, index⟩ := f
  cases hc
  cases hi
  cases fails with
  | true => simp [LogFile.openFile]
  | false => exact openFile_empty rfl (by rw [hl]; exact hx)

theorem listLogs_lies (env : Env) (hp : Plain cfg.appName) (h : Lies cfg.appName d ((0, l) :: qs))
    (hq : InLine ((0, l) :: qs)) (fails : Bool) {listed : Logs} (hl : listLogs env cfg fails d = some listed) :
    listed = entries (qs.map Prod.fst) := by
  have hfind : Finds env cfg.appName d (matchLog cfg.appName) := by
    refine finds_plain hp fun name c ds hb hm => ?_
    obtain ⟨i, rfl⟩ := h.only name c hb (.inr ⟨ds, hm⟩)
    exact ⟨i, pos_of_matchLog hm, rfl⟩
  cases fails with
  | true =>
      rw [listLogs, hfind.pattern] at hl
      cases hl
  | false =>
      have hmem : ∀ i, i ∈ qs.map Prod.fst ↔ 1 ≤ i ∧ ∃ c, d.lookup (logName cfg.appName i) = some (.file c) := by
        intro i
        constructor
        · intro hi
          obtain ⟨p, hp, rfl⟩ := List.mem_map.mp hi
          exact ⟨hq.pos p hp, _, h.held p (List.mem_cons_of_mem _ hp)⟩
        · rintro ⟨hi, c, hc⟩
          by_contra hnot
          have hfree := h.free i (by
            rw [List.map_cons, List.mem_cons, not_or]
            exact ⟨Nat.ne_of_gt hi, hnot⟩)
          rw [hfree] at hc
          cases hc
      by_cases hsmall : ∀ i ∈ qs.map Prod.fst, i < longLongEnd
      · have hasc := hq.ascending
        rw [List.map_cons, List.pairwise_cons] at hasc
        exact Option.some.inj (hl.symm.trans (listLogs_finds hfind hasc.2 hmem hsmall))
      · simp only [not_forall, not_lt] at hsmall
        obtain ⟨i, hi, hbig⟩ := hsmall
        obtain ⟨-, c, hc⟩ := (hmem i).mp hi
        rw [listLogs_threw hfind hbig hc] at hl
        cases hl

/-- Opening app.log at the end of a rotation fails only if no other file has become
app.log, or if there is none but it. -/
def Reopens (env : Env) (cfg : Config) (faults : Faults) (d : Folder) : Prop :=
  faults.create = true → cfg.maxFileCount = 1 ∨ faults.rename 0 = true ∨
    ∀ listed, listLogs env cfg faults.list d = some listed → listed.length + 1 < cfg.maxFileCount.toNat

/-- The file that was the oldest is the new app.log. -/
theorem recycle_stands {o : LogFile} {m : Nat} (h : Lies cfg.appName d (ps ++ [(n, l)]))
    (hn : (ps ++ [(n, l)]).map Prod.fst = List.range' 1 (ps.length + 1)) (hone : cfg.maxFileCount ≠ 1)
    (hr : rename d (logName cfg.appName n) (logName cfg.appName 0) = some d') (ho : o.index = 0) (hm : m ≤ ps.length + 1) :
    Stands cfg ⟨some o, d'.insert (logName cfg.appName 0) (.file [])⟩ ((0, []) :: ps) ∧
      Grows m (ps ++ [(n, l)]) ((0, []) :: ps) [] := by
  rw [List.map_append, List.range'_1_concat] at hn
  obtain ⟨hkeys, hlast⟩ := List.append_inj' hn rfl
  have hn' : n = 1 + ps.length := by simpa using hlast
  have hmem (i : Nat) : i ∈ ps.map Prod.fst ↔ 1 ≤ i ∧ i < 1 + ps.length := by rw [hkeys, List.mem_range'_1]
  have hrange : ∀ p ∈ ps, 1 ≤ p.1 ∧ p.1 < 1 + ps.length := fun p hp => (hmem p.1).mp (List.mem_map_of_mem hp)
  have hmoved : Lies cfg.appName d' (ps ++ [(0, l)]) := by
    refine h.move hr ?_ ?_ <;> rw [List.append_nil, hmem] <;> omega
  have hset : Lies cfg.appName (d'.insert (logName cfg.appName 0) (.file (piece []))) ((0, []) :: ps) := by
    refine hmoved.set [] (fun i => ?_) fun p hp => List.mem_append_left _ hp
    rw [List.map_append, List.mem_append, hmem]
    simp only [List.map_cons, List.map_nil, List.mem_singleton]
    omega
  refine ⟨⟨hset, ?_, fun he => absurd he hone, fun f hf _ => ?_⟩, l, ?_,
    .inr ⟨by simpa using hm, by simp [Shelf.oldest]⟩⟩
  · refine .cons ?_ (fun p hp => (hrange p hp).1) (fun p hp => ?_) []
    · rw [hkeys]
      exact List.pairwise_lt_range'
    · have hlt := (hrange p hp).2
      omega
  · cases hf
    exact ⟨ho, [], ps, rfl⟩
  · simp [Shelf.all]

theorem key_mem (hkeys : ps.map Prod.fst = List.range' 1 ps.length) (i : Nat) :
    i ∈ ps.map Prod.fst ↔ 1 ≤ i ∧ i < 1 + ps.length := by
  rw [hkeys, List.mem_range'_1]

theorem key_range (hkeys : ps.map Prod.fst = List.range' 1 ps.length) : ∀ p ∈ ps, 1 ≤ p.1 ∧ p.1 < 1 + ps.length :=
  fun p hp => (key_mem hkeys p.1).mp (List.mem_map_of_mem hp)

theorem keys_ascending (hkeys : ps.map Prod.fst = List.range' 1 ps.length) : (ps.map Prod.fst).Pairwise (· < ·) := by
  rw [hkeys]
  exact List.pairwise_lt_range'

/-- Every file is one index up, and there is no app.log. -/
theorem shifted_stands (h : Lies cfg.appName d ps) (hkeys : ps.map Prod.fst = List.range' 1 ps.length)
    (hone : cfg.maxFileCount ≠ 1) (o : LogFile) (ho : o.isOpen = false) : Stands cfg ⟨some o, d⟩ ps := by
  refine ⟨h, ⟨keys_ascending hkeys, fun p hp => ?_⟩, fun he => absurd he hone, fun f hf hopen => ?_⟩
  · have hlt := (key_range hkeys p hp).2
    omega
  · cases hf
    rw [ho] at hopen
    cases hopen

theorem created_stands (h : Lies cfg.appName d ps) (hkeys : ps.map Prod.fst = List.range' 1 ps.length)
    (hone : cfg.maxFileCount ≠ 1) (f : LogFile) (hf : f.index = 0) :
    Stands cfg ⟨some f, d.insert (logName cfg.appName 0) (.file (piece []))⟩ ((0, []) :: ps) := by
  have hset : Lies cfg.appName (d.insert (logName cfg.appName 0) (.file (piece []))) ((0, []) :: ps) := by
    refine h.set [] (fun i => ?_) fun p hp => hp
    rw [key_mem hkeys]
    omega
  refine ⟨hset, ?_, fun he => absurd he hone, fun g hg _ => ?_⟩
  · refine .cons (keys_ascending hkeys) (fun p hp => (key_range hkeys p hp).1) (fun p hp => ?_) []
    have hlt := (key_range hkeys p hp).2
    omega
  · cases hg
    exact ⟨hf, [], ps, rfl⟩

theorem settle_stands (last : LogFile) (rest : List LogFile) (h : Lies cfg.appName d ps) (hne : ps ≠ [])
    (hkeys : ps.map Prod.fst = List.range' 1 ps.length) (hlast : last.index = ps.length) (hc : last.isOpen = false)
    (hone : cfg.maxFileCount ≠ 1)
    (hok : faults.create = true → faults.rename 0 = true ∨ ps.length < cfg.maxFileCount.toNat) :
    ∃ ps', Stands cfg (settle cfg faults ps.length (some (last :: rest), d)).2 ps' ∧ Grows (limit cfg) ps ps' [] := by
  have hzero : d.lookup (logName cfg.appName 0) = none := h.free 0 (by rw [key_mem hkeys]; omega)
  have hup := shifted_stands h hkeys hone
  rw [settle]
  split
  case isTrue hroom =>
      dsimp only
      rw [openFile_create rfl rfl hzero (by simp)]
      cases faults.create with
      | true => exact ⟨ps, hup _ rfl, .same _ ps⟩
      | false =>
          exact ⟨(0, []) :: ps, created_stands h hkeys hone _ rfl, [], by simp [Shelf.all], .inl rfl⟩
  case isFalse hfull =>
      cases hr : last.renameIndex faults.rename cfg.appName 0 d with
      | none => exact ⟨ps, hup last hc, .same _ ps⟩
      | some r =>
          obtain ⟨hfine, hren, hr⟩ := FileSinkFaults.renameIndex_some.mp hr
          have hcreate : faults.create = false := by
            cases hcr : faults.create with
            | false => rfl
            | true => exact absurd (hok hcr) (by simp [hfine, hfull])
          obtain ⟨init, q, rfl⟩ := (List.eq_nil_or_concat' ps).resolve_left hne
          have hq : q.1 = 1 + init.length := by
            rw [List.map_append, List.length_append, List.length_singleton, List.range'_1_concat] at hkeys
            simpa using (List.append_inj' hkeys rfl).2
          have hlen : last.index = q.1 := by
            rw [hlast, hq, List.length_append, List.length_singleton, Nat.add_comm]
          rw [hlen] at hren
          have hfirst : r.2.lookup (logName cfg.appName 0) = some (.file (piece q.2)) := by
            rw [rename_lookup hren, if_pos rfl]
            exact h.held q (by simp)
          have hindex : r.1.index = 0 := by rw [hr]
          dsimp only
          rw [openFile_create (by rw [hr]; exact hc) hindex hfirst (by simp), hcreate]
          have hlimit : limit cfg ≤ init.length + 1 := by
            rw [List.length_append, List.length_singleton] at hfull
            rw [limit]
            omega
          exact ⟨(0, []) :: init, recycle_stands h (by simpa using hkeys) hone hren rfl hlimit⟩

theorem loop_stands {fs : List LogFile} (h : Lies cfg.appName d ps) (hin : InLine ps) (hne : ps ≠ [])
    (hindex : fs.map LogFile.index = ps.map Prod.fst) (hclosed : ∀ g ∈ fs, g.isOpen = false) (hone : cfg.maxFileCount ≠ 1)
    (hok : faults.create = true → faults.rename 0 = true ∨ ps.length < cfg.maxFileCount.toNat) :
    ∃ ps', Stands cfg (settle cfg faults ps.length
      (renameLogs faults.rename cfg.appName fs.reverse ps.length d)).2 ps' ∧ Grows (limit cfg) ps ps' [] := by
  have hnone : ∀ p ∈ ([] : List (Nat × List String)), ps.length < p.1 := nofun
  obtain ⟨qs, hsnd, hasc, hnear, hlies, hall⟩ :=
    renameLogs_lies faults.rename (by simpa using h) hin.ascending hin.near hnone hindex
  have hlen : qs.length = ps.length := by simpa using congrArg List.length hsnd
  rw [List.append_nil] at hlies
  cases hres : renameLogs faults.rename cfg.appName fs.reverse ps.length d with
  | mk o e =>
  rw [hres] at hlies hall
  cases o with
  | none =>
      refine ⟨qs, ⟨hlies, ⟨hasc, fun p hp => hlen ▸ hnear p hp⟩, fun he => absurd he hone, ?_⟩, grows_of_snd hsnd⟩
      intro g hg
      cases hg
  | some gs =>
      have hfs : fs ≠ [] := by
        rintro rfl
        exact hne (List.map_eq_nil_iff.mp hindex.symm)
      obtain ⟨g, gs', hrev⟩ := List.exists_cons_of_ne_nil (List.reverse_ne_nil_iff.mpr hfs)
      have hg : g ∈ fs := List.mem_reverse.mp (by simp [hrev])
      rw [hrev] at hres
      obtain ⟨rest, rfl⟩ := FileSinkFaults.renameLogs_head hres
      have hqs : qs ≠ [] := by
        rintro rfl
        exact hne (List.eq_nil_of_length_eq_zero hlen.symm)
      have hrange := hall rfl
      rw [← hlen] at hrange hok ⊢
      obtain ⟨ps', hstands, hgrows⟩ :=
        settle_stands { g with index := qs.length } rest hlies hqs hrange rfl (hclosed g hg) hone hok
      rw [Grows, hsnd] at hgrows
      exact ⟨ps', hstands, hgrows⟩

theorem InLine.first (h : InLine ps) (hm : 0 ∈ ps.map Prod.fst) : ∃ l qs, ps = (0, l) :: qs := by
  cases ps with
  | nil => cases hm
  | cons p qs =>
      have hasc := h.ascending
      rw [List.map_cons, List.pairwise_cons] at hasc
      rw [List.map_cons, List.mem_cons] at hm
      obtain hz | hin := hm
      · exact ⟨p.2, qs, by rw [hz]⟩
      · exact absurd (hasc.1 0 hin) (Nat.not_lt_zero _)

theorem Stands.alone (h : Stands cfg s ((0, l) :: qs)) (hone : cfg.maxFileCount = 1) : qs = [] := by
  refine List.eq_nil_iff_forall_not_mem.mpr fun p hp => ?_
  have hpos := h.inLine.pos p hp
  have hzero := h.single hone p (List.mem_cons_of_mem _ hp)
  omega

theorem routing_stands (env : Env) (hp : Plain cfg.appName) (hf : s.file = some f) (hi : f.index = 0)
    (h : Stands cfg s ((0, l) :: qs)) (hok : Reopens env cfg faults s.dir) :
    ∃ ps', Stands cfg (routingLogs env cfg faults s).2 ps' ∧ Grows (limit cfg) ((0, l) :: qs) ps' [] := by
  have hfirst : s.dir.lookup (logName cfg.appName 0) = some (.file (piece l)) := h.lies.held (0, l) (by simp)
  rw [routingLogs, hf]
  dsimp only
  by_cases hone : cfg.maxFileCount = 1
  · obtain rfl := h.alone hone
    rw [if_pos hone, openFile_create (f := f.close) rfl hi hfirst (by simp)]
    cases faults.create with
    | true => exact ⟨_, h.closed _ fun f hf => by cases hf; rfl, .same _ _⟩
    | false =>
        have hset : Lies cfg.appName (s.dir.insert (logName cfg.appName 0) (.file (piece []))) [(0, [])] :=
          h.lies.set [] (by simp) (by simp)
        refine ⟨[(0, [])], ⟨hset, ⟨by simp, by simp⟩, fun _ p hp => ?_, fun f hf _ => ?_⟩, l, by simp [Shelf.all],
          .inr ?_⟩
        · rw [List.mem_singleton.mp hp]
        · cases hf
          exact ⟨rfl, [], [], rfl⟩
        · exact ⟨by simp [limit, hone], by simp [Shelf.oldest]⟩
  · rw [if_neg hone]
    cases hl : listLogs env cfg faults.list s.dir with
    | none => exact ⟨_, h.closed _ fun g hg => by cases hg; rfl, .same _ _⟩
    | some listed =>
        have hentries := listLogs_lies env hp h.lies h.inLine faults.list hl
        have hpos : ∀ i ∈ qs.map Prod.fst, 1 ≤ i := by
          intro i him
          obtain ⟨p, hp, rfl⟩ := List.mem_map.mp him
          exact h.inLine.pos p hp
        have hlength : (emplace listed 0 f.close).length = ((0, l) :: qs).length := by
          rw [hentries, length_emplace hpos, List.length_map, List.length_cons]
        have hfiles : backward (emplace listed 0 f.close) = (f.close :: (qs.map Prod.fst).map fresh).reverse := by
          rw [backward, hentries, emplace_entries hpos, entries, List.map_cons, List.map_map]
          rfl
        have hindex : (f.close :: (qs.map Prod.fst).map fresh).map LogFile.index = ((0, l) :: qs).map Prod.fst := by
          rw [List.map_cons, List.map_map, List.map_cons, show f.close.index = 0 from hi]
          simp [Function.comp_def, fresh]
        have hclosed : ∀ g ∈ f.close :: (qs.map Prod.fst).map fresh, g.isOpen = false := fun g hg =>
          FileSinkFaults.backward_closed (f := f) hl g (by rw [hfiles]; exact List.mem_reverse.mpr hg)
        dsimp only
        rw [hlength, hfiles]
        refine loop_stands h.lies h.inLine (by simp) hindex hclosed hone fun hcreate => ?_
        rcases hok hcreate with he | hzero | hroom
        · exact absurd he hone
        · exact .inl hzero
        · have hlt := hroom listed hl
          rw [hentries, entries, List.length_map, List.length_map] at hlt
          exact .inr hlt

theorem Stands.line (h : Stands cfg s ((0, l) :: qs)) (x : String) {o : LogFile} (hi : o.index = 0) :
    Stands cfg ⟨some o, extend s.dir (logName cfg.appName 0) (record x)⟩ ((0, l ++ [x]) :: qs) := by
  have hfirst : s.dir.lookup (logName cfg.appName 0) = some (.file (piece l)) := h.lies.held (0, l) (by simp)
  have hpiece : piece l ++ record x = piece (l ++ [x]) := by simp [piece]
  have hmem {p : Nat × List String} (hp : p ∈ (0, l ++ [x]) :: qs) : p.1 = 0 ∨ p ∈ (0, l) :: qs := by
    obtain rfl | hp := List.mem_cons.mp hp
    · exact .inl rfl
    · exact .inr (List.mem_cons_of_mem _ hp)
  rw [extend, hfirst]
  dsimp only
  rw [hpiece]
  refine ⟨h.lies.set _ h.inLine.mem_tail fun p hp => List.mem_cons_of_mem _ hp, ⟨h.inLine.ascending, fun p hp => ?_⟩,
    fun hone p hp => ?_, fun g hg _ => ?_⟩
  · rcases hmem hp with hzero | hold
    · rw [hzero]
      exact Nat.zero_le _
    · exact h.inLine.near p hold
  · exact (hmem hp).elim id (h.single hone p)
  · cases hg
    exact ⟨hi, _, qs, rfl⟩

theorem log_stands (env : Env) (hp : Plain cfg.appName) (h : Stands cfg s ps) (a : Act)
    (hok : Reopens env cfg faults (withLine env cfg s a)) :
    ∃ ps', Stands cfg (log env cfg faults a.1 a.2 s).2 ps' ∧ Grows (limit cfg) ps ps' (lineOf env s a).toList := by
  by_cases hline : ∃ f, s.file = some f ∧ f.isOpen = true ∧ ¬severity a.2.level < severity a.1
  · obtain ⟨f, hf, ho, hl⟩ := hline
    obtain ⟨hi, l, qs, rfl⟩ := h.opened f hf ho
    have hlineOf : lineOf env s a = some (text env a.2) := by simp [lineOf, hf, ho, hl]
    have hdir : (written env cfg f a.2 s.dir).2 = extend s.dir (logName cfg.appName 0) (record (text env a.2)) := by
      simp [written, LogFile.write, ho, hi]
    have hindex : (written env cfg f a.2 s.dir).1.index = 0 := by simp [written, LogFile.write, ho, hi]
    rw [log, hf, hlineOf]
    dsimp only
    rw [if_neg (by simp [ho]), if_neg hl]
    split
    case isTrue =>
        rw [hdir]
        exact ⟨_, h.line _ hindex, Shelf.extends_put _ (l :: qs.map Prod.snd) _⟩
    case isFalse =>
        rw [withLine, hf, hlineOf] at hok
        dsimp only at hok
        rw [hdir] at hok ⊢
        obtain ⟨ps', hst, hgrows⟩ := routing_stands env hp rfl hindex (h.line (text env a.2) hindex) hok
        exact ⟨ps', hst, Shelf.Extends.of_put (List.cons_ne_nil l (qs.map Prod.snd)) hgrows⟩
  · have hnone : lineOf env s a = none ∧ (log env cfg faults a.1 a.2 s).2 = s := by
      rw [lineOf, log]
      cases hf : s.file with
      | none => exact ⟨rfl, rfl⟩
      | some f =>
          cases ho : f.isOpen with
          | false => simp [ho]
          | true =>
              have hl : severity a.2.level < severity a.1 := by
                by_contra hl
                exact hline ⟨f, hf, ho, hl⟩
              simp [ho, hl]
    rw [hnone.1, hnone.2]
    exact ⟨ps, h, .same _ ps⟩

theorem init_stands (hmode : cfg.mode = .append) (h : Stands cfg s ps) (fails : Bool) :
    (init cfg fails true false s).1 = !fails ∧
      ∃ ps', Stands cfg (init cfg fails true false s).2 ps' ∧ Grows (limit cfg) ps ps' [] := by
  rw [init, if_neg (by simp)]
  dsimp only
  cases fails with
  | true =>
      have ho : (⟨false, 0, 0⟩ : LogFile).openFile cfg.appName true (cfg.mode = .truncate) s.dir =
          (true, ⟨false, UInt64.size - 1, 0⟩, s.dir) := by simp [LogFile.openFile]
      rw [ho]
      exact ⟨rfl, ps, h.closed _ fun f hf => by cases hf; rfl, .same _ ps⟩
  | false =>
      have hmem : 0 ∈ ps.map Prod.fst ∨ 0 ∉ ps.map Prod.fst := Decidable.em _
      rcases hmem with hmem | hmem
      · obtain ⟨l, qs, rfl⟩ := h.inLine.first hmem
        have hfirst : s.dir.lookup (logName cfg.appName 0) = some (.file (piece l)) := h.lies.held (0, l) (by simp)
        have ho : (⟨false, 0, 0⟩ : LogFile).openFile cfg.appName false (cfg.mode = .truncate) s.dir =
            (true, ⟨true, (piece l).length % UInt64.size, 0⟩, s.dir.insert (logName cfg.appName 0) (.file (piece l))) := by
          simp [LogFile.openFile, hfirst, hmode]
        rw [ho]
        have hset := h.lies.set l h.inLine.mem_tail fun p hp => List.mem_cons_of_mem _ hp
        refine ⟨rfl, (0, l) :: qs, ⟨hset, h.inLine, h.single, fun f hf _ => ?_⟩, .same _ _⟩
        cases hf
        exact ⟨rfl, l, qs, rfl⟩
      · have ho : (⟨false, 0, 0⟩ : LogFile).openFile cfg.appName false (cfg.mode = .truncate) s.dir =
            (true, ⟨true, 0, 0⟩, s.dir.insert (logName cfg.appName 0) (.file (piece []))) := by
          simp [LogFile.openFile, h.lies.free 0 hmem, piece]
        have hpos : ∀ p ∈ ps, 1 ≤ p.1 := by
          intro p hp
          refine Nat.pos_of_ne_zero fun hz => hmem ?_
          rw [← hz]
          exact List.mem_map_of_mem hp
        rw [ho]
        refine ⟨rfl, (0, []) :: ps, ⟨h.lies.set [] (fun i => ?_) fun p hp => hp, ?_, fun hone p hp => ?_,
          fun f hf _ => ?_⟩, [], ?_, .inl rfl⟩
        · refine ⟨fun him => ⟨him, ?_⟩, fun him => him.1⟩
          rintro rfl
          exact hmem him
        · exact .cons h.inLine.ascending hpos (fun p hp => (h.inLine.near p hp).trans (Nat.le_succ _)) []
        · obtain rfl | hp := List.mem_cons.mp hp
          · rfl
          · exact h.single hone p hp
        · cases hf
          exact ⟨rfl, [], ps, rfl⟩
        · simp [Shelf.all]

section Sessions

/-- A call on a sink, or on the next one that is made for the same directory, with what
goes wrong in it. -/
inductive Call
  | init (fails : Bool)
  | log (a : Act) (faults : Faults)
  | uninit

def next (env : Env) (cfg : Config) (s : State) : Call → Option State
  | .init fails => some (init cfg fails true false s).2
  | .log a faults => some (log env cfg faults a.1 a.2 s).2
  | .uninit => some (uninit s)

def sessions (env : Env) (cfg : Config) (d : Folder) : System State Call := ⟨(· = ⟨none, d⟩), next env cfg⟩

def lines (env : Env) (s : State) : Call → List String
  | .log a _ => (lineOf env s a).toList
  | _ => []

def Mends (env : Env) (cfg : Config) (s : State) : Call → Prop
  | .log a faults => Reopens env cfg faults (withLine env cfg s a)
  | _ => True

theorem next_stands (env : Env) (hp : Plain cfg.appName) (hmode : cfg.mode = .append) (h : Stands cfg s ps) {c : Call}
    (hok : Mends env cfg s c) :
    ∃ s' ps', next env cfg s c = some s' ∧ Stands cfg s' ps' ∧ Grows (limit cfg) ps ps' (lines env s c) := by
  cases c with
  | init fails =>
      obtain ⟨-, ps', hst, hg⟩ := init_stands hmode h fails
      exact ⟨_, ps', rfl, hst, hg⟩
  | log a faults =>
      obtain ⟨ps', hst, hg⟩ := log_stands env hp h a hok
      exact ⟨_, ps', rfl, hst, hg⟩
  | uninit =>
      refine ⟨_, ps, rfl, h.closed _ fun f hf => ?_, .same _ ps⟩
      obtain ⟨g, -, rfl⟩ := Option.map_eq_some_iff.mp hf
      rfl

/-- Whatever fails, wherever the process ends in a rotation: the files hold the end of all the
lines, in order, with at most one index left out; a call takes the oldest file only. -/
theorem faulty_sessions_in_order (env : Env) (hp : Plain cfg.appName) (hmode : cfg.mode = .append)
    (hfree : ∀ i, d.lookup (logName cfg.appName i) = none)
    (honly : ∀ name b, d.lookup name = some (.file b) → ¬IsLog cfg.appName name) {done : List String}
    (hr : Reachable (logged (sessions env cfg d) (lines env)) (fun p c => Mends env cfg p.1 c) (s, done)) :
    ∃ ps, Lies cfg.appName s.dir ps ∧ InLine ps ∧ (∃ k, contents ps = done.drop k) ∧
      (init cfg false true false s).1 = true ∧
      ∀ c, Mends env cfg s c → ∃ s' ps', next env cfg s c = some s' ∧ Lies cfg.appName s'.dir ps' ∧ InLine ps' ∧
        Grows (limit cfg) ps ps' (lines env s c) := by
  have hall : ∃ ps, Stands cfg s ps ∧ ∃ k, k ≤ done.length ∧ contents ps = done.drop k := by
    refine hr.logged_invariant
      (P := fun s done => ∃ ps, Stands cfg s ps ∧ ∃ k, k ≤ done.length ∧ contents ps = done.drop k) ?_ ?_
    · rintro s rfl
      refine ⟨[], ⟨⟨by simp, fun i _ => hfree i, fun name b hb hlog => absurd hlog (honly name b hb)⟩, ⟨.nil, by simp⟩,
        by simp, fun f hf => by cases hf⟩, 0, by simp, rfl⟩
    · rintro s done c s' - ⟨ps, hs, k, hk, hc⟩ hok hn
      obtain ⟨s'', ps', hn', hs', hgrows⟩ := next_stands env hp hmode hs hok
      cases hn.symm.trans hn'
      exact ⟨ps', hs', hgrows.suffix hk hc⟩
  obtain ⟨ps, hs, k, -, hc⟩ := hall
  refine ⟨ps, hs.lies, hs.inLine, ⟨k, hc⟩, (init_stands hmode hs false).1, fun c hok => ?_⟩
  obtain ⟨s', ps', hn, hs', hg⟩ := next_stands env hp hmode hs hok
  exact ⟨s', ps', hn, hs'.lies, hs'.inLine, hg⟩

def creates (_ : State × List String) : Call → Bool
  | .log _ faults => !faults.create
  | _ => true

theorem mends_of_creates (env : Env) (cfg : Config) (p : State × List String) (c : Call) (hc : creates p c = true) :
    Mends env cfg p.1 c := by
  cases c with
  | log a faults =>
      intro hcreate
      simp [creates, hcreate] at hc
  | init | uninit => trivial

/-- The second rotation ends at its second rename, and leaves app.log and app.2.log. -/
theorem faulty_sessions_in_order_interrupted : ∃ (s : State) (done : List String),
    (done.length = 3 ∧ s.dir.lookup "app.1.log".toList = none ∧ s.dir.lookup "app.2.log".toList ≠ none) ∧
      ∃ ps, Lies "app".toList s.dir ps ∧ InLine ps ∧ ∃ k, contents ps = done.drop k := by
  obtain ⟨⟨s, done⟩, hr, hp⟩ := exists_of_run
    (logged (sessions ⟨fun _ => none, fun _ => ""⟩ { appName := "app".toList, maxFileSize := 1, maxFileCount := 4 } ∅)
      (lines ⟨fun _ => none, fun _ => ""⟩))
    (fun p c => Mends ⟨fun _ => none, fun _ => ""⟩
      { appName := "app".toList, maxFileSize := 1, maxFileCount := 4 } p.1 c) creates (⟨none, ∅⟩, [])
    [.init false, .log (.trace, ⟨.info, 0, 0, none, "a"⟩) {},
      .log (.trace, ⟨.info, 0, 0, none, "b"⟩) { rename := fun i => i = 1 }, .init false,
      .log (.trace, ⟨.info, 0, 0, none, "c"⟩) { list := true }]
    (fun p => decide (p.2.length = 3 ∧ p.1.dir.lookup "app.1.log".toList = none ∧
      p.1.dir.lookup "app.2.log".toList ≠ none))
    (mends_of_creates _ _) ⟨rfl, rfl⟩ (by decide)
  obtain ⟨ps, hlies, hin, hk, -⟩ := faulty_sessions_in_order ⟨fun _ => none, fun _ => ""⟩ (by decide) rfl
    (fun _ => rfl) (fun _ _ h => by cases h) hr
  exact ⟨s, done, of_decide_eq_true hp, ps, hlies, hin, hk⟩

/-- The oldest file has become app.log and cannot be opened: the next line comes after its
lines, and the order is lost. -/
example :
    let env : Env := ⟨fun _ => none, fun _ => ""⟩
    let cfg : Config := { appName := "app".toList, maxFileSize := 1, maxFileCount := 2 }
    let say (x : String) : Act := (.trace, ⟨.info, 0, 0, none, x⟩)
    (run (sessions env cfg ∅) ⟨none, ∅⟩ [.init false, .log (say "a") {}, .log (say "b") { create := true }]).map
      (fun s => (content cfg.appName s.dir 1, content cfg.appName s.dir 0)) =
      some (record (text env (say "b").2), record (text env (say "a").2)) := by
  decide

end Sessions

end Enigma.FileSinkGaps
