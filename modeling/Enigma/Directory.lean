import Mathlib.Data.List.AList

namespace Enigma.Directory

variable {α β : Type}

/-- A regular file with what is in it, or an entry of another kind. -/
inductive Node (β : Type)
  | file (content : β)
  | other
deriving DecidableEq

def Node.isFile : Node β → Bool
  | .file _ => true
  | .other => false

abbrev Dir (α β : Type) := AList fun _ : α => Node β

variable [DecidableEq α]

/-- An entry takes the place of one of its own kind. With itself as target, it stays. -/
def rename (d : Dir α β) (src dst : α) : Option (Dir α β) :=
  match d.lookup src with
  | none => none
  | some x =>
      if src = dst then some d
      else if (d.lookup dst).all (·.isFile = x.isFile) then some ((d.erase src).insert dst x)
      else none

def renameAll (d : Dir α β) : List (α × α) → Option (Dir α β)
  | [] => some d
  | m :: ms => (rename d m.1 m.2).bind fun d' => renameAll d' ms

variable {d d' : Dir α β} {src dst q : α} {ms : List (α × α)}

theorem lookup_put (d : Dir α β) (q q' : α) (x : Node β) :
    (d.insert q x).lookup q' = if q' = q then some x else d.lookup q' := by
  by_cases h : q' = q
  · subst h
    rw [AList.lookup_insert, if_pos rfl]
  · rw [AList.lookup_insert_ne h, if_neg h]

theorem rename_lookup (h : rename d src dst = some d') (q : α) :
    d'.lookup q = if q = dst then d.lookup src else if q = src then none else d.lookup q := by
  rw [rename] at h
  split at h
  case h_1 => cases h
  case h_2 x hx =>
      split at h
      case isTrue he =>
          subst he
          cases h
          by_cases hq : q = src
          · rw [if_pos hq, hq]
          · rw [if_neg hq, if_neg hq]
      case isFalse hne =>
          split at h
          case isTrue =>
              cases h
              rw [lookup_put]
              by_cases hd : q = dst
              · rw [if_pos hd, if_pos hd, hx]
              · rw [if_neg hd, if_neg hd]
                by_cases hs : q = src
                · rw [if_pos hs, hs, AList.lookup_erase]
                · rw [if_neg hs, AList.lookup_erase_ne hs]
          case isFalse => cases h

theorem rename_file {c : β} (hs : d.lookup src = some (.file c)) (hd : d.lookup dst ≠ some .other) :
    ∃ d', rename d src dst = some d' := by
  rw [rename, hs]
  by_cases he : src = dst
  · exact ⟨d, if_pos he⟩
  · have hk : (d.lookup dst).all (·.isFile = (Node.file c).isFile) = true := by
      cases hl : d.lookup dst with
      | none => rfl
      | some y =>
          cases y with
          | file c' => rfl
          | other => exact absurd hl hd
    refine ⟨(d.erase src).insert dst (.file c), ?_⟩
    simp only [if_neg he, if_pos hk]

theorem renameAll_cons {m : α × α} (h : renameAll d (m :: ms) = some d') :
    ∃ e, rename d m.1 m.2 = some e ∧ renameAll e ms = some d' :=
  Option.bind_eq_some_iff.mp h

/-- No entry gets where a later one starts or ends, and no two start together. -/
def Apart (ms : List (α × α)) : Prop :=
  ms.Pairwise fun m m' => m.1 ≠ m'.1 ∧ m.2 ≠ m'.1 ∧ m.2 ≠ m'.2

theorem renameAll_of_notMem (h : renameAll d ms = some d') (hs : q ∉ ms.map Prod.fst) (ht : q ∉ ms.map Prod.snd) :
    d'.lookup q = d.lookup q := by
  induction ms generalizing d with
  | nil =>
      cases h
      rfl
  | cons m ms ih =>
      obtain ⟨e, he, h⟩ := renameAll_cons h
      simp only [List.map_cons, List.mem_cons, not_or] at hs ht
      rw [ih h hs.2 ht.2, rename_lookup he, if_neg ht.1, if_neg hs.1]

theorem renameAll_none (h : renameAll d ms = some d') (hq : d.lookup q = none) (ht : q ∉ ms.map Prod.snd) :
    d'.lookup q = none := by
  induction ms generalizing d with
  | nil =>
      cases h
      exact hq
  | cons m ms ih =>
      obtain ⟨e, he, h⟩ := renameAll_cons h
      simp only [List.map_cons, List.mem_cons, not_or] at ht
      refine ih h ?_ ht.2
      rw [rename_lookup he, if_neg ht.1, hq]
      split <;> rfl

theorem renameAll_lookup (h : renameAll d ms = some d') (ha : Apart ms) :
    ∀ m ∈ ms, d'.lookup m.2 = d.lookup m.1 := by
  induction ms generalizing d with
  | nil => simp
  | cons m ms ih =>
      obtain ⟨e, he, hr⟩ := renameAll_cons h
      obtain ⟨hm, ha⟩ := List.pairwise_cons.mp ha
      intro m' hm'
      rw [List.mem_cons] at hm'
      obtain rfl | hm' := hm'
      · have hs : m'.2 ∉ ms.map Prod.fst := fun hmem => by
          obtain ⟨m'', hin, heq⟩ := List.mem_map.mp hmem
          exact (hm m'' hin).2.1 heq.symm
        have ht : m'.2 ∉ ms.map Prod.snd := fun hmem => by
          obtain ⟨m'', hin, heq⟩ := List.mem_map.mp hmem
          exact (hm m'' hin).2.2 heq.symm
        rw [renameAll_of_notMem hr hs ht, rename_lookup he, if_pos rfl]
      · have hne := hm m' hm'
        rw [ih hr ha m' hm', rename_lookup he, if_neg (Ne.symm hne.2.1), if_neg (Ne.symm hne.1)]

theorem renameAll_gone {pre post : List (α × α)} {m : α × α} (h : renameAll d (pre ++ m :: post) = some d')
    (hne : m.1 ≠ m.2) (ht : m.1 ∉ post.map Prod.snd) : d'.lookup m.1 = none := by
  induction pre generalizing d with
  | nil =>
      obtain ⟨e, he, h⟩ := renameAll_cons h
      refine renameAll_none h ?_ ht
      rw [rename_lookup he, if_neg hne, if_pos rfl]
  | cons m' pre ih =>
      obtain ⟨e, _, h⟩ := renameAll_cons h
      exact ih h

theorem renameAll_files (hs : ∀ m ∈ ms, ∃ c, d.lookup m.1 = some (.file c))
    (ht : ∀ m ∈ ms, d.lookup m.2 ≠ some .other) (hd : (ms.map Prod.fst).Nodup) :
    ∃ d', renameAll d ms = some d' := by
  induction ms generalizing d with
  | nil => exact ⟨d, rfl⟩
  | cons m ms ih =>
      obtain ⟨c, hc⟩ := hs m (by simp)
      obtain ⟨e, he⟩ := rename_file hc (ht m (by simp))
      rw [List.map_cons, List.nodup_cons] at hd
      have hs' : ∀ m' ∈ ms, ∃ c', e.lookup m'.1 = some (.file c') := by
        intro m' hm'
        have hne : m'.1 ≠ m.1 := fun h => hd.1 (h ▸ List.mem_map_of_mem hm')
        rw [rename_lookup he, if_neg hne]
        split
        case isTrue => exact ⟨c, hc⟩
        case isFalse => exact hs m' (by simp [hm'])
      have ht' : ∀ m' ∈ ms, e.lookup m'.2 ≠ some .other := by
        intro m' hm'
        rw [rename_lookup he]
        split
        case isTrue => simp [hc]
        case isFalse =>
            split
            case isTrue => simp
            case isFalse => exact ht m' (by simp [hm'])
      obtain ⟨d', hd'⟩ := ih hs' ht' hd.2
      exact ⟨d', by rw [renameAll, he, Option.bind_some, hd']⟩

end Enigma.Directory
