import Enigma.PoolExec
import Enigma.PoolRestart

namespace Enigma.PoolFutures

open Transition ThreadPool PoolStep PoolLog PoolTasks PoolPlaces PoolTeardown PoolRestart PoolExec Indexed

/-- After a Shutdown every call before it has returned, and each accepted task
has finished or been discarded. -/
def Closed (s : ThreadPool.State) (h : List Event) (d : Nat) : Prop := ∀ x, x < d → ∀ pc,
  s.calls[x]? = some pc → isDone pc = true ∧
    (pc = .done (.submitted true) → x ∈ ends h ∨ x ∈ Fifo.drops (traffic h))

theorem settled_of_gone {s : ThreadPool.State} {h : List Event} {x : Nat} (hb : Books s h)
    (hdead : ∀ (w : Nat) wk, s.pool.heap[w]? = some wk → wk.pc = .exited ∧ wk.tasks.queue = [])
    (hx : s.calls[x]? = some (.done (.submitted true))) :
    x ∈ ends h ∨ x ∈ Fifo.drops (traffic h) := by
  have hone : (Fifo.pushes (traffic h)).count x = 1 := by
    rw [hb.placed x, placedAt, hx]
    rfl
  obtain ⟨p, hp, -⟩ := exists_place hb hone
  cases p with
  | queued w =>
      cases hk : s.pool.heap[w]? with
      | none => simp [copies, queueOf, hk] at hp
      | some wk => simp [copies, queueOf, hk, (hdead w wk hk).2] at hp
  | held w =>
      cases hk : s.pool.heap[w]? with
      | none => simp [copies, handsOf, hk] at hp
      | some wk => simp [copies, handsOf, hk, inProgress, unstarted, (hdead w wk hk).1] at hp
  | finished w =>
      have hm : x ∈ ends (ofWorker w h) := List.count_pos_iff.mp (Nat.lt_of_lt_of_eq Nat.zero_lt_one hp.symm)
      exact .inl (mem_of_mem_ofWorker hm)
  | discarded w =>
      have hm : x ∈ Fifo.drops (traffic (ofWorker w h)) :=
        List.count_pos_iff.mp (Nat.lt_of_lt_of_eq Nat.zero_lt_one hp.symm)
      rw [drops_traffic] at hm ⊢
      exact .inr (mem_of_mem_ofWorker hm)

theorem reachable_closed {hw : Nat} {s : ThreadPool.State} {h : List Event} {d : Nat}
    (hr : Reachable (logged (ThreadPool.system hw) obs) (fun p a => ShutdownAlone p.1 a) (s, h))
    (hd : s.calls[d]? = some (.done .shutDown)) : Closed s h d := by
  revert hd
  refine hr.logged_invariant
    (P := fun s h => s.calls[d]? = some (.done .shutDown) → Closed s h d) ?_ ?_
  · rintro s rfl hd
    simp at hd
  · intro s h a s' hr hc _ hn hd
    have hmono {x : Nat} (hx : x ∈ ends h ∨ x ∈ Fifo.drops (traffic h)) :
        x ∈ ends (h ++ obs s a) ∨ x ∈ Fifo.drops (traffic (h ++ obs s a)) := by
      rw [ends_append, traffic_append, Fifo.drops, List.filterMap_append]
      exact hx.imp (List.mem_append_left _) (List.mem_append_left _)
    -- calls that have returned stay where they are
    have hold (hd : s.calls[d]? = some (.done .shutDown)) : Closed s' (h ++ obs s a) d := by
      intro x hx pc hpc
      have hlt : x < s.calls.length := Nat.lt_trans hx (List.getElem?_eq_some_iff.mp hd).1
      obtain ⟨hdone, hset⟩ := hc hd x hx _ (List.getElem?_eq_getElem hlt)
      obtain ⟨r, hr⟩ : ∃ r, s.calls[x] = .done r := by
        cases hp : s.calls[x] with
        | done r => exact ⟨r, rfl⟩
        | _ => rw [hp] at hdone; cases hdone
      rw [next_done hn (r := r) (by rw [List.getElem?_eq_getElem hlt, hr])] at hpc
      cases hpc
      exact ⟨rfl, fun he => hmono (hset (hr.trans he))⟩
    rcases (PoolStep.next_cases hn).2 with ⟨r, rfl, rfl⟩ | ⟨c, ch, j, pc, p, pc', rfl, hpc, hs, rfl⟩ |
      ⟨w, ch, wk, p, rfl, hk, hs, rfl⟩
    · rcases append_cases hd with ⟨-, he⟩ | hd
      · cases r <;> cases he
      · exact hold hd
    · rcases set_cases hd with ⟨rfl, rfl, -⟩ | ⟨-, hd⟩
      · cases hs with
        | shutdownEnd =>
            intro x hx pc hx'
            rw [List.getElem?_set_ne (by omega)] at hx'
            have hlone := (reachable_lone hr.forget d _ hpc rfl).2 x pc (by omega) hx'
            refine ⟨hlone, ?_⟩
            rintro rfl
            apply hmono
            apply settled_of_gone (reachable_books hr) ?_ hx'
            intro w wk hk
            exact reachable_destroyed hr.forget w wk hk (((reachable_teardown hr.forget).2 d _ hpc).2 w wk hk)
        | dangling _ _ _ ht => cases ht
      · exact hold hd
    · exact hold hd

section Promises

variable {E V : Type} {outcome : Nat → Except E V} {calls : List CallPc} {h : List Event} {x : Nat}
  {e : Exec E V}

def left : ExecPc → Nat
  | .returned true => 1
  | .returned false | .threw => 2
  | _ => 0

def reported : ExecPc → Option Result
  | .submit => none
  | .fail => some (.submitted false)
  | .leave b | .returned b => some (.submitted b)
  | .threw => some .threw

def submitFailed : Outcome E V := .runtimeError "submit task failed"

def verdict (outcome : Nat → Except E V) (h : List Event) (x : Nat) (pc : ExecPc) : Option (Outcome E V) :=
  if 0 < (rets h).count x then some (.of (outcome x))
  else match pc with
    | .leave false | .returned false => some submitFailed
    | .returned true => if 0 < (Fifo.drops (traffic h)).count x then some .brokenPromise else none
    | .threw => some .brokenPromise
    | _ => none

theorem verdict_of_ran (hr : 0 < (rets h).count x) (pc : ExecPc) :
    verdict outcome h x pc = some (.of (outcome x)) := by
  unfold verdict
  rw [if_pos hr]

structure Sound (outcome : Nat → Except E V) (calls : List CallPc) (h : List Event) (x : Nat)
    (e : Exec E V) : Prop where
  agrees : ∀ r, reported e.pc = some r → calls[x]? = some (.done r)
  once : e.promise.twice = false
  refs : e.promise.refs + (Fifo.drops (traffic h)).count x + (ends h).count x + left e.pc = 2
  result : e.promise.result = verdict outcome h x e.pc

structure Tally (calls : List CallPc) (h : List Event) (x : Nat) : Prop where
  placed : (rets h).count x + (Fifo.drops (traffic h)).count x ≤ placedAt calls x
  ended : (ends h).count x ≤ (rets h).count x

theorem Tally.of_books {s : ThreadPool.State} (hb : Books s h) (x : Nat) : Tally s.calls h x :=
  ⟨count_rets_add_drops_le hb x, count_ends_le hb x⟩

theorem placedAt_le_one (calls : List CallPc) (x : Nat) : placedAt calls x ≤ 1 := by
  unfold placedAt
  cases calls[x]? with
  | none => exact Nat.zero_le 1
  | some pc => exact placed_le_one pc

theorem count_snoc (g : Event → Option Nat) (h : List Event) (ev : Event) (x : Nat) :
    ((h ++ [ev]).filterMap g).count x = (h.filterMap g).count x + if g ev = some x then 1 else 0 := by
  rw [List.filterMap_append, List.count_append]
  cases hg : g ev with
  | none => simp [hg]
  | some y => simp [hg, List.count_singleton]

theorem Promise.satisfy_of_none {p : Promise E V} (hp : p.result = none) (o : Outcome E V) :
    p.satisfy o = { p with result := some o } := by
  simp [Promise.satisfy, hp]

theorem Promise.release_of_some {p : Promise E V} {o : Outcome E V} (hp : p.result = some o) :
    p.release = { p with refs := p.refs - 1 } := by
  simp [Promise.release, hp]

theorem Sound.accepted (hs : Sound outcome calls h x e) (hp : 0 < placedAt calls x) :
    e.pc = .submit ∨ e.pc = .leave true ∨ e.pc = .returned true := by
  have hbad {r : Result} (hr : reported e.pc = some r) (hz : PoolTasks.placed (.done r) = 0) : False := by
    rw [placedAt, hs.agrees r hr, Option.map_some, Option.getD_some, hz] at hp
    exact Nat.lt_irrefl 0 hp
  cases hpc : e.pc with
  | submit => exact .inl rfl
  | fail => exact (hbad (by rw [hpc]; rfl) rfl).elim
  | leave b =>
      cases b with
      | true => exact .inr (.inl rfl)
      | false => exact (hbad (by rw [hpc]; rfl) rfl).elim
  | returned b =>
      cases b with
      | true => exact .inr (.inr rfl)
      | false => exact (hbad (by rw [hpc]; rfl) rfl).elim
  | threw => exact (hbad (by rw [hpc]; rfl) rfl).elim

theorem Sound.left_le_one (hs : Sound outcome calls h x e) (hp : 0 < placedAt calls x) : left e.pc ≤ 1 := by
  rcases hs.accepted hp with hpc | hpc | hpc <;> rw [hpc] <;> simp [left]

theorem Sound.pending (hs : Sound outcome calls h x e) (hp : 0 < placedAt calls x)
    (hr : (rets h).count x = 0) (hd : (Fifo.drops (traffic h)).count x = 0) : e.promise.result = none := by
  rw [hs.result]
  rcases hs.accepted hp with hpc | hpc | hpc <;> rw [hpc] <;>
    simp only [verdict, hr, hd, Nat.lt_irrefl, if_false]

theorem Sound.goto {pc' : ExecPc} (hs : Sound outcome calls h x e) (hleft : left pc' = left e.pc)
    (hv : verdict outcome h x pc' = verdict outcome h x e.pc)
    (hc : ∀ r, reported pc' = some r → calls[x]? = some (.done r)) :
    Sound outcome calls h x { e with pc := pc' } := by
  refine ⟨hc, hs.once, ?_, hs.result.trans hv.symm⟩
  rw [hleft]
  exact hs.refs

theorem Sound.skip {h' : List Event} (hs : Sound outcome calls h x e)
    (hr : (rets h').count x = (rets h).count x)
    (hd : (Fifo.drops (traffic h')).count x = (Fifo.drops (traffic h)).count x)
    (he : (ends h').count x = (ends h).count x) : Sound outcome calls h' x e := by
  refine ⟨hs.agrees, hs.once, ?_, ?_⟩
  · rw [hd, he]
    exact hs.refs
  · simp only [hs.result, verdict, hr, hd]

theorem count_rets_snoc (h : List Event) (ev : Event) (x : Nat) :
    (rets (h ++ [ev])).count x = (rets h).count x + if retOf ev = some x then 1 else 0 :=
  count_snoc retOf h ev x

theorem count_ends_snoc (h : List Event) (ev : Event) (x : Nat) :
    (ends (h ++ [ev])).count x = (ends h).count x + if endOf ev = some x then 1 else 0 :=
  count_snoc endOf h ev x

theorem count_drops_snoc (h : List Event) (ev : Event) (x : Nat) :
    (Fifo.drops (traffic (h ++ [ev]))).count x =
      (Fifo.drops (traffic h)).count x + if dropOf ev = some x then 1 else 0 := by
  rw [drops_traffic, drops_traffic]
  exact count_snoc dropOf h ev x

theorem Sound.ran {w : Nat} (hs : Sound outcome calls h x e) (ht : Tally calls (h ++ [.returned w x]) x) :
    Sound outcome calls (h ++ [.returned w x]) x
      { e with promise := e.promise.satisfy (.of (outcome x)) } := by
  have hr := count_rets_snoc h (.returned w x) x
  have hd := count_drops_snoc h (.returned w x) x
  have he := count_ends_snoc h (.returned w x) x
  simp only [retOf, dropOf, endOf, if_true, reduceCtorEq, if_false] at hr hd he
  have hplaced := ht.placed
  have hone := placedAt_le_one calls x
  rw [Promise.satisfy_of_none (hs.pending (by omega) (by omega) (by omega))]
  refine ⟨hs.agrees, hs.once, ?_, ?_⟩
  · have := hs.refs
    simp only
    omega
  · rw [verdict_of_ran (by omega)]

theorem Sound.finished {w : Nat} (hs : Sound outcome calls h x e)
    (ht : Tally calls (h ++ [.finished w x]) x) :
    Sound outcome calls (h ++ [.finished w x]) x { e with promise := e.promise.release } := by
  have hr := count_rets_snoc h (.finished w x) x
  have hd := count_drops_snoc h (.finished w x) x
  have he := count_ends_snoc h (.finished w x) x
  simp only [retOf, dropOf, endOf, if_true, reduceCtorEq, if_false] at hr hd he
  have hplaced := ht.placed
  have hended := ht.ended
  have hone := placedAt_le_one calls x
  have hrefs := hs.refs
  have hleft := hs.left_le_one (by omega)
  have hres : e.promise.result = some (.of (outcome x)) := by
    rw [hs.result, verdict_of_ran (by omega)]
  rw [Promise.release_of_some hres]
  refine ⟨hs.agrees, hs.once, ?_, ?_⟩
  · simp only
    omega
  · rw [verdict_of_ran (by omega)]
    exact hres

theorem Sound.dropped {w : Nat} (hs : Sound outcome calls h x e)
    (ht : Tally calls (h ++ [.queue w (.drop x)]) x) :
    Sound outcome calls (h ++ [.queue w (.drop x)]) x { e with promise := e.promise.release } := by
  have hr := count_rets_snoc h (.queue w (.drop x)) x
  have hd := count_drops_snoc h (.queue w (.drop x)) x
  have he := count_ends_snoc h (.queue w (.drop x)) x
  simp only [retOf, dropOf, endOf, if_true, reduceCtorEq, if_false] at hr hd he
  have hplaced := ht.placed
  have hended := ht.ended
  have hone := placedAt_le_one calls x
  have hrefs := hs.refs
  have hnone := hs.pending (by omega) (by omega) (by omega)
  refine ⟨hs.agrees, hs.once, ?_, ?_⟩
  · have hleft := hs.left_le_one (by omega)
    simp only [Promise.release]
    omega
  · -- the promise breaks if exec has already gone
    simp only [Promise.release, hnone, and_true]
    rcases hs.accepted (by omega) with hp | hp | hp <;> rw [hp] at hrefs ⊢ <;> simp only [verdict, left] at hrefs ⊢
    · rw [if_neg (by omega), if_neg (by omega)]
    · rw [if_neg (by omega), if_neg (by omega)]
    · rw [if_pos (by omega), if_neg (by omega), if_pos (by omega)]

theorem Sound.observe {ev : Event} (hs : Sound outcome calls h x e) (ht : Tally calls (h ++ [ev]) x) :
    Sound outcome calls (h ++ [ev]) x (e.observe outcome x ev) := by
  have hskip (hr : retOf ev ≠ some x) (hd : dropOf ev ≠ some x) (he : endOf ev ≠ some x) :
      Sound outcome calls (h ++ [ev]) x e := by
    apply hs.skip
    · rw [count_rets_snoc, if_neg hr, Nat.add_zero]
    · rw [count_drops_snoc, if_neg hd, Nat.add_zero]
    · rw [count_ends_snoc, if_neg he, Nat.add_zero]
  cases ev with
  | returned w y =>
      simp only [Exec.observe]
      split
      · subst y
        exact hs.ran ht
      · exact hskip (by simpa [retOf] using ‹¬ y = x›) (by simp [dropOf]) (by simp [endOf])
  | finished w y =>
      simp only [Exec.observe]
      split
      · subst y
        exact hs.finished ht
      · exact hskip (by simp [retOf]) (by simp [dropOf]) (by simpa [endOf] using ‹¬ y = x›)
  | started w y => exact hskip (by simp [retOf]) (by simp [dropOf]) (by simp [endOf])
  | queue w ev =>
      cases ev with
      | drop y =>
          simp only [Exec.observe]
          split
          · subst y
            exact hs.dropped ht
          · exact hskip (by simp [retOf]) (by simpa [dropOf] using ‹¬ y = x›) (by simp [endOf])
      | push | pop => exact hskip (by simp [retOf]) (by simp [dropOf]) (by simp [endOf])

theorem Sound.observe_all {es : List Event} (hs : Sound outcome calls h x e)
    (ht : ∀ es', es'.IsPrefix es → Tally calls (h ++ es') x) :
    Sound outcome calls (h ++ es) x (es.foldl (Exec.observe outcome x) e) := by
  induction es generalizing h e with
  | nil => simpa using hs
  | cons ev es ih =>
      have hone : Tally calls (h ++ [ev]) x := ht [ev] (by simp)
      have hrest := ih (hs.observe hone) fun es' hp => by
        have hp' : (ev :: es').IsPrefix (ev :: es) := List.cons_prefix_cons.mpr ⟨rfl, hp⟩
        simpa using ht (ev :: es') hp'
      simpa using hrest

theorem Tally.eq_zero (ht : Tally calls h x) {r : Result} (hc : calls[x]? = some (.done r))
    (hr : PoolTasks.placed (.done r) = 0) :
    (rets h).count x = 0 ∧ (Fifo.drops (traffic h)).count x = 0 ∧ (ends h).count x = 0 := by
  have hplaced := ht.placed
  have hended := ht.ended
  rw [placedAt, hc, Option.map_some, Option.getD_some, hr] at hplaced
  omega

theorem Sound.leave (hs : Sound outcome calls h x e) (ht : Tally calls h x) (hp : e.pc = .leave true) :
    Sound outcome calls h x ⟨.returned true, e.promise.release⟩ := by
  have hplaced := ht.placed
  have hended := ht.ended
  have hone := placedAt_le_one calls x
  have hrefs := hs.refs
  have hres := hs.result
  rw [hp] at hrefs hres
  simp only [left] at hrefs
  refine ⟨fun r hr => hs.agrees r (by rw [hp]; exact hr), hs.once, ?_, ?_⟩
  · simp only [left, Promise.release]
    omega
  · by_cases hran : 0 < (rets h).count x
    · rw [verdict_of_ran hran] at hres ⊢
      rw [Promise.release_of_some hres]
      exact hres
    · simp only [verdict, hran, if_false] at hres ⊢
      simp only [Promise.release, hres, and_true]
      by_cases hdrop : 0 < (Fifo.drops (traffic h)).count x
      · rw [if_pos (by omega), if_pos hdrop]
      · rw [if_neg (by omega), if_neg hdrop]

theorem Sound.step {pc : CallPc} {e' : Exec E V} (hs : Sound outcome calls h x e)
    (ht : Tally calls h x) (hc : calls[x]? = some pc) (hstep : e.step pc = some e') :
    Sound outcome calls h x e' := by
  have hrefs := hs.refs
  have hres := hs.result
  unfold Exec.step at hstep
  split at hstep
  case h_1 hp =>
    cases hstep
    apply hs.goto (by rw [hp]; rfl) (by rw [hp]; rfl)
    intro r hr
    cases hr
    exact hc
  case h_2 hp =>
    cases hstep
    apply hs.goto (by rw [hp]; rfl) (by rw [hp]; rfl)
    intro r hr
    cases hr
    exact hc
  case h_3 hp =>
    cases hstep
    obtain ⟨hr, hd, he⟩ := ht.eq_zero hc rfl
    have htwo : e.promise.refs = 2 := by simpa [hp, hd, he, left] using hrefs
    simp only [hp, verdict, hr, Nat.lt_irrefl, if_false] at hres
    refine ⟨fun r hr => ?_, hs.once, ?_, ?_⟩
    · cases hr
      exact hc
    · simp [Promise.release, hd, he, left, htwo]
    · simp [verdict, hr, Promise.release, hres, htwo]
  case h_4 hp =>
    cases hstep
    have hf := hs.agrees (.submitted false) (by rw [hp]; rfl)
    obtain ⟨hr, hd, he⟩ := ht.eq_zero hf rfl
    simp only [hp, verdict, hr, Nat.lt_irrefl, if_false] at hres
    rw [Promise.satisfy_of_none hres]
    refine ⟨fun r hr => ?_, hs.once, ?_, ?_⟩
    · cases hr
      exact hf
    · rw [hp] at hrefs
      exact hrefs
    · simp only [verdict, hr, Nat.lt_irrefl, if_false]
      rfl
  case h_5 hp =>
    cases hstep
    exact hs.leave ht hp
  case h_6 hp =>
    cases hstep
    have hf := hs.agrees (.submitted false) (by rw [hp]; rfl)
    obtain ⟨hr, hd, he⟩ := ht.eq_zero hf rfl
    simp only [hp, verdict, hr, Nat.lt_irrefl, if_false] at hres
    have htwo : e.promise.refs = 2 := by simpa [hp, hd, he, left] using hrefs
    rw [Promise.release_of_some hres, Promise.release_of_some (by exact hres)]
    refine ⟨fun r hr => ?_, hs.once, ?_, ?_⟩
    · cases hr
      exact hf
    · simp [hd, he, left, htwo]
    · simp only [verdict, hr, Nat.lt_irrefl, if_false, hres]
  case h_7 => cases hstep

theorem Sound.mono {calls' : List CallPc} (hs : Sound outcome calls h x e)
    (hc : ∀ r, calls[x]? = some (.done r) → calls'[x]? = some (.done r)) : Sound outcome calls' h x e :=
  ⟨fun r hr => hc r (hs.agrees r hr), hs.once, hs.refs, hs.result⟩

theorem sound_new (ht : Tally calls h x) (hx : calls[x]? = none) (calls' : List CallPc) :
    Sound outcome calls' h x {} := by
  have hplaced := ht.placed
  have hended := ht.ended
  rw [placedAt, hx] at hplaced
  simp only [Option.map_none, Option.getD_none] at hplaced
  refine ⟨fun r hr => (by cases hr), rfl, ?_, ?_⟩
  · simp only [left]
    omega
  · simp only [verdict]
    rw [if_neg (by omega)]

end Promises

theorem obs_shape (s : ThreadPool.State) (a : ThreadPool.Action) :
    (∀ e ∈ obs s a, retOf e = none ∧ endOf e = none) ∨ ∃ e, obs s a = [e] := by
  cases a with
  | call r => exact .inl fun e he => by cases he
  | step c ch j =>
      left
      intro e he
      simp only [obs] at he
      split at he
      · obtain ⟨w, e', rfl, -⟩ := callEvents_queue he
        exact ⟨rfl, rfl⟩
      · cases he
  | worker w ch =>
      simp only [obs]
      split
      · rename_i wk _
        unfold workerEvents
        split
        · left
          intro e he
          obtain ⟨e', -, rfl⟩ := List.mem_map.mp he
          exact ⟨rfl, rfl⟩
        all_goals first | exact .inr ⟨_, rfl⟩ | exact .inl fun e he => by cases he
      · exact .inl fun e he => by cases he

theorem tally_of_isPrefix {s s' : ThreadPool.State} {h es : List Event} {a : ThreadPool.Action}
    (hb : Books s h) (hb' : Books s' (h ++ obs s a)) (hp : es.IsPrefix (obs s a)) (x : Nat) :
    Tally s'.calls (h ++ es) x := by
  have hsub : (h ++ es).Sublist (h ++ obs s a) := (List.append_sublist_append_left h).mpr hp.sublist
  have hwhole := Tally.of_books hb' x
  refine ⟨?_, ?_⟩
  · have hr : (rets (h ++ es)).count x ≤ (rets (h ++ obs s a)).count x := (hsub.filterMap retOf).count_le x
    have hd : (Fifo.drops (traffic (h ++ es))).count x ≤ (Fifo.drops (traffic (h ++ obs s a))).count x := by
      rw [drops_traffic, drops_traffic]
      exact (hsub.filterMap dropOf).count_le x
    have := hwhole.placed
    omega
  · have hpre := (Tally.of_books hb x).ended
    rcases obs_shape s a with hq | ⟨e, he⟩
    · have hr : rets es = [] := List.filterMap_eq_nil_iff.mpr fun e he => (hq e (hp.subset he)).1
      have he : ends es = [] := List.filterMap_eq_nil_iff.mpr fun e he => (hq e (hp.subset he)).2
      rw [ends_append, rets_append, hr, he, List.append_nil, List.append_nil]
      exact hpre
    · rw [he] at hp hwhole
      rcases es with _ | ⟨e', es⟩
      · rw [List.append_nil]
        exact hpre
      · obtain ⟨rfl, hes⟩ := List.cons_prefix_cons.mp hp
        rw [List.prefix_nil.mp hes]
        exact hwhole.ended

variable {E V : Type} {hw : Nat} {outcome : Nat → Except E V}

def baseAction : PoolExec.Action → Option ThreadPool.Action
  | .exec => some (.call .submit)
  | .call r => some (.call r)
  | .pool a => some a
  | .wrap _ => none

/-- Shutdown is called when every Submit has returned, and no exec is called
before it has returned. -/
def ShutdownApart (s : PoolExec.State E V) (a : PoolExec.Action) : Prop :=
  ∀ a', baseAction a = some a' → ShutdownAlone s.base a'

theorem reachable_base {s : PoolExec.State E V} {h : List Event}
    (hr : Reachable (logged (PoolExec.system hw outcome) execObs) (fun p a => ShutdownApart p.1 a) (s, h)) :
    Reachable (logged (ThreadPool.system hw) obs) (fun p a => ShutdownAlone p.1 a) (s.base, h) := by
  refine hr.logged_invariant (P := fun s h =>
    Reachable (logged (ThreadPool.system hw) obs) (fun p a => ShutdownAlone p.1 a) (s.base, h)) ?_ ?_
  · rintro s rfl
    exact .init ⟨rfl, rfl⟩
  · intro s h a s' _ hb hok hn
    rcases PoolExec.next_cases hn with ⟨r, b, e, ha, hbn, rfl⟩ | ⟨a', b, rfl, -, hbn, rfl⟩ |
      ⟨c, e, e', pc, rfl, -, -, -, rfl⟩
    · rcases ha with ⟨rfl, rfl, -⟩ | ⟨rfl, -⟩
      · exact hb.logged_step (hok _ rfl) hbn
      · exact hb.logged_step (hok _ rfl) hbn
    · exact hb.logged_step (hok _ rfl) hbn
    · simpa [execObs] using hb

structure Futures (outcome : Nat → Except E V) (s : PoolExec.State E V) (h : List Event) : Prop where
  length : s.execs.length = s.base.calls.length
  sound : ∀ (x : Nat) e, s.execs[x]? = some (some e) → Sound outcome s.base.calls h x e

theorem next_length {s s' : ThreadPool.State} {a : ThreadPool.Action} (hn : ThreadPool.next hw s a = some s')
    (ha : ∀ r, a ≠ .call r) : s'.calls.length = s.calls.length := by
  rcases (PoolStep.next_cases hn).2 with ⟨r, rfl, -⟩ | ⟨_, _, _, _, _, _, -, -, -, rfl⟩ | ⟨_, _, _, _, -, -, -, rfl⟩
  · exact (ha r rfl).elim
  · exact List.length_set
  · rfl

theorem next_futures {s s' : PoolExec.State E V} {a : PoolExec.Action} {h : List Event}
    (hf : Futures outcome s h) (hb : Books s.base h) (hb' : Books s'.base (h ++ execObs s a))
    (hn : PoolExec.next hw outcome s a = some s') : Futures outcome s' (h ++ execObs s a) := by
  rcases PoolExec.next_cases hn with ⟨r, b, e, ha, hbn, rfl⟩ | ⟨a', b, rfl, hcall, hbn, rfl⟩ |
    ⟨c, e, e', pc, rfl, he, hpc, hstep, rfl⟩
  · have hobs : execObs s a = [] := by rcases ha with ⟨rfl, -⟩ | ⟨rfl, -⟩ <;> rfl
    have hcalls : b.calls = s.base.calls ++ [r.entry] := by
      rcases (PoolStep.next_cases hbn).2 with ⟨_, he, rfl⟩ | ⟨_, _, _, _, _, _, he, -⟩ | ⟨_, _, _, _, he, -⟩
      · cases he
        rfl
      · cases he
      · cases he
    rw [hobs, List.append_nil]
    refine ⟨by simp [hcalls, hf.length], fun x e₀ he₀ => ?_⟩
    rcases append_cases he₀ with ⟨rfl, rfl⟩ | he₀
    · have hnew : e₀ = {} := by
        rcases ha with ⟨-, -, he⟩ | ⟨-, he⟩
        · exact Option.some.inj he
        · cases he
      subst hnew
      apply sound_new (Tally.of_books hb _)
      rw [hf.length]
      exact List.getElem?_eq_none (Nat.le_refl _)
    · apply (hf.sound x e₀ he₀).mono
      intro r' hr'
      exact next_done hbn hr'
  · refine ⟨by rw [List.length_mapIdx, hf.length, next_length hbn hcall], fun x e' he' => ?_⟩
    rw [List.getElem?_mapIdx, Option.map_eq_some_iff] at he'
    obtain ⟨o, ho, he'⟩ := he'
    obtain ⟨e, rfl, rfl⟩ := Option.map_eq_some_iff.mp he'
    apply ((hf.sound x e ho).mono fun r hr => next_done hbn hr).observe_all
    intro es hp
    exact tally_of_isPrefix hb hb' hp x
  · simp only [execObs, List.append_nil]
    refine ⟨by rw [List.length_set, hf.length], fun x e₀ he₀ => ?_⟩
    rcases set_cases he₀ with ⟨rfl, he₁, -⟩ | ⟨-, he₀⟩
    · cases he₁
      exact (hf.sound x e he).step (Tally.of_books hb x) hpc hstep
    · exact hf.sound x e₀ he₀

theorem reachable_futures {s : PoolExec.State E V} {h : List Event}
    (hr : Reachable (logged (PoolExec.system hw outcome) execObs) (fun p a => ShutdownApart p.1 a) (s, h)) :
    Futures outcome s h := by
  refine hr.logged_invariant (P := Futures outcome) ?_ ?_
  · rintro s rfl
    exact ⟨rfl, fun x e he => by simp at he⟩
  · intro s h a s' hr hf hok hn
    have hr' := hr.logged_step hok hn
    exact next_futures hf (reachable_books (reachable_base hr)) (reachable_books (reachable_base hr')) hn

theorem Sound.returned {calls : List CallPc} {h : List Event} {x : Nat} {e : Exec E V} {b : Bool}
    (hs : Sound outcome calls h x e) (ht : Tally calls h x) (hp : e.pc = .returned b) :
    calls[x]? = some (.done (.submitted b)) ∧
    e.promise.result =
      if b then
        if x ∈ rets h then some (.of (outcome x))
        else if x ∈ Fifo.drops (traffic h) then some .brokenPromise else none
      else some (.runtimeError "submit task failed") := by
  have hc := hs.agrees (.submitted b) (by rw [hp]; rfl)
  refine ⟨hc, ?_⟩
  rw [hs.result, hp]
  cases b with
  | true => simp only [verdict, List.count_pos_iff, if_true]
  | false =>
      simp only [verdict, (ht.eq_zero hc rfl).1, Nat.lt_irrefl, if_false, Bool.false_eq_true]
      rfl

/-- The future of an exec call is satisfied once: by what the function returned or threw, by the
runtime error if Submit refused the task, or by a broken promise if Shutdown discarded it. -/
theorem exec_satisfied_once {s : PoolExec.State E V} {h : List Event} {c : Nat} {e : Exec E V}
    (hr : Reachable (logged (PoolExec.system hw outcome) execObs) (fun p a => ShutdownApart p.1 a) (s, h))
    (he : s.execs[c]? = some (some e)) :
    e.promise.twice = false ∧
    ∀ b, e.pc = .returned b →
      s.base.calls[c]? = some (.done (.submitted b)) ∧
      (e.promise.result =
        if b then
          if c ∈ rets h then some (.of (outcome c))
          else if c ∈ Fifo.drops (traffic h) then some .brokenPromise else none
        else some (.runtimeError "submit task failed")) ∧
      ∀ d, c < d → s.base.calls[d]? = some (.done .shutDown) → e.promise.result ≠ none := by
  have hs := (reachable_futures hr).sound c e he
  have hb := reachable_books (reachable_base hr)
  refine ⟨hs.once, fun b hp => ?_⟩
  obtain ⟨hc, hres⟩ := hs.returned (Tally.of_books hb c) hp
  refine ⟨hc, hres, fun d hlt hd => ?_⟩
  rw [hres]
  cases b with
  | false => simp
  | true =>
      -- after Shutdown the task has ended, hence returned, or been discarded
      have hset := (reachable_closed (reachable_base hr) hd c hlt _ hc).2 rfl
      have hran (hm : c ∈ ends h) : c ∈ rets h :=
        List.count_pos_iff.mp (Nat.lt_of_lt_of_le (List.count_pos_iff.mpr hm) (count_ends_le hb c))
      rcases hset with hm | hm
      · simp [hran hm]
      · by_cases hm' : c ∈ rets h <;> simp [hm, hm']

theorem exec_satisfied_once_pair : ∃ (s : PoolExec.State Unit Nat) (e₁ e₂ : Exec Unit Nat),
    s.execs[1]? = some (some e₁) ∧ s.execs[2]? = some (some e₂) ∧
    s.base.calls[3]? = some (.done .shutDown) ∧
    e₁.promise.twice = false ∧ e₁.promise.result = some (.value 7) ∧
    e₂.promise.twice = false ∧ e₂.promise.result = some .brokenPromise := by
  obtain ⟨⟨s, h⟩, hr, hp⟩ := exists_of_run
    (logged (PoolExec.system 1 (fun _ => .ok 7 : Nat → Except Unit Nat)) execObs)
    (fun p a => ShutdownApart p.1 a)
    (fun p a => !(baseAction a).any isCall || p.1.base.calls.all isDone)
    ({}, []) (List.flatten [[.call (.startup ⟨1, 5, false⟩)], poolWalk 0 8,
      [.exec], poolWalk 1 11, [.wrap 1, .wrap 1], poolWork 0 9, [.exec], poolWalk 2 14, [.wrap 2, .wrap 2],
      [.call .shutdown], poolWalk 3 11, poolWork 0 3, poolWalk 3 3])
    (fun p => decide (p.1.base.calls[3]? = some (CallPc.done .shutDown) ∧
        rets p.2 = [1] ∧ Fifo.drops (traffic p.2) = [2]) &&
      (p.1.execs[1]?.join.any fun (e : Exec Unit Nat) => e.pc == .returned true) &&
      p.1.execs[2]?.join.any fun (e : Exec Unit Nat) => e.pc == .returned true)
    (by
      rintro p a ha a' he r rfl
      simp only [he, Option.any_some, isCall, Bool.not_true, Bool.false_or] at ha
      have hdone := List.all_eq_true.mp ha
      exact ⟨fun pc hm => not_shuttingDown_of_isDone (hdone pc hm), fun _ => hdone⟩)
    ⟨rfl, rfl⟩ (by decide)
  simp only [Bool.and_eq_true, decide_eq_true_eq, Option.any_eq_true, Option.join_eq_some_iff,
    beq_iff_eq] at hp
  obtain ⟨⟨⟨hd, hran, hdrop⟩, e₁, he₁, hp₁⟩, e₂, he₂, hp₂⟩ := hp
  obtain ⟨honce₁, hend₁⟩ := exec_satisfied_once hr he₁
  obtain ⟨honce₂, hend₂⟩ := exec_satisfied_once hr he₂
  refine ⟨s, e₁, e₂, he₁, he₂, hd, honce₁, ?_, honce₂, ?_⟩
  · simpa [hran, Outcome.of] using (hend₁ true hp₁).2.1
  · simpa [hran, hdrop] using (hend₂ true hp₂).2.1

end Enigma.PoolFutures
