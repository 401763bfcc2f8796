import Enigma.BusCopies

namespace Enigma.BusAcks

open Transition EventBus BusThreads BusStep BusLocks BusCopies
open BusCancel (current registered_of_current)

variable {M P K A : Type} {ρ : Runtime M P} {h : Nat}

def history (h : Nat) (log : List (Seen M P K A)) : List (BusCancel.Entry M K) := log.filterMap fun
  | .changed h' x => if h' = h then some x else none
  | _ => none

theorem history_append (log es : List (Seen M P K A)) : history h (log ++ es) = history h log ++ history h es :=
  List.filterMap_append

theorem split_append {α : Type} {l es l₁ l₂ : List α} {x : α} (he : l ++ es = l₁ ++ x :: l₂) :
    (∃ l', l = l₁ ++ x :: l') ∨ ∃ l', l₁ = l ++ l' ∧ es = l' ++ x :: l₂ := by
  rcases List.append_eq_append_iff.mp he with ⟨l', hl, hes⟩ | ⟨l', hl, hes⟩
  · exact .inr ⟨l', hl, hes⟩
  · cases l' with
    | nil => exact .inr ⟨[], by simpa using hl.symm, by simpa using hes.symm⟩
    | cons y l' =>
        obtain ⟨rfl, -⟩ := List.cons.inj hes
        exact .inl ⟨l', hl⟩

theorem history_callSeen (s : Shared M P K A) (pc : OpPc M P K A) :
    history h (callSeen ρ s pc) = BusCancel.opChanges ρ h s pc := by
  cases pc with
  | lockBus x => cases x <;> rfl
  | table h' x => by_cases he : h' = h <;> simp [history, callSeen, BusCancel.opChanges, he, List.filterMap_map]
  | _ => rfl

theorem call_not_looked (s : Shared M P K A) (pc : OpPc M P K A) {e : Seen M P K A} (he : e ∈ callSeen ρ s pc) :
    (∃ ev, e = .published ev) ∨ ∃ h x, e = .changed h x := by
  cases pc with
  | lockBus x =>
      cases x with
      | publish x => exact .inl ⟨_, List.mem_singleton.mp he⟩
      | subscribe | unsubscribe => cases he
  | table h x =>
      obtain ⟨c, -, rfl⟩ := List.mem_map.mp he
      exact .inr ⟨h, c, rfl⟩
  | _ => cases he

section Observed

variable [DecidableEq M]

theorem history_loopSeen (h' : Nat) (s : Shared M P K A) (pc : LoopPc M P K A) :
    history h (loopSeen h' s pc) = [] := by
  cases pc with
  | call ev f =>
      cases f with
      | on m k =>
          simp only [loopSeen]
          split <;> rfl
      | onType k => rfl
  | _ => rfl

theorem history_seen (s : State M P K A) (a : Action M P K A) : history h (seen ρ s a) = BusCancel.seen ρ h s a := by
  cases a with
  | finish h' throws =>
      simp only [seen]
      split
      case h_1 ev y b ht =>
          rw [history_append]
          cases y with
          | on k x =>
              cases throws <;> cases hk : ev.ack <;>
                simp [endSeen, ackSeen, Code.finish, hk, history, BusCancel.seen]
          | ack | onType k => cases throws <;> rfl
      case h_2 => rfl
  | step t ch =>
      have hcall : history h ((inCall s t).elim [] (callSeen ρ s.shared)) = BusCancel.seen ρ h s (.step t ch) := by
        rw [BusCancel.seen]
        cases inCall s t with
        | none => rfl
        | some pc => exact history_callSeen s.shared pc
      cases t with
      | thread h' =>
          have hloop : history h ((s.thread h').elim [] fun l => loopSeen h' s.shared l.pc) = [] := by
            cases s.thread h' with
            | none => rfl
            | some l => exact history_loopSeen h' s.shared l.pc
          rw [seen, history_append, hcall, hloop, List.append_nil]
      | client | control => exact hcall
  | _ => rfl

theorem seen_cases {s : State M P K A} {a : Action M P K A} {e : Seen M P K A} (he : e ∈ seen ρ s a) :
    (∃ ev, e = .published ev) ∨ (∃ h x, e = .changed h x) ∨
    (∃ h ch pc b, a = .step (.thread h) ch ∧ s.thread h = some ⟨pc, b⟩ ∧ innerCall pc = none ∧
      e ∈ loopSeen h s.shared pc) ∨
    ∃ h throws ev y b, a = .finish h throws ∧ s.thread h = some ⟨.user ev y none, b⟩ ∧
      e ∈ endSeen h ev throws y ++ ackSeen h (y.finish ev throws) := by
  cases a with
  | finish h throws =>
      simp only [seen] at he
      split at he
      case h_1 ev y b ht => exact .inr (.inr (.inr ⟨h, throws, ev, y, b, rfl, ht, he⟩))
      case h_2 => cases he
  | step t ch =>
      have hcall (he : e ∈ (inCall s t).elim [] (callSeen ρ s.shared)) :
          (∃ ev, e = .published ev) ∨ ∃ h x, e = .changed h x := by
        cases hc : inCall s t with
        | none => simp [hc] at he
        | some pc => exact call_not_looked s.shared pc (by simpa [hc] using he)
      cases t with
      | thread h =>
          rw [seen] at he
          rcases List.mem_append.mp he with he | he
          · rcases hcall he with hp | hc
            · exact .inl hp
            · exact .inr (.inl hc)
          · cases ht : s.thread h with
            | none => simp [ht] at he
            | some l =>
                have he : e ∈ loopSeen h s.shared l.pc := by simpa [ht] using he
                refine .inr (.inr (.inl ⟨h, ch, l.pc, l.stopRequested, rfl, ht, ?_, he⟩))
                cases hpc : l.pc with
                | user ev y pc =>
                    rw [hpc] at he
                    cases he
                | _ => rfl
      | client | control =>
          rcases hcall he with hp | hc
          · exact .inl hp
          · exact .inr (.inl hc)
  | _ => cases he

theorem seen_of_looked {s : State M P K A} {a : Action M P K A} {ev : Event M P A} {f : Option (Callback M K)}
    (he : .looked h ev f ∈ seen ρ s a) :
    seen ρ s a = [.looked h ev f] ∧ f = find (s.shared.cell h).handles ev.type := by
  rcases seen_cases he with ⟨ev', he⟩ | ⟨h', x, he⟩ | ⟨h', ch, pc, b, rfl, ht, hi, he⟩ |
    ⟨h', throws, ev', y, b, -, -, he⟩
  · cases he
  · cases he
  · have hseen : seen ρ s (.step (.thread h') ch) = loopSeen h' s.shared pc := by simp [seen, inCall, ht, hi]
    rw [hseen]
    rcases loopSeen_cases he with ⟨ev', rfl, he'⟩ | ⟨ev', he'⟩
    · cases he'
      exact ⟨rfl, rfl⟩
    · cases he'
  · rcases List.mem_append.mp he with he | he
    · cases y with
      | on k x => cases List.mem_singleton.mp he
      | ack | onType k => cases he
    · unfold ackSeen at he
      split at he
      case h_1 => cases List.mem_singleton.mp he
      case h_2 => cases he

theorem seen_of_acked {s : State M P K A} {a : Action M P K A} {ev : Event M P A} (he : .acked h ev ∈ seen ρ s a) :
    seen ρ s a = [.ended h ev true, .acked h ev] := by
  rcases seen_cases he with ⟨ev', he⟩ | ⟨h', x, he⟩ | ⟨h', ch, pc, b, -, -, -, he⟩ |
    ⟨h', throws, ev', y, b, rfl, ht, he⟩
  · cases he
  · cases he
  · rcases loopSeen_cases he with ⟨ev', -, he⟩ | ⟨ev', he⟩ <;> cases he
  · have hseen : seen ρ s (.finish h' throws) = endSeen h' ev' throws y ++ ackSeen h' (y.finish ev' throws) := by
      simp [seen, ht]
    rw [hseen]
    cases y with
    | on k x =>
        cases throws with
        | false =>
            cases hk : ev'.ack with
            | none => simp [endSeen, ackSeen, Code.finish, hk] at he
            | some k' =>
                have heq : h = h' ∧ ev = ev' := by simpa [endSeen, ackSeen, Code.finish, hk] using he
                obtain ⟨rfl, rfl⟩ := heq
                simp [endSeen, ackSeen, Code.finish, hk]
        | true => simp [endSeen, ackSeen, Code.finish] at he
    | ack => cases he
    | onType k => cases throws <;> cases he

end Observed

section Counting

variable [DecidableEq A] {k : A}

theorem mem_handlers {what : Seen M P K A → Option (Nat × Event M P A)} {log : List (Seen M P K A)} :
    h ∈ handlers k what log ↔ ∃ e ∈ log, ∃ ev, what e = some (h, ev) ∧ ev.ack = some k := by
  constructor
  · intro hm
    obtain ⟨e, he, hx⟩ := List.mem_filterMap.mp hm
    obtain ⟨⟨h', ev⟩, hwhat, hif⟩ := Option.bind_eq_some_iff.mp hx
    split at hif
    case isTrue hk =>
        obtain rfl := Option.some.inj hif
        exact ⟨e, he, ev, hwhat, hk⟩
    case isFalse => cases hif
  · rintro ⟨e, he, ev, hwhat, hk⟩
    exact List.mem_filterMap.mpr ⟨e, he, by simp [hwhat, hk]⟩

theorem acked_eq_returned [DecidableEq M] (s : State M P K A) (a : Action M P K A) :
    handlers k acked (seen ρ s a) = handlers k returned (seen ρ s a) := by
  have hnone {what : Seen M P K A → Option (Nat × Event M P A)} {es : List (Seen M P K A)}
      (hes : ∀ e ∈ es, what e = none) : handlers k what es = [] :=
    List.filterMap_eq_nil_iff.mpr fun e he => by simp [hes e he]
  by_cases hend : ∃ h throws ev y b, a = .finish h throws ∧ s.thread h = some ⟨.user ev y none, b⟩
  · obtain ⟨h, throws, ev, y, b, rfl, ht⟩ := hend
    have hseen : seen ρ s (.finish h throws) = endSeen h ev throws y ++ ackSeen h (y.finish ev throws) := by
      simp [seen, ht]
    rw [hseen]
    cases y with
    | on k' x =>
        cases throws with
        | false =>
            cases hk : ev.ack <;>
              simp [endSeen, ackSeen, Code.finish, handlers, acked, returned, hk, List.filterMap_cons]
        | true => simp [endSeen, ackSeen, Code.finish, handlers, acked, returned]
    | ack => rfl
    | onType k' => cases throws <;> rfl
  · -- in no other step does a callback of On return
    have hother : ∀ e ∈ seen ρ s a, acked e = none ∧ returned e = none := by
      intro e he
      rcases seen_cases he with ⟨ev, rfl⟩ | ⟨h, x, rfl⟩ | ⟨h, ch, pc, b, -, -, -, he⟩ |
        ⟨h, throws, ev, y, b, ha, ht, -⟩
      · exact ⟨rfl, rfl⟩
      · exact ⟨rfl, rfl⟩
      · rcases loopSeen_cases he with ⟨ev, -, rfl⟩ | ⟨ev, rfl⟩ <;> exact ⟨rfl, rfl⟩
      · exact absurd ⟨h, throws, ev, y, b, ha, ht⟩ hend
    rw [hnone fun e he => (hother e he).1, hnone fun e he => (hother e he).2]

end Counting

theorem mem_history {log : List (Seen M P K A)} {x : BusCancel.Entry M K} (hx : x ∈ history h log) :
    .changed h x ∈ log := by
  obtain ⟨e, he, hif⟩ := List.mem_filterMap.mp hx
  cases e with
  | changed h' y =>
      simp only at hif
      split at hif
      case isTrue heq =>
          subst heq
          obtain rfl := Option.some.inj hif
          exact he
      case isFalse => cases hif
  | _ => cases hif

theorem current_of_cancelled {type : String} {l₁ l₂ : List (Seen M P K A)}
    (hl : ∀ g, .changed h (.registered type g) ∉ l₂) :
    current type none (history h (l₁ ++ .changed h (.cancelled type) :: l₂)) = none := by
  have hcancel : history h (l₁ ++ .changed h (.cancelled type) :: l₂) =
      history h l₁ ++ .cancelled type :: history h l₂ := by
    simp [history]
  rw [hcancel, current, List.foldl_append, List.foldl_cons, ← current]
  have hgone (f : Option (Callback M K)) : BusCancel.Entry.apply type f (.cancelled type) = none := if_pos rfl
  rw [hgone]
  cases hc : current type none (history h l₂) with
  | none => rfl
  | some g => exact absurd (mem_history (registered_of_current hc)) (hl g)

section System

variable [DecidableEq M] {n m : Nat} {ok : State M P K A × List (Seen M P K A) → Action M P K A → Prop}

structure Traced (s : State M P K A) (log : List (Seen M P K A)) : Prop where
  table : ∀ h type, find (s.shared.cell h).handles type = current type none (history h log)
  found : ∀ h ev f l₁ l₂, log = l₁ ++ .looked h ev f :: l₂ → f = current ev.type none (history h l₁)
  after : ∀ h ev l₁ l₂, log = l₁ ++ .acked h ev :: l₂ → ∃ l, l₁ = l ++ [.ended h ev true]

theorem move_traced {s s' : State M P K A} {a : Action M P K A} {log : List (Seen M P K A)} (hs : Traced s log)
    (hn : Move ρ n m s a s') : Traced s' (log ++ seen ρ s a) where
  table h type := by
    rw [BusCancel.move_find hn, hs.table, history_append, history_seen, current, current, current, List.foldl_append]
  found h ev f l₁ l₂ he := by
    rcases split_append he with ⟨l, hl⟩ | ⟨l, rfl, hl⟩
    · exact hs.found h ev f l₁ l hl
    · obtain ⟨hone, hf⟩ := seen_of_looked (hl ▸ List.mem_append_right l (List.mem_cons_self ..))
      have hnil : l = [] := by
        have hlen := congrArg List.length (hone.symm.trans hl)
        simp only [List.length_append, List.length_cons, List.length_nil] at hlen
        exact List.length_eq_zero_iff.mp (by omega)
      rw [hf, hs.table, hnil, List.append_nil]
  after h ev l₁ l₂ he := by
    rcases split_append he with ⟨l, hl⟩ | ⟨l, rfl, hl⟩
    · exact hs.after h ev l₁ l hl
    · have hboth := seen_of_acked (hl ▸ List.mem_append_right l (List.mem_cons_self ..))
      rw [hboth] at hl
      cases l with
      | nil => cases hl
      | cons x l =>
          obtain ⟨rfl, hl⟩ := List.cons.inj hl
          cases l with
          | nil => exact ⟨log, rfl⟩
          | cons y l => simp at hl

theorem run_traced {s : State M P K A} {log : List (Seen M P K A)}
    (hr : Reachable (logged (system ρ n m) (seen ρ)) ok (s, log)) : Traced s log := by
  refine hr.logged_invariant (P := Traced) ?_ fun s log a s' _ hs _ hn => move_traced hs (next_sound hn).2
  rintro s rfl
  exact ⟨fun h type => rfl, fun h ev f l₁ l₂ he => (by simp at he), fun h ev l₁ l₂ he => by simp at he⟩

theorem run_acked [DecidableEq A] {k : A} {s : State M P K A} {log : List (Seen M P K A)}
    (hr : Reachable (logged (system ρ n m) (seen ρ)) ok (s, log)) : handlers k acked log = handlers k returned log := by
  refine hr.logged_invariant (P := fun _ log => handlers k acked log = handlers k returned log) ?_ ?_
  · exact fun s _ => rfl
  · intro s log a s' _ hlog _ _
    rw [handlers_append, handlers_append, hlog, acked_eq_returned]

/-- What the Publish with the ack `k` comes to: when the ack is called, and how often. -/
structure Exact [DecidableEq A] (k : A) (log : List (Seen M P K A)) : Prop where
  once : ∀ h, (handlers k acked log).count h ≤ 1
  after : ∀ h ev l₁ l₂, log = l₁ ++ .acked h ev :: l₂ → ∃ l, l₁ = l ++ [.ended h ev true]
  threw : ∀ h ev, ev.ack = some k → .ended h ev false ∈ log → h ∉ handlers k acked log
  cancelled : ∀ h ev f l₁ l₂ l₃, ev.ack = some k →
    log = l₁ ++ .changed h (.cancelled ev.type) :: (l₂ ++ .looked h ev f :: l₃) →
    (∀ g, .changed h (.registered ev.type g) ∉ l₂) → h ∉ handlers k acked log
  total : (handlers k acked log).length = (handlers k returned log).toFinset.card

/-- No handler calls the ack of a Publish twice, and none before its callback has
returned; an exception that leaves the ack goes no further. -/
theorem acks_exact [DecidableEq A] (ρ : Runtime M P) (n m : Nat) (k : A) :
    (∀ (s : State M P K A) log, Reachable (logged (system ρ n m) (seen ρ)) Any (s, log) →
      (∀ h, (handlers k acked log).count h ≤ publishes k log) ∧ (publishes k log ≤ 1 → Exact k log)) ∧
    ∀ (s s' : State M P K A) (h : Nat) ev b, s.thread h = some ⟨.user ev .ack none, b⟩ →
      next ρ n m s (.finish h true) = some s' → s' = setThread s h (some ⟨.unlock, b⟩) := by
  constructor
  · intro s log hr
    have hacked : handlers k acked log = handlers k returned log := run_acked hr
    have hcount (h : Nat) : (handlers k acked log).count h + (handlers k failed log).count h ≤ publishes k log := by
      obtain ⟨hcopies, hcalls⟩ := run_accounted k h hr
      rw [hacked]
      omega
    refine ⟨fun h => Nat.le_trans (Nat.le_add_right _ _) (hcount h), fun hone => ?_⟩
    have hexcl (h : Nat) (hf : h ∈ handlers k failed log) : h ∉ handlers k acked log := by
      have hfailed := List.count_pos_iff.mpr hf
      refine List.count_eq_zero.mp ?_
      have hle := hcount h
      omega
    have honce (h : Nat) : (handlers k acked log).count h ≤ 1 := by
      have hle := hcount h
      omega
    obtain ⟨-, hfound, hafter⟩ := run_traced hr
    refine ⟨honce, hafter, fun h ev hk hm => ?_, fun h ev f l₁ l₂ l₃ hk hlog hl => ?_, ?_⟩
    · exact hexcl h (mem_handlers.mpr ⟨_, hm, ev, rfl, hk⟩)
    · have hnone := hfound h ev f (l₁ ++ .changed h (.cancelled ev.type) :: l₂) l₃ (by rw [hlog]; simp)
      rw [current_of_cancelled hl] at hnone
      subst hnone
      exact hexcl h (mem_handlers.mpr ⟨.looked h ev none, by simp [hlog], ev, rfl, hk⟩)
    · rw [← hacked]
      exact (List.toFinset_card_of_nodup (List.nodup_iff_count_le_one.mpr honce)).symm
  · intro s s' h ev b ht hn
    obtain ⟨halive, -⟩ := next_sound hn
    have hact : act ρ n m s (.finish h true) = some s' := by simpa [next, halive] using hn
    simpa [act, ht, Code.finish, eq_comm] using hact

end System

section Runs

def onlyType : Event Unit Nat Nat := ⟨"T", some ⟨(), 42⟩, some 5⟩

def queued : List (Action Unit Nat Nat Nat) :=
  List.flatten [setUp, [.call 0 (.publish () 42 (some 5))], steps (.client 0) 13]

theorem acks_exact_one : ∃ log : List (Seen Unit Nat Nat Nat), handlers 5 acked log = [0] ∧ Exact 5 log := by
  obtain ⟨⟨s, log⟩, hr, hp⟩ := exists_of_run (logged (system (K := Nat) (A := Nat) oneType 1 1) (seen oneType)) Any
    (fun _ _ => true) ({}, []) (queued ++ List.flatten [steps (.thread 0) 10, [.finish 0 false]])
    (fun p => decide (handlers 5 acked p.2 = [0] ∧ publishes 5 p.2 ≤ 1)) (fun _ _ _ => trivial) ⟨rfl, rfl⟩ rfl
  obtain ⟨hacked, hone⟩ := of_decide_eq_true hp
  exact ⟨log, hacked, ((acks_exact oneType 1 1 5).1 s log hr).2 hone⟩

/-- While the message waits its type is cancelled and registered again. -/
theorem acked_after_cancel : ¬ ∀ (s : State Unit Nat Nat Nat) log,
    Reachable (logged (system oneType 1 1) (seen oneType)) Any (s, log) → publishes 5 log ≤ 1 →
    ∀ h ev f l₀ l₁ l₂ l₃, ev.ack = some 5 →
      log = l₀ ++ .published ev :: (l₁ ++ .changed h (.cancelled ev.type) :: (l₂ ++ .looked h ev f :: l₃)) →
      h ∉ handlers 5 acked log := by
  intro hall
  have hrun : (run (logged (system (K := Nat) (A := Nat) oneType 1 1) (seen oneType)) ({}, [])
      (queued ++ List.flatten [[.call 0 (.cancel 0 ())], steps (.client 0) 4, [.call 0 (.on 0 () (some 2))],
        steps (.client 0) 4, steps (.thread 0) 10, [.finish 0 false]])).map Prod.snd =
      some [.changed 0 (.registered "T" (.on () 1)), .published onlyType, .changed 0 (.cancelled "T"),
        .changed 0 (.registered "T" (.on () 2)), .looked 0 onlyType (some (.on () 2)), .ended 0 onlyType true,
        .acked 0 onlyType] := rfl
  obtain ⟨⟨s, log⟩, hsome, rfl⟩ := Option.map_eq_some_iff.mp hrun
  have hinit : Reachable (logged (system (K := Nat) (A := Nat) oneType 1 1) (seen oneType)) Any ({}, []) :=
    .init ⟨rfl, rfl⟩
  have hr := run_reachable hinit hsome
  exact hall s _ hr (by decide) 0 onlyType (some (.on () 2)) [.changed 0 (.registered "T" (.on () 1))] []
    [.changed 0 (.registered "T" (.on () 2))] [.ended 0 onlyType true, .acked 0 onlyType] rfl rfl (by decide)

end Runs

end Enigma.BusAcks
