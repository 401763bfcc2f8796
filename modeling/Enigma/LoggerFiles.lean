import Enigma.LoggerSinks
import Enigma.FileSinkSessions

namespace Enigma.LoggerFiles

open Transition Directory Logger LoggerOrder LoggerSinks FileSink FileSinkRotation FileSinkRuns
open FileSinkSessions (shows_nil)

variable {env : Env} {lvl : LogLevel} {msgs : List Message}

/-- A file sink with its configuration and whether its directory exists. No two of them
share a directory, and nothing else is written there. -/
structure Mount where
  cfg : Config
  sink : FileSink.State
  present : Bool

def fileSink (env : Env) : Sink Mount where
  init m := (⟨m.cfg, (FileSink.init m.cfg false m.present true m.sink).2, true⟩,
    (FileSink.init m.cfg false m.present true m.sink).1)
  uninit m := { m with sink := FileSink.uninit m.sink }
  log lvl msg m := ({ m with sink := (FileSink.log env m.cfg fair lvl msg m.sink).2 },
    decide ((FileSink.log env m.cfg fair lvl msg m.sink).1 = .returned true))

def lines (env : Env) (lvl : LogLevel) (msgs : List Message) : List String :=
  (msgs.filter fun msg => severity lvl ≤ severity msg.level).map (text env)

structure Fresh (m : Mount) : Prop where
  plain : Plain m.cfg.appName
  free : ∀ i, i ≤ limit m.cfg → m.sink.dir.lookup (logName m.cfg.appName i) = none
  none : ∀ name b, m.sink.dir.lookup name = some (.file b) → ¬IsLog m.cfg.appName name

def Live (env : Env) (lvl : LogLevel) (msgs : List Message) (m : Mount) : Prop :=
  Plain m.cfg.appName ∧ ∃ ls turns, Stands m.cfg m.sink ls ∧
    Shelf.Keeps (limit m.cfg) ls (lines env lvl msgs) turns

/-- Files app.log to number `n - 1` and no others, with the end of the lines in them, and
all of the lines while there is room for another file. -/
def Holds (env : Env) (lvl : LogLevel) (msgs : List Message) (m : Mount) : Prop :=
  ∃ n k, n ≤ limit m.cfg ∧
    (∀ name, IsLog m.cfg.appName name →
      ((∃ b, m.sink.dir.lookup name = some (.file b)) ↔ ∃ i, i < n ∧ name = logName m.cfg.appName i)) ∧
    joined m.cfg.appName m.sink.dir n = ((lines env lvl msgs).drop k).flatMap record ∧ (n < limit m.cfg → k = 0)

theorem lines_concat (env : Env) (lvl : LogLevel) (msgs : List Message) (msg : Message) {s : FileSink.State}
    {size : Nat} (hf : s.file = some ⟨true, size, 0⟩) :
    lines env lvl (msgs ++ [msg]) = lines env lvl msgs ++ (lineOf env s (lvl, msg)).toList := by
  rw [lines, List.filter_append, List.map_append, lineOf, hf]
  by_cases hlow : severity msg.level < severity lvl
  · simp [lines, hlow]
  · simp [lines, hlow, Nat.not_lt.mp hlow]

theorem Fresh.holds {m : Mount} (h : Fresh m) (env : Env) (lvl : LogLevel) : Holds env lvl [] m := by
  refine ⟨0, 0, Nat.zero_le _, fun name hlog => ?_, rfl, fun _ => rfl⟩
  constructor
  · rintro ⟨b, hb⟩
    exact absurd hlog (h.none name b hb)
  · rintro ⟨i, hi, -⟩
    exact absurd hi (Nat.not_lt_zero i)

theorem Live.holds {m : Mount} (h : Live env lvl msgs m) : Holds env lvl msgs m := by
  obtain ⟨-, ls, turns, hst, hk⟩ := h
  obtain ⟨k, -, hall, hzero⟩ := hk.suffix
  have hlen := hk.length
  refine ⟨ls.length, k, hst.room, fun name hlog => shows_iff hst hlog, ?_, fun hlt => hzero (by omega)⟩
  rw [hst.shows.joined, hall]

theorem init_live {m : Mount} (h : Fresh m) (env : Env) (lvl : LogLevel)
    (hi : ((fileSink env).init m).2 = true) : Live env lvl [] ((fileSink env).init m).1 := by
  have hpresent : m.present = true := by
    by_contra hp
    rw [Bool.not_eq_true] at hp
    simp [fileSink, FileSink.init, hp] at hi
  have hinit : FileSink.init m.cfg false true true m.sink =
      (true, (FileSink.init m.cfg false true true m.sink).2) := Prod.ext (by simpa [fileSink, hpresent] using hi) rfl
  simp only [fileSink, hpresent]
  exact ⟨h.plain, [[]], 0, init_stands h.free h.none hinit, .start (limit_pos m.cfg)⟩

theorem init_holds {m : Mount} (h : Fresh m) (env : Env) (lvl : LogLevel) :
    Holds env lvl [] ((fileSink env).init m).1 := by
  cases hi : ((fileSink env).init m).2 with
  | true => exact (init_live h env lvl hi).holds
  | false =>
      -- the directory had to be made, and nothing is opened
      cases hp : m.present with
      | false =>
          have hsame : ((fileSink env).init m).1 = { m with present := true } := by
            simp [fileSink, FileSink.init, hp]
          rw [hsame]
          exact Fresh.holds ⟨h.plain, h.free, h.none⟩ env lvl
      | true =>
          have hfree := h.free 0 (Nat.zero_le _)
          simp [fileSink, FileSink.init, hp, LogFile.openFile, hfree] at hi

theorem log_live {m : Mount} (h : Live env lvl msgs m) (msg : Message) :
    Live env lvl (msgs ++ [msg]) ((fileSink env).log lvl msg m).1 := by
  obtain ⟨hp, ls, turns, hst, hk⟩ := h
  obtain ⟨size, hf⟩ := hst.file
  obtain ⟨r, hn, -, hst', hk'⟩ :=
    next_shelves (r := ⟨m.sink, lines env lvl msgs, turns⟩) env hp hst hk (lvl, msg)
  have hr : r.sink = (FileSink.log env m.cfg fair lvl msg m.sink).2 ∧
      r.lines = lines env lvl (msgs ++ [msg]) := by
    obtain ⟨s', hlog, -⟩ := log_shelves env hp hst (lvl, msg)
    rw [FileSinkRuns.next, hlog] at hn
    cases hn
    exact ⟨by rw [hlog], (lines_concat env lvl msgs msg hf).symm⟩
  rw [hr.1] at hst'
  rw [hr.2] at hk'
  exact ⟨hp, _, _, hst', hk'⟩

theorem fileSink_contract (env : Env) : Contract (fileSink env) Fresh (Live env) (Holds env) where
  fresh_holds lvl _ h := h.holds env lvl
  init_holds lvl _ h := init_holds h env lvl
  init_live lvl _ h hi := init_live h env lvl hi
  log_live _ _ msg _ h := log_live h msg
  live_holds _ _ _ h := h.holds
  uninit_holds _ _ _ h := h

/-- The logger and its file sinks together, in every interleaving: a sink has been called with what
was queued, in order, and its files hold the end of the lines of these messages. -/
theorem files_in_order (env : Env) {s : State Mount} {log : List Entry}
    (hr : Reachable (logged (system (fileSink env)) obs) (fun _ a => Unused Fresh a) (s, log)) {i : Nat} {m : Mount}
    (hm : s.sinks[i]? = some m) :
    queued log = calls i log ++ hand s i ++ s.queue.queue ∧ Holds env s.lvl (calls i log) m :=
  ⟨(reachable_conserved hr).order i (List.getElem?_eq_some_iff.mp hm).1,
    (reachable_kept (fileSink_contract env) hr).holds i m hm⟩

section Run

def plainText : Env := ⟨fun _ => none, fun _ => ""⟩

def oneFile : Mount := ⟨{ appName := "app".toList }, ⟨none, ∅⟩, true⟩

theorem oneFile_fresh : Fresh oneFile := ⟨by decide, fun _ _ => rfl, fun _ _ h => by cases h⟩

def notInit : Action Mount → Bool
  | .init _ _ => false
  | _ => true

theorem unused_of_notInit {a : Action Mount} (h : notInit a = true) : Unused Fresh a := by
  rintro lvl sinks rfl
  cases h

def message (lvl : LogLevel) (content : String) : Message := ⟨lvl, 0, 0, none, content⟩

def opening : State Mount := setControl {} (some (.initAssign .info [oneFile]))

theorem opening_reachable :
    Reachable (logged (system (fileSink plainText)) obs) (fun _ a => Unused Fresh a) (opening, []) := by
  have hstart : Reachable (logged (system (fileSink plainText)) obs) (fun _ a => Unused Fresh a) ({}, []) :=
    .init ⟨rfl, rfl⟩
  refine hstart.step (a := .init .info [oneFile]) ?_ rfl
  rintro lvl sinks he k hk
  cases he
  rw [List.mem_singleton.mp hk]
  exact oneFile_fresh

/-- Of two messages, one is below the level of the logger. -/
theorem files_in_order_filtered : ∃ (s : State Mount) (log : List Entry) (m : Mount), s.sinks[0]? = some m ∧
    calls 0 log = [message .debug "low", message .warn "high"] ∧ Holds plainText .info (calls 0 log) m := by
  obtain ⟨⟨s, log⟩, hr, hp⟩ := exists_of_run
    (startingAt (logged (system (fileSink plainText)) obs) (opening, [])) (fun _ a => Unused Fresh a)
    (fun _ a => notInit a) (opening, [])
    (List.replicate 5 (.step .control .run) ++
      (.logIt 0 (message .debug "low") :: List.replicate 5 (.step (.client 0) .run)) ++
      (.logIt 0 (message .warn "high") :: List.replicate 4 (.step (.client 0) .run)) ++
      List.replicate 18 (.step .thread .run))
    (fun p => decide (calls 0 p.2 = [message .debug "low", message .warn "high"] ∧ p.1.lvl = .info ∧
      p.1.sinks.length = 1)) (fun _ _ => unused_of_notInit) rfl (by decide)
  obtain ⟨hcalls, hlvl, hlen⟩ := of_decide_eq_true hp
  obtain ⟨m, hsinks⟩ : ∃ m, s.sinks = [m] := List.length_eq_one_iff.mp hlen
  have hm : s.sinks[0]? = some m := by rw [hsinks]; rfl
  have hf := (files_in_order plainText (opening_reachable.trans hr) hm).2
  have hlvl : s.lvl = .info := hlvl
  rw [hlvl] at hf
  exact ⟨s, log, m, hm, hcalls, hf⟩

end Run

end Enigma.LoggerFiles
