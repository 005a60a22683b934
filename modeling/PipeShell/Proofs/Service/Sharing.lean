import PipeShell.Proofs.Service.Lockstep
import PipeShell.Proofs.Service.Quiet
import PipeShell.Proofs.Shell.Endpoints

/-! What the sessions of a threaded server share. In every run each of them sees the directory that
was stored last, by whichever session, and the last status of its own. -/
namespace PipeShell

namespace Session

/-- No program of a request waits for bytes that have not arrived: it does the same when there are
more of them, and leaves these. -/
def Exchange.Prompt (host : Host) (e : Exchange) : Prop :=
  ∀ line p, e.frame = .command line → Pipeline.read line = .ok (some p) →
    let run input := Execution.run host endpoints p e.shell { input }
    ∀ more, run (e.source.bytes ++ more) =
      { run e.source.bytes with
        streams := (run e.source.bytes).streams.withInput
          ((run e.source.bytes).streams.input ++ more) }

/-- Programs that leave the connection alone do not wait. -/
theorem Exchange.prompt_of_unread {host : Host} {e : Exchange} {line : String}
    (hf : e.frame = .command line) (h : Unread host e.shell line) : e.Prompt host := by
  intro line' p hline hr run more
  obtain rfl : line = line' := Frame.command.inj (hf.symm.trans hline)
  have hrun : ∀ input, run input =
      { run [] with streams := (run []).streams.withInput input } := by
    intro input
    obtain ⟨hresult, hshell, hstreams⟩ := Execution.run_unread host e.shell (h p hr input)
    exact congr (congr (congrArg Execution.mk hresult) hshell) hstreams
  rw [hrun (e.source.bytes ++ more), hrun e.source.bytes]
  rfl

end Session

open Session (Exchange Log Remembered shellAfter directoryAfter statusAfter)

theorem Connection.Resting.read {c later : Connection} {response : Response} (h : c.Resting)
    (hr : c.read = some (response, later)) : later.Resting := by
  obtain ⟨-, -, hended, hreader, hup⟩ := Connection.read_client hr
  refine ⟨hup.trans h.present, ?_⟩
  intro ho
  rw [hreader]
  exact h.idle (hended.symm.trans ho)

namespace Server

/-- The requests that a line brings to a server, if the session is open. -/
def heard (host : Host) (client line : String) (s : Server) : List Exchange :=
  match s.connection? client with
  | some c => if c.ended.isSome then [] else c.heard host s.workDir s.home line
  | none => []

/-- No program that a line starts waits for bytes that never come, as the client waits for the
answer. -/
def Prompt (host : Host) (client line : String) (s : Server) : Prop :=
  ∀ e ∈ s.heard host client line, e.Prompt host

/-- Runs in lock step, with what has been answered. Every session has a name of its own. -/
inductive Run (host : Host) (initial : Server) : Log → Server → Prop
  | start : Run host initial [] initial
  | enter {log : Log} {s t : Server} (client : String) (h : Run host initial log s)
      (hnew : s.connection? client = none) (hlog : ∀ x ∈ log, x.1 ≠ client)
      (ha : s.accept client = some t) : Run host initial log t
  | command {log : Log} {s t : Server} {client line : String} {response : Response}
      (h : Run host initial log s) (hprompt : s.Prompt host client line)
      (he : s.exec host client line = some (response, t)) :
      Run host initial (log ++ (s.heard host client line).map fun e => (client, e)) t
  | leave {log : Log} {s : Server} (client : String) (h : Run host initial log s) :
      Run host initial log (s.hangUp host client)

/-- A server and its sessions remember what has been answered. -/
structure Kept (host : Host) (start home : String) (log : Log) (s : Server) : Prop where
  resting : s.Resting
  home_eq : s.home = home
  workDir : s.workDir = directoryAfter host start log
  statuses : ∀ c ∈ s.connections, c.lastStatus = statusAfter host c.client log
  remembered : Remembered host start home log

variable {host : Host} {network : Network} {settings : ServerSettings}
  {start home client line : String} {initial s t : Server} {c d : Connection} {log : Log}
  {response : Response}

theorem heard_open (hc : s.connection? client = some c) (ho : c.ended = none) :
    s.heard host client line = c.heard host s.workDir s.home line := by
  simp only [heard, hc, ho, Option.isSome_none, Bool.false_eq_true, if_false]

theorem heard_ended (hc : s.connection? client = some c) (he : c.ended.isSome = true) :
    s.heard host client line = [] := by
  simp only [heard, hc, he, if_true]

namespace Kept

theorem shell (h : Kept host start home log s) (hc : s.connection? client = some c) :
    ({ workDir := s.workDir, home := s.home, lastStatus := c.lastStatus } : Shell) =
      shellAfter host start home client log := by
  rw [h.workDir, h.home_eq, h.statuses c (mem_of_connection? hc), client_of_connection? hc]
  rfl

theorem enter (h : Kept host start home log s) (hnew : s.connection? client = none)
    (hlog : ∀ x ∈ log, x.1 ≠ client) (ha : s.accept client = some t) :
    Kept host start home log t := by
  simp only [accept] at ha
  split at ha
  · cases ha
  · obtain rfl := Option.some.inj ha
    have hidle : FrameReader.Idle { source := [] } := ⟨rfl, rfl⟩
    refine ⟨⟨h.resting.threaded, ?_, ?_⟩, h.home_eq, h.workDir, ?_, h.remembered⟩
    · rw [List.map_append, List.nodup_append]
      refine ⟨h.resting.distinct, List.pairwise_singleton _ _, ?_⟩
      intro a ha b hb
      obtain ⟨c, hc, rfl⟩ := List.mem_map.1 ha
      obtain rfl : b = client := by simpa using hb
      exact connection?_eq_none hnew c hc
    · intro c hc
      rcases List.mem_append.1 hc with hc | hc
      · exact h.resting.resting c hc
      · obtain rfl := List.mem_singleton.1 hc
        exact ⟨rfl, fun _ => hidle⟩
    · intro c hc
      rcases List.mem_append.1 hc with hc | hc
      · exact h.statuses c hc
      · obtain rfl := List.mem_singleton.1 hc
        exact (Session.statusAfter_unheard hlog).symm

theorem leave (h : Kept host start home log s) (client : String) :
    Kept host start home log (s.hangUp host client) := by
  rw [h.resting.hangUp]
  refine ⟨⟨h.resting.threaded, ?_, ?_⟩, h.home_eq, h.workDir, ?_, h.remembered⟩
  · exact h.resting.distinct.sublist (List.filter_sublist.map _)
  · intro c hc
    exact h.resting.resting c (List.mem_of_mem_filter hc)
  · intro c hc
    exact h.statuses c (List.mem_of_mem_filter hc)

/-- A line on an open session adds what it has brought to what is remembered. -/
theorem command_open (h : Kept host start home log s) (hc : s.connection? client = some c)
    (ho : c.ended = none) (he : s.exec host client line = some (response, t)) :
    Kept host start home (log ++ (s.heard host client line).map fun e => (client, e)) t := by
  have hclient := client_of_connection? hc
  have hresting := h.resting.resting c (mem_of_connection? hc)
  rw [h.resting.exec_open hc ho] at he
  obtain ⟨later, hr, rfl⟩ := put_of_read he
  have hlinked := Connection.linked_heard host s.workDir s.home line c
  rw [h.shell hc] at hlinked
  obtain ⟨hremembered, hlast⟩ := h.remembered.append hlinked
  obtain ⟨hlater, hstatus, -⟩ := Connection.read_client hr
  have hname : later.client = client := hlater.trans hclient
  rw [heard_open hc ho]
  have habsorb : (s.absorb (c.hear host s.workDir s.home line)).Resting :=
    ⟨h.resting.threaded, h.resting.distinct, h.resting.resting⟩
  refine ⟨habsorb.put ((Connection.resting_hear hresting.present (hresting.idle ho)).read hr),
    h.home_eq, (congrArg Shell.workDir hlast).symm, ?_, hremembered⟩
  intro d hd
  obtain ⟨f, hf, rfl⟩ := List.mem_map.1 hd
  split
  · rw [hname, hstatus]
    exact (congrArg Shell.lastStatus hlast).symm
  · case isFalse hother =>
    rw [hname] at hother
    rw [h.statuses f hf, Session.statusAfter_append_other (Ne.symm hother)]

/-- A client that reads on when its session has ended changes nothing that is remembered. -/
theorem command_ended (h : Kept host start home log s) (hc : s.connection? client = some c)
    (he : c.ended.isSome = true) (hx : s.exec host client line = some (response, t)) :
    Kept host start home log t := by
  rw [h.resting.exec_ended hc he] at hx
  obtain ⟨later, hr, rfl⟩ := put_of_read hx
  obtain ⟨hlater, hstatus, -⟩ := Connection.read_client hr
  have hmem := mem_of_connection? hc
  refine ⟨h.resting.put ((h.resting.resting c hmem).read hr), h.home_eq, h.workDir, ?_,
    h.remembered⟩
  intro d hd
  obtain ⟨f, hf, rfl⟩ := List.mem_map.1 hd
  split
  · rw [hlater, hstatus]
    exact h.statuses c hmem
  · exact h.statuses f hf

theorem command (h : Kept host start home log s)
    (hx : s.exec host client line = some (response, t)) :
    Kept host start home (log ++ (s.heard host client line).map fun e => (client, e)) t := by
  cases hc : s.connection? client with
  | none =>
    rw [h.resting.exec_none hc] at hx
    cases hx
  | some c =>
    cases he : c.ended with
    | none => exact h.command_open hc he hx
    | some ended =>
      have hended : c.ended.isSome = true := by rw [he]; rfl
      rw [heard_ended hc hended, List.map_nil, List.append_nil]
      exact h.command_ended hc hended hx

end Kept

theorem kept_start (ht : settings.threaded = true)
    (h : Server.start network settings start home = .ok initial) :
    Kept host start home [] initial := by
  delta Server.start at h
  split at h
  · cases h
  · split at h
    · cases h
    · obtain rfl := Except.ok.inj h
      exact ⟨⟨ht, List.nodup_nil, List.forall_mem_nil _⟩, rfl, rfl, List.forall_mem_nil _,
        Session.remembered_nil⟩

/-- What every step keeps, every run keeps. -/
theorem Run.kept (h : Run host initial log s) (hinitial : Kept host start home [] initial) :
    Kept host start home log s := by
  induction h with
  | start => exact hinitial
  | enter client _ hnew hlog ha ih => exact ih.enter hnew hlog ha
  | command _ _ he ih => exact ih.command he
  | leave client _ ih => exact ih.leave client

end Server
end PipeShell
