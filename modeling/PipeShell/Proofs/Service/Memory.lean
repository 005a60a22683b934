import PipeShell.Proofs.Service.Courses
import PipeShell.Proofs.Shell.Directory

/-! What sessions remember of the requests that they have answered. The working directory is the
last one stored by any of them, the last status that of their own last request that has exited. -/
namespace PipeShell.Session

namespace Exchange

/-- The pipeline that was asked for, if the frame holds one. -/
def pipeline (e : Exchange) : Option Pipeline :=
  match e.frame with
  | .command line => (Pipeline.read line).toOption.join
  | _ => none

variable (host : Host) (e : Exchange)

/-- The directory that the request has stored. -/
def stored : Option String := e.pipeline.bind (Execution.stored host e.shell)

/-- The status that the request has exited with. -/
def code : Option Int := e.pipeline.bind fun p =>
  (Execution.run host endpoints p e.shell { input := e.source.bytes }).code

variable {host} {e} in
theorem stored_command {line : String} {p : Pipeline} (hf : e.frame = .command line)
    (hr : Pipeline.read line = .ok (some p)) : e.stored host = Execution.stored host e.shell p := by
  have hp : e.pipeline = some p := by
    simp only [pipeline, hf, hr]
    rfl
  rw [stored, hp, Option.bind_some]

theorem execute_shell (p : Pipeline) (shell : Shell) (source : Reads) :
    (execute host p shell source).shell =
      { shell with
        workDir := (Execution.stored host shell p).getD shell.workDir
        lastStatus := (Execution.run host endpoints p shell { input := source.bytes }).code.getD
          shell.lastStatus } := by
  have hrun := Execution.run_shell host endpoints shell p { input := source.bytes }
  simp only [execute, Execution.code]
  cases hr : (Execution.run host endpoints p shell { input := source.bytes }).result with
  | error cause => simp only [hrun, Option.getD_none]
  | ok status => cases status <;> simp only [hrun, Option.getD_none, Option.getD_some]

/-- A request leaves the shell that it found, with what it has stored and exited with. -/
theorem reply_shell : (e.reply host).shell =
    { e.shell with
      workDir := (e.stored host).getD e.shell.workDir
      lastStatus := (e.code host).getD e.shell.lastStatus } := by
  obtain ⟨shell, frame, source⟩ := e
  cases frame with
  | closed => rfl
  | oversized => rfl
  | command line =>
    simp only [reply, answer, answerLine, stored, code, pipeline]
    cases Pipeline.read line with
    | error reason => rfl
    | ok command =>
      cases command with
      | none => rfl
      | some p => exact execute_shell host p shell source

end Exchange

/-- Exchanges of one session in a row: each finds the shell that the one before it has left. -/
def Linked (host : Host) : Shell → List Exchange → Shell → Prop
  | shell, [], last => shell = last
  | shell, e :: es, last => e.shell = shell ∧ Linked host (e.reply host).shell es last

/-- What a session answers leads from the shell that it starts with to the one that it leaves. -/
theorem linked_exchanges (host : Host) (shell : Shell) (r : FrameReader) :
    Linked host shell (exchanges host shell r) (serve host shell r).shell := by
  induction shell, r using requests_induction host with
  | finished shell r hover =>
    rw [exchanges_none hover]
    exact (serve_none hover).2.symm
  | request shell r f later hn hf ih =>
    rw [serve_answered hn hf, exchanges_answered hn hf]
    refine ⟨rfl, ?_⟩
    simp only [Exchange.reply, Served.after]
    cases (answer host shell later.source f).ended with
    | some ended => exact rfl
    | none => exact ih

/-- What sessions have answered, each request with the name of the session. -/
abbrev Log := List (String × Exchange)

/-- The last value that something gives along a list. -/
def latest {α β : Type} (f : α → Option β) (initial : β) (xs : List α) : β :=
  (xs.filterMap f).getLast?.getD initial

theorem latest_append_singleton {α β : Type} (f : α → Option β) (initial : β) (xs : List α)
    (x : α) : latest f initial (xs ++ [x]) = (f x).getD (latest f initial xs) := by
  cases hx : f x <;> simp [latest, hx]

theorem latest_append_of_none {α β : Type} {f : α → Option β} (initial : β) (xs : List α)
    {ys : List α} (h : ∀ y ∈ ys, f y = none) :
    latest f initial (xs ++ ys) = latest f initial xs := by
  rw [latest, List.filterMap_append, List.filterMap_eq_nil_iff.2 h, List.append_nil]
  rfl

variable (host : Host) (start home client : String)

/-- The directory stored last by any session. -/
def directoryAfter (log : Log) : String := latest (fun x => x.2.stored host) start log

/-- The status of the last request of a session that has exited. -/
def statusAfter (log : Log) : Int :=
  latest (fun x => if x.1 = client then x.2.code host else none) 0 log

/-- The shell of a session when all this has been answered. -/
def shellAfter (log : Log) : Shell where
  workDir := directoryAfter host start log
  home := home
  lastStatus := statusAfter host client log

/-- Every request has found the shell that the requests before it had made. -/
def Remembered (log : Log) : Prop := ∀ before client e after,
  log = before ++ (client, e) :: after → e.shell = shellAfter host start home client before

variable {host start home client} {log : Log}

theorem shellAfter_append {e : Exchange} (h : e.shell = shellAfter host start home client log) :
    shellAfter host start home client (log ++ [(client, e)]) = (e.reply host).shell := by
  rw [Exchange.reply_shell, h]
  simp only [shellAfter, directoryAfter, statusAfter, latest_append_singleton, if_true]

theorem statusAfter_append_other {other : String} (h : client ≠ other) (es : List Exchange) :
    statusAfter host other (log ++ es.map fun e => (client, e)) = statusAfter host other log := by
  apply latest_append_of_none
  intro x hx
  obtain ⟨e, -, rfl⟩ := List.mem_map.1 hx
  exact if_neg h

theorem statusAfter_unheard (h : ∀ x ∈ log, x.1 ≠ client) : statusAfter host client log = 0 :=
  latest_append_of_none 0 [] fun x hx => if_neg (h x hx)

theorem remembered_nil : Remembered host start home [] := by
  intro before client e after h
  simp at h

theorem Remembered.append_one (h : Remembered host start home log) {e : Exchange}
    (he : e.shell = shellAfter host start home client log) :
    Remembered host start home (log ++ [(client, e)]) := by
  intro before other f after heq
  rcases List.eq_nil_or_concat after with rfl | ⟨rest, last, rfl⟩
  · obtain ⟨rfl, hlast⟩ := List.append_inj' heq rfl
    obtain ⟨rfl, rfl⟩ := Prod.mk.inj (List.cons.inj hlast).1
    exact he
  · rw [List.concat_eq_append, ← List.cons_append, ← List.append_assoc] at heq
    exact h before other f rest (List.append_inj' heq rfl).1

/-- The exchanges of one session in a row are remembered if the first of them finds what has been
remembered so far. -/
theorem Remembered.append (h : Remembered host start home log) {es : List Exchange} {last : Shell}
    (hes : Linked host (shellAfter host start home client log) es last) :
    Remembered host start home (log ++ es.map fun e => (client, e)) ∧
      shellAfter host start home client (log ++ es.map fun e => (client, e)) = last := by
  induction es generalizing log with
  | nil =>
    rw [List.map_nil, List.append_nil]
    exact ⟨h, hes⟩
  | cons e es ih =>
    obtain ⟨he, hrest⟩ := hes
    rw [← shellAfter_append he] at hrest
    obtain ⟨hlog, hlast⟩ := ih (h.append_one he) hrest
    rw [List.append_assoc] at hlog hlast
    exact ⟨hlog, hlast⟩

theorem linked_workDir {shell last : Shell} {es : List Exchange} (h : Linked host shell es last)
    (hkept : ∀ e ∈ es, e.stored host = none) : last.workDir = shell.workDir := by
  induction es generalizing shell with
  | nil =>
    obtain rfl : shell = last := h
    rfl
  | cons e es ih =>
    obtain ⟨rfl, hrest⟩ := h
    rw [ih hrest fun f hf => hkept f (List.mem_cons_of_mem e hf), Exchange.reply_shell,
      hkept e List.mem_cons_self]
    rfl

end PipeShell.Session
