import PipeShell.Proofs.Service.Transcript
import PipeShell.Proofs.Text.Lines
import PipeShell.Service.LocalLoop

/-! The two loops line by line. A session is the list of its exchanges with the client, and the
loop at a terminal is the list of its visits to a line. -/
namespace PipeShell

namespace Session

/-- A frame that a session has answered: the shell and the reads that it found. -/
structure Exchange where
  shell : Shell
  frame : Frame
  source : Reads

def Exchange.reply (host : Host) (e : Exchange) : Reply := answer host e.shell e.source e.frame

/-- The frames that a session answers, one after the other. -/
def exchanges (host : Host) (shell : Shell) (reader : FrameReader) : List Exchange :=
  match _h : reader.next with
  | (.error _, _) => []
  | (.ok frame, later) =>
    if _hf : frame = .closed then []
    else
      let exchange : Exchange := ⟨shell, frame, later.source⟩
      let reply := exchange.reply host
      exchange :: (match reply.ended with
        | some _ => []
        | none => exchanges host reply.shell { later with source := reply.source })
termination_by reader.weight
decreasing_by
  have hlt := FrameReader.next_weight_lt reader (by rw [_h]) _hf
  have hle := weight_answer_le host shell later.source frame
  simp only [_h, FrameReader.weight, Exchange.reply] at *
  omega

variable {host : Host} {shell : Shell} {r later : FrameReader} {f : Frame}

theorem exchanges_none (h : ∀ f, r.next.1 = .ok f → f = .closed) : exchanges host shell r = [] := by
  rw [exchanges]
  split
  · rfl
  · case h_2 f later hn =>
    rw [hn] at h
    rw [dif_pos (h f rfl)]

theorem exchanges_answered (h : r.next = (.ok f, later)) (hf : f ≠ .closed) :
    exchanges host shell r = ⟨shell, f, later.source⟩ ::
      (match (answer host shell later.source f).ended with
        | some _ => []
        | none => exchanges host (answer host shell later.source f).shell
          { later with source := (answer host shell later.source f).source }) := by
  rw [exchanges]
  split
  · case h_1 e later hn => simp [hn] at h
  · case h_2 g later hn =>
    obtain ⟨rfl, rfl⟩ : g = f ∧ later = _ := by simpa [hn] using h
    exact dif_neg hf

theorem serve_none (h : ∀ f, r.next.1 = .ok f → f = .closed) :
    (serve host shell r).sent = [] ∧ (serve host shell r).shell = shell := by
  rw [serve]
  split
  · exact ⟨rfl, rfl⟩
  · case h_2 f later hn =>
    rw [hn] at h
    rw [dif_pos (h f rfl)]
    exact ⟨rfl, rfl⟩

/-- A session sends the bodies of its exchanges, each with an end byte behind it, and leaves the
shell that the last of them has left. -/
theorem serve_exchanges (host : Host) (shell : Shell) (r : FrameReader) :
    (serve host shell r).sent = (exchanges host shell r).flatMap
        (fun e => (e.reply host).body ++ [Response.responseEnd]) ∧
      (serve host shell r).shell =
        ((exchanges host shell r).getLast?.map fun e => (e.reply host).shell).getD shell := by
  induction shell, r using requests_induction host with
  | finished shell r hover =>
    rw [exchanges_none hover]
    exact serve_none hover
  | request shell r f later hn hf ih =>
    rw [serve_answered hn hf, exchanges_answered hn hf]
    simp only [Served.after, List.flatMap_cons, Exchange.reply, List.append_assoc,
      List.singleton_append]
    cases (answer host shell later.source f).ended with
    | some ended => exact ⟨rfl, rfl⟩
    | none =>
      obtain ⟨hsent, hshell⟩ := ih
      simp only [hsent, hshell, List.getLast?_cons, Option.map_some, Option.getD_some]
      refine ⟨rfl, ?_⟩
      cases (exchanges host (answer host shell later.source f).shell
        { later with source := (answer host shell later.source f).source }).getLast? <;> rfl

end Session

namespace SharedInput

variable {s : SharedInput} {line more : Bytes}

theorem nextLine_nil (h : s.block ++ s.rest = []) : s.nextLine.1 = [] := by
  obtain ⟨hblock, hrest⟩ := List.append_eq_nil_iff.1 h
  rw [nextLine]
  simp [hblock, hrest]

/-- The next line is the first of the bytes that have not been read, wherever the block ends. -/
theorem nextLine_line (h : Text.lineFeed ∉ line)
    (hs : s.block ++ s.rest = line ++ Text.lineFeed :: more) :
    s.nextLine.1 = line ++ [Text.lineFeed] ∧
      s.nextLine.2.block ++ s.nextLine.2.rest = more := by
  fun_induction nextLine s generalizing line with
  | case1 s hmem =>
    -- the line feed that ends the line is the first one in the block
    obtain ⟨head, tail, hblock, hhead⟩ :=
      List.eq_append_cons_of_mem (List.contains_iff_mem.1 hmem)
    have hfirst := congrArg Text.splitLine hs
    rw [hblock, List.append_assoc, List.cons_append, Text.splitLine_line hhead,
      Text.splitLine_line h] at hfirst
    obtain ⟨hline, hmore⟩ := Prod.mk.inj hfirst
    rw [hblock, Text.splitLine_line hhead]
    exact ⟨hline, hmore⟩
  | case2 s hmem hrest =>
    refine absurd (List.contains_iff_mem.2 ?_) hmem
    rw [hrest, List.append_nil] at hs
    rw [hs]
    exact List.mem_append_right _ List.mem_cons_self
  | case3 s hmem hrest found later hn ih =>
    -- the block has no line feed, so the line goes on behind it
    obtain ⟨tail, rfl, htail⟩ : ∃ tail, line = s.block ++ tail ∧
        s.rest = tail ++ Text.lineFeed :: more := by
      rcases List.append_eq_append_iff.1 hs with hbefore | ⟨tail, hblock, htail⟩
      · exact hbefore
      · cases tail with
        | nil =>
          rw [List.append_nil] at hblock
          exact ⟨[], by rw [hblock, List.append_nil], htail.symm⟩
        | cons b tail =>
          obtain ⟨rfl, -⟩ := List.cons.inj htail
          refine absurd (List.contains_iff_mem.2 ?_) hmem
          rw [hblock]
          exact List.mem_append_right _ List.mem_cons_self
    have hfeed : Text.lineFeed ∉ tail := fun hmem => h (List.mem_append_right _ hmem)
    rw [hn] at ih
    obtain ⟨hfound, hlater⟩ := ih hfeed (by rw [List.take_append_drop, htail])
    refine ⟨?_, hlater⟩
    rw [List.append_assoc]
    exact congrArg (s.block ++ ·) hfound

end SharedInput

/-- The code of an execution that has exited. -/
def Execution.code (e : Execution) : Option Int :=
  match e.result with
  | .ok (.exited code) => some code
  | _ => none

namespace LocalLoop

/-- A line that the loop has run: the shell that it found, and what programs could read. -/
structure Visit where
  shell : Shell
  line : String
  input : Bytes

namespace Visit

variable (host : Host) (v : Visit)

def turn : Turn := LocalLoop.turn host v.line v.shell v.input

/-- What the pipeline of the line does, if the line holds one. -/
def execution : Option Execution :=
  match Pipeline.read v.line with
  | .ok (some p) => some (Execution.run host {} p v.shell { input := v.input })
  | _ => none

/-- The status that the line has exited with. -/
def code : Option Int := (v.execution host).bind Execution.code

/-- Nothing is written to the error endpoint. -/
def Faultless : Prop := ∀ e ∈ v.execution host, e.streams.errors = []

end Visit

/-- The lines that the loop runs, one after the other. -/
def visits (host : Host) (shell : Shell) (input : SharedInput) : List Visit :=
  let later := input.nextLine.2
  if _h : input.nextLine.1 = [] then []
  else
    match Utf8.toString? input.nextLine.1 with
    | none => []
    | some line =>
      let visit : Visit := ⟨shell, line, later.rest⟩
      let turn := visit.turn host
      visit :: (if turn.quits then []
        else visits host turn.shell { later with rest := later.rest.drop turn.taken })
termination_by input.size
decreasing_by
  have hs := SharedInput.nextLine_size input
  have := List.length_pos_iff.2 _h
  simp only [SharedInput.size, List.length_drop] at *
  omega

variable {host : Host} {shell : Shell} {input : SharedInput} {line : String}

theorem visits_end (h : input.nextLine.1 = []) : visits host shell input = [] := by
  rw [visits]
  exact dif_pos h

theorem run_end (h : input.nextLine.1 = []) : run host shell input =
    { status := 0, output := Utf8.ofString Message.prompt ++ [Text.lineFeed] } := by
  rw [run]
  exact dif_pos h

theorem visits_line (h : input.nextLine.1 ≠ [])
    (ht : Utf8.toString? input.nextLine.1 = some line) :
    let later := input.nextLine.2
    let visit : Visit := ⟨shell, line, later.rest⟩
    visits host shell input = visit ::
      (if (visit.turn host).quits then []
        else visits host (visit.turn host).shell
          { later with rest := later.rest.drop (visit.turn host).taken }) := by
  rw [visits]
  simp only [dif_neg h, ht]

theorem run_line (h : input.nextLine.1 ≠ [])
    (ht : Utf8.toString? input.nextLine.1 = some line) :
    let later := input.nextLine.2
    let visit : Visit := ⟨shell, line, later.rest⟩
    run host shell input = Result.after
      (Utf8.ofString Message.prompt ++ (visit.turn host).output) (visit.turn host).errors
      (if (visit.turn host).quits then
          { status := (visit.turn host).shell.lastStatus, output := [] }
        else run host (visit.turn host).shell
          { later with rest := later.rest.drop (visit.turn host).taken }) := by
  rw [run]
  simp only [dif_neg h, ht]
  rfl

end LocalLoop
end PipeShell
