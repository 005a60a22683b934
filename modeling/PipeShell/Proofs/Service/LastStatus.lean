import Mathlib.Data.List.Induction
import PipeShell.Proofs.Service.Memory
import PipeShell.Proofs.Shell.StatusRange

/-! What a session shows of the ends of its requests. While it goes on other sessions may move the
working directory and the files of the host may change, yet its last status is that of the latest
of its own requests that has exited, and a byte that asks for the end of nothing. -/
namespace PipeShell

/-- A frame that holds no pipeline: too long, blank, or a line that cannot be read. -/
inductive Frame.NoPipeline : Frame → Prop
  | oversized : NoPipeline .oversized
  | noCommand {line : String} (h : Pipeline.read line = .ok none) : NoPipeline (.command line)
  | badLine {line : String} {e : Pipeline.ReadError} (h : Pipeline.read line = .error e) :
      NoPipeline (.command line)

namespace Session

/-- The requests that a session has answered, each with the host as it was then. -/
abbrev History := List (Host × Exchange)

namespace History

/-- The status of the latest request that has exited. -/
def status (history : History) : Int := latest (fun x => x.2.code x.1) 0 history

/-- No request has ended the session. -/
def Open (history : History) : Prop := ∀ x ∈ history, (x.2.reply x.1).ended = none

end History

/-- Sessions that have come to a point between two requests, from a source of all that they will
be able to read. Before each request another session may have moved the working directory, and the
host may be another. -/
inductive Underway (workDir home : String) (source : Reads) :
    History → Shell → FrameReader → Prop
  | start : Underway workDir home source [] { workDir, home } { source }
  | moved {history : History} {shell : Shell} {r : FrameReader} (directory : String)
      (h : Underway workDir home source history shell r) :
      Underway workDir home source history { shell with workDir := directory } r
  | answered {history : History} {shell : Shell} {r later : FrameReader} {f : Frame} (host : Host)
      (h : Underway workDir home source history shell r) (hopen : history.Open)
      (hn : r.next = (.ok f, later)) (hf : f ≠ .closed) :
      Underway workDir home source (history ++ [(host, ⟨shell, f, later.source⟩)])
        (answer host shell later.source f).shell
        { later with source := (answer host shell later.source f).source }

/-- What a session shows: its last status, the one that each request has found, and what has been
sent for each request that asks for it. -/
structure Shows (history : History) (shell : Shell) : Prop where
  status : shell.lastStatus = history.status
  reported : Reported shell.lastStatus
  found : ∀ before host e, before ++ [(host, e)] <+: history →
    e.shell.lastStatus = History.status before ∧ Reported e.shell.lastStatus
  asked : ∀ before between host e line c, before ++ between ++ [(host, e)] <+: history →
    (∀ x ∈ between, x.2.frame.NoPipeline) →
    e.frame = .command line → Pipeline.read line = .ok (some [c]) →
    c.name = "rc" → c.input = none →
    (e.reply host).body = Utf8.ofString (toString (History.status before) ++ "\n")

namespace Exchange

variable {host : Host} {e : Exchange} {code : Int}

theorem code_of_noPipeline (host : Host) (h : e.frame.NoPipeline) : e.code host = none := by
  obtain ⟨shell, frame, source⟩ := e
  cases h with
  | oversized => rfl
  | noCommand hread =>
    simp only [Exchange.code, pipeline, hread]
    rfl
  | badLine hread =>
    simp only [Exchange.code, pipeline, hread]
    rfl

theorem reported_code (h : e.code host = some code) : Reported code := by
  obtain ⟨p, -, hcode⟩ := Option.bind_eq_some_iff.1 h
  simp only [Execution.code] at hcode
  split at hcode
  · case h_1 exited hresult =>
    obtain rfl := Option.some.inj hcode
    exact Execution.reported_of_exited hresult
  · cases hcode

/-- The last status is sent in decimal to whoever asks for it. -/
theorem body_of_asked {line : String} {c : Command} (hf : e.frame = .command line)
    (hread : Pipeline.read line = .ok (some [c])) (hname : c.name = "rc") (hi : c.input = none) :
    (e.reply host).body = Utf8.ofString (toString e.shell.lastStatus ++ "\n") := by
  have hb : Builtin.named c.name = some .rc := by
    rw [hname]
    rfl
  simp only [reply, hf, answer, answerLine, hread, execute, Execution.run_lone host _ _ _ hb,
    Execution.runLone, hi, Option.bind_none]
  exact List.append_nil _

end Exchange

namespace History

variable {history between : History} {host : Host} {e : Exchange}

theorem status_append_one (history : History) (host : Host) (e : Exchange) :
    status (history ++ [(host, e)]) = (e.code host).getD history.status :=
  latest_append_singleton _ 0 history (host, e)

theorem status_append_noPipeline (history : History) (h : ∀ x ∈ between, x.2.frame.NoPipeline) :
    status (history ++ between) = history.status :=
  latest_append_of_none 0 history fun x hx => Exchange.code_of_noPipeline x.1 (h x hx)

theorem reported_status (history : History) : Reported history.status := by
  induction history using List.reverseRecOn with
  | nil => exact reported_of_flag (Or.inl rfl)
  | append_singleton history x ih =>
    obtain ⟨host, e⟩ := x
    rw [status_append_one]
    cases hcode : e.code host with
    | none => exact ih
    | some code => exact Exchange.reported_code hcode

theorem Open.append_one (h : history.Open) (he : (e.reply host).ended = none) :
    Open (history ++ [(host, e)]) := by
  intro x hx
  rcases List.mem_append.1 hx with hx | hx
  · exact h x hx
  · obtain rfl := List.mem_singleton.1 hx
    exact he

end History

variable {workDir home : String} {source : Reads} {history : History} {shell : Shell}
  {r : FrameReader}

/-- What is shown follows from the last status that every request has found. -/
theorem shows_of_found (hstatus : shell.lastStatus = history.status)
    (hfound : ∀ before host e, before ++ [(host, e)] <+: history →
      e.shell.lastStatus = History.status before) : Shows history shell := by
  refine ⟨hstatus, hstatus ▸ history.reported_status, ?_, ?_⟩
  · intro before host e hprefix
    have he := hfound before host e hprefix
    exact ⟨he, he ▸ History.reported_status before⟩
  · intro before between host e line c hprefix hnone hf hread hname hi
    rw [Exchange.body_of_asked hf hread hname hi, hfound _ host e hprefix,
      History.status_append_noPipeline before hnone]

namespace Shows

theorem moved (h : Shows history shell) (directory : String) :
    Shows history { shell with workDir := directory } :=
  ⟨h.status, h.reported, h.found, h.asked⟩

theorem answered (h : Shows history shell) (host : Host) (f : Frame) (source : Reads) :
    Shows (history ++ [(host, ⟨shell, f, source⟩)]) (answer host shell source f).shell := by
  apply shows_of_found
  · have hreply := congrArg Shell.lastStatus (Exchange.reply_shell host ⟨shell, f, source⟩)
    rw [History.status_append_one, ← h.status]
    exact hreply
  · intro before other e hprefix
    -- it is the request that has just been answered or one of those before it
    rcases List.prefix_concat_iff.1 hprefix with heq | hprefix
    · obtain ⟨rfl, hlast⟩ := List.append_inj' heq rfl
      obtain ⟨rfl, rfl⟩ := Prod.mk.inj (List.singleton_inj.1 hlast)
      exact h.status
    · exact (h.found before other e hprefix).1

end Shows

namespace Underway

theorem shows (h : Underway workDir home source history shell r) : Shows history shell := by
  induction h with
  | start =>
    apply shows_of_found rfl
    intro before host e hprefix
    simp at hprefix
  | moved directory _ ih => exact ih.moved directory
  | answered host _ _ _ _ ih => exact ih.answered host _ _

/-- A session that is served goes on with what it is served. -/
theorem served (h : Underway workDir home source history shell r) (hopen : history.Open)
    (host : Host) :
    ∃ later, Underway workDir home source
      (history ++ (exchanges host shell r).map fun e => (host, e)) (serve host shell r).shell
      later := by
  induction shell, r using requests_induction host generalizing history with
  | finished shell r hover =>
    rw [exchanges_none hover, (serve_none hover).2, List.map_nil, List.append_nil]
    exact ⟨r, h⟩
  | request shell r f later hn hf ih =>
    have hnext := h.answered host hopen hn hf
    rw [serve_answered hn hf, exchanges_answered hn hf]
    simp only [Served.after]
    cases he : (answer host shell later.source f).ended with
    | some ended => exact ⟨_, hnext⟩
    | none =>
      rw [List.map_cons, List.append_cons]
      exact ih hnext (hopen.append_one he)

/-- When all reads have been made, the requests that they have brought are answered in turn. -/
theorem buffered {buffer rest : Bytes} {f : Frame} {last : Shell} {host : Host}
    (h : Underway workDir home source history shell r) (hopen : history.Open)
    (hr : r.next = FrameReader.next { buffer, source := [] })
    (hf : Frame.ready? buffer = some (f, rest)) (hlast : (answer host shell [] f).shell = last) :
    Underway workDir home source (history ++ [(host, ⟨shell, f, []⟩)]) last
      { buffer := rest, source := [] } := by
  have hn : r.next = (.ok f, { buffer := rest, source := [] }) :=
    hr.trans (FrameReader.next_of_buffered hf)
  have hsource : (answer host shell [] f).source = [] := by
    cases f with
    | command line =>
      simp only [answer, answerLine]
      split
      · simp only [execute, Reads.bytes, List.flatMap_nil, List.length_nil, Nat.zero_sub,
          Reads.skip]
      · rfl
      · rfl
    | oversized => rfl
    | closed => rfl
  have hnext := h.answered host hopen hn (Frame.ready?_ne_closed hf)
  rw [hlast, hsource] at hnext
  exact hnext

end Underway

/-- At every point of a session its last status is that of its latest request that has exited, a
byte other than 99 and 200, and this is what it sends to whoever asks for it, however many frames
without a pipeline have come since. What is served from any point on is a part of the session. -/
theorem lastStatus_shown (h : Underway workDir home source history shell r) :
    Shows history shell ∧
      (history.Open → ∀ host : Host,
        (∃ later, Underway workDir home source
          (history ++ (exchanges host shell r).map fun e => (host, e)) (serve host shell r).shell
          later) ∧
        (serve host shell r).sent =
          (exchanges host shell r).flatMap fun e => (e.reply host).body ++ [0x04]) := by
  constructor
  · exact h.shows
  · intro hopen host
    exact ⟨h.served hopen host, (serve_exchanges host shell r).1⟩

open Execution (oneProgram)

/-- A program that exits with 7, a blank line, a line that cannot be read, and a question. -/
def question : Bytes := Utf8.ofString "/seven\x00\x00<\x00rc\x00"

/-- The requests of a session whose directory is moved by another one while it waits. -/
def questioned : History :=
  [(oneProgram, ⟨{ workDir := "/", home := "/" }, .command "/seven", []⟩),
    (oneProgram, ⟨{ workDir := "/", home := "/", lastStatus := 7 }, .command "", []⟩),
    (oneProgram, ⟨{ workDir := "/d", home := "/", lastStatus := 7 }, .command "<", []⟩),
    (oneProgram, ⟨{ workDir := "/d", home := "/", lastStatus := 7 }, .command "rc", []⟩)]

theorem lastStatus_shown_questioned :
    Underway "/" "/" [.data question] questioned { workDir := "/d", home := "/" }
        { buffer := [], source := [] } ∧
      (answer oneProgram { workDir := "/d", home := "/", lastStatus := 7 } []
        (.command "rc")).body = Utf8.ofString "7\n" := by
  have hopen : questioned.Open := by
    rw [History.Open]
    decide +kernel
  have hearlier : ∀ n, History.Open (questioned.take n) :=
    fun n x hx => hopen x (List.mem_of_mem_take hx)
  have hread : FrameReader.next { source := [.data question] } =
      FrameReader.next { buffer := question, source := [] } :=
    FrameReader.next_of_one_read (by decide) (by decide)
  have hseven : Underway "/" "/" [.data question] (questioned.take 1)
      { workDir := "/", home := "/", lastStatus := 7 }
      { buffer := Utf8.ofString "\x00<\x00rc\x00", source := [] } :=
    Underway.start.buffered (hearlier 0) hread (by decide) (by decide +kernel)
  have hblank : Underway "/" "/" [.data question] (questioned.take 2)
      { workDir := "/", home := "/", lastStatus := 7 }
      { buffer := Utf8.ofString "<\x00rc\x00", source := [] } :=
    hseven.buffered (hearlier 1) rfl (by decide) (by decide)
  have hbad : Underway "/" "/" [.data question] (questioned.take 3)
      { workDir := "/d", home := "/", lastStatus := 7 }
      { buffer := Utf8.ofString "rc\x00", source := [] } :=
    (hblank.moved "/d").buffered (hearlier 2) rfl (by decide) (by decide)
  have hasked : Underway "/" "/" [.data question] questioned { workDir := "/d", home := "/" }
      { buffer := [], source := [] } :=
    hbad.buffered (hearlier 3) rfl (by decide) (by decide)
  have hbetween : ∀ x ∈ (questioned.drop 1).take 2, x.2.frame.NoPipeline := by
    intro x hx
    simp only [questioned, List.drop_succ_cons, List.drop_zero, List.take_succ_cons, List.take_zero,
      List.mem_cons, List.not_mem_nil, or_false] at hx
    rcases hx with rfl | rfl
    · exact .noCommand (by decide)
    · have hbadLine : Pipeline.read "<" = .error .badRedirect := by decide
      exact .badLine hbadLine
  have hstatus : History.status (questioned.take 1) = 7 := by decide +kernel
  have hbody := (lastStatus_shown hasked).1.asked (questioned.take 1) ((questioned.drop 1).take 2)
    oneProgram ⟨{ workDir := "/d", home := "/", lastStatus := 7 }, .command "rc", []⟩ "rc"
    { name := "rc" } List.prefix_rfl hbetween rfl (by decide) rfl rfl
  rw [hstatus] at hbody
  exact ⟨hasked, hbody⟩

end Session
end PipeShell
