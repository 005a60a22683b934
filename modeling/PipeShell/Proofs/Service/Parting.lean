import PipeShell.Proofs.Pipeline.Bare
import PipeShell.Proofs.Service.Conversation
import PipeShell.Proofs.Service.Transcript
import PipeShell.Proofs.Shell.Directory
import PipeShell.Proofs.Shell.Unopened
import PipeShell.Proofs.Wire.Requests

/-! When a client and its session part. The client looks at the line that it has sent, the session
at what the line has come to. Both see the end in a bare word; the session also sees it behind
quotes, arguments, files and bars, and in the statuses of programs, of which the client knows
nothing until it finds the connection closed. -/
namespace PipeShell

/-- The end that a word asks for. -/
def SessionEnd.said (word : String) : Option SessionEnd :=
  if word = "exit" then some .clientExit
  else if word = "stop-server" then some .stopServer
  else none

/-- The end of a session that a pipeline may come to. -/
def Status.ending : Status → Option SessionEnd
  | .exited _ => none
  | .exit => some .clientExit
  | .stopServer => some .stopServer

theorem SessionEnd.said_iff {word : String} {e : SessionEnd} :
    said word = some e ↔
      word = "exit" ∧ e = .clientExit ∨ word = "stop-server" ∧ e = .stopServer := by
  by_cases hexit : word = "exit"
  · simp [said, hexit, eq_comm]
  · by_cases hstop : word = "stop-server"
    · simp [said, hstop, eq_comm]
    · simp [said, hexit, hstop]

/-- The end that a command of the shell asks for. -/
def Builtin.asked : Builtin → Option SessionEnd
  | .exit => some .clientExit
  | .stopServer => some .stopServer
  | _ => none

theorem SessionEnd.said_named {name : String} {b : Builtin} (h : Builtin.named name = some b) :
    said name = b.asked := by
  grind [Builtin.named, Builtin.asked, said]

/-- Only the commands that ask for an end come to one. -/
theorem Builtin.executed_of_asked {b : Builtin} (h : b.asked = none) (host : Host)
    (arguments : List String) (scope : Scope) (works : Bool) (shell : Shell) :
    ∃ code, (b.run host arguments scope works shell).outcome = .executed code := by
  cases b with
  | exit => cases h
  | stopServer => cases h
  | cd =>
    have hrun : ((Builtin.cd).run host arguments scope works shell).outcome =
        (changeDirectory host arguments scope shell).outcome := by cases works <;> rfl
    rw [hrun, changeDirectory]
    split
    · exact ⟨0, rfl⟩
    · exact ⟨1, rfl⟩
  | dragon => cases works <;> exact ⟨_, rfl⟩
  | rc => cases works <;> exact ⟨_, rfl⟩

theorem Execution.exists_unopened {host : Host} {shell : Shell} {c : Command}
    (h : opens host shell c ≠ true) :
    ∃ file, c.input = some file ∧ ∃ e, host.openFile (shell.resolve file) = .error e := by
  cases hi : c.input with
  | none => exact absurd (opens_iff.2 (by simp [hi])) h
  | some file =>
    cases ho : host.openFile (shell.resolve file) with
    | error e => exact ⟨file, rfl, e, ho⟩
    | ok content => exact absurd (opens_iff.2 (by simp [hi, ho])) h

theorem Execution.ending_lone {host : Host} {shell : Shell} {c : Command} {b : Builtin}
    (ends : Endpoints) (hb : Builtin.named c.name = some b) (ho : opens host shell c = true)
    (s : Streams) :
    ∃ status, (runLone host ends b c shell s).result = .ok status ∧
      status.ending = SessionEnd.said c.name := by
  refine ⟨_, runLone_opened b ho s, ?_⟩
  rw [SessionEnd.said_named hb]
  cases hasked : b.asked with
  | none =>
    obtain ⟨code, hcode⟩ := Builtin.executed_of_asked hasked host c.arguments .session
      ends.outputWorks shell
    rw [hcode]
    rfl
  | some e =>
    cases b with
    | exit => cases ends.outputWorks <;> exact hasked
    | stopServer => cases ends.outputWorks <;> exact hasked
    | cd => cases hasked
    | dragon => cases hasked
    | rc => cases hasked

namespace Session

open Pipeline (read bare PlainEnds)

variable {host : Host} {shell : Shell} {source : Reads} {line : String} {p : Pipeline}
  {c : Command} {b : Builtin} {e : SessionEnd}

/-- A session ends with the end that the pipeline of its line has come to. -/
theorem ended_of_run {s : Status} (h : read line = .ok (some p))
    (hr : (Execution.run host endpoints p shell { input := source.bytes }).result = .ok s) :
    (answer host shell source (.command line)).ended = s.ending := by
  simp only [answer, answerLine, h, execute, hr]
  cases s <;> rfl

/-- A session ends only with a pipeline. -/
theorem read_of_ended (h : (answer host shell source (.command line)).ended = some e) :
    ∃ p, read line = .ok (some p) := by
  cases hr : read line with
  | error reason =>
    simp only [answer, answerLine, hr] at h
    cases h
  | ok command =>
    cases command with
    | none =>
      simp only [answer, answerLine, hr] at h
      cases h
    | some p => exact ⟨p, rfl⟩

theorem named_of_said (h : SessionEnd.said c.name = some e) :
    ∃ b, Builtin.named c.name = some b := by
  rcases SessionEnd.said_iff.1 h with ⟨hname, -⟩ | ⟨hname, -⟩
  · exact ⟨.exit, by rw [hname]; rfl⟩
  · exact ⟨.stopServer, by rw [hname]; rfl⟩

/-- A command by itself that the shell runs ends the session with the end that its name asks for,
when its input file opens. -/
theorem ended_lone (h : read line = .ok (some [c])) (hb : Builtin.named c.name = some b) :
    (answer host shell source (.command line)).ended = some e ↔
      SessionEnd.said c.name = some e ∧ Execution.opens host shell c = true := by
  have hrun := Execution.run_lone host endpoints shell { input := source.bytes } hb
  by_cases hopens : Execution.opens host shell c = true
  · obtain ⟨s, hs, hending⟩ := Execution.ending_lone endpoints hb hopens { input := source.bytes }
    rw [ended_of_run h (hrun ▸ hs), hending]
    exact (and_iff_left hopens).symm
  · obtain ⟨file, hfile, e', he'⟩ := Execution.exists_unopened hopens
    have hexited := Execution.runLone_unopened endpoints hb hfile he' { input := source.bytes }
    have hresult : (Execution.run host endpoints [c] shell { input := source.bytes }).result =
        .ok (.exited 1) := by
      rw [hrun, hexited]
      rfl
    rw [ended_of_run h hresult]
    simp [Status.ending, hopens]

/-- In any other pipeline the statuses of the stages end the session. -/
theorem ended_stages (h : read line = .ok (some p)) (hl : ¬ Execution.Lone p) :
    (answer host shell source (.command line)).ended = (Status.ofStages (Execution.statusesOf
      (Execution.stageRuns host shell true true source.bytes p))).ending := by
  have hruns := Execution.run_runs host endpoints shell (read_ne_nil h) hl
    { input := source.bytes }
  exact ended_of_run h hruns.1

/-- A session ends with a line that is more than a bare word: the word has quotes, arguments, a
file or bars about it, or a program or a stage has ended with a status that asks for an end. -/
inductive Unseen (host : Host) (shell : Shell) (source : Reads) (line : String) :
    SessionEnd → Prop
  | dressed {c : Command} {e : SessionEnd} (hread : read line = .ok (some [c]))
      (hname : SessionEnd.said c.name = some e) (hopens : Execution.opens host shell c = true)
      (hmore : c.arguments ≠ [] ∨ c.input ≠ none ∨ '"' ∈ line.toList ∨ '|' ∈ line.toList) :
      Unseen host shell source line e
  | asked {p : Pipeline} {e : SessionEnd} (hread : read line = .ok (some p))
      (hl : ¬ Execution.Lone p)
      (hstatus : (Status.ofStages (Execution.statusesOf
        (Execution.stageRuns host shell true true source.bytes p))).ending = some e) :
      Unseen host shell source line e

/-- A bare word that asks for an end is read as that word, and has nothing about it. -/
theorem read_of_said (h : SessionEnd.said (bare line) = some e) :
    read line = .ok (some [{ name := bare line }]) ∧ '"' ∉ line.toList ∧ '|' ∉ line.toList := by
  obtain ⟨u, v, hline, hu, hv⟩ := Pipeline.exists_spaces line
  have hspace : ∀ {d}, Pipeline.isSpace d = false → d ∉ (bare line).toList →
      d ∉ line.toList := by
    intro d hd hbare hmem
    rw [hline] at hmem
    rcases List.mem_append.1 hmem with hmem | hmem
    · simp [hu d hmem] at hd
    · rcases List.mem_append.1 hmem with hmem | hmem
      · exact hbare hmem
      · simp [hv d hmem] at hd
  rw [← Pipeline.read_bare line]
  rcases SessionEnd.said_iff.1 h with ⟨hbare, -⟩ | ⟨hbare, -⟩
  · rw [hbare] at hspace ⊢
    exact ⟨by decide, hspace (by decide) (by decide), hspace (by decide) (by decide)⟩
  · rw [hbare] at hspace ⊢
    exact ⟨by decide, hspace (by decide) (by decide), hspace (by decide) (by decide)⟩

theorem not_unseen_of_said {e' : SessionEnd} (h : SessionEnd.said (bare line) = some e) :
    ¬ Unseen host shell source line e' := by
  obtain ⟨hread, hquote, hbar⟩ := read_of_said h
  rintro (⟨hline, -, -, hmore⟩ | ⟨hline, hl, -⟩)
  · rw [hread] at hline
    obtain ⟨rfl, -⟩ := List.cons.inj (Option.some.inj (Except.ok.inj hline))
    simp [hquote, hbar] at hmore
  · rw [hread] at hline
    obtain rfl := Option.some.inj (Except.ok.inj hline)
    obtain ⟨b, hb⟩ := named_of_said (c := { name := bare line }) h
    exact hl ⟨_, b, rfl, hb⟩

theorem ended_of_unseen (h : Unseen host shell source line e) :
    (answer host shell source (.command line)).ended = some e := by
  cases h with
  | dressed hread hname hopens =>
    obtain ⟨b, hb⟩ := named_of_said hname
    exact (ended_lone hread hb).2 ⟨hname, hopens⟩
  | asked hread hl hstatus => rw [ended_stages hread hl, hstatus]

/-- A session ends with a bare word, or without the client knowing. -/
theorem ended_iff : (answer host shell source (.command line)).ended = some e ↔
    SessionEnd.said (bare line) = some e ∨ Unseen host shell source line e := by
  constructor
  · intro h
    obtain ⟨p, hread⟩ := read_of_ended h
    by_cases hl : Execution.Lone p
    · obtain ⟨c, b, rfl, hb⟩ := hl
      obtain ⟨hname, hopens⟩ := (ended_lone hread hb).1 h
      by_cases hmore : c.arguments ≠ [] ∨ c.input ≠ none ∨ '"' ∈ line.toList ∨ '|' ∈ line.toList
      · exact Or.inr (.dressed hread hname hopens hmore)
      · simp only [not_or, ne_eq, not_not] at hmore
        obtain ⟨hargs, hinput, hquote, hbar⟩ := hmore
        rw [Pipeline.bare_of_read hread hargs hinput hquote hbar]
        exact Or.inl hname
    · rw [ended_stages hread hl] at h
      exact Or.inr (.asked hread hl h)
  · rintro (h | h)
    · obtain ⟨b, hb⟩ := named_of_said (c := { name := bare line }) h
      exact (ended_lone (read_of_said h).1 hb).2 ⟨h, rfl⟩
    · exact ended_of_unseen h

end Session

namespace Client

open Pipeline (bare PlainEnds)

variable {input : Bytes} {c later : Client} {line : String} {response : Response}

/-- The loop shows nothing behind the answer to its first line, not even a prompt. -/
def Stops (input : Bytes) (c : Client) (e : Exchange) : Prop := (loop input c).output = e.shown

theorem prompt_prefix_loop (input : Bytes) (c : Client) :
    Utf8.ofString Message.prompt <+: (loop input c).output := by
  rw [loop]
  dsimp only
  split
  · exact List.prefix_append _ _
  · split
    · exact List.prefix_refl _
    · split
      · exact List.prefix_refl _
      · rw [Loop.after, List.append_assoc]
        exact List.prefix_append _ _

theorem stops_iff (h : input ≠ []) (ht : textOf (Text.splitLine input).1 = some line)
    (he : c.exec line = (.ok response, later)) (hopen : response.closed = false) :
    Stops input c ⟨line, response⟩ ↔ Text.trim line = "exit" ∨ Text.trim line = "stop-server" := by
  rw [Stops, loop_line h ht he]
  split
  · case isTrue hends =>
    refine iff_of_true (List.append_nil _) ?_
    exact hends.resolve_left (by simp [hopen])
  · case isFalse hgo =>
    refine iff_of_false ?_ fun hword => hgo (Or.inr hword)
    intro hout
    have hnil := List.append_right_eq_self.1 hout
    have hprompt := prompt_prefix_loop (Text.splitLine input).2 later
    rw [hnil] at hprompt
    exact absurd (List.prefix_nil.1 hprompt) (by decide)

/-- A loop whose server has said its last prompts once and stops. -/
theorem loop_drained (hs : c.reader.source.Unbroken) (hheld : c.reader.held = [])
    (input : Bytes) : (loop input c).output =
      Utf8.ofString Message.prompt ++ if input = [] then [0x0A] else [] := by
  by_cases hnil : input = []
  · subst hnil
    rw [loop_nil]
    rfl
  · rw [if_neg hnil, List.append_nil]
    cases ht : textOf (Text.splitLine input).1 with
    | none => rw [loop_unreadable hnil ht]
    | some line =>
      obtain ⟨response, later, unread, he, -, -, hanswers, -⟩ := exec_answer line hs
      rw [hheld] at hanswers
      obtain ⟨rfl, -⟩ : (⟨[], true⟩ : Response) = response ∧ [] = unread := List.cons.inj hanswers
      have hends : Exchange.Ends ⟨line, ⟨[], true⟩⟩ := Or.inl rfl
      rw [loop_line hnil ht he, if_pos hends]
      simp [Loop.after, Exchange.shown]

/-- The client hears the last that its session has sent, and behind that nothing. -/
theorem loop_ended {body : Bytes} (h : input ≠ [])
    (ht : textOf (Text.splitLine input).1 = some line)
    (hs : c.reader.source.Unbroken) (hheld : c.reader.held = body ++ [0x04]) (hb : 0x04 ∉ body)
    (he : c.exec line = (.ok response, later)) (hgo : ¬ Stops input c ⟨line, response⟩) :
    (loop input c).output = Exchange.shown ⟨line, response⟩ ++ (Utf8.ofString Message.prompt ++
      if (Text.splitLine input).2 = [] then [0x0A] else []) := by
  have hbody := Response.ready?_body hb []
  have hlater : later.reader = c.reader.next.2 := congrArg (·.2.reader) he.symm
  obtain ⟨hunbroken, ⟨_, -, hready⟩ | ⟨-, hnone, -⟩⟩ := ResponseReader.next_unbroken hs
  · rw [hheld] at hready
    obtain ⟨-, hempty⟩ := Prod.mk.inj (Option.some.inj (hbody.symm.trans hready))
    rw [← hlater] at hunbroken hempty
    have hstays : ¬ Exchange.Ends ⟨line, response⟩ := by
      intro hends
      refine hgo ?_
      rw [Stops, loop_line h ht he, if_pos hends]
      exact List.append_nil _
    rw [loop_line h ht he, if_neg hstays, Loop.after, loop_drained hunbroken hempty.symm]
  · rw [hheld] at hnone
    cases hbody.symm.trans hnone

/-- A client that is told so much before the connection is closed. -/
def told (body : Bytes) : Client := { reader := { source := [.data (body ++ [0x04])] } }

theorem unbroken_told (body : Bytes) : (told body).reader.source.Unbroken := by
  simp [told, Reads.Unbroken]

theorem held_told (body : Bytes) : (told body).reader.held = body ++ [0x04] := by
  simp [told, ResponseReader.held, Reads.bytes]

theorem exec_told (line : String) (body : Bytes) (h : 0x04 ∉ body) :
    ∃ later, (told body).exec line = (.ok ⟨body, false⟩, later) := by
  obtain ⟨response, later, unread, hexec, -, -, hsplit, -⟩ := exec_answer line (unbroken_told body)
  have hready : Response.ready? (body ++ [0x04]) = some (⟨body, false⟩, []) :=
    Response.ready?_body h []
  rw [held_told, Response.split_of_ready hready] at hsplit
  obtain ⟨rfl, -⟩ := List.cons.inj hsplit
  exact ⟨later, hexec⟩

/-- A line that a client has sent, and a session that gets it. The session ends with a bare word,
or in one of the ways that the text does not show. When nothing else than spaces is blank at the
ends of the line, the client stops behind it because of its text if and only if the session has
ended in the first way. In the others it goes on, and prompts once more before it finds the
connection closed. -/
theorem stops_iff_ended (host : Host) (shell : Shell) {r : FrameReader} {more : Bytes}
    (hfits : Fits line) (hr : r.source.Unbroken) (hrequest : r.held = request line ++ more)
    (hinput : input ≠ []) (hline : textOf (Text.splitLine input).1 = some line)
    (hexec : c.exec line = (.ok response, later)) (hopen : response.closed = false) :
    let source := r.next.2.source
    let reply := Session.answer host shell source (.command line)
    let served := Session.serve host shell r
    r.next.1 = .ok (.command line) ∧
      (PlainEnds line → (Stops input c ⟨line, response⟩ ↔
        ∃ e, reply.ended = some e ∧ ¬ Session.Unseen host shell source line e)) ∧
      (∀ e, reply.ended = some e ↔
        SessionEnd.said (bare line) = some e ∨ Session.Unseen host shell source line e) ∧
      ∀ e, reply.ended = some e → served.ended = e ∧ served.sent = reply.body ++ [0x04] ∧
        (c.reader.source.Unbroken → c.reader.held = served.sent → 0x04 ∉ reply.body →
          ¬ Stops input c ⟨line, response⟩ →
          (loop input c).output = Exchange.shown ⟨line, response⟩ ++
            (Utf8.ofString Message.prompt ++
              if (Text.splitLine input).2 = [] then [0x0A] else [])) := by
  intro source reply served
  have hready := ready?_request hfits more
  rw [← hrequest] at hready
  obtain ⟨hnext, -⟩ := FrameReader.next_of_ready hr hready
  refine ⟨hnext, ?_, fun e => Session.ended_iff, ?_⟩
  · intro hplain
    rw [stops_iff hinput hline hexec hopen, Pipeline.trim_eq_bare hplain]
    constructor
    · intro hword
      obtain ⟨e, hsaid⟩ : ∃ e, SessionEnd.said (bare line) = some e := by
        rcases hword with hword | hword
        · exact ⟨_, SessionEnd.said_iff.2 (Or.inl ⟨hword, rfl⟩)⟩
        · exact ⟨_, SessionEnd.said_iff.2 (Or.inr ⟨hword, rfl⟩)⟩
      exact ⟨e, Session.ended_iff.2 (Or.inl hsaid), Session.not_unseen_of_said hsaid⟩
    · rintro ⟨e, hended, hseen⟩
      have hsaid := (Session.ended_iff.1 hended).resolve_right hseen
      exact (SessionEnd.said_iff.1 hsaid).imp And.left And.left
  · intro e hended
    have hserved : served = Session.Served.after reply.body reply.inherited
        { ended := e, shell := reply.shell,
          reader := { r.next.2 with source := reply.source } } := by
      have hframe : r.next = (.ok (.command line), r.next.2) := Prod.ext hnext rfl
      simp only [served, Session.serve_answered hframe (by rintro ⟨⟩), hended, reply, source]
    have hsent : served.sent = reply.body ++ [0x04] := by
      rw [hserved]
      rfl
    refine ⟨by rw [hserved]; rfl, hsent, ?_⟩
    intro hs hheld hb hgo
    exact loop_ended hinput hline hs (hheld.trans hsent) hb hexec hgo

theorem stops_iff_ended_arguments :
    Fits "exit now" ∧ PlainEnds "exit now" ∧
      textOf (Text.splitLine (Utf8.ofString "exit now\nrc\n")).1 = some "exit now" ∧
      (Session.serve {} Session.atRoot { source := [.data (request "exit now")] }).ended =
        .clientExit ∧
      (loop (Utf8.ofString "exit now\nrc\n") (told (Utf8.ofString "Client exiting...\n"))).output =
        Utf8.ofString "rsh4> Client exiting...\nrsh4> " := by
  have hfits : Fits "exit now" := by decide
  have hplain : PlainEnds "exit now" := by decide +kernel
  have hne : Utf8.ofString "exit now\nrc\n" ≠ [] := by decide
  have hline : textOf (Text.splitLine (Utf8.ofString "exit now\nrc\n")).1 = some "exit now" := by
    decide +kernel
  have hunbroken : Reads.Unbroken [.data (request "exit now")] := by
    simp [Reads.Unbroken, Reads.bytes]
  have hrequest : FrameReader.held { source := [.data (request "exit now")] } =
      request "exit now" ++ [] := rfl
  obtain ⟨later, hexec⟩ := exec_told "exit now" (Utf8.ofString "Client exiting...\n")
    (by decide)
  obtain ⟨-, hstops, hended, hlast⟩ := stops_iff_ended {} Session.atRoot hfits hunbroken hrequest
    hne hline hexec rfl
  have hread : Pipeline.read "exit now" =
      .ok (some [{ name := "exit", arguments := ["now"] }]) := by decide
  have hunseen : ∀ source, Session.Unseen {} Session.atRoot source "exit now" .clientExit :=
    fun source => .dressed hread rfl rfl (Or.inl (List.cons_ne_nil _ _))
  have hbody : ∀ source, (Session.answer {} Session.atRoot source (.command "exit now")).body =
      Utf8.ofString "Client exiting...\n" := by
    intro source
    simp only [Session.answer, Session.answerLine, hread]
    rfl
  obtain ⟨hserved, hsent, hprompts⟩ := hlast _ ((hended _).2 (Or.inr (hunseen _)))
  rw [hbody] at hsent hprompts
  refine ⟨hfits, hplain, hline, hserved, ?_⟩
  refine (hprompts (unbroken_told _) ?_ ?_ ?_).trans ?_
  · rw [hsent, held_told]
  · decide
  · rw [hstops hplain]
    rintro ⟨e, he, hseen⟩
    obtain rfl := Option.some.inj (he.symm.trans ((hended _).2 (Or.inr (hunseen _))))
    exact hseen (hunseen _)
  · decide +kernel

/-- A program ends with the status that asks for the end of the session, of which the text of the
line shows the client nothing. -/
theorem prompts_behind_end :
    let answer := Session.answer Execution.threePrograms Session.atRoot [] (.command "/quit")
    Fits "/quit" ∧ textOf (Text.splitLine (Utf8.ofString "/quit\nrc\n")).1 = some "/quit" ∧
      answer.ended = some .clientExit ∧ answer.body = Utf8.ofString "Client exiting...\n" ∧
      ∃ later, (told answer.body).exec "/quit" = (.ok ⟨answer.body, false⟩, later) ∧
        ¬ Stops (Utf8.ofString "/quit\nrc\n") (told answer.body)
          ⟨"/quit", ⟨answer.body, false⟩⟩ := by
  intro answer
  have hline : textOf (Text.splitLine (Utf8.ofString "/quit\nrc\n")).1 = some "/quit" := by
    decide +kernel
  have hread : Pipeline.read "/quit" = .ok (some [{ name := "/quit" }]) := by decide
  have hbody : answer.body = Utf8.ofString "Client exiting...\n" := by
    simp only [answer, Session.answer, Session.answerLine, hread]
    decide
  have hended : answer.ended = some .clientExit := by
    simp only [answer, Session.answer, Session.answerLine, hread]
    decide
  rw [hbody]
  obtain ⟨later, hexec⟩ := exec_told "/quit" (Utf8.ofString "Client exiting...\n") (by decide)
  refine ⟨by decide, hline, hended, rfl, later, hexec, ?_⟩
  rw [stops_iff (by decide) hline hexec rfl]
  decide +kernel

end Client
end PipeShell
