import PipeShell.Proofs.Pipeline.Agreement
import PipeShell.Proofs.Service.Courses
import PipeShell.Proofs.Service.Quiet
import PipeShell.Proofs.Shell.Directory
import PipeShell.Proofs.Wire.Flowing

/-! The loop at a terminal and a session that is sent the same lines. As long as no program reads,
they do the same line by line. -/
namespace PipeShell.LocalLoop

open Session (Exchange Quiet Unread)

/-- A line as it is typed. -/
def typed (line : String) : Bytes := Utf8.ofString (line ++ "\n")

/-- A visit and an exchange that have the same line, find the same shell and leave the same shell.
What they show is the same unless the line is the last one or has faults. -/
structure Agrees (host : Host) (v : Visit) (e : Exchange) : Prop where
  line : ∃ line, v.line = line ++ "\n" ∧ e.frame = .command line
  found : v.shell = e.shell
  left : (v.turn host).shell = (e.reply host).shell
  ends : (v.turn host).quits = (e.reply host).ended.isSome
  shown : (v.turn host).quits = false → v.Faultless host →
    (v.turn host).output = (e.reply host).body

/-- What a visit does to the last status, and that it takes nothing of the input. -/
structure Quietly (host : Host) (v : Visit) : Prop where
  status : (v.turn host).shell.lastStatus = (v.code host).getD v.shell.lastStatus
  quits : (v.turn host).quits = true → v.code host = none
  taken : (v.turn host).taken = 0

variable {host : Host} {shell : Shell} {line : String} {v : Visit} {e : Exchange}

/-- A line that runs nothing gets the same message from both. -/
theorem agrees_message (text : Bytes) (hv : v.line = line ++ "\n") (he : e.frame = .command line)
    (hs : v.shell = e.shell) (hexec : v.execution host = none)
    (hturn : v.turn host = { output := text, shell := v.shell })
    (hreply : e.reply host = { body := text, shell := e.shell, source := e.source }) :
    Agrees host v e ∧ Quietly host v := by
  have hcode : v.code host = none := by
    rw [Visit.code, hexec]
    rfl
  constructor
  · refine ⟨⟨line, hv, he⟩, hs, ?_, ?_, ?_⟩
    · rw [hturn, hreply]
      exact hs
    · rw [hturn, hreply]
      rfl
    · rw [hturn, hreply]
      intro _ _
      rfl
  · refine ⟨?_, fun _ => hcode, ?_⟩
    · rw [hturn, hcode]
      rfl
    · rw [hturn]

/-- A pipeline that reads nothing comes to the same at the terminal and in a session. -/
theorem agrees_pipeline {p : Pipeline} (hr : Pipeline.read line = .ok (some p))
    (hu : Unread host shell line) (input : Bytes) (source : Reads) :
    let v : Visit := ⟨shell, line ++ "\n", input⟩
    let e : Exchange := ⟨shell, .command line, source⟩
    Agrees host v e ∧ Quietly host v := by
  intro v e
  have hread : Pipeline.read v.line = .ok (some p) :=
    (Pipeline.read_append_newline line).trans hr
  obtain ⟨hresult, hshell, hinput, houtput⟩ :=
    Execution.run_alike host shell (hu p hr) input source.bytes
  obtain ⟨status, hstatus⟩ : ∃ status,
      (Execution.run host Session.endpoints p shell { input := source.bytes }).result =
        .ok status := Session.run_ok (Session.read_ne_nil hr) _
  have hkept : (Execution.run host {} p shell { input }).shell.lastStatus = shell.lastStatus := by
    rw [Execution.run_shell]
  have htaken : input.length - (Execution.run host {} p shell { input }).streams.input.length =
      0 := by
    rw [hinput, Nat.sub_self]
  have hexec : v.execution host = some (Execution.run host {} p shell { input }) := by
    simp only [Visit.execution, hread, v]
  have hshown : v.Faultless host → (Execution.run host {} p shell { input }).streams.output =
      (Execution.run host Session.endpoints p shell { input := source.bytes }).streams.output ++
        Utf8.ofString "" := by
    intro h
    exact (houtput (h _ hexec)).trans (List.append_nil _).symm
  have hturn : v.turn host = LocalLoop.turn host v.line shell input := rfl
  have hreply : e.reply host = Session.answerLine host line shell source := rfl
  have hcode : v.code host = (Execution.run host {} p shell { input }).code := by
    rw [Visit.code, hexec]
    rfl
  simp only [LocalLoop.turn, hread, hresult.trans hstatus, htaken] at hturn
  simp only [Session.answerLine, hr, Session.execute, hstatus] at hreply
  simp only [Execution.code, hresult.trans hstatus] at hcode
  cases status with
  | exited code =>
    constructor
    · refine ⟨⟨line, rfl, rfl⟩, rfl, ?_, ?_, ?_⟩
      · rw [hturn, hreply]
        exact congrArg (fun s : Shell => { s with lastStatus := code }) hshell
      · rw [hturn, hreply]
        rfl
      · rw [hturn, hreply]
        exact fun _ => hshown
    · refine ⟨?_, ?_, ?_⟩
      · rw [hturn, hcode]
        rfl
      · rw [hturn]
        rintro ⟨⟩
      · rw [hturn]
  | exit | stopServer =>
    constructor
    · refine ⟨⟨line, rfl, rfl⟩, rfl, ?_, ?_, ?_⟩
      · rw [hturn, hreply]
        exact hshell
      · rw [hturn, hreply]
        rfl
      · rw [hturn]
        rintro ⟨⟩
    · refine ⟨?_, fun _ => hcode, ?_⟩
      · rw [hturn, hcode]
        exact hkept
      · rw [hturn]

theorem agrees_line (hu : Unread host shell line) (input : Bytes) (source : Reads) :
    let v : Visit := ⟨shell, line ++ "\n", input⟩
    let e : Exchange := ⟨shell, .command line, source⟩
    Agrees host v e ∧ Quietly host v := by
  intro v e
  have hread : Pipeline.read v.line = Pipeline.read line := Pipeline.read_append_newline line
  cases hr : Pipeline.read line with
  | error reason =>
    refine agrees_message (Utf8.ofString (reason.message ++ "\n")) rfl rfl rfl ?_ ?_ ?_
    · simp only [Visit.execution, hread, hr]
    · simp only [Visit.turn, turn, hread, hr]
    · simp only [Exchange.reply, Session.answer, Session.answerLine, hr, e]
  | ok command =>
    cases command with
    | none =>
      refine agrees_message (Utf8.ofString Message.noCommand) rfl rfl rfl ?_ ?_ ?_
      · simp only [Visit.execution, hread, hr]
      · simp only [Visit.turn, turn, hread, hr]
      · simp only [Exchange.reply, Session.answer, Session.answerLine, hr, e]
    | some p => exact agrees_pipeline hr hu input source

/-- The code of the last of the visits whose line has exited. -/
def lastCode (host : Host) (visits : List Visit) (initial : Int) : Int :=
  (visits.filterMap (·.code host)).getLast?.getD initial

theorem lastCode_cons (v : Visit) (visits : List Visit) (initial : Int) :
    lastCode host (v :: visits) initial =
      lastCode host visits ((v.code host).getD initial) := by
  cases hc : v.code host with
  | none => simp [lastCode, hc]
  | some code => simp [lastCode, hc, List.getLast?_cons]

/-- What a visit shows, behind a prompt. -/
def shown (host : Host) (v : Visit) : Bytes :=
  Utf8.ofString Message.prompt ++ (v.turn host).output

/-- How the loop comes to its end: the input has run out, or a line has stopped it. -/
inductive Ending (host : Host) (shell : Shell) (lines : List String) :
    List Visit → Result → Prop
  | exhausted {visits : List Visit} (errors : Bytes) (hall : visits.length = lines.length)
      (hgo : ∀ v ∈ visits, (v.turn host).quits = false) :
      Ending host shell lines visits
        { status := 0
          output := visits.flatMap (shown host) ++
            (Utf8.ofString Message.prompt ++ [Text.lineFeed])
          errors }
  | stopped {visits : List Visit} {last : Visit} (errors : Bytes)
      (hgo : ∀ v ∈ visits, (v.turn host).quits = false) (hstop : (last.turn host).quits = true)
      (hcode : last.shell.lastStatus = lastCode host visits shell.lastStatus) :
      Ending host shell lines (visits ++ [last])
        { status := last.shell.lastStatus
          output := (visits ++ [last]).flatMap (shown host)
          errors }

theorem Ending.cons {lines : List String} {visits : List Visit} {result : Result}
    (h : Ending host (v.turn host).shell lines visits result) (hq : Quietly host v)
    (hgo : (v.turn host).quits = false) :
    Ending host v.shell (line :: lines) (v :: visits)
      (result.after (shown host v) (v.turn host).errors) := by
  cases h with
  | exhausted errors hall hrest =>
    have hoff : ∀ w ∈ v :: visits, (w.turn host).quits = false := by
      rintro w (_ | ⟨_, hw⟩)
      · exact hgo
      · exact hrest w hw
    have h : Ending host v.shell (line :: lines) (v :: visits) _ :=
      .exhausted ((v.turn host).errors ++ errors) (congrArg (· + 1) hall) hoff
    rw [List.flatMap_cons, List.append_assoc] at h
    exact h
  | @stopped visits last errors hrest hstop hcode =>
    have hoff : ∀ w ∈ v :: visits, (w.turn host).quits = false := by
      rintro w (_ | ⟨_, hw⟩)
      · exact hgo
      · exact hrest w hw
    have hlast : last.shell.lastStatus = lastCode host (v :: visits) v.shell.lastStatus := by
      rw [hcode, hq.status, lastCode_cons]
    have h : Ending host v.shell (line :: lines) (v :: visits ++ [last]) _ :=
      .stopped ((v.turn host).errors ++ errors) hoff hstop hlast
    rw [List.cons_append, List.flatMap_cons] at h
    exact h

theorem typed_eq (line : String) : typed line = Utf8.ofString line ++ [Text.lineFeed] := by
  rw [typed, Utf8.ofString, String.toList_append, Utf8.encode_append]
  rfl

/-- A line that is no last one and holds no line feed is the next line when it has been typed. -/
theorem nextLine_typed {input : SharedInput} {more : Bytes} (hfeed : '\n' ∉ line.toList)
    (h : input.block ++ input.rest = typed line ++ more) :
    input.nextLine.1 = typed line ∧ input.nextLine.2.block ++ input.nextLine.2.rest = more := by
  have hno : Text.lineFeed ∉ Utf8.ofString line := by
    intro hmem
    exact hfeed ((Utf8.ascii_mem_ofString (d := '\n') (by decide)).1 hmem)
  rw [typed_eq] at h ⊢
  rw [List.append_assoc] at h
  exact SharedInput.nextLine_line hno h

/-- The loop at a terminal and a session go through the same lines together, wherever the blocks
of the one and the reads of the other end. -/
theorem run_alongside {lines : List String} (input : SharedInput) (r : FrameReader)
    (hfeed : ∀ line ∈ lines, '\n' ∉ line.toList) (hquiet : Quiet host shell lines)
    (hinput : input.block ++ input.rest = lines.flatMap typed) (hs : r.source.Unbroken)
    (hsplit : (Frame.split (r.buffer ++ r.source.bytes)).1 = lines.map .command) :
    let visits := visits host shell input
    let exchanges := Session.exchanges host shell r
    List.Forall₂ (Agrees host) visits exchanges ∧
      visits.map (·.line) = (lines.take visits.length).map (· ++ "\n") ∧
      Ending host shell lines visits (run host shell input) := by
  induction lines generalizing shell input r with
  | nil =>
    have hnone : Session.exchanges host shell r = [] := by
      rcases FrameReader.next_unbroken hs with ⟨f, -, -, -, hcons⟩ | ⟨hclosed, -⟩
      · rw [hcons] at hsplit
        cases hsplit
      · refine Session.exchanges_none ?_
        intro f hf
        exact Except.ok.inj (hf.symm.trans hclosed)
    have hend := SharedInput.nextLine_nil hinput
    rw [visits_end hend, hnone, run_end hend]
    exact ⟨.nil, rfl, .exhausted [] rfl (by simp)⟩
  | cons line lines ih =>
    have hu := hquiet.1
    rw [List.flatMap_cons] at hinput
    obtain ⟨hnext, hmore⟩ := nextLine_typed (hfeed line List.mem_cons_self) hinput
    rcases FrameReader.next_unbroken hs with ⟨f, hf, hne, hlater, hcons⟩ | ⟨-, hnil⟩
    · rw [hcons] at hsplit
      obtain ⟨rfl, hrest⟩ := List.cons.inj hsplit
      rcases hn : r.next with ⟨answered, later⟩
      rw [hn] at hf hlater hrest
      obtain rfl : answered = .ok (.command line) := hf
      obtain ⟨hanswer, hkept⟩ := Session.answer_untouched hne
        (Session.answer_unread hu later.source)
      obtain ⟨hagrees, hquietly⟩ := agrees_line hu input.nextLine.2.rest later.source
      have htext : Utf8.toString? input.nextLine.1 = some (line ++ "\n") := by
        rw [hnext]
        exact Utf8.toString?_ofString _
      have htyped : input.nextLine.1 ≠ [] := by
        rw [hnext, typed_eq]
        exact List.append_ne_nil_of_right_ne_nil _ (List.cons_ne_nil _ _)
      rw [visits_line htyped htext, run_line htyped htext, Session.exchanges_answered hn hne]
      set v : Visit := ⟨shell, line ++ "\n", input.nextLine.2.rest⟩
      have hends := hagrees.ends
      cases hquits : (v.turn host).quits with
      | true =>
        rw [hquits] at hends
        obtain ⟨ended, hended⟩ := Option.isSome_iff_exists.1 hends.symm
        have hended' : (Session.answer host shell later.source (.command line)).ended =
            some ended := hended
        simp only [hended', if_true]
        refine ⟨.cons hagrees .nil, rfl, ?_⟩
        have hstatus : (v.turn host).shell.lastStatus = shell.lastStatus := by
          rw [hquietly.status, hquietly.quits hquits]
          rfl
        have hstopped : Ending host shell (line :: lines) ([] ++ [v]) _ :=
          .stopped ((v.turn host).errors ++ []) (by simp) hquits rfl
        rw [hstatus]
        exact hstopped
      | false =>
        rw [hquits] at hends
        have hended : (Session.answer host shell later.source (.command line)).ended = none :=
          Option.isSome_eq_false_iff.1 hends.symm |> Option.isNone_iff_eq_none.1
        have hleft : (Session.answer host shell later.source (.command line)).shell =
            (v.turn host).shell := hagrees.left.symm
        have htaken : input.nextLine.2.rest.drop (v.turn host).taken = input.nextLine.2.rest := by
          rw [hquietly.taken]
          rfl
        rw [hended, hleft] at hanswer
        obtain ⟨hrun, hlines, hending⟩ := ih _ _
          (fun l hl => hfeed l (List.mem_cons_of_mem _ hl)) (hquiet.2 _ _ hanswer) hmore hlater
          hrest
        simp only [hended, hleft, hkept, htaken, Bool.false_eq_true, if_false]
        refine ⟨.cons hagrees hrun, ?_, hending.cons hquietly hquits⟩
        simp only [List.map_cons, List.length_cons, List.take_succ_cons, hlines]
        rfl
    · rw [hnil] at hsplit
      cases hsplit

/-- The loop at a terminal and a session that is sent the same lines, when no program of the lines
reads. They run the same lines up to the same one, each from the same shell to the same shell, and
show the same for every line that is not the last one and has no faults. The loop ends with the
last status at the line that stops it, which is the code of the last line before it that has
exited, or with 0. -/
theorem run_serve_agree (host : Host) (shell : Shell) (lines : List String) (source : Reads)
    (hfits : ∀ line ∈ lines, Client.Fits line) (hfeed : ∀ line ∈ lines, '\n' ∉ line.toList)
    (hquiet : Quiet host shell lines) (hs : source.Unbroken)
    (hsource : source.bytes = lines.flatMap Client.request) :
    let input : SharedInput := { rest := lines.flatMap typed }
    let visits := visits host shell input
    let exchanges := Session.exchanges host shell { source }
    List.Forall₂ (Agrees host) visits exchanges ∧
      visits.map (·.line) = (lines.take visits.length).map (· ++ "\n") ∧
      Ending host shell lines visits (run host shell input) ∧
      (Session.serve host shell { source }).sent =
        exchanges.flatMap (fun e => (e.reply host).body ++ [0x04]) ∧
      (Session.serve host shell { source }).shell =
        (exchanges.getLast?.map fun e => (e.reply host).shell).getD shell := by
  intro input visits exchanges
  have hsplit : (Frame.split source.bytes).1 = lines.map .command := by
    rw [hsource, Client.split_requests hfits]
  obtain ⟨hrun, hlines, hending⟩ :=
    run_alongside input { source } hfeed hquiet rfl hs hsplit
  exact ⟨hrun, hlines, hending, Session.serve_exchanges host shell { source }⟩

/-- The second of these lines is the last that is run. -/
def untilExit : List String := ["rc", "exit", "rc"]

theorem run_serve_agree_untilExit :
    (∀ line ∈ untilExit, Client.Fits line) ∧ (∀ line ∈ untilExit, '\n' ∉ line.toList) ∧
      Quiet {} Session.atRoot untilExit ∧
      Reads.Unbroken [.data (untilExit.flatMap Client.request)] ∧
      (visits {} Session.atRoot { rest := untilExit.flatMap typed }).map (·.line) =
        ["rc\n", "exit\n"] ∧
      (run {} Session.atRoot { rest := untilExit.flatMap typed }).status = 0 := by
  have hrc : Pipeline.read "rc" = .ok (some [{ name := "rc" }]) := by decide
  have hexit : Pipeline.read "exit" = .ok (some [{ name := "exit" }]) := by decide
  have hfits : ∀ line ∈ untilExit, Client.Fits line := by decide
  have hfeed : ∀ line ∈ untilExit, '\n' ∉ line.toList := by decide
  have hquiet : Quiet {} Session.atRoot untilExit :=
    ⟨Session.unread_of_lone hrc rfl, fun _ _ _ => ⟨Session.unread_of_lone hexit rfl,
      fun _ _ _ => ⟨Session.unread_of_lone hrc rfl, fun _ _ _ => trivial⟩⟩⟩
  have hs : Reads.Unbroken [.data (untilExit.flatMap Client.request)] := ⟨fun _ => rfl, trivial⟩
  refine ⟨hfits, hfeed, hquiet, hs, ?_⟩
  obtain ⟨-, hlines, hending, -⟩ := run_serve_agree {} Session.atRoot untilExit _ hfits hfeed hquiet
    hs (List.append_nil _)
  have hstays : ∀ v : Visit, v.line = "rc\n" →
      (v.turn {}).quits = false ∧ v.code {} = some 0 := by
    rintro ⟨shell, line, input⟩ rfl
    have hread : Pipeline.read "rc\n" = .ok (some [{ name := "rc" }]) := by decide
    constructor
    · simp only [Visit.turn, turn, hread]
      rfl
    · simp only [Visit.code, Visit.execution, hread]
      rfl
  have hstops : ∀ v : Visit, v.line = "exit\n" → (v.turn {}).quits = true := by
    rintro ⟨shell, line, input⟩ rfl
    have hread : Pipeline.read "exit\n" = .ok (some [{ name := "exit" }]) := by decide
    simp only [Visit.turn, turn, hread]
    rfl
  generalize visits {} Session.atRoot { rest := untilExit.flatMap typed } = vs at *
  generalize run {} Session.atRoot { rest := untilExit.flatMap typed } = result at *
  cases hending with
  | exhausted errors hall hgo =>
    rw [hall] at hlines
    obtain ⟨v, hv, hline⟩ : ∃ v ∈ vs, v.line = "exit\n" := by
      apply List.mem_map.1
      rw [hlines]
      decide
    have hgoes := hgo v hv
    rw [hstops v hline] at hgoes
    cases hgoes
  | @stopped before last errors hgo hstop hcode =>
    rcases before with _ | ⟨v, _ | ⟨w, rest⟩⟩
    · have hline : last.line = "rc\n" := (List.cons.inj hlines).1
      rw [(hstays last hline).1] at hstop
      cases hstop
    · obtain ⟨hv, -⟩ := List.cons.inj hlines
      refine ⟨hlines, ?_⟩
      rw [hcode, lastCode_cons, (hstays v hv).2]
      rfl
    · have hline : w.line = "exit\n" := (List.cons.inj (List.cons.inj hlines).2).1
      have hgoes := hgo w (by simp)
      rw [hstops w hline] at hgoes
      cases hgoes

end PipeShell.LocalLoop
