import PipeShell.Proofs.Text.Lines
import PipeShell.Proofs.Wire.Responses

/-! The loop of a client line by line. What it sends, what it shows and what it leaves to be read
are told by the lines that it has sent, each with its own answer. -/
namespace PipeShell.Client

/-- A line as it is sent: its text without the line feeds and carriage returns at its end. -/
def textOf (line : Bytes) : Option String := (Utf8.toString? line).map Text.trimLineEnd

/-- The lines of an input as they are sent. There is nothing in place of one that is no text. -/
def texts (input : Bytes) : List (Option String) := (Text.lines input).map textOf

/-- A line that was sent, and the answer to it. -/
structure Exchange where
  line : String
  answer : Response
deriving DecidableEq, Repr

namespace Exchange

/-- The loop does not go on behind this line. -/
def Ends (e : Exchange) : Prop :=
  e.answer.closed = true ∨ Text.trim e.line = "exit" ∨ Text.trim e.line = "stop-server"

instance (e : Exchange) : Decidable e.Ends := inferInstanceAs (Decidable (_ ∨ _ ∨ _))

def request (e : Exchange) : Bytes := Utf8.ofString e.line ++ [0x00]

/-- What is shown for a line. -/
def shown (e : Exchange) : Bytes := Utf8.ofString Message.prompt ++ e.answer.output

end Exchange

/-- The lines that are sent of an input, each with its own answer of a stream, up to the first that
ends the loop. -/
def exchanges : List (Option String) → List Response → List Exchange
  | [], _ => []
  | none :: _, _ => []
  | some _ :: _, [] => []
  | some line :: lines, answer :: answers =>
    ⟨line, answer⟩ :: if Exchange.Ends ⟨line, answer⟩ then [] else exchanges lines answers

/-- Why a loop has stopped behind the lines that it has sent, and what it has shown till then.
Nothing is sent for a line that is no text. -/
inductive Stopped (exchanges : List Exchange) (left : List (Option String)) (done : Loop) : Prop
  | ended {last : Exchange} (hlast : exchanges.getLast? = some last) (hends : last.Ends)
      (hresult : done.result = .ok ())
      (houtput : done.output = exchanges.flatMap Exchange.shown)
      (hinput : texts done.input = left)
  | exhausted (hgo : ∀ e ∈ exchanges, ¬ e.Ends) (hleft : left = [])
      (hresult : done.result = .ok ())
      (houtput : done.output = exchanges.flatMap Exchange.shown ++
        (Utf8.ofString Message.prompt ++ [0x0A]))
      (hinput : texts done.input = [])
  | unreadable (hgo : ∀ e ∈ exchanges, ¬ e.Ends) (hleft : left.head? = some none)
      (hresult : done.result = .error .invalidText)
      (houtput : done.output = exchanges.flatMap Exchange.shown ++ Utf8.ofString Message.prompt)
      (hinput : texts done.input = left.tail)

/-- A loop that has sent the first lines of an input and got the first answers of a stream. -/
structure Conversation (lines : List (Option String)) (answers : List Response) (c : Client)
    (exchanges : List Exchange) (left : List (Option String)) (unread : List Response)
    (done : Loop) : Prop where
  lines : lines = exchanges.map (some ·.line) ++ left
  answers : answers = exchanges.map (·.answer) ++ unread
  /-- Only the last line may have ended it. -/
  going : ∀ e ∈ exchanges.dropLast, ¬ e.Ends
  sent : done.client.sent = c.sent ++ exchanges.flatMap Exchange.request
  /-- Whoever reads on gets the answers that are left. -/
  later : ∀ n, (ResponseReader.calls n done.client.reader).1 =
    ((unread ++ ResponseReader.closings n).take n).map .ok
  stopped : Stopped exchanges left done

variable {input : Bytes} {c : Client}

theorem texts_cons (h : input ≠ []) :
    texts input = textOf (Text.splitLine input).1 :: texts (Text.splitLine input).2 := by
  rw [texts, Text.lines_cons h, List.map_cons, texts]

theorem endsSession_iff {line : String} :
    endsSession line = true ↔ Text.trim line = "exit" ∨ Text.trim line = "stop-server" := by
  simp only [endsSession, Bool.or_eq_true, beq_iff_eq]

theorem loop_nil (c : Client) :
    loop [] c = ⟨.ok (), Utf8.ofString Message.prompt ++ [Text.lineFeed], c, []⟩ := by
  rw [loop]
  rfl

theorem loop_unreadable (h : input ≠ []) (ht : textOf (Text.splitLine input).1 = none) :
    loop input c = ⟨.error .invalidText, Utf8.ofString Message.prompt, c,
      (Text.splitLine input).2⟩ := by
  have hnone : Utf8.toString? (Text.splitLine input).1 = none := Option.map_eq_none_iff.1 ht
  rw [loop, dif_neg h]
  simp only [hnone]

theorem loop_line {line : String} {response : Response} {later : Client} (h : input ≠ [])
    (ht : textOf (Text.splitLine input).1 = some line) (he : c.exec line = (.ok response, later)) :
    loop input c = Loop.after (Exchange.shown ⟨line, response⟩)
      (if Exchange.Ends ⟨line, response⟩ then ⟨.ok (), [], later, (Text.splitLine input).2⟩
        else loop (Text.splitLine input).2 later) := by
  obtain ⟨text, hsome, rfl⟩ := Option.map_eq_some_iff.1 ht
  rw [loop, dif_neg h]
  simp only [hsome, he, Bool.or_eq_true, endsSession_iff, Exchange.Ends]
  rfl

/-- A line is sent, and the next answer is the answer to it. The others are left to be read. -/
theorem exec_answer (line : String) (h : c.reader.source.Unbroken) :
    ∃ response later unread, c.exec line = (.ok response, later) ∧
      later.sent = c.sent ++ Exchange.request ⟨line, response⟩ ∧
      later.reader.source.Unbroken ∧ Response.split c.reader.held = response :: unread ∧
      (response.closed = false → unread = Response.split later.reader.held) ∧
      ∀ n, (ResponseReader.calls n later.reader).1 =
        ((unread ++ ResponseReader.closings n).take n).map .ok := by
  have hlater := (ResponseReader.next_unbroken h).1
  have hcalls := fun n => ResponseReader.calls_held hlater n
  obtain ⟨response, hn, ⟨-, hanswers⟩ | ⟨hclosed, hanswers, hheld⟩⟩ :=
    ResponseReader.next_answer h
  · exact ⟨response, ((c.send (request line)).receive).2, _, Prod.ext hn rfl, rfl, hlater,
      hanswers, fun _ => rfl, hcalls⟩
  · refine ⟨response, ((c.send (request line)).receive).2, [], Prod.ext hn rfl, rfl, hlater,
      hanswers, ?_, ?_⟩
    · intro hopen
      rw [hclosed] at hopen
      cases hopen
    · intro n
      refine (hcalls n).trans ?_
      rw [hheld, ResponseReader.take_drained (Nat.le_refl n), List.nil_append,
        ResponseReader.take_closings (Nat.le_refl n)]

/-- A line that does not end the loop, before all that comes behind it. -/
theorem Stopped.cons {e : Exchange} {exchanges : List Exchange} {left : List (Option String)}
    {done : Loop} (he : ¬ e.Ends) (h : Stopped exchanges left done) :
    Stopped (e :: exchanges) left (done.after e.shown) := by
  have hgo : (∀ e ∈ exchanges, ¬ e.Ends) → ∀ e' ∈ e :: exchanges, ¬ e'.Ends := by
    rintro hrest e' (_ | ⟨_, hmem⟩)
    · exact he
    · exact hrest e' hmem
  cases h with
  | @ended last hlast hends hresult houtput hinput =>
    have hnext : (e :: exchanges).getLast? = some last := by
      rw [List.getLast?_cons, hlast, Option.getD_some]
    refine .ended hnext hends hresult ?_ hinput
    rw [Loop.after, houtput, List.flatMap_cons]
  | exhausted hrest hleft hresult houtput hinput =>
    refine .exhausted (hgo hrest) hleft hresult ?_ hinput
    rw [Loop.after, houtput, List.flatMap_cons, List.append_assoc]
  | unreadable hrest hleft hresult houtput hinput =>
    refine .unreadable (hgo hrest) hleft hresult ?_ hinput
    rw [Loop.after, houtput, List.flatMap_cons, List.append_assoc]

theorem Conversation.cons {lines : List (Option String)} {answers : List Response} {e : Exchange}
    {later : Client} {exchanges : List Exchange} {left : List (Option String)}
    {unread : List Response} {done : Loop} (he : ¬ e.Ends)
    (hsent : later.sent = c.sent ++ e.request)
    (h : Conversation lines answers later exchanges left unread done) :
    Conversation (some e.line :: lines) (e.answer :: answers) c (e :: exchanges) left unread
      (done.after e.shown) := by
  refine ⟨congrArg _ h.lines, congrArg _ h.answers, ?_, ?_, h.later, h.stopped.cons he⟩
  · intro e' hmem
    cases exchanges with
    | nil => cases hmem
    | cons next rest =>
      rcases List.mem_cons.1 hmem with rfl | hmem
      · exact he
      · exact h.going e' hmem
  · rw [Loop.after, h.sent, hsent, List.flatMap_cons, List.append_assoc]

/-- The loop sends the lines of its input one after the other and shows for each the next answer of
the stream. It stops behind the first line that ends the session or gets the closing answer, else
before the first line that is no text, or where the input ends. -/
theorem loop_conversation (input : Bytes) (c : Client) (h : c.reader.source.Unbroken) :
    ∃ left unread, Conversation (texts input) (Response.split c.reader.held) c
      (exchanges (texts input) (Response.split c.reader.held)) left unread (loop input c) := by
  induction hl : Text.lines input generalizing input c with
  | nil =>
    have hnil : input = [] := by
      by_contra hne
      rw [Text.lines_cons hne] at hl
      cases hl
    subst hnil
    have hnone : exchanges (texts []) (Response.split c.reader.held) = [] := rfl
    rw [hnone]
    refine ⟨[], _, rfl, rfl, by simp, ?_, ?_, ?_⟩
    · rw [loop_nil]
      exact (List.append_nil _).symm
    · rw [loop_nil]
      exact ResponseReader.calls_held h
    · rw [loop_nil]
      exact .exhausted (by simp) rfl rfl rfl rfl
  | cons first lines ih =>
    have hne : input ≠ [] := by
      rintro rfl
      cases hl
    have htexts := texts_cons hne
    cases ht : textOf (Text.splitLine input).1 with
    | none =>
      rw [ht] at htexts
      rw [loop_unreadable hne ht, htexts, exchanges]
      exact ⟨_, _, rfl, rfl, by simp, (List.append_nil _).symm, ResponseReader.calls_held h,
        .unreadable (by simp) rfl rfl rfl rfl⟩
    | some line =>
      rw [ht] at htexts
      obtain ⟨response, later, unread, he, hsent, hlater, hanswers, hmore, hcalls⟩ :=
        exec_answer (c := c) line h
      rw [loop_line hne ht he, htexts, hanswers, exchanges]
      split
      · case isTrue hends =>
        refine ⟨_, unread, rfl, rfl, by simp, ?_, hcalls, ?_⟩
        · exact hsent.trans (congrArg _ (List.append_nil _).symm)
        · exact .ended rfl hends rfl rfl rfl
      · case isFalse hgo =>
        have hrest : Text.lines (Text.splitLine input).2 = lines := by
          rw [Text.lines_cons hne] at hl
          exact (List.cons.inj hl).2
        have hopen : response.closed = false := by
          rw [← Bool.not_eq_true]
          exact fun hclosed => hgo (Or.inl hclosed)
        obtain ⟨left, rest, hspoken⟩ := ih _ later hlater hrest
        rw [hmore hopen]
        exact ⟨left, rest, hspoken.cons hgo hsent⟩

/-- A line, the line that ends the session, and one that comes too late. -/
def untilExit : Bytes := Utf8.ofString "hi\r\nexit\nmore"

/-- A client whose server has two answers for it and some bytes behind them. -/
def answeredTwice : Client :=
  { reader := { source := [.data [0x41, 0x04, 0x42], .data [0x04, 0x43]] } }

theorem loop_conversation_untilExit :
    answeredTwice.reader.source.Unbroken ∧
      (loop untilExit answeredTwice).result = .ok () ∧
      (loop untilExit answeredTwice).client.sent = Utf8.ofString "hi\x00exit\x00" ∧
      (loop untilExit answeredTwice).output = Utf8.ofString "rsh4> Arsh4> B" ∧
      (ResponseReader.calls 2 (loop untilExit answeredTwice).client.reader).1 =
        [.ok ⟨[0x43], true⟩, .ok ⟨[], true⟩] := by
  have hreads : answeredTwice.reader.source.Unbroken := by
    simp [answeredTwice, Reads.Unbroken, Reads.bytes]
  have htexts : texts untilExit = [some "hi", some "exit", some "more"] := by decide +kernel
  have hanswers : Response.split answeredTwice.reader.held =
      [⟨[0x41], false⟩, ⟨[0x42], false⟩, ⟨[0x43], true⟩] := by decide +kernel
  have hall : exchanges [some "hi", some "exit", some "more"]
      [⟨[0x41], false⟩, ⟨[0x42], false⟩, ⟨[0x43], true⟩] =
        [⟨"hi", ⟨[0x41], false⟩⟩, ⟨"exit", ⟨[0x42], false⟩⟩] := by decide +kernel
  obtain ⟨left, unread, hc⟩ := loop_conversation untilExit answeredTwice hreads
  rw [htexts, hanswers, hall] at hc
  obtain rfl : [⟨[0x43], true⟩] = unread := by simpa using hc.answers
  have hends : Exchange.Ends ⟨"exit", ⟨[0x42], false⟩⟩ := by decide
  have hexit : (⟨"exit", ⟨[0x42], false⟩⟩ : Exchange) ∈
      [⟨"hi", ⟨[0x41], false⟩⟩, ⟨"exit", ⟨[0x42], false⟩⟩] := by decide
  have hsent : (loop untilExit answeredTwice).client.sent = Utf8.ofString "hi\x00exit\x00" :=
    hc.sent.trans (by decide)
  cases hc.stopped with
  | ended _ _ hresult houtput =>
    exact ⟨hreads, hresult, hsent, houtput.trans (by decide), hc.later 2⟩
  | exhausted hgo => exact absurd hends (hgo _ hexit)
  | unreadable hgo => exact absurd hends (hgo _ hexit)

end PipeShell.Client
