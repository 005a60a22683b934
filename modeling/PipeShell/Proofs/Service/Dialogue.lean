import Mathlib.Logic.Relation
import Mathlib.Order.RelClasses
import PipeShell.Proofs.Service.Quiet
import PipeShell.Proofs.Wire.Flowing

/-! A client that sends line after line and the session that serves it, with the bytes under way
between them. However these bytes are cut into pieces, and whichever side moves first, every line
gets its own answer. -/
namespace PipeShell

/-- The two sides of a connection and what is under way in either direction. -/
structure Dialogue where
  /-- The lines that the client has still to send. -/
  lines : List String
  client : Client := { reader := { source := [] } }
  /-- The client has sent a line and has no answer to it yet. -/
  waiting : Bool := false
  answers : List Response := []
  upstream : Bytes := []
  session : FrameReader := { source := [] }
  shell : Shell
  ended : Option SessionEnd := none
  downstream : Bytes := []

namespace Dialogue

open Session (Answered Transcript Quiet Unread)

/-- Bytes from the client have arrived. -/
def hear (retries : Nat) (piece rest : Bytes) (d : Dialogue) : Dialogue :=
  { d with
    upstream := rest
    session := { d.session with source := d.session.source ++ Reads.piece retries piece } }

/-- Bytes from the session have arrived. -/
def learn (retries : Nat) (piece rest : Bytes) (d : Dialogue) : Dialogue :=
  { d with
    downstream := rest
    client := { d.client with reader := { d.client.reader with
      source := d.client.reader.source ++ Reads.piece retries piece } } }

/-- The session has answered a frame. -/
def reply (host : Host) (f : Frame) (later : FrameReader) (d : Dialogue) : Dialogue :=
  let reply := Session.answer host d.shell later.source f
  { d with
    session := { later with source := reply.source }
    shell := reply.shell
    ended := reply.ended
    downstream := d.downstream ++ (reply.body ++ [Response.responseEnd]) }

/-- What can happen next. Sending and receiving are the two halves of `Client.exec`, and a client
that knows of the end of the session sends nothing more. A reader waits for bytes until it holds a
frame or an answer, or the stream has ended; and a program that reads the connection waits for
bytes that never come, as its client waits for the answer. -/
inductive Step (host : Host) (d : Dialogue) : Dialogue → Prop
  | send {line : String} {lines : List String} (hl : d.lines = line :: lines)
      (hw : d.waiting = false) (he : d.ended = none) :
      Step host d { d with
        lines
        client := d.client.send (Client.request line)
        waiting := true
        upstream := d.upstream ++ Client.request line }
  | hear {piece rest : Bytes} (retries : Nat) (hu : d.upstream = piece ++ rest)
      (hp : piece ≠ []) : Step host d (d.hear retries piece rest)
  | reply {f : Frame} {later : FrameReader} (hn : d.session.next = (.ok f, later))
      (hf : f ≠ .closed) (he : d.ended = none)
      (hu : ∀ line, f = .command line → Unread host d.shell line) :
      Step host d (d.reply host f later)
  | learn {piece rest : Bytes} (retries : Nat) (hd : d.downstream = piece ++ rest)
      (hp : piece ≠ []) : Step host d (d.learn retries piece rest)
  | receive {response : Response} {client : Client} (hw : d.waiting = true)
      (hr : d.client.receive = (.ok response, client))
      (hc : response.closed = true → d.ended ≠ none ∧ d.downstream = []) :
      Step host d { d with
        client
        waiting := false
        answers := d.answers ++ [response] }

/-- What has not been read of the requests that have been sent. -/
def asked (d : Dialogue) : Bytes := d.session.held ++ d.upstream

/-- What has not been read of the answers that have been sent. -/
def told (d : Dialogue) : Bytes := d.client.reader.held ++ d.downstream

/-- The bodies that are still to come when the session has no request before it. -/
inductive Ahead (host : Host) (ended : SessionEnd) (last : Shell) :
    List String → Shell → Option SessionEnd → List Bytes → Prop
  | finished {lines : List String} : Ahead host ended last lines last (some ended) []
  | more {lines : List String} {shell : Shell} {todo : List Bytes}
      (ht : Transcript host shell (lines.map .command) todo ended last)
      (hq : Quiet host shell lines) (hf : ∀ line ∈ lines, Client.Fits line) :
      Ahead host ended last lines shell none todo

/-- Where the two sides are, and the bodies that the client has not got yet: no line is under way,
or one is that has not been answered, or one is that has. -/
inductive Phase (host : Host) (ended : SessionEnd) (last : Shell) (d : Dialogue) :
    List Bytes → Prop
  | idle {todo : List Bytes} (hw : d.waiting = false) (hasked : d.asked = [])
      (htold : d.told = []) (h : Ahead host ended last d.lines d.shell d.ended todo) :
      Phase host ended last d todo
  | asked {todo : List Bytes} {line : String} (hw : d.waiting = true) (he : d.ended = none)
      (hasked : d.asked = Client.request line) (htold : d.told = [])
      (h : Ahead host ended last (line :: d.lines) d.shell none todo) :
      Phase host ended last d todo
  | told {todo : List Bytes} {body : Bytes} (hw : d.waiting = true) (hasked : d.asked = [])
      (htold : d.told = body ++ [Response.responseEnd]) (hb : Response.responseEnd ∉ body)
      (h : Ahead host ended last d.lines d.shell d.ended todo) :
      Phase host ended last d (body :: todo)

/-- The answers so far are the first of the bodies, and the others are still to come. -/
structure InStep (host : Host) (bodies : List Bytes) (ended : SessionEnd) (last : Shell)
    (d : Dialogue) : Prop where
  upstream : d.session.source.Flowing
  downstream : d.client.reader.source.Flowing
  phase : ∃ done todo, bodies = done ++ todo ∧ d.answers = done.map (⟨·, false⟩) ∧
    Phase host ended last d todo

variable {host : Host} {bodies todo : List Bytes} {ended : SessionEnd} {last : Shell}
  {d later : Dialogue}

theorem hear_asked (retries : Nat) {piece rest : Bytes} (h : d.upstream = piece ++ rest) :
    (d.hear retries piece rest).asked = d.asked := by
  simp only [hear, asked, FrameReader.held, Reads.bytes_append, Reads.bytes_piece, h,
    List.append_assoc]

theorem learn_told (retries : Nat) {piece rest : Bytes} (h : d.downstream = piece ++ rest) :
    (d.learn retries piece rest).told = d.told := by
  simp only [learn, told, ResponseReader.held, Reads.bytes_append, Reads.bytes_piece, h,
    List.append_assoc]

theorem Phase.send {line : String} {lines : List String} (h : Phase host ended last d todo)
    (hl : d.lines = line :: lines) (hw : d.waiting = false) (he : d.ended = none) :
    Phase host ended last { d with
      lines
      client := d.client.send (Client.request line)
      waiting := true
      upstream := d.upstream ++ Client.request line } todo := by
  cases h with
  | idle _ hasked htold h =>
    rw [hl, he] at h
    refine .asked rfl he ?_ htold h
    have hrequest : d.session.held ++ (d.upstream ++ Client.request line) =
        d.asked ++ Client.request line := (List.append_assoc _ _ _).symm
    rw [hasked, List.nil_append] at hrequest
    exact hrequest
  | asked hw' => exact absurd (hw.symm.trans hw') (by decide)
  | told hw' => exact absurd (hw.symm.trans hw') (by decide)

theorem Phase.hear (retries : Nat) {piece rest : Bytes} (h : Phase host ended last d todo)
    (hu : d.upstream = piece ++ rest) :
    Phase host ended last (d.hear retries piece rest) todo := by
  have hsame := hear_asked retries hu
  cases h with
  | idle hw hasked htold h => exact .idle hw (hsame.trans hasked) htold h
  | asked hw he hasked htold h => exact .asked hw he (hsame.trans hasked) htold h
  | told hw hasked htold hb h => exact .told hw (hsame.trans hasked) htold hb h

theorem Phase.learn (retries : Nat) {piece rest : Bytes} (h : Phase host ended last d todo)
    (hd : d.downstream = piece ++ rest) :
    Phase host ended last (d.learn retries piece rest) todo := by
  have hsame := learn_told retries hd
  cases h with
  | idle hw hasked htold h => exact .idle hw hasked (hsame.trans htold) h
  | asked hw he hasked htold h => exact .asked hw he hasked (hsame.trans htold) h
  | told hw hasked htold hb h => exact .told hw hasked (hsame.trans htold) hb h

theorem Ahead.fits {lines : List String} {shell : Shell}
    (h : Ahead host ended last lines shell none todo) : ∀ line ∈ lines, Client.Fits line := by
  cases h with
  | more _ _ hf => exact hf

/-- An answer leaves the bodies that come after it. -/
theorem Ahead.answered {line : String} {lines : List String} {shell next : Shell}
    {body : Bytes} {state : Option SessionEnd}
    (h : Ahead host ended last (line :: lines) shell none todo)
    (ha : Answered host shell (.command line) body state next) :
    ∃ rest, todo = body :: rest ∧ Ahead host ended last lines next state rest := by
  cases h with
  | more ht hq hf =>
    cases ht with
    | ended h =>
      obtain ⟨rfl, rfl, rfl⟩ := h.unique ha
      exact ⟨[], rfl, .finished⟩
    | next h hrest =>
      obtain ⟨rfl, rfl, rfl⟩ := h.unique ha
      exact ⟨_, rfl, .more hrest (hq.2 _ _ h) fun l hl => hf l (List.mem_cons_of_mem _ hl)⟩

/-- What the session finds is at the head of all that has been asked. -/
theorem next_asked {f : Frame} {reader : FrameReader} (hflow : d.session.source.Flowing)
    (hn : d.session.next = (.ok f, reader)) (hf : f ≠ .closed) :
    reader.source.Flowing ∧ Frame.ready? d.asked = some (f, reader.held ++ d.upstream) := by
  obtain ⟨hlater, hnext⟩ := FrameReader.next_of_flowing hflow
  rw [hn] at hlater hnext
  rcases hnext with ⟨g, hg, -, hready⟩ | ⟨hclosed, -⟩
  · obtain rfl : f = g := Except.ok.inj hg
    exact ⟨hlater, Frame.ready?_append hready d.upstream⟩
  · exact absurd (Except.ok.inj hclosed) hf

/-- What the client finds is at the head of all that it has been told, unless it finds the end. -/
theorem receive_told {response : Response} {client : Client}
    (hflow : d.client.reader.source.Flowing) (hr : d.client.receive = (.ok response, client)) :
    client.reader.source.Flowing ∧
      (Response.ready? d.told = some (response, client.reader.held ++ d.downstream) ∨
        response = ⟨d.client.reader.held, true⟩ ∧ Response.ready? d.client.reader.held = none) := by
  obtain ⟨hresponse, rfl⟩ := Prod.mk.inj hr
  obtain ⟨hlater, hnext⟩ := ResponseReader.next_of_flowing hflow
  rw [hresponse] at hnext
  refine ⟨hlater, ?_⟩
  rcases hnext with ⟨answer, hanswer, hready⟩ | ⟨hend, hready⟩
  · obtain rfl := Except.ok.inj hanswer
    exact Or.inl (Response.ready?_append hready d.downstream)
  · exact Or.inr ⟨Except.ok.inj hend, hready⟩

/-- The session answers only the line that is under way, and only when it has all of it. -/
theorem Phase.reply {f : Frame} {reader : FrameReader} (h : Phase host ended last d todo)
    (hflow : d.session.source.Flowing) (hn : d.session.next = (.ok f, reader)) (hf : f ≠ .closed)
    (hu : ∀ line, f = .command line → Unread host d.shell line)
    (hfree : ∀ body ∈ todo, Response.responseEnd ∉ body) :
    (d.reply host f reader).session.source.Flowing ∧
      Phase host ended last (d.reply host f reader) todo := by
  obtain ⟨hlater, hready⟩ := next_asked hflow hn hf
  have hsome : d.asked ≠ [] := by
    intro hnil
    rw [hnil] at hready
    cases hready
  cases h with
  | idle _ hnil => exact absurd hnil hsome
  | told _ hnil => exact absurd hnil hsome
  | @asked _ line hw he hline htold h =>
    have hrequest := Client.ready?_request (h.fits _ List.mem_cons_self) []
    rw [List.append_nil, ← hline, hready] at hrequest
    obtain ⟨rfl, hrest⟩ := Prod.mk.inj (Option.some.inj hrequest)
    obtain ⟨hanswer, hsource⟩ := Session.answer_untouched hf
      (Session.answer_unread (hu line rfl) reader.source)
    obtain ⟨rest, rfl, hahead⟩ := h.answered hanswer
    have hkept : (d.reply host (.command line) reader).session = reader := by
      simp only [Dialogue.reply, hsource]
    have hheld : (d.reply host (.command line) reader).asked = reader.held ++ d.upstream :=
      congrArg (·.held ++ d.upstream) hkept
    have htail : (d.reply host (.command line) reader).told = d.told ++
        ((Session.answer host d.shell reader.source (.command line)).body ++
          [Response.responseEnd]) := (List.append_assoc _ _ _).symm
    rw [hkept]
    refine ⟨hlater, .told hw (hheld.trans hrest) ?_ (hfree _ List.mem_cons_self) hahead⟩
    rw [htail, htold, List.nil_append]

/-- The client receives the body of the line that it has sent, and nothing else. -/
theorem Phase.receive {response : Response} {client : Client} (h : Phase host ended last d todo)
    (hflow : d.client.reader.source.Flowing) (hw : d.waiting = true)
    (hr : d.client.receive = (.ok response, client))
    (hc : response.closed = true → d.ended ≠ none ∧ d.downstream = []) :
    client.reader.source.Flowing ∧ ∃ body rest, todo = body :: rest ∧ response = ⟨body, false⟩ ∧
      Phase host ended last { d with
        client
        waiting := false
        answers := d.answers ++ [response] } rest := by
  obtain ⟨hlater, hfound⟩ := receive_told hflow hr
  cases h with
  | idle hw' => exact absurd (hw.symm.trans hw') (by decide)
  | asked _ he _ htold =>
    rcases hfound with hready | ⟨rfl, -⟩
    · rw [htold] at hready
      cases hready
    · exact absurd he (hc rfl).1
  | @told rest body _ hasked htold hb h =>
    have hbody := Response.ready?_body hb []
    rw [← htold] at hbody
    rcases hfound with hready | ⟨rfl, hready⟩
    · obtain ⟨rfl, hrest⟩ := Prod.mk.inj (Option.some.inj (hready.symm.trans hbody))
      exact ⟨hlater, body, rest, rfl, rfl, .idle rfl hasked hrest h⟩
    · have hall : d.told = d.client.reader.held := by
        rw [Dialogue.told, (hc rfl).2, List.append_nil]
      rw [hall, hready] at hbody
      cases hbody

/-- Whatever happens next, the two sides stay in step. -/
theorem InStep.step (h : InStep host bodies ended last d)
    (hfree : ∀ body ∈ bodies, Response.responseEnd ∉ body) (hs : Step host d later) :
    InStep host bodies ended last later := by
  obtain ⟨hup, hdown, done, todo, rfl, hanswers, hphase⟩ := h
  have htodo : ∀ body ∈ todo, Response.responseEnd ∉ body := fun body hb =>
    hfree body (List.mem_append_right done hb)
  cases hs with
  | send hl hw he => exact ⟨hup, hdown, done, todo, rfl, hanswers, hphase.send hl hw he⟩
  | hear retries hu hp =>
    exact ⟨hup.append (Reads.flowing_piece retries hp), hdown, done, todo, rfl, hanswers,
      hphase.hear retries hu⟩
  | reply hn hf he hu =>
    obtain ⟨hflow, hreplied⟩ := hphase.reply hup hn hf hu htodo
    exact ⟨hflow, hdown, done, todo, rfl, hanswers, hreplied⟩
  | learn retries hd hp =>
    exact ⟨hup, hdown.append (Reads.flowing_piece retries hp), done, todo, rfl, hanswers,
      hphase.learn retries hd⟩
  | receive hw hr hc =>
    obtain ⟨hflow, body, rest, rfl, rfl, hreceived⟩ := hphase.receive hdown hw hr hc
    refine ⟨hup, hflow, done ++ [body], rest, by simp, ?_, hreceived⟩
    simp only [hanswers, List.map_append, List.map_cons, List.map_nil]

theorem Ahead.finished_or_more {lines : List String} {shell : Shell} {state : Option SessionEnd}
    (h : Ahead host ended last lines shell state todo) :
    state = some ended ∧ shell = last ∧ todo = [] ∨
      state = none ∧ Transcript host shell (lines.map .command) todo ended last ∧
        Quiet host shell lines ∧ ∀ line ∈ lines, Client.Fits line := by
  cases h with
  | finished => exact Or.inl ⟨rfl, rfl, rfl⟩
  | more ht hq hf => exact Or.inr ⟨rfl, ht, hq, hf⟩

/-- A session that holds a whole line answers it. -/
theorem exists_reply {line : String} (hflow : d.session.source.Flowing) (he : d.ended = none)
    (hheld : d.session.held = Client.request line) (hfits : Client.Fits line)
    (hu : Unread host d.shell line) : ∃ later, Step host d later := by
  have hrequest := Client.ready?_request hfits []
  rw [List.append_nil, ← hheld] at hrequest
  rcases hn : d.session.next with ⟨answered, reader⟩
  obtain ⟨-, hnext⟩ := FrameReader.next_of_flowing hflow
  rw [hn, hrequest] at hnext
  rcases hnext with ⟨f, hf, hne, hready⟩ | ⟨-, hready⟩
  · obtain rfl : answered = .ok f := hf
    obtain ⟨rfl, -⟩ := Prod.mk.inj (Option.some.inj hready)
    refine ⟨_, .reply hn hne he ?_⟩
    rintro _ ⟨⟩
    exact hu
  · cases hready

/-- A client that holds a whole answer takes it. -/
theorem exists_receive {body : Bytes} (hflow : d.client.reader.source.Flowing)
    (hw : d.waiting = true) (hheld : d.client.reader.held = body ++ [Response.responseEnd])
    (hb : Response.responseEnd ∉ body) : ∃ later, Step host d later := by
  have hbody := Response.ready?_body hb []
  rw [← hheld] at hbody
  obtain ⟨-, hnext⟩ := ResponseReader.next_of_flowing hflow
  rw [hbody] at hnext
  rcases hnext with ⟨response, hresponse, hready⟩ | ⟨-, hready⟩
  · obtain ⟨rfl, -⟩ := Prod.mk.inj (Option.some.inj hready)
    refine ⟨_, .receive hw (Prod.ext hresponse rfl) ?_⟩
    rintro ⟨⟩
  · cases hready

/-- When nothing can happen any more, every body has been received, and the client that reads on
after the end of the session finds the end of the stream. -/
theorem InStep.settled (h : InStep host bodies ended last d)
    (hstuck : ¬ ∃ later, Step host d later) :
    d.answers = bodies.map (⟨·, false⟩) ∧ d.shell = last ∧
      (d.ended = some ended ∧ d.downstream = [] ∧ d.client.receive.1 = .ok ⟨[], true⟩ ∨
        d.ended = none ∧ ended = .disconnected ∧ d.lines = []) := by
  obtain ⟨hup, hdown, done, todo, rfl, hanswers, hphase⟩ := h
  have hupstream : d.upstream = [] := by
    by_contra hne
    exact hstuck ⟨_, .hear 0 (List.append_nil _).symm hne⟩
  have hdownstream : d.downstream = [] := by
    by_contra hne
    exact hstuck ⟨_, .learn 0 (List.append_nil _).symm hne⟩
  cases hphase with
  | idle hw hasked htold h =>
    rcases h.finished_or_more with ⟨he, hlast, rfl⟩ | ⟨he, ht, -, -⟩
    · rw [List.append_nil]
      refine ⟨hanswers, hlast, Or.inl ⟨he, hdownstream, ?_⟩⟩
      have hheld := (List.append_eq_nil_iff.1 htold).1
      obtain ⟨-, ⟨_, -, hready⟩ | ⟨hend, -⟩⟩ := ResponseReader.next_of_flowing hdown
      · rw [hheld] at hready
        cases hready
      · rwa [hheld] at hend
    · cases hl : d.lines with
      | nil =>
        rw [hl] at ht
        cases ht
        rw [List.append_nil]
        exact ⟨hanswers, rfl, Or.inr ⟨he, rfl, rfl⟩⟩
      | cons line lines => exact absurd ⟨_, .send hl hw he⟩ hstuck
  | asked hw he hasked htold h =>
    obtain ⟨hstate, -⟩ | ⟨-, -, hq, hf⟩ := h.finished_or_more
    · cases hstate
    · refine absurd (exists_reply hup he ?_ (hf _ List.mem_cons_self) hq.1) hstuck
      rwa [Dialogue.asked, hupstream, List.append_nil] at hasked
  | told hw hasked htold hb h =>
    refine absurd (exists_receive hdown hw ?_ hb) hstuck
    rwa [Dialogue.told, hdownstream, List.append_nil] at htold

end Dialogue
end PipeShell
