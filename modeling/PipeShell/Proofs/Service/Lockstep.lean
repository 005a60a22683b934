import PipeShell.Proofs.Service.Memory
import PipeShell.Proofs.Service.Sessions

/-! Clients of a threaded server in lock step: one sends a line and reads an answer, then another.
After any such run the server and its sessions remember what the answered requests have left. -/
namespace PipeShell

open Session (Exchange Log Remembered shellAfter directoryAfter statusAfter)

namespace Connection

/-- A line arrives on a connection and is served. -/
def hear (host : Host) (workDir home line : String) (c : Connection) :
    Connection × Session.Served :=
  (c.given (Client.request line)).serve host workDir home

variable {host : Host} {workDir home line : String} {c : Connection}

theorem request_ne_nil (line : String) : Client.request line ≠ [] :=
  List.append_ne_nil_of_right_ne_nil _ (List.cons_ne_nil _ _)

theorem resting_hear (hp : c.hungUp = false) (hc : c.reader.Idle) :
    (c.hear host workDir home line).1.Resting :=
  resting_given hp hc (request_ne_nil line)

/-- The requests that a line brings, with what they find. -/
def heard (host : Host) (workDir home line : String) (c : Connection) : List Exchange :=
  Session.exchanges host { workDir, home, lastStatus := c.lastStatus }
    (c.given (Client.request line)).reader

theorem linked_heard (host : Host) (workDir home line : String) (c : Connection) :
    Session.Linked host { workDir, home, lastStatus := c.lastStatus }
      (c.heard host workDir home line) (c.hear host workDir home line).2.shell :=
  Session.linked_exchanges host _ _

variable (host workDir home line) in
/-- Every line is answered at least once, for its end ends a frame. -/
theorem heard_ne_nil (hc : c.reader.Idle) : c.heard host workDir home line ≠ [] := by
  have hflow := flowing_given hc (request_ne_nil line)
  have hheld : 0 ∈ (c.given (Client.request line)).reader.held := by
    rw [FrameReader.held, source_given hc]
    simp [Reads.bytes, Client.request, Frame.requestEnd]
  obtain ⟨-, ⟨f, hanswer, hf, -⟩ | ⟨-, hnone⟩⟩ := FrameReader.next_of_flowing hflow
  · rcases hn : (c.given (Client.request line)).reader.next with ⟨answered, later⟩
    rw [hn] at hanswer
    obtain rfl : answered = .ok f := hanswer
    rw [heard, Session.exchanges_answered hn hf]
    exact List.cons_ne_nil _ _
  · rcases Frame.ready?_cases (c.given (Client.request line)).reader.held with
      ⟨_, hr⟩ | ⟨_, _, hr⟩ | ⟨hzero, hlen, _⟩
    · rw [hr] at hnone
      cases hnone
    · rw [hr] at hnone
      cases hnone
    · rw [List.take_of_length_le (Nat.le_of_lt hlen)] at hzero
      exact absurd hheld hzero

variable (host workDir home) in
/-- At the border of a frame a line without NUL brings its own frames, and the next line will find
the reader at a border again. -/
theorem heard_line (hc : c.reader.Idle) (hborder : c.reader.held = [])
    (hline : '\x00' ∉ line.toList) :
    (c.heard host workDir home line).map (·.frame) = Frame.ofLine (Utf8.ofString line) ∧
      (c.hear host workDir home line).1.reader.held = [] := by
  have hheld : (c.given (Client.request line)).reader.held = Utf8.ofString line ++ [0] := by
    obtain ⟨hbuffer, -⟩ := List.append_eq_nil_iff.1 hborder
    have hbytes : (c.given (Client.request line)).reader.buffer = [] := hbuffer
    rw [FrameReader.held, hbytes, source_given hc]
    exact List.append_nil (Client.request line)
  exact Session.exchanges_line (Client.zero_not_mem_of_noNul hline)
    (flowing_given hc (request_ne_nil line)) hheld

/-- Everything that the line has brought is answered. -/
theorem replies_hear (host : Host) (workDir home line : String) (c : Connection) :
    (c.hear host workDir home line).1.replies =
      c.replies ++ (c.heard host workDir home line).flatMap
        (fun e => (e.reply host).body ++ [Response.responseEnd]) :=
  congrArg (c.replies ++ ·) (Session.serve_exchanges host _ _).1

variable (host workDir home line) in
theorem exists_read (hc : c.reader.Idle) :
    ∃ response later, (c.hear host workDir home line).1.read = some (response, later) ∧
      (c.hear host workDir home line).1.replies =
        response.output ++ Response.responseEnd :: later.replies := by
  obtain ⟨e, es, hes⟩ := List.exists_cons_of_ne_nil
    (heard_ne_nil host workDir home line hc)
  have hend : Response.responseEnd ∈ (c.hear host workDir home line).1.replies := by
    rw [replies_hear, hes]
    simp
  obtain ⟨body, rest, hsplit, hbody⟩ := List.eq_append_cons_of_mem hend
  refine ⟨⟨body, false⟩, { (c.hear host workDir home line).1 with replies := rest }, ?_, hsplit⟩
  rw [read, hsplit, Response.ready?_body hbody]

end Connection

namespace Server

variable {host : Host} {s t : Server} {client line : String} {c d : Connection}
  {response : Response}

theorem put_of_read (h : c.read.map (fun (response, later) => (response, s.put later)) =
    some (response, t)) : ∃ later, c.read = some (response, later) ∧ t = s.put later := by
  obtain ⟨⟨response', later⟩, hr, hlast⟩ := Option.map_eq_some_iff.1 h
  obtain ⟨rfl, rfl⟩ := Prod.mk.inj hlast
  exact ⟨later, hr, rfl⟩

/-- A client reads from its own connection only. -/
theorem Resting.answerTo (h : s.Resting) (hc : s.connection? client = some c) :
    s.answerTo client = c.read.map fun (response, later) => (response, s.put later) := by
  simp only [Server.answerTo, hc]
  cases hr : c.read with
  | none => simp [hr]
  | some done =>
    obtain ⟨response, later⟩ := done
    have hclient := (Connection.read_client hr).1
    have hput := h.update_eq hc (fun _ => later) hclient
    simp [hr, hput]

/-- A line on an open session. -/
theorem Resting.exec_open (h : s.Resting) (hc : s.connection? client = some c)
    (ho : c.ended = none) :
    let done := c.hear host s.workDir s.home line
    s.exec host client line = done.1.read.map fun (response, later) =>
      (response, (s.absorb done).put later) := by
  intro done
  have hclient := client_of_connection? hc
  have hmem := mem_of_connection? hc
  have hgiven : s.update client (fun c => if c.ended.isSome then c else
      c.given (Client.request line)) = s.put (c.given (Client.request line)) := by
    rw [h.update_eq hc _ (by rw [ho]; rfl)]
    simp [ho]
  have hreceive : s.receive host client (Client.request line) = (s.absorb done).put done.1 := by
    have hsettle := h.settle_put host (d := c.given (Client.request line)) hc hclient ho
      (h.resting c hmem).present
    rw [← hgiven] at hsettle
    exact hsettle
  have habsorb : (s.absorb done).Resting := ⟨h.threaded, h.distinct, h.resting⟩
  have hdone : done.1.Resting :=
    Connection.resting_hear (h.resting c hmem).present ((h.resting c hmem).idle ho)
  have hfound : ((s.absorb done).put done.1).connection? client = some done.1 :=
    connection?_put_self (s := s.absorb done) hc hclient
  change (s.receive host client (Client.request line)).answerTo client = _
  rw [hreceive, (habsorb.put hdone).answerTo hfound]
  cases hr : done.1.read with
  | none => rfl
  | some read =>
    obtain ⟨response, later⟩ := read
    simp only [Option.map_some, put_put (Connection.read_client hr).1]

/-- A line on a session that has ended is not taken. -/
theorem Resting.exec_ended (h : s.Resting) (hc : s.connection? client = some c)
    (he : c.ended.isSome = true) :
    s.exec host client line = c.read.map fun (response, later) => (response, s.put later) := by
  have hsame : s.receive host client (Client.request line) = s := by
    have hput : s.update client (fun c => if c.ended.isSome then c else
        c.given (Client.request line)) = s := by
      rw [h.update_eq hc _ (by rw [he]; rfl)]
      simp only [he, if_true, h.put_self hc]
    exact (congrArg (Server.settle host) hput).trans h.settle
  change (s.receive host client (Client.request line)).answerTo client = _
  rw [hsame, h.answerTo hc]

theorem Resting.exec_none (h : s.Resting) (hc : s.connection? client = none) :
    s.exec host client line = none := by
  have hsame : s.receive host client (Client.request line) = s :=
    (congrArg (Server.settle host) (update_none hc _)).trans h.settle
  change (s.receive host client (Client.request line)).answerTo client = _
  rw [hsame, Server.answerTo, hc]
  rfl

/-- The server without the connection of a client. -/
def without (client : String) (s : Server) : Server :=
  { s with connections := s.connections.filter (·.client ≠ client) }

theorem filter_others {cs : List Connection} (h : ∀ c ∈ cs, c.client ≠ client) :
    cs.filter (·.client ≠ client) = cs := by
  rw [List.filter_eq_self]
  intro c hc
  simpa using h c hc

theorem without_none (h : s.connection? client = none) : s.without client = s := by
  rw [without, filter_others (connection?_eq_none h)]

theorem without_split {before after : List Connection} (hs : s.connections = before ++ c :: after)
    (hbefore : ∀ d ∈ before, d.client ≠ c.client) (hafter : ∀ d ∈ after, d.client ≠ c.client) :
    s.without c.client = { s with connections := before ++ after } := by
  have hself : [c].filter (·.client ≠ c.client) = [] := by simp
  rw [without, hs, ← List.singleton_append, List.filter_append, List.filter_append, hself,
    filter_others hbefore, filter_others hafter, List.nil_append]

/-- A connection that its client has left and that has nothing more to do is forgotten. -/
theorem settle_left {before after : List Connection} (ht : s.threaded = true)
    (hs : s.connections = before ++ d :: after) (hbefore : ∀ e ∈ before, e.Resting)
    (hafter : ∀ e ∈ after, e.Resting) (hd : d.hungUp = true)
    (hidle : d.ended = none → d.reader.Idle) :
    s.settle host = { s with connections := before ++ after } := by
  cases he : d.ended with
  | some ended =>
    have hsettled : ∀ e ∈ s.connections, e.Settled := by
      rw [hs]
      intro e hmem
      rcases List.mem_append.1 hmem with hmem | hmem
      · exact (hbefore e hmem).settled
      · rcases List.mem_cons.1 hmem with rfl | hmem
        · intro ho
          exact absurd (he.symm.trans ho) (by simp)
        · exact (hafter e hmem).settled
    have hgone : [d].filter (fun e => !e.hungUp || e.ended.isNone) = [] := by
      simp [hd, he]
    rw [settle_settled ht hsettled, hs, ← List.singleton_append, List.filter_append,
      List.filter_append, hgone, filter_present hbefore, filter_present hafter, List.nil_append]
  | none =>
    obtain ⟨hdone, hdir, hquiet⟩ := Connection.serve_of_idle host s.workDir s.home (hidle he)
    have habsorb : s.absorb (d.serve host s.workDir s.home) = s := by
      have hgoes : (s.stopped || some SessionEnd.disconnected == some SessionEnd.stopServer) =
          s.stopped := Bool.or_false _
      rw [absorb, hdir, hquiet, hdone, List.append_nil, if_pos hd]
      exact congrArg (fun stopped => { s with stopped }) hgoes
    have hgone : (d.serve host s.workDir s.home).1.hungUp = true ∧
        (d.serve host s.workDir s.home).1.ended.isSome = true := by
      rw [hdone, if_pos hd]
      exact ⟨hd, rfl⟩
    have hsettle := settle_split host ht hs hbefore hafter he
    simp only [if_pos hgone, habsorb, List.append_nil] at hsettle
    exact hsettle

/-- A client that hangs up takes its connection with it and leaves all else as it is. -/
theorem Resting.hangUp (h : s.Resting) : s.hangUp host client = s.without client := by
  cases hc : s.connection? client with
  | none => rw [without_none hc, Server.hangUp, update_none hc, h.settle]
  | some c =>
    obtain ⟨before, after, hs, rfl, hbefore, hafter⟩ := h.split hc
    obtain ⟨hrestBefore, hrestAfter⟩ := h.resting_split hs
    let left : Connection := { c with hungUp := true }
    have hput : (s.put left).connections = before ++ left :: after :=
      put_split hs rfl hbefore hafter
    rw [without_split hs hbefore hafter, Server.hangUp, h.update_eq hc _ rfl]
    exact settle_left (s := s.put left) h.threaded hput hrestBefore hrestAfter rfl
      (h.resting c (mem_of_connection? hc)).idle

end Server
end PipeShell
