import PipeShell.Proofs.Service.Courses
import PipeShell.Proofs.Wire.Requests
import PipeShell.Service.Server

/-! The sessions of a threaded server. Between two lines every open session has nothing left to
read, so that a line changes the connection that it comes on and no other. -/
namespace PipeShell

namespace Reads

theorem Flowing.skip {rs : Reads} (h : Flowing rs) (n : Nat) : Flowing (rs.skip n) := by
  induction rs generalizing n with
  | nil => cases n <;> exact h
  | cons r rs ih =>
    have hrest : Flowing rs := fun r hr => h r (List.mem_cons_of_mem _ hr)
    cases n with
    | zero => exact h
    | succ n =>
      cases r with
      | data bs =>
        rw [Reads.skip]
        · split
          · case isTrue hlt =>
            intro r hr
            rcases List.mem_cons.1 hr with rfl | hr
            · refine ⟨by simp, ?_⟩
              intro hnil
              have := List.drop_eq_nil_iff.1 (Read.data.inj hnil)
              omega
            · exact hrest r hr
          · exact ih hrest _
        · simp
      | interrupted =>
        intro r hr
        rcases List.mem_cons.1 hr with rfl | hr
        · exact ⟨by simp, by simp⟩
        · exact ih hrest (n + 1) r hr
      | wouldBlock => exact absurd rfl (h _ List.mem_cons_self).1

end Reads

namespace FrameReader

/-- Nothing to read, and no frame to answer. -/
structure Idle (r : FrameReader) : Prop where
  source : r.source = []
  buffer : Frame.ready? r.buffer = none

variable {r : FrameReader}

theorem next_of_idle (h : r.Idle) : r.next = (.ok .closed, r) := by
  obtain ⟨buffer, source⟩ := r
  obtain ⟨rfl, hbuffer⟩ := h
  rw [next]
  simp only [hbuffer]

/-- A stream that flows is at its end when the reader says so. -/
theorem idle_of_closed (h : r.source.Flowing) (hc : r.next.1 = .ok .closed) : r.next.2.Idle := by
  fun_induction next r with
  | case1 r f rest hr => exact absurd (Except.ok.inj hc) (Frame.ready?_ne_closed hr)
  | case2 r hr hs => exact ⟨hs, hr⟩
  | case3 r hr event rs hs later ht ih =>
    rw [hs] at h
    exact ih (h.take ht) hc
  | case4 r hr event rs hs later ht => cases hc
  | case5 r hr event rs hs later ht =>
    rw [hs] at h
    obtain ⟨rfl, rfl⟩ := Reads.take_nothing (by decide) ht
    exact absurd rfl (h _ List.mem_cons_self).2
  | case6 r hr event rs hs b bs later ht ih =>
    rw [hs] at h
    exact ih (h.take ht) hc

end FrameReader

namespace Session

variable {host : Host} {shell : Shell} {r : FrameReader}

theorem serve_idle (h : r.Idle) :
    serve host shell r = { ended := .disconnected, shell, reader := r } := by
  have hnext := FrameReader.next_of_idle h
  rw [serve_closed (congrArg Prod.fst hnext), hnext]

theorem flowing_answer {source : Reads} (h : source.Flowing) (f : Frame) :
    (answer host shell source f).source.Flowing := by
  cases f with
  | closed => exact h
  | oversized => exact h
  | command line =>
    simp only [answer, answerLine]
    split
    · exact h.skip _
    · exact h
    · exact h

/-- A request ends a session by its own wish or not at all. -/
theorem ended_ne_disconnected {f : Frame} (hf : f ≠ .closed) (source : Reads) :
    (answer host shell source f).ended ≠ some .disconnected := by
  cases f with
  | closed => exact absurd rfl hf
  | oversized => simp [answer]
  | command line =>
    simp only [answer, answerLine]
    split
    · simp only [execute]
      split <;> simp
    · simp
    · simp

/-- A session that ends because nothing more comes has read everything that came. -/
theorem idle_of_disconnected (h : r.source.Flowing)
    (hd : (serve host shell r).ended = .disconnected) : (serve host shell r).reader.Idle := by
  induction shell, r using requests_induction host with
  | finished shell r hover =>
    obtain ⟨-, ⟨f, hanswer, hf, -⟩ | ⟨hclosed, -⟩⟩ := FrameReader.next_of_flowing h
    · exact absurd (hover f hanswer) hf
    · rw [serve_closed hclosed]
      exact FrameReader.idle_of_closed h hclosed
  | request shell r f later hn hf ih =>
    obtain ⟨hflow, -⟩ := FrameReader.next_of_flowing h
    rw [hn] at hflow
    rw [serve_answered hn hf] at hd ⊢
    simp only [Served.after] at hd ⊢
    cases he : (answer host shell later.source f).ended with
    | some ended =>
      simp only [he] at hd
      exact absurd (he.trans (congrArg some hd)) (ended_ne_disconnected hf later.source)
    | none =>
      simp only [he] at hd ⊢
      exact ih (flowing_answer hflow f) hd

variable (host shell) in
/-- When a reader holds nothing, there is nothing for the programs of a request to read. -/
theorem held_answer {later : FrameReader} (h : later.held = []) (f : Frame) :
    FrameReader.held { later with source := (answer host shell later.source f).source } = [] := by
  obtain ⟨hbuffer, hsource⟩ := List.append_eq_nil_iff.1 h
  have hnil := List.suffix_nil.1 (hsource ▸ answer_suffix host shell later.source f)
  rw [FrameReader.held, hbuffer, hnil, List.append_nil]

variable (host shell) in
theorem exchanges_drained (h : r.source.Flowing) (hr : r.held = []) :
    exchanges host shell r = [] ∧ (serve host shell r).reader.held = [] := by
  have hready : Frame.ready? r.held = none := by
    rw [hr]
    rfl
  have hclosed : r.next.1 = .ok .closed := by
    obtain ⟨-, ⟨f, -, -, hf⟩ | ⟨hclosed, -⟩⟩ := FrameReader.next_of_flowing h
    · cases hready.symm.trans hf
    · exact hclosed
  have hheld : r.next.2.held = r.held := by
    rcases FrameReader.held_next r with ⟨f, -, -, hf⟩ | ⟨-, hheld⟩
    · cases hready.symm.trans hf
    · exact hheld
  refine ⟨exchanges_none ?_, ?_⟩
  · intro f hf
    exact (Except.ok.inj (hclosed.symm.trans hf)).symm
  · rw [serve_closed hclosed, hheld, hr]

/-- The requests of a line without NUL: every full window of it, and its rest as a command. The
reader is at the border of a frame again, whatever the session has answered. -/
theorem exchanges_line {bs : Bytes} (hbs : 0 ∉ bs) (h : r.source.Flowing)
    (hr : r.held = bs ++ [0]) :
    (exchanges host shell r).map (·.frame) = Frame.ofLine bs ∧
      (serve host shell r).reader.held = [] := by
  induction hn : bs.length using Nat.strongRecOn generalizing bs shell r with
  | ind n ih =>
    have hready := Frame.ready?_line hbs []
    rw [← hr] at hready
    obtain ⟨f, hanswer, hf, hflow, hfound⟩ : ∃ f, r.next.1 = .ok f ∧ f ≠ .closed ∧
        r.next.2.source.Flowing ∧ Frame.ready? r.held = some (f, r.next.2.held) := by
      obtain ⟨hflow, ⟨f, hanswer, hf, hfound⟩ | ⟨-, hnone⟩⟩ := FrameReader.next_of_flowing h
      · exact ⟨f, hanswer, hf, hflow, hfound⟩
      · rw [hnone] at hready
        split at hready <;> cases hready
    rcases hnext : r.next with ⟨answered, later⟩
    rw [hnext] at hanswer hflow hfound
    obtain rfl : answered = .ok f := hanswer
    rw [hready] at hfound
    rw [exchanges_answered hnext hf, serve_answered hnext hf, List.map_cons]
    by_cases hlen : bs.length < 4096
    · rw [if_pos hlen] at hfound
      obtain ⟨rfl, hheld⟩ := Prod.mk.inj (Option.some.inj hfound)
      rw [Frame.ofLine_short hlen]
      generalize Frame.command (Utf8.toStringLossy bs) = f at hf ⊢
      have hafter := held_answer host shell hheld.symm f
      simp only [Served.after]
      cases (answer host shell later.source f).ended with
      | some ended => exact ⟨rfl, hafter⟩
      | none =>
        obtain ⟨hnone, hborder⟩ := exchanges_drained host (answer host shell later.source f).shell
          (flowing_answer hflow f) hafter
        exact ⟨by rw [hnone, List.map_nil], hborder⟩
    · rw [if_neg hlen] at hfound
      obtain ⟨rfl, hheld⟩ := Prod.mk.inj (Option.some.inj hfound)
      have hdrop : 0 ∉ bs.drop 4096 := fun hzero => hbs (List.mem_of_mem_drop hzero)
      have hshorter : (bs.drop 4096).length < n := by
        rw [List.length_drop]
        omega
      obtain ⟨hframes, hborder⟩ := @ih _ hshorter shell later _ hdrop hflow hheld.symm rfl
      rw [Frame.ofLine_long (Nat.not_lt.1 hlen)]
      exact ⟨congrArg (Frame.oversized :: ·) hframes, hborder⟩

end Session

namespace Connection

/-- Bytes have arrived on a connection. -/
def given (bytes : Bytes) (c : Connection) : Connection :=
  { c with reader := { c.reader with source := c.reader.source ++ [.data bytes] } }

/-- A connection that nothing is to be done for until more arrives. -/
structure Resting (c : Connection) : Prop where
  present : c.hungUp = false
  idle : c.ended = none → c.reader.Idle

/-- Nothing is to be done for a connection that is at rest or has ended. -/
def Settled (c : Connection) : Prop := c.ended = none → c.hungUp = false ∧ c.reader.Idle

variable {host : Host} {workDir home : String} {c : Connection} {bytes : Bytes}

theorem Resting.settled (h : c.Resting) : c.Settled := fun ho => ⟨h.present, h.idle ho⟩

variable (host workDir home) in
theorem serve_of_idle (hc : c.reader.Idle) :
    (c.serve host workDir home).1 =
        { c with ended := if c.hungUp then some .disconnected else none } ∧
      (c.serve host workDir home).2.shell.workDir = workDir ∧
      (c.serve host workDir home).2.inherited = [] := by
  rw [serve, Session.serve_idle hc]
  refine ⟨?_, rfl, rfl⟩
  cases c.hungUp <;> simp

theorem source_given (hc : c.reader.Idle) : (c.given bytes).reader.source = [.data bytes] := by
  rw [given, hc.source]
  rfl

theorem flowing_given (hc : c.reader.Idle) (hbytes : bytes ≠ []) :
    (c.given bytes).reader.source.Flowing := by
  rw [source_given hc]
  intro r hr
  obtain rfl := List.mem_singleton.1 hr
  exact ⟨by simp, by simpa using hbytes⟩

/-- Serving what has arrived leaves the connection at rest or ended. -/
theorem resting_given (hp : c.hungUp = false) (hc : c.reader.Idle) (hbytes : bytes ≠ []) :
    ((c.given bytes).serve host workDir home).1.Resting := by
  refine ⟨hp, ?_⟩
  intro hopen
  have hflow := flowing_given hc hbytes
  refine Session.idle_of_disconnected hflow ?_
  by_contra hne
  simp [serve, hne] at hopen

theorem read_client {response : Response} {later : Connection}
    (h : c.read = some (response, later)) :
    later.client = c.client ∧ later.lastStatus = c.lastStatus ∧ later.ended = c.ended ∧
      later.reader = c.reader ∧ later.hungUp = c.hungUp := by
  simp only [read] at h
  split at h
  · obtain ⟨-, rfl⟩ := Prod.mk.inj (Option.some.inj h)
    exact ⟨rfl, rfl, rfl, rfl, rfl⟩
  · split at h
    · obtain ⟨-, rfl⟩ := Prod.mk.inj (Option.some.inj h)
      exact ⟨rfl, rfl, rfl, rfl, rfl⟩
    · cases h

end Connection
namespace Server

/-- A threaded server between two lines. -/
structure Resting (s : Server) : Prop where
  threaded : s.threaded = true
  distinct : (s.connections.map (·.client)).Nodup
  resting : ∀ c ∈ s.connections, c.Resting

/-- Puts a connection in the place of the one that its client has. -/
def put (c : Connection) (s : Server) : Server :=
  { s with connections := s.connections.map fun d => if d.client = c.client then c else d }

variable {host : Host} {s : Server} {client : String} {c d : Connection}
  {before after : List Connection}

theorem client_of_connection? (h : s.connection? client = some c) : c.client = client := by
  simpa using List.find?_some h

theorem mem_of_connection? (h : s.connection? client = some c) : c ∈ s.connections :=
  List.mem_reverse.1 (List.mem_of_find?_eq_some h)

theorem connection?_eq_none (h : s.connection? client = none) :
    ∀ c ∈ s.connections, c.client ≠ client := by
  intro c hc heq
  have hnot := List.find?_eq_none.1 h c (List.mem_reverse.2 hc)
  exact hnot (by simpa using heq)

/-- The connection of a client among all connections. -/
theorem Resting.split (h : s.Resting) (hc : s.connection? client = some c) :
    ∃ before after, s.connections = before ++ c :: after ∧ c.client = client ∧
      (∀ d ∈ before, d.client ≠ client) ∧ ∀ d ∈ after, d.client ≠ client := by
  obtain ⟨before, after, hsplit⟩ := List.append_of_mem (mem_of_connection? hc)
  have hclient := client_of_connection? hc
  have hdistinct := h.distinct
  rw [hsplit, List.map_append, List.map_cons, List.nodup_append] at hdistinct
  obtain ⟨-, htail, hapart⟩ := hdistinct
  refine ⟨before, after, hsplit, hclient, ?_, ?_⟩
  · intro d hd heq
    exact hapart d.client (List.mem_map_of_mem hd) c.client List.mem_cons_self
      (heq.trans hclient.symm)
  · intro d hd heq
    exact (List.nodup_cons.1 htail).1 (hclient ▸ heq ▸ List.mem_map_of_mem hd)

theorem Resting.resting_split (h : s.Resting) (hs : s.connections = before ++ c :: after) :
    (∀ d ∈ before, d.Resting) ∧ ∀ d ∈ after, d.Resting := by
  have hresting := h.resting
  rw [hs] at hresting
  exact ⟨fun d hd => hresting d (List.mem_append_left _ hd),
    fun d hd => hresting d (List.mem_append_right _ (List.mem_cons_of_mem c hd))⟩

theorem put_split (hs : s.connections = before ++ c :: after) (hd : d.client = c.client)
    (hbefore : ∀ e ∈ before, e.client ≠ c.client) (hafter : ∀ e ∈ after, e.client ≠ c.client) :
    (s.put d).connections = before ++ d :: after := by
  have hkept : ∀ cs : List Connection, (∀ e ∈ cs, e.client ≠ c.client) →
      cs.map (fun e => if e.client = c.client then d else e) = cs := by
    intro cs hcs
    conv_rhs => rw [← List.map_id cs]
    apply List.map_congr_left
    intro e he
    exact if_neg (hcs e he)
  simp only [put, hs, List.map_append, List.map_cons, hd, hkept before hbefore,
    hkept after hafter, if_true]

theorem connection?_put (s : Server) (client : String) (d : Connection) :
    (s.put d).connection? client =
      (s.connection? client).map fun c => if c.client = d.client then d else c := by
  have hkept : (fun e : Connection => (if e.client = d.client then d else e).client == client) =
      fun e => e.client == client := by
    funext e
    split
    · case isTrue h => rw [h]
    · rfl
  rw [connection?, put, ← List.map_reverse, List.find?_map]
  exact congrArg (fun p => (s.connections.reverse.find? p).map _) hkept

theorem connection?_put_self (hc : s.connection? client = some c) (hd : d.client = client) :
    (s.put d).connection? client = some d := by
  rw [connection?_put, hc, Option.map_some, if_pos ((client_of_connection? hc).trans hd.symm)]

theorem connection?_put_other (hd : d.client ≠ client) :
    (s.put d).connection? client = s.connection? client := by
  rw [connection?_put]
  cases hc : s.connection? client with
  | none => rfl
  | some c =>
    rw [Option.map_some, if_neg]
    rw [client_of_connection? hc]
    exact Ne.symm hd

theorem put_put (hd : d.client = c.client) : (s.put c).put d = s.put d := by
  simp only [put, List.map_map, hd]
  congr 1
  apply List.map_congr_left
  intro e _
  by_cases he : e.client = c.client <;> simp [he]

theorem put_comm (hd : d.client ≠ c.client) : (s.put c).put d = (s.put d).put c := by
  simp only [put, List.map_map]
  congr 1
  apply List.map_congr_left
  intro e _
  by_cases hc : e.client = c.client
  · simp [hc, Ne.symm hd]
  · by_cases he : e.client = d.client
    · simp [he, hd]
    · simp [hc, he]

theorem Resting.put (h : s.Resting) (hd : d.Resting) : (s.put d).Resting := by
  refine ⟨h.threaded, ?_, ?_⟩
  · have hclients : (s.put d).connections.map (·.client) = s.connections.map (·.client) := by
      rw [Server.put, List.map_map]
      apply List.map_congr_left
      intro e _
      simp only [Function.comp_apply]
      split
      · case isTrue he => exact he.symm
      · rfl
    rw [hclients]
    exact h.distinct
  · intro e he
    obtain ⟨f, hf, rfl⟩ := List.mem_map.1 he
    split
    · exact hd
    · exact h.resting f hf

theorem Resting.put_self (h : s.Resting) (hc : s.connection? client = some c) : s.put c = s := by
  obtain ⟨before, after, hs, rfl, hbefore, hafter⟩ := h.split hc
  have hput := put_split hs rfl hbefore hafter
  rw [← hs] at hput
  exact congrArg (fun cs => { s with connections := cs }) hput

theorem updateLatest_others {cs : List Connection} (h : ∀ c ∈ cs, c.client ≠ client)
    (f : Connection → Connection) : updateLatest client f cs = cs := by
  induction cs with
  | nil => rfl
  | cons c cs ih =>
    have hc : (c.client == client) = false := by simpa using h c List.mem_cons_self
    rw [updateLatest, hc, Bool.false_and, if_neg (by decide),
      ih fun d hd => h d (List.mem_cons_of_mem c hd)]

theorem updateLatest_split (hbefore : ∀ d ∈ before, d.client ≠ c.client)
    (hafter : ∀ d ∈ after, d.client ≠ c.client) (f : Connection → Connection) :
    updateLatest c.client f (before ++ c :: after) = before ++ f c :: after := by
  induction before with
  | nil =>
    have hlast : after.any (·.client == c.client) = false := by simpa using hafter
    simp [updateLatest, hlast]
  | cons e before ih =>
    have he : (e.client == c.client) = false := by simpa using hbefore e List.mem_cons_self
    rw [List.cons_append, updateLatest, he, Bool.false_and, if_neg (by decide),
      ih fun d hd => hbefore d (List.mem_cons_of_mem e hd)]
    rfl

theorem Resting.update_eq (h : s.Resting) (hc : s.connection? client = some c)
    (f : Connection → Connection) (hf : (f c).client = c.client) :
    s.update client f = s.put (f c) := by
  obtain ⟨before, after, hs, rfl, hbefore, hafter⟩ := h.split hc
  have hput := put_split hs hf hbefore hafter
  rw [update, hs, updateLatest_split hbefore hafter, ← hput]
  rfl

theorem update_none (h : s.connection? client = none) (f : Connection → Connection) :
    s.update client f = s := by
  rw [update, updateLatest_others (connection?_eq_none h)]

theorem serveFrom_ended (he : c.ended.isSome = true) (cs : List Connection) :
    serveFrom host s (c :: cs) =
      serveFrom host { s with connections := s.connections ++ [c] } cs := by
  rw [serveFrom, he, Bool.true_or, if_pos rfl]

theorem serveFrom_open (ht : s.threaded = true) (ho : c.ended = none) (cs : List Connection) :
    let done := c.serve host s.workDir s.home
    serveFrom host s (c :: cs) = serveFrom host
      { s with
        workDir := done.2.shell.workDir
        connections := s.connections ++ [done.1]
        stopped := s.stopped || done.1.ended == some .stopServer
        inherited := s.inherited ++ done.2.inherited } cs := by
  intro done
  simp [serveFrom, ho, ht, done]

variable (host) in
theorem serveFrom_settled (ht : s.threaded = true) {cs : List Connection}
    (h : ∀ c ∈ cs, c.Settled) (ds : List Connection) :
    serveFrom host s (cs ++ ds) =
      serveFrom host { s with connections := s.connections ++ cs } ds := by
  induction cs generalizing s with
  | nil => rw [List.nil_append, List.append_nil]
  | cons c cs ih =>
    have hrest : ∀ d ∈ cs, d.Settled := fun d hd => h d (List.mem_cons_of_mem c hd)
    have hnext := ih (s := { s with connections := s.connections ++ [c] }) ht hrest
    rw [List.append_assoc, List.singleton_append] at hnext
    rw [List.cons_append]
    cases he : c.ended with
    | some ended => rw [serveFrom_ended (by rw [he]; rfl), hnext]
    | none =>
      obtain ⟨hpresent, hidle⟩ := h c List.mem_cons_self he
      obtain ⟨hsame, hdir, hquiet⟩ := Connection.serve_of_idle host s.workDir s.home hidle
      have hopen : (if c.hungUp = true then some SessionEnd.disconnected else none) = c.ended := by
        rw [hpresent, he]
        rfl
      have hkept : (c.serve host s.workDir s.home).1 = c := by rw [hsame, hopen]
      have hgoes : (s.stopped || c.ended == some SessionEnd.stopServer) = s.stopped := by
        rw [he]
        exact Bool.or_false _
      rw [serveFrom_open ht he, hkept, hdir, hquiet, hgoes, List.append_nil, hnext]

theorem filter_present {cs : List Connection} (h : ∀ c ∈ cs, c.Resting) :
    cs.filter (fun c => !c.hungUp || c.ended.isNone) = cs := by
  rw [List.filter_eq_self]
  intro c hc
  rw [(h c hc).present]
  rfl

/-- A server has served a connection. -/
def absorb (done : Connection × Session.Served) (s : Server) : Server :=
  { s with
    workDir := done.2.shell.workDir
    stopped := s.stopped || done.1.ended == some .stopServer
    inherited := s.inherited ++ done.2.inherited }

variable (host) in
/-- Only the connection that is not at rest is served. -/
theorem settle_split (ht : s.threaded = true) (hs : s.connections = before ++ c :: after)
    (hbefore : ∀ d ∈ before, d.Resting) (hafter : ∀ d ∈ after, d.Resting) (ho : c.ended = none) :
    let done := c.serve host s.workDir s.home
    settle host s = { s.absorb done with
      connections := before ++
        (if done.1.hungUp = true ∧ done.1.ended.isSome then [] else [done.1]) ++ after } := by
  intro done
  have hall := serveFrom_settled host (s := { s with connections := [] }) ht
    (fun d hd => (hbefore d hd).settled) (c :: after)
  rw [serveFrom_open (s := { s with connections := [] ++ before }) ht ho] at hall
  have hrest := serveFrom_settled host
    (s := { s.absorb done with connections := before ++ [done.1] }) ht
    (fun d hd => (hafter d hd).settled) []
  rw [List.append_nil] at hrest
  have hone : [done.1].filter (fun d => !d.hungUp || d.ended.isNone) =
      if done.1.hungUp = true ∧ done.1.ended.isSome then [] else [done.1] := by
    cases hhung : done.1.hungUp <;> cases hended : done.1.ended <;> simp [hhung, hended]
  have hserved : serveFrom host { s with connections := [] } (before ++ c :: after) =
      { s.absorb done with connections := before ++ [done.1] ++ after } := hall.trans hrest
  rw [settle, hs, hserved]
  simp only [List.filter_append, filter_present hbefore, filter_present hafter, hone]

/-- When nothing is to be served, only connections that both sides have left are forgotten. -/
theorem settle_settled (ht : s.threaded = true) (h : ∀ c ∈ s.connections, c.Settled) :
    s.settle host = { s with
      connections := s.connections.filter fun c => !c.hungUp || c.ended.isNone } := by
  have hall := serveFrom_settled host (s := { s with connections := [] }) ht h []
  rw [List.append_nil] at hall
  have hserved : serveFrom host { s with connections := [] } s.connections = s := hall
  rw [settle, hserved]

theorem Resting.settle (h : s.Resting) : s.settle host = s := by
  rw [settle_settled h.threaded fun c hc => (h.resting c hc).settled, filter_present h.resting]

variable (host) in
theorem Resting.settle_put (h : s.Resting) (hc : s.connection? client = some c)
    (hd : d.client = client) (ho : d.ended = none) (hp : d.hungUp = false) :
    (s.put d).settle host =
      (s.absorb (d.serve host s.workDir s.home)).put (d.serve host s.workDir s.home).1 := by
  obtain ⟨before, after, hs, rfl, hbefore, hafter⟩ := h.split hc
  obtain ⟨hrestBefore, hrestAfter⟩ := h.resting_split hs
  let done := d.serve host s.workDir s.home
  have hpresent : ¬ (done.1.hungUp = true ∧ done.1.ended.isSome = true) := by
    rintro ⟨hup, -⟩
    have hdown : done.1.hungUp = d.hungUp := rfl
    rw [hdown, hp] at hup
    cases hup
  have hsettle : (s.put d).settle host = { s.absorb done with
      connections := before ++
        (if done.1.hungUp = true ∧ done.1.ended.isSome then [] else [done.1]) ++ after } :=
    settle_split host (s := s.put d) h.threaded (put_split hs hd hbefore hafter) hrestBefore
      hrestAfter ho
  have hlast : ((s.absorb done).put done.1).connections = before ++ done.1 :: after :=
    put_split (s := s.absorb done) hs hd hbefore hafter
  rw [hsettle, if_neg hpresent, List.append_assoc, List.singleton_append, ← hlast]
  rfl

end Server
end PipeShell
