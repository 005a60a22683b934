import PipeShell.Proofs.Service.Sharing

/-! Lines of different sessions that store no directory may change places. What a line does besides
is to change its own connection, to stop the server and to complain, and none of these is seen by
the other sessions. -/
namespace PipeShell.Server

open Session (Log Remembered shellAfter directoryAfter statusAfter)

variable {host : Host} {network : Network} {settings : ServerSettings}
  {start home client line : String} {initial s t : Server} {c d : Connection} {log : Log}

section Apart

/-- The server without what its pipelines have complained of, which no step looks at. -/
def apart (s : Server) : Server := { s with inherited := [] }

theorem eq_of_apart (h : s.apart = t.apart) : t = { s with inherited := t.inherited } := by
  obtain ⟨threaded, home, workDir, connections, stopped, inherited⟩ := s
  obtain ⟨threaded', home', workDir', connections', stopped', inherited'⟩ := t
  simp only [apart, Server.mk.injEq] at h
  obtain ⟨rfl, rfl, rfl, rfl, rfl, -⟩ := h
  rfl

theorem serveFrom_apart (more : Bytes) (cs : List Connection) :
    (serveFrom host { s with inherited := more } cs).apart = (serveFrom host s cs).apart := by
  induction cs generalizing s more with
  | nil => rfl
  | cons c cs ih =>
    rw [serveFrom, serveFrom]
    split
    · exact ih (s := { s with connections := s.connections ++ [c] }) more
    · rcases c.serve host s.workDir s.home with ⟨later, served⟩
      dsimp only
      split
      · refine (ih (s := { s with
          workDir := served.shell.workDir
          connections := s.connections ++ [later]
          stopped := s.stopped || later.ended == some .stopServer }) _).trans (ih _).symm
      · rfl

variable (host client) in
theorem receive_apart (more bytes : Bytes) :
    (receive host client bytes { s with inherited := more }).apart =
      (receive host client bytes s).apart :=
  congrArg
    (fun t : Server => { t with
      connections := t.connections.filter (fun c => !c.hungUp || c.ended.isNone) })
    (serveFrom_apart (s := { s with connections := [] }) more _)

variable (client) in
theorem answerTo_apart (more : Bytes) :
    (answerTo client { s with inherited := more }).map (Prod.map id apart) =
      (answerTo client s).map (Prod.map id apart) := by
  have hsame : connection? client { s with inherited := more } = s.connection? client := rfl
  simp only [answerTo, hsame]
  cases s.connection? client with
  | none => rfl
  | some c =>
    cases hr : c.read with
    | none => simp [hr]
    | some read => simp [hr, update, apart]

variable (host) in
theorem exec_apart (h : s.apart = t.apart) (client line : String) :
    (s.exec host client line).map (Prod.map id apart) =
      (t.exec host client line).map (Prod.map id apart) := by
  have hreceive := receive_apart host client (s := s) t.inherited (Client.request line)
  rw [← eq_of_apart h] at hreceive
  have hanswer := answerTo_apart client (s := s.receive host client (Client.request line))
    (t.receive host client (Client.request line)).inherited
  rw [← eq_of_apart hreceive.symm] at hanswer
  exact hanswer.symm

/-- Commands one after the other, until one of them has no answer. -/
def execs (host : Host) : List (String × String) → Server → Option (List Response × Server)
  | [], s => some ([], s)
  | (client, line) :: rest, s =>
    (s.exec host client line).bind fun (response, t) =>
      (execs host rest t).map fun (responses, last) => (response :: responses, last)

theorem execs_apart (h : s.apart = t.apart) (commands : List (String × String)) :
    (s.execs host commands).map (Prod.map id apart) =
      (t.execs host commands).map (Prod.map id apart) := by
  induction commands generalizing s t with
  | nil => exact congrArg (fun last => some ([], last)) h
  | cons command commands ih =>
    obtain ⟨client, line⟩ := command
    have hexec := exec_apart host h client line
    rw [execs, execs]
    cases hs : s.exec host client line with
    | none =>
      rw [hs, Option.map_none, eq_comm, Option.map_eq_none_iff] at hexec
      rw [hexec]
    | some done =>
      obtain ⟨response, s'⟩ := done
      rw [hs, Option.map_some, eq_comm, Option.map_eq_some_iff] at hexec
      obtain ⟨⟨response', t'⟩, ht, hsame⟩ := hexec
      obtain ⟨rfl, hlast⟩ := Prod.mk.inj hsame
      rw [ht]
      have hrest := congrArg (Option.map (Prod.map (response' :: ·) id)) (ih hlast)
      rw [Option.map_map, Option.map_map] at hrest
      rw [Option.bind_some, Option.bind_some, Option.map_map, Option.map_map]
      exact hrest.symm

end Apart

section Interchange

variable {workDir x y a b : String}

/-- A line that stores no directory does the same on every server with the same directory: it
changes its own connection, and it may stop the server. -/
theorem exists_quiet (hc : c.Resting) (ho : c.ended = none)
    (hkept : ∀ e ∈ c.heard host workDir home line, e.stored host = none) :
    ∃ response later stops complaints, later.client = c.client ∧ later.Resting ∧
      ∀ s : Server, s.Resting → s.connection? c.client = some c → s.workDir = workDir →
        s.home = home → s.exec host c.client line = some (response, Server.put later
          { s with stopped := s.stopped || stops, inherited := s.inherited ++ complaints }) := by
  obtain ⟨response, later, hr, -⟩ := Connection.exists_read host workDir home line (hc.idle ho)
  let done := c.hear host workDir home line
  have hdir : done.2.shell.workDir = workDir :=
    Session.linked_workDir (Connection.linked_heard host workDir home line c) hkept
  refine ⟨response, later, done.1.ended == some .stopServer, done.2.inherited,
    (Connection.read_client hr).1, (Connection.resting_hear hc.present (hc.idle ho)).read hr, ?_⟩
  rintro s hs hfound rfl rfl
  have habsorb : s.absorb done = { s with
      stopped := s.stopped || done.1.ended == some .stopServer
      inherited := s.inherited ++ done.2.inherited } := by
    rw [absorb, hdir]
  rw [hs.exec_open hfound ho, hr, Option.map_some]
  exact congrArg (fun t => some (response, t.put later)) habsorb

/-- Two commands that give the same answers in either order and leave the same server, but for the
order of the complaints. -/
def Interchangeable (host : Host) (a x b y : String) (s : Server) : Prop :=
  ∃ ra rb s₁ s₂ t₁ t₂, s.exec host a x = some (ra, s₁) ∧ s₁.exec host b y = some (rb, s₂) ∧
    s.exec host b y = some (rb, t₁) ∧ t₁.exec host a x = some (ra, t₂) ∧
    s₂.workDir = s.workDir ∧ s₂.apart = t₂.apart ∧ s₂.inherited.Perm t₂.inherited ∧
    ∀ rest, (s₂.execs host rest).map (Prod.map id apart) =
      (t₂.execs host rest).map (Prod.map id apart)

theorem Resting.interchange (h : s.Resting) (hab : a ≠ b) (ha : s.connection? a = some c)
    (hb : s.connection? b = some d) (hc : c.ended = none) (hd : d.ended = none)
    (hx : ∀ e ∈ s.heard host a x, e.stored host = none)
    (hy : ∀ e ∈ s.heard host b y, e.stored host = none) : Interchangeable host a x b y s := by
  rw [heard_open ha hc] at hx
  rw [heard_open hb hd] at hy
  have hcr := h.resting c (mem_of_connection? ha)
  have hdr := h.resting d (mem_of_connection? hb)
  obtain rfl := client_of_connection? ha
  obtain rfl := client_of_connection? hb
  obtain ⟨ra, c', stopsA, moreA, hca, hresta, hexeca⟩ := exists_quiet hcr hc hx
  obtain ⟨rb, d', stopsB, moreB, hdb, hrestb, hexecb⟩ := exists_quiet hdr hd hy
  have hafterA : ∀ stopped inherited,
      (Server.put c' { s with stopped, inherited }).connection? d.client = some d := by
    intro stopped inherited
    rw [connection?_put_other (by rw [hca]; exact hab)]
    exact hb
  have hafterB : ∀ stopped inherited,
      (Server.put d' { s with stopped, inherited }).connection? c.client = some c := by
    intro stopped inherited
    rw [connection?_put_other (by rw [hdb]; exact Ne.symm hab)]
    exact ha
  have hkept : ∀ stopped inherited, Resting { s with stopped, inherited } := fun _ _ =>
    ⟨h.threaded, h.distinct, h.resting⟩
  refine ⟨ra, rb, _, _, _, _, hexeca s h ha rfl rfl,
    hexecb _ ((hkept _ _).put hresta) (hafterA _ _) rfl rfl, hexecb s h hb rfl rfl,
    hexeca _ ((hkept _ _).put hrestb) (hafterB _ _) rfl rfl, rfl, ?_⟩
  have hconnections := congrArg Server.connections
    (put_comm (s := s) (c := c') (d := d') (by rw [hca, hdb]; exact Ne.symm hab))
  have hstops : ((s.stopped || stopsA) || stopsB) = ((s.stopped || stopsB) || stopsA) := by
    rw [Bool.or_assoc, Bool.or_comm stopsA, Bool.or_assoc]
  have hsame := congrArg₂
    (fun connections stopped => { s with connections, stopped, inherited := [] })
    hconnections hstops
  have hperm : ((s.inherited ++ moreA) ++ moreB).Perm ((s.inherited ++ moreB) ++ moreA) := by
    rw [List.append_assoc, List.append_assoc]
    exact List.perm_append_comm.append_left s.inherited
  exact ⟨hsame, hperm, execs_apart hsame⟩

end Interchange

/-- Nobody's commands touch the connections of the others. -/
theorem Resting.exec_others {other : String} {response : Response} (h : s.Resting)
    (hx : s.exec host client line = some (response, t)) (hne : other ≠ client) :
    t.connection? other = s.connection? other := by
  cases hc : s.connection? client with
  | none =>
    rw [h.exec_none hc] at hx
    cases hx
  | some c =>
    have hclient := client_of_connection? hc
    cases he : c.ended with
    | none =>
      rw [h.exec_open hc he] at hx
      obtain ⟨later, hr, rfl⟩ := put_of_read hx
      have hname : later.client = client := (Connection.read_client hr).1.trans hclient
      exact connection?_put_other (hname.trans_ne hne.symm)
    | some ended =>
      rw [h.exec_ended hc (by rw [he]; rfl)] at hx
      obtain ⟨later, hr, rfl⟩ := put_of_read hx
      have hname : later.client = client := (Connection.read_client hr).1.trans hclient
      exact connection?_put_other (hname.trans_ne hne.symm)

/-- A client with an open session reads an answer to what it sends, or to what it has sent before,
and whatever it has not read then is still to be read. -/
theorem Resting.exec_answers (h : s.Resting) (hc : s.connection? client = some c)
    (ho : c.ended = none) : ∃ response t d, s.exec host client line = some (response, t) ∧
      t.connection? client = some d ∧
      response.output ++ Response.responseEnd :: d.replies =
        c.replies ++ (s.heard host client line).flatMap
          (fun e => (e.reply host).body ++ [Response.responseEnd]) := by
  have hidle := (h.resting c (mem_of_connection? hc)).idle ho
  obtain ⟨response, d, hr, hreplies⟩ := Connection.exists_read host s.workDir s.home line
    hidle
  have howner := client_of_connection? hc
  have hclient : d.client = client := (Connection.read_client hr).1.trans howner
  refine ⟨response, (s.absorb (c.hear host s.workDir s.home line)).put d, d, ?_, ?_, ?_⟩
  · rw [h.exec_open hc ho, hr, Option.map_some]
  · exact connection?_put_self (s := s.absorb (c.hear host s.workDir s.home line)) hc hclient
  · rw [heard_open hc ho, ← hreplies, Connection.replies_hear]

/-- The first request of a line finds what is remembered. -/
theorem Kept.heard_first (h : Kept host start home log s) (hc : s.connection? client = some c)
    (ho : c.ended = none) : ∃ e es, s.heard host client line = e :: es ∧
      e.shell = shellAfter host start home client log := by
  have hidle := (h.resting.resting c (mem_of_connection? hc)).idle ho
  obtain ⟨e, es, hes⟩ := List.exists_cons_of_ne_nil
    (Connection.heard_ne_nil host s.workDir s.home line hidle)
  have hlinked := Connection.linked_heard host s.workDir s.home line c
  rw [hes, h.shell hc] at hlinked
  exact ⟨e, es, (heard_open hc ho).trans hes, hlinked.1⟩

theorem Resting.heard_line (h : s.Resting) (hc : s.connection? client = some c)
    (ho : c.ended = none) (hborder : c.reader.held = []) (hline : '\x00' ∉ line.toList) :
    (s.heard host client line).map (·.frame) = Frame.ofLine (Utf8.ofString line) ∧
      ∀ response t d, s.exec host client line = some (response, t) →
        t.connection? client = some d → d.reader.held = [] := by
  have hidle := (h.resting c (mem_of_connection? hc)).idle ho
  obtain ⟨hframes, hheld⟩ := Connection.heard_line host s.workDir s.home hidle hborder hline
  refine ⟨by rw [heard_open hc ho, hframes], ?_⟩
  intro response t d hx hd
  rw [h.exec_open hc ho] at hx
  obtain ⟨later, hr, rfl⟩ := put_of_read hx
  obtain ⟨hclient, -, -, hreader, -⟩ := Connection.read_client hr
  have howner := client_of_connection? hc
  have hfound := connection?_put_self (s := s.absorb (c.hear host s.workDir s.home line)) hc
    (hclient.trans howner)
  obtain rfl := Option.some.inj (hfound.symm.trans hd)
  rw [hreader, hheld]

/-- What the sessions of a threaded server have in common, and what each has for itself. A line
comes to its answer if no program of it waits for more. -/
structure Shared (host : Host) (start home : String) (log : Log) (s : Server) : Prop where
  /-- The directory is the one that was stored last, by whichever session. -/
  workDir : s.workDir = directoryAfter host start log
  /-- A status is that of the session's own last request that has exited. -/
  statuses : ∀ c ∈ s.connections, c.lastStatus = statusAfter host c.client log
  /-- Every request so far has found the directory and the status of its time. -/
  remembered : Remembered host start home log
  /-- So does the next one. -/
  first : ∀ a x c, s.connection? a = some c → c.ended = none →
    ∃ e es, s.heard host a x = e :: es ∧ e.shell = shellAfter host start home a log
  /-- A line without NUL brings its own frames and leads from one border of frames to the next. -/
  lines : ∀ a x c, s.connection? a = some c → c.ended = none → c.reader.held = [] →
    '\x00' ∉ x.toList →
      (s.heard host a x).map (·.frame) = Frame.ofLine (Utf8.ofString x) ∧
        ∀ response t d, s.Prompt host a x → s.exec host a x = some (response, t) →
          t.connection? a = some d → d.reader.held = []
  /-- Every open session is served, and gets the bodies of its own replies. -/
  answers : ∀ a x c, s.connection? a = some c → c.ended = none → s.Prompt host a x →
    ∃ response t d, s.exec host a x = some (response, t) ∧ t.connection? a = some d ∧
      response.output ++ Response.responseEnd :: d.replies =
        c.replies ++ (s.heard host a x).flatMap
          (fun e => (e.reply host).body ++ [Response.responseEnd])
  /-- What comes to one session leaves the others where they are. -/
  others : ∀ a b x response t, s.Prompt host a x → s.exec host a x = some (response, t) →
    b ≠ a → t.connection? b = s.connection? b
  /-- Lines of different sessions change places if they store no directory. -/
  interchange : ∀ a b x y c d, a ≠ b → s.connection? a = some c → s.connection? b = some d →
    c.ended = none → d.ended = none → s.Prompt host a x → s.Prompt host b y →
      (∀ e ∈ s.heard host a x, e.stored host = none) →
        (∀ e ∈ s.heard host b y, e.stored host = none) → Interchangeable host a x b y s

/-- In every run of a threaded server in lock step, sessions meet in the directory alone. -/
theorem shared_of_run (ht : settings.threaded = true)
    (hstart : Server.start network settings start home = .ok initial)
    (hrun : Run host initial log s) : Shared host start home log s := by
  have hkept := hrun.kept (kept_start ht hstart)
  exact
    { workDir := hkept.workDir
      statuses := hkept.statuses
      remembered := hkept.remembered
      first := fun _ _ _ hc ho => hkept.heard_first hc ho
      lines := fun _ _ _ hc ho hborder hline =>
        (hkept.resting.heard_line hc ho hborder hline).imp_right fun h _ _ _ _ => h _ _ _
      answers := fun _ _ _ hc ho _ => hkept.resting.exec_answers hc ho
      others := fun _ _ _ _ _ _ hx hne => hkept.resting.exec_others hx hne
      interchange := fun _ _ _ _ _ _ hab ha hb hc hd _ _ hx hy =>
        hkept.resting.interchange hab ha hb hc hd hx hy }

/-- A host with one directory beside the root. -/
def oneDirectory : Host := { tree := { entries := [(["d"], .directory)] } }

theorem not_stored {es : List Session.Exchange} {p : Pipeline}
    (hes : es.map (·.frame) = [.command line]) (hr : Pipeline.read line = .ok (some p))
    (hp : ∀ c ∈ p, Builtin.named c.name ≠ some .cd) : ∀ e ∈ es, e.stored host = none := by
  intro e he
  have hframe : e.frame ∈ es.map (·.frame) := List.mem_map_of_mem he
  rw [hes, List.mem_singleton] at hframe
  rw [Session.Exchange.stored_command hframe hr, Execution.stored_of_no_cd host e.shell hp]

theorem prompt_of_lone {s : Server} {c : Command} {b : Builtin}
    (hes : (s.heard host client line).map (·.frame) = [.command line])
    (hr : Pipeline.read line = .ok (some [c])) (hb : Builtin.named c.name = some b) :
    s.Prompt host client line := by
  intro e he
  have hframe : e.frame ∈ (s.heard host client line).map (·.frame) := List.mem_map_of_mem he
  rw [hes, List.mem_singleton] at hframe
  exact Session.Exchange.prompt_of_unread hframe (Session.unread_of_lone hr hb)

/-- One session has changed the directory, and two others ask for a status and for their end. -/
theorem shared_of_run_threeSessions : ∃ initial log s,
    Server.start .loopback { threaded := true } "/" "/" = .ok initial ∧
      Run oneDirectory initial log s ∧ s.workDir = "/d" ∧
      Interchangeable oneDirectory "b" "rc" "c" "exit" s := by
  have hcd : Pipeline.read "cd /d" = .ok (some [{ name := "cd", arguments := ["/d"] }]) := by decide
  have hrc : Pipeline.read "rc" = .ok (some [{ name := "rc" }]) := by decide
  have hexit : Pipeline.read "exit" = .ok (some [{ name := "exit" }]) := by decide
  let initial : Server := { threaded := true, home := "/", workDir := "/" }
  let three : Server :=
    { initial with connections := [{ client := "a" }, { client := "b" }, { client := "c" }] }
  have hstart : Server.start .loopback { threaded := true } "/" "/" = .ok initial := by cbv
  have hentered : Run oneDirectory initial [] three :=
    ((Run.start.enter "a" rfl (by simp) rfl).enter "b" rfl (by simp) rfl).enter "c" rfl (by simp)
      rfl
  have hthree := shared_of_run rfl hstart hentered
  obtain ⟨e, es, hheard, hshell⟩ := hthree.first "a" "cd /d" _ rfl rfl
  obtain ⟨hframes, -⟩ := hthree.lines "a" "cd /d" _ rfl rfl rfl (by decide)
  rw [Client.ofLine_of_fits (by decide)] at hframes
  have hprompt := prompt_of_lone hframes hcd rfl
  obtain ⟨response, s, d, hx, -, -⟩ := hthree.answers "a" "cd /d" _ rfl rfl hprompt
  rw [hheard] at hframes
  obtain ⟨hframe, hes⟩ := List.cons.inj hframes
  obtain rfl : es = [] := List.map_eq_nil_iff.1 hes
  have hstored : e.stored oneDirectory = some "/d" := by
    rw [Session.Exchange.stored_command hframe hcd, hshell]
    decide
  have hrun := hentered.command hprompt hx
  have hs := shared_of_run rfl hstart hrun
  have hb : s.connection? "b" = some { client := "b" } :=
    hthree.others "a" "b" "cd /d" response s hprompt hx (by decide)
  have hc : s.connection? "c" = some { client := "c" } :=
    hthree.others "a" "c" "cd /d" response s hprompt hx (by decide)
  obtain ⟨hheardB, -⟩ := hs.lines "b" "rc" _ hb rfl rfl (by decide)
  obtain ⟨hheardC, -⟩ := hs.lines "c" "exit" _ hc rfl rfl (by decide)
  rw [Client.ofLine_of_fits (by decide)] at hheardB hheardC
  refine ⟨initial, _, s, hstart, hrun, ?_, hs.interchange "b" "c" "rc" "exit" _ _ (by decide)
    hb hc rfl rfl (prompt_of_lone hheardB hrc rfl) (prompt_of_lone hheardC hexit rfl)
    (not_stored hheardB hrc (by decide)) (not_stored hheardC hexit (by decide))⟩
  rw [hs.workDir, hheard]
  simp [directoryAfter, Session.latest, hstored]

end PipeShell.Server
