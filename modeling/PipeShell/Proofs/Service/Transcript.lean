import PipeShell.Proofs.Shell.Input
import PipeShell.Proofs.Wire.Unbroken
import PipeShell.Service.Session

/-! A session as a list of requests and answers. As long as no program reads the connection, what
is sent is a function of the requests and the shell: one body and one end byte for every request
up to the one that ends the session. -/
namespace PipeShell

namespace Session

/-- What a pipeline comes to when there is nothing to read. -/
def outcome (host : Host) (p : Pipeline) (shell : Shell) : Execution :=
  Execution.run host endpoints p shell {}

/-- The body that answers a frame, how it ends the session, and the shell after it. -/
inductive Answered (host : Host) (shell : Shell) :
    Frame → Bytes → Option SessionEnd → Shell → Prop
  | oversized :
      Answered host shell .oversized (Utf8.ofString "error: command too large\n") none shell
  | noCommand {line : String} (h : Pipeline.read line = .ok none) :
      Answered host shell (.command line)
        (Utf8.ofString "warning: no commands provided\n") none shell
  | badLine {line : String} {e : Pipeline.ReadError} (h : Pipeline.read line = .error e) :
      Answered host shell (.command line) (Utf8.ofString (e.message ++ "\n")) none shell
  | exited {line : String} {p : Pipeline} {code : Int} (h : Pipeline.read line = .ok (some p))
      (hr : (outcome host p shell).result = .ok (.exited code)) :
      Answered host shell (.command line) (outcome host p shell).streams.output none
        { (outcome host p shell).shell with lastStatus := code }
  | exit {line : String} {p : Pipeline} (h : Pipeline.read line = .ok (some p))
      (hr : (outcome host p shell).result = .ok .exit) :
      Answered host shell (.command line)
        ((outcome host p shell).streams.output ++ Utf8.ofString "Client exiting...\n")
        (some .clientExit) (outcome host p shell).shell
  | stopServer {line : String} {p : Pipeline} (h : Pipeline.read line = .ok (some p))
      (hr : (outcome host p shell).result = .ok .stopServer) :
      Answered host shell (.command line)
        ((outcome host p shell).streams.output ++ Utf8.ofString "Server stopping...\n")
        (some .stopServer) (outcome host p shell).shell

/-- The bodies that answer a list of frames, up to the frame that ends the session. -/
inductive Transcript (host : Host) : Shell → List Frame → List Bytes → SessionEnd → Shell → Prop
  | disconnected {shell : Shell} : Transcript host shell [] [] .disconnected shell
  | ended {shell last : Shell} {f : Frame} {fs : List Frame} {body : Bytes} {e : SessionEnd}
      (h : Answered host shell f body (some e) last) :
      Transcript host shell (f :: fs) [body] e last
  | next {shell later last : Shell} {f : Frame} {fs : List Frame} {body : Bytes}
      {bodies : List Bytes} {e : SessionEnd} (h : Answered host shell f body none later)
      (hs : Transcript host later fs bodies e last) :
      Transcript host shell (f :: fs) (body :: bodies) e last

/-- No program of a session takes bytes from the connection. -/
inductive Undisturbed (host : Host) : Shell → FrameReader → Prop
  | finished {shell : Shell} {r : FrameReader} (h : ∀ f, r.next.1 = .ok f → f = .closed) :
      Undisturbed host shell r
  | answered {shell : Shell} {r later : FrameReader} {f : Frame} (h : r.next = (.ok f, later))
      (hf : f ≠ .closed)
      (hb : (answer host shell later.source f).source.bytes = later.source.bytes)
      (hl : (answer host shell later.source f).ended = none →
        Undisturbed host (answer host shell later.source f).shell
          { later with source := (answer host shell later.source f).source }) :
      Undisturbed host shell r

variable {host : Host} {shell : Shell} {source : Reads} {p : Pipeline} {line : String} {f : Frame}
  {r later : FrameReader}

theorem run_ok (hp : p ≠ []) (streams : Streams) :
    ∃ status, (Execution.run host endpoints p shell streams).result = .ok status := by
  rcases Execution.run_cases host endpoints shell p with rfl | ⟨c, b, rfl, hb⟩ | hstages
  · exact absurd rfl hp
  · rw [Execution.run_lone host endpoints shell streams hb]
    simp only [Execution.runLone]
    split
    · exact ⟨_, rfl⟩
    · exact ⟨_, rfl⟩
  · rw [hstages]
    exact ⟨_, rfl⟩

theorem read_ne_nil (h : Pipeline.read line = .ok (some p)) : p ≠ [] := by
  rintro rfl
  simp only [Pipeline.read, Pipeline.readBytes] at h
  split at h
  · cases h
  · case h_2 s ss _ =>
    split at h
    · cases h
    · cases hc : Pipeline.readCommand true s with
      | error e => simp [hc, bind, Except.bind] at h
      | ok c =>
        cases hcs : ss.mapM (Pipeline.readCommand false) with
        | error e => simp [hc, hcs, bind, Except.bind] at h
        | ok cs => simp [hc, hcs, bind, Except.bind] at h

/-- Programs that leave the connection as it is leave all the bytes that they could read. -/
theorem run_untouched (h : (execute host p shell source).source.bytes = source.bytes) :
    (Execution.run host endpoints p shell { input := source.bytes }).streams.input =
      source.bytes := by
  have hsuffix :
      (Execution.run host endpoints p shell { input := source.bytes }).streams.input <:+
        source.bytes :=
    Execution.run_suffix host endpoints shell { input := source.bytes } p
  have hle := hsuffix.length_le
  have hlen := congrArg List.length h
  simp only [execute, Reads.bytes_skip, List.length_drop] at hlen
  apply hsuffix.eq_of_length_le
  omega

/-- Programs that leave the connection as it is answer as if nothing more were to come. -/
theorem execute_idle (h : (execute host p shell source).source.bytes = source.bytes) :
    execute host p shell source = { execute host p shell [] with source } := by
  have hleft := run_untouched h
  have hrun := Execution.run_idle host endpoints shell { input := source.bytes } hleft
  have hnil : ({ input := Reads.bytes [] } : Streams) =
      Streams.withInput [] { input := source.bytes } := rfl
  have hskip : source.skip 0 = source := by cases source <;> rfl
  simp only [execute, hnil, hrun, hleft, Nat.sub_self, hskip]
  rfl

theorem execute_answered (h : Pipeline.read line = .ok (some p)) :
    Answered host shell (.command line) (execute host p shell []).body
      (execute host p shell []).ended (execute host p shell []).shell := by
  have hrun : Execution.run host endpoints p shell { input := Reads.bytes [] } =
      outcome host p shell := rfl
  obtain ⟨status, hs⟩ : ∃ status, (outcome host p shell).result = .ok status :=
    run_ok (read_ne_nil h) {}
  cases status with
  | exited code =>
    have hbody : (outcome host p shell).streams.output ++ Utf8.ofString "" =
        (outcome host p shell).streams.output := List.append_nil _
    simp only [execute, hrun, hs, hbody]
    exact .exited h hs
  | exit =>
    simp only [execute, hrun, hs]
    exact .exit h hs
  | stopServer =>
    simp only [execute, hrun, hs]
    exact .stopServer h hs

/-- Every frame is answered by the rules when its programs leave the connection as it is. -/
theorem answer_untouched (hf : f ≠ .closed)
    (h : (answer host shell source f).source.bytes = source.bytes) :
    Answered host shell f (answer host shell source f).body (answer host shell source f).ended
        (answer host shell source f).shell ∧
      (answer host shell source f).source = source := by
  cases f with
  | closed => exact absurd rfl hf
  | oversized => exact ⟨.oversized, rfl⟩
  | command line =>
    simp only [answer, answerLine] at h ⊢
    cases hr : Pipeline.read line with
    | error e => exact ⟨.badLine hr, rfl⟩
    | ok command =>
      cases command with
      | none => exact ⟨.noCommand hr, rfl⟩
      | some p =>
        simp only [hr] at h ⊢
        rw [execute_idle h]
        exact ⟨execute_answered hr, rfl⟩

theorem serve_closed (h : r.next.1 = .ok .closed) :
    serve host shell r = { ended := .disconnected, shell, reader := r.next.2 } := by
  rw [serve]
  split
  · case h_1 e later hn => simp [hn] at h
  · case h_2 g later hn =>
    obtain rfl : g = .closed := by simpa [hn] using h
    simp [hn]

theorem serve_answered (h : r.next = (.ok f, later)) (hf : f ≠ .closed) :
    serve host shell r = Served.after (answer host shell later.source f).body
      (answer host shell later.source f).inherited
      (match (answer host shell later.source f).ended with
        | some ended =>
          { ended, shell := (answer host shell later.source f).shell,
            reader := { later with source := (answer host shell later.source f).source } }
        | none => serve host (answer host shell later.source f).shell
          { later with source := (answer host shell later.source f).source }) := by
  rw [serve]
  split
  · case h_1 e later hn => simp [hn] at h
  · case h_2 g later hn =>
    obtain ⟨rfl, rfl⟩ : g = f ∧ later = _ := by simpa [hn] using h
    exact dif_neg hf

variable (host) in
/-- What holds when there is nothing to answer, and before a request whenever it holds behind it,
holds of every session. -/
@[elab_as_elim]
theorem requests_induction {motive : Shell → FrameReader → Prop}
    (finished : ∀ shell r, (∀ f, r.next.1 = .ok f → f = .closed) → motive shell r)
    (request : ∀ shell r f later, r.next = (.ok f, later) → f ≠ .closed →
      motive (answer host shell later.source f).shell
        { later with source := (answer host shell later.source f).source } → motive shell r)
    (shell : Shell) (r : FrameReader) : motive shell r := by
  induction hw : r.weight using Nat.strongRecOn generalizing shell r with
  | ind w ih =>
    by_cases hover : ∀ f, r.next.1 = .ok f → f = .closed
    · exact finished shell r hover
    · rcases hn : r.next with ⟨answered, later⟩
      rw [hn] at hover
      obtain ⟨f, rfl, hf⟩ : ∃ f, answered = .ok f ∧ f ≠ .closed := by simpa using hover
      have hlt := FrameReader.next_weight_lt r (by rw [hn]) hf
      have hle := weight_answer_le host shell later.source f
      refine request shell r f later hn hf (ih _ ?_ _ _ rfl)
      simp only [hn, FrameReader.weight] at *
      omega

/-- Whatever has been answered so far, the rest of an undisturbed session follows the rules. -/
theorem serve_undisturbed (hu : Undisturbed host shell r) (hs : r.source.Unbroken) :
    ∃ bodies, Transcript host shell (Frame.split (r.buffer ++ r.source.bytes)).1 bodies
        (serve host shell r).ended (serve host shell r).shell ∧
      (serve host shell r).sent = bodies.flatMap (· ++ [Response.responseEnd]) := by
  induction hu with
  | @finished shell r h =>
    rcases FrameReader.next_unbroken hs with ⟨f, hn, hf, _⟩ | ⟨hn, hnil⟩
    · exact absurd (h f hn) hf
    · rw [serve_closed hn, hnil]
      exact ⟨[], .disconnected, rfl⟩
  | @answered shell r later f h hf hb _ ih =>
    obtain ⟨hrules, hsource⟩ := answer_untouched hf hb
    have hnext := FrameReader.next_unbroken hs
    rw [h] at hnext
    rcases hnext with ⟨g, hn, _, hlater, hsplit⟩ | ⟨hn, _⟩
    · obtain rfl : f = g := by simpa using hn
      rw [serve_answered h hf, hsplit]
      rw [hsource] at ih ⊢
      cases he : (answer host shell later.source f).ended with
      | some e =>
        rw [he] at hrules
        exact ⟨[_], .ended hrules, by simp [Served.after]⟩
      | none =>
        rw [he] at hrules
        obtain ⟨bodies, htail, hsent⟩ := ih he hlater
        refine ⟨_ :: bodies, .next hrules htail, ?_⟩
        simp only [Served.after, hsent, List.flatMap_cons, List.append_assoc, List.singleton_append]
    · exact absurd (by simpa using hn) hf

/-- Programs take what they read from the head of the bytes to come. -/
theorem answer_suffix (host : Host) (shell : Shell) (source : Reads) (f : Frame) :
    (answer host shell source f).source.bytes <:+ source.bytes := by
  cases f with
  | closed => exact List.suffix_rfl
  | oversized => exact List.suffix_rfl
  | command line =>
    simp only [answer, answerLine]
    split
    · simp only [execute, Reads.bytes_skip]
      exact List.drop_suffix _ _
    · exact List.suffix_rfl
    · exact List.suffix_rfl

/-- When all bytes have been read for requests there is nothing left to take. -/
theorem undisturbed_of_drained (h : r.source.bytes = []) : Undisturbed host shell r := by
  induction shell, r using requests_induction host with
  | finished shell r hover => exact .finished hover
  | request shell r f later hn hf ih =>
    obtain ⟨seen, hseen, -⟩ := FrameReader.next_cases r
    rw [hn] at hseen
    have hlater : later.source.bytes = [] := (List.append_eq_nil_iff.1 (hseen.symm.trans h)).2
    have hnil : (answer host shell later.source f).source.bytes = [] :=
      List.suffix_nil.1 (hlater ▸ answer_suffix host shell later.source f)
    exact .answered hn hf (hnil.trans hlater.symm) fun _ => ih hnil

theorem undisturbed_congr {s : FrameReader} (h : r.next = s.next) (hu : Undisturbed host shell s) :
    Undisturbed host shell r := by
  cases hu with
  | finished hs => exact .finished (h ▸ hs)
  | answered hs hf hb hl => exact .answered (h.trans hs) hf hb hl

theorem undisturbed_of_one_read {request : Bytes} (h : request.length ≤ Frame.windowSize) :
    Undisturbed host shell { source := [.data request] } := by
  by_cases hne : request = []
  · subst request
    exact undisturbed_of_drained rfl
  · exact undisturbed_congr (FrameReader.next_of_one_read hne h) (undisturbed_of_drained rfl)

theorem Answered.unique {body body' : Bytes} {e e' : Option SessionEnd} {last last' : Shell}
    (h : Answered host shell f body e last) (h' : Answered host shell f body' e' last') :
    body = body' ∧ e = e' ∧ last = last' := by
  cases h <;> cases h' <;> simp_all

/-- The frames and the shell leave no choice in what is answered. -/
theorem Transcript.unique {fs : List Frame} {bodies bodies' : List Bytes} {e e' : SessionEnd}
    {last last' : Shell} (h : Transcript host shell fs bodies e last)
    (h' : Transcript host shell fs bodies' e' last') :
    bodies = bodies' ∧ e = e' ∧ last = last' := by
  induction h generalizing bodies' with
  | disconnected =>
    cases h'
    exact ⟨rfl, rfl, rfl⟩
  | ended h =>
    cases h' with
    | ended h' =>
      obtain ⟨rfl, he, rfl⟩ := h.unique h'
      exact ⟨rfl, by simpa using he, rfl⟩
    | next h' =>
      obtain ⟨-, he, -⟩ := h.unique h'
      cases he
  | next h _ ih =>
    cases h' with
    | ended h' =>
      obtain ⟨-, he, -⟩ := h.unique h'
      cases he
    | next h' hs' =>
      obtain ⟨rfl, -, rfl⟩ := h.unique h'
      obtain ⟨rfl, rfl, rfl⟩ := ih hs'
      exact ⟨rfl, rfl, rfl⟩

/-- A session that no program disturbs answers its requests by the rules, and no program can
disturb a session whose requests come in one read. -/
theorem serve_transcript (host : Host) (shell : Shell) :
    (∀ source : Reads, source.Unbroken → Undisturbed host shell { source } →
      ∃ bodies, Transcript host shell (Frame.split source.bytes).1 bodies
          (serve host shell { source }).ended (serve host shell { source }).shell ∧
        (serve host shell { source }).sent = bodies.flatMap (· ++ [0x04])) ∧
    ∀ request : Bytes, request.length ≤ 4096 →
      Undisturbed host shell { source := [.data request] } := by
  constructor
  · intro source hs hu
    exact serve_undisturbed hu hs
  · intro request h
    exact undisturbed_of_one_read h

/-- A status, an empty line, the end of the session, and a request that comes too late. -/
def farewell : Bytes := Utf8.ofString "rc\x00\x00exit\x00rc\x00"

def atRoot : Shell := { workDir := "/", home := "/" }

theorem split_farewell : (Frame.split farewell).1 =
    [.command "rc", .command "", .command "exit", .command "rc"] := by
  have h1 : Frame.ready? farewell =
      some (.command "rc", Utf8.ofString "\x00exit\x00rc\x00") := by decide
  have h2 : Frame.ready? (Utf8.ofString "\x00exit\x00rc\x00") =
      some (.command "", Utf8.ofString "exit\x00rc\x00") := by decide
  have h3 : Frame.ready? (Utf8.ofString "exit\x00rc\x00") =
      some (.command "exit", Utf8.ofString "rc\x00") := by decide
  have h4 : Frame.ready? (Utf8.ofString "rc\x00") = some (.command "rc", []) := by decide
  have h5 : Frame.ready? [] = none := rfl
  rw [Frame.split_of_ready h1, Frame.split_of_ready h2, Frame.split_of_ready h3,
    Frame.split_of_ready h4, Frame.split_of_not_ready h5]

theorem serve_transcript_farewell :
    farewell.length ≤ 4096 ∧ Reads.Unbroken [.data farewell] ∧
      Undisturbed {} atRoot { source := [.data farewell] } ∧
      (serve {} atRoot { source := [.data farewell] }).ended = .clientExit ∧
      (serve {} atRoot { source := [.data farewell] }).sent = Utf8.ofString
        "0\n\x04warning: no commands provided\n\x04Client exiting...\n\x04" := by
  have hlen : farewell.length ≤ 4096 := by decide
  have hs : Reads.Unbroken [.data farewell] := ⟨fun _ => rfl, trivial⟩
  have hu := (serve_transcript {} atRoot).2 farewell hlen
  obtain ⟨bodies, h, hsent⟩ := (serve_transcript {} atRoot).1 _ hs hu
  have hbytes : Reads.bytes [.data farewell] = farewell := List.append_nil _
  rw [hbytes, split_farewell] at h
  have hrc : Pipeline.read "rc" = .ok (some [{ name := "rc" }]) := by decide
  have hempty : Pipeline.read "" = .ok none := by decide
  have hexit : Pipeline.read "exit" = .ok (some [{ name := "exit" }]) := by decide
  have ht : Transcript {} atRoot [.command "rc", .command "", .command "exit", .command "rc"] _
      .clientExit _ :=
    .next (.exited hrc rfl) (.next (.noCommand hempty) (.ended (.exit hexit rfl)))
  obtain ⟨rfl, he, -⟩ := h.unique ht
  refine ⟨hlen, hs, hu, he, ?_⟩
  rw [hsent]
  decide

end Session
end PipeShell
