import PipeShell.Proofs.Pipeline.NormalForm
import PipeShell.Proofs.Pipeline.Size
import PipeShell.Proofs.Wire.Requests

/-! Pipelines on the wire. The text of a pipeline that keeps to the limits fits into one frame, and
what is read of the frame is the pipeline. -/
namespace PipeShell

namespace FrameReader

/-- A reader of one request that fits finds one command, and then the end. -/
theorem calls_request {line : String} (h : Client.Fits line) {source : Reads}
    (hsource : source.Unbroken) (hbytes : source.bytes = Client.request line) (n : Nat) :
    (calls n { source }).1 = (.ok (.command line) :: ends n).take n := by
  have hlines : ∀ l ∈ [line], '\x00' ∉ l.toList := by simpa using h.noNul
  have hframes : Client.framesOf [line] = [.command line] := by
    rw [Client.framesOf, List.flatMap_singleton, Client.ofLine_of_fits h.size]
  have hstart : AtBorder { source } ([line].flatMap Client.request ++ []) :=
    ⟨hsource, by rw [held, hbytes]; simp⟩
  obtain ⟨hcommand, hend⟩ := calls_requests hlines hstart
  rw [hframes] at hcommand hend
  rw [calls_take n [Frame.command line].length, Nat.add_comm, calls_add, hcommand,
    calls_drained hend]
  rfl

end FrameReader

namespace Pipeline

variable {p : Pipeline}

theorem fits_text (h : p.WellFormed) (hnul : ∀ c ∈ p, ∀ t ∈ c.texts, '\x00' ∉ t.toList)
    (hfile : ∀ c ∈ p, ∀ file ∈ c.input, Utf8.size file ≤ 1024) : Client.Fits (text p) := by
  constructor
  · have hne : ∀ d ∈ (text p).toList, d ≠ '\x00' := by
      refine forall_mem_text (fun d hd hzero => absurd (hzero ▸ hd) (by decide)) ?_
      rintro c hc t ht d hd rfl
      exact hnul c hc t ht hd
    exact fun hmem => hne _ hmem rfl
  · have hsize := size_text_le h hfile
    omega

/-- A pipeline that keeps to the limits, with a short input file and without NUL in its texts: its
text is short enough for a request, and a reader of that request, in whatever pieces it comes, finds
one command, which stands for the pipeline, and nothing else. -/
theorem sent_wellFormed (h : p.WellFormed) (hnul : ∀ c ∈ p, ∀ t ∈ c.texts, '\x00' ∉ t.toList)
    (hfile : ∀ c ∈ p, ∀ file ∈ c.input, Utf8.size file ≤ 1024) :
    Utf8.size (text p) ≤ 4095 ∧
      ∀ (reader : ResponseReader) (source : Reads), source.Unbroken →
        source.bytes = (Client.send (Client.request (text p)) { reader }).sent →
          (∀ n, (FrameReader.calls n { source }).1 =
            (.ok (.command (text p)) :: FrameReader.ends n).take n) ∧
          read (text p) = .ok (some p) := by
  have hfits := fits_text h hnul hfile
  refine ⟨hfits.size, ?_⟩
  intro reader source hsource hbytes
  exact ⟨FrameReader.calls_request hfits hsource hbytes, read_text_of_wellFormed h⟩

/-- The request of a pipeline whose texts need quotes, with a character of two bytes cut in two. -/
def piecemeal : Reads :=
  [.data ((Client.request (text blanksAndBars)).take 17), .interrupted,
    .data ((Client.request (text blanksAndBars)).drop 17)]

theorem sent_wellFormed_piecemeal :
    WellFormed blanksAndBars ∧ (∀ c ∈ blanksAndBars, ∀ t ∈ c.texts, '\x00' ∉ t.toList) ∧
      (∀ c ∈ blanksAndBars, ∀ file ∈ c.input, Utf8.size file ≤ 1024) ∧
      (FrameReader.calls 2 { source := piecemeal }).1 =
        [.ok (.command (text blanksAndBars)), .ok .closed] ∧
      read (text blanksAndBars) = .ok (some blanksAndBars) := by
  have hp : WellFormed blanksAndBars := by decide
  have hnul : ∀ c ∈ blanksAndBars, ∀ t ∈ c.texts, '\x00' ∉ t.toList := by decide
  have hfile : ∀ c ∈ blanksAndBars, ∀ file ∈ c.input, Utf8.size file ≤ 1024 := by decide
  have hsource : piecemeal.Unbroken := by
    have hlast : (Client.request (text blanksAndBars)).take 17 ≠ [] := by decide
    simp [piecemeal, Reads.Unbroken, Reads.bytes, hlast]
  have hbytes : piecemeal.bytes = (Client.send (Client.request (text blanksAndBars))
      { reader := { source := [] } }).sent := by
    simp [piecemeal, Reads.bytes, Client.send]
  obtain ⟨hcalls, hread⟩ := (sent_wellFormed hp hnul hfile).2 _ piecemeal hsource hbytes
  exact ⟨hp, hnul, hfile, hcalls 2, hread⟩

end Pipeline
end PipeShell
