import Nhttp.Http2.Frame
import Nhttp.Tls.Stream

/-!
# The write loops

`http1_io::write_all`, `ws_connection::write_all` and the body of `connection_h2::send_frame` are one loop;
`tls_stream::flush_wbio` runs it for each piece of the write BIO. None of them has a case for a count of 0.

* **`writeLoops_end_iff`**: each of them ends after finitely many calls exactly when the stream does not come
  to refuse what is left.
-/

namespace Nhttp

open Octets Writing Http2 Tls

variable {σ τ ε : Type} [Writable σ UInt8] [Duplex τ]

/-- `http1_io::write_all`. -/
def Server.writeAll (wire : σ) (buf : Bytes) (fuel : ℕ) : Option (Bool × σ) := writeLoop buf fuel 0 wire

/-- `ws_connection::write_all`, on the connection's wire. -/
def Ws.writeAll (wire : σ) (data : Bytes) (fuel : ℕ) : Option (Bool × σ) := writeLoop data fuel 0 wire

/-- The loop of `connection_h2::send_frame`, on the connection's wire and with the lock held. -/
def Server.sendFrame (wire : σ) (f : Frame) (fuel : ℕ) : Option (Bool × σ) := writeLoop f.bytes fuel 0 wire

namespace Server

/-- **When the write loops end.** -/
theorem writeLoops_end_iff (wire : σ) (buf : Bytes) (f : Frame) (t : TlsStream ε τ) :
    (Ends (writeAll wire buf) ↔ ¬Stalls [buf] 0 wire) ∧
      (Ends (Ws.writeAll wire buf) ↔ ¬Stalls [buf] 0 wire) ∧
      (Ends (sendFrame wire f) ↔ ¬Stalls [f.bytes] 0 wire) ∧
      (Ends (t.flushWbio ·) ↔ ¬Stalls (TlsStream.bioPieces t.wbio) 0 t.inner) :=
  ⟨writeLoop_ends_iff, writeLoop_ends_iff, writeLoop_ends_iff, t.flushWbio_ends_iff⟩

/-- A wire that takes everything, and whose peer sends nothing more. -/
structure SinkWire where

instance : Duplex SinkWire where
  write s xs := (some xs.length, s)
  write_le _ _ _ h := (Option.some.inj h).ge
  read s _ := (some [], s)

def deadTls : BrokenTls SinkWire := ⟨⟨⟩⟩

theorem stalls_deadTls {buf : Bytes} (h : buf ≠ []) : Stalls [buf] 0 deadTls :=
  .refuses (List.length_pos_iff.mpr h) (deadTls.refuses buf)

theorem writeLoops_spin :
    (∀ fuel buf, deadTls.stream.write (fuel + 1) buf = some (some 0, deadTls.stream)) ∧
      ¬Ends (writeAll deadTls [0x78]) ∧ ¬Ends (Ws.writeAll deadTls [0x78]) ∧
      ¬Ends (sendFrame deadTls ⟨.settings, FrameFlags.ack, 0, []⟩) := by
  have hspin : ∀ buf : Bytes, buf ≠ [] → ¬Ends (writeLoop buf · 0 deadTls) := fun buf h =>
    writeLoop_ends_iff.not.mpr (not_not.mpr (stalls_deadTls h))
  exact ⟨deadTls.write_stream, hspin _ (by decide), hspin _ (by decide), hspin _ (by decide)⟩

end Server

end Nhttp
