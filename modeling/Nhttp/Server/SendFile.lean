import Nhttp.Io.FileStream
import Nhttp.Server.MessageBody

/-!
# Files as bodies

`write_message_body` sends a file straight to a plain socket, and reads any other body through its stream. The
fast path keeps an offset of its own, which starts at zero.

* `writeMessageBodySendfile`: the fast path, for a kernel that may send less than it was asked for.
* **`file_body_same_iff`**: what both paths write, and when this is the same.
-/

namespace Nhttp.Server

open Octets Reading Slices Io

/-- `sendfile`: at least one octet if there is one, at most `room + 1`. -/
def sendFile (data : Bytes) (offset count room : ℕ) : Bytes := slice data offset (min count (room + 1))

/-- The loop of `write_message_body_sendfile`; `room` is what the socket takes at an offset. -/
def writeMessageBodySendfile (data : Bytes) (room : ℕ → ℕ) (offset remaining : ℕ) : Bytes :=
  if remaining = 0 then []
  else match _h : sendFile data offset remaining (room offset) with
    | [] => []
    | b :: bs => (b :: bs) ++
        writeMessageBodySendfile data room (offset + (b :: bs).length) (remaining - (b :: bs).length)
termination_by remaining
decreasing_by
  rw [List.length_cons]
  omega

/-- `write_message_body` for a file, over a plain socket or any other wire. -/
def writeFileBody (f : FileStream) (room : ℕ → ℕ) (plainSocket : Bool) (contentLength : ℤ) : Bytes :=
  if plainSocket ∧ 0 < contentLength then writeMessageBodySendfile f.file.data room 0 contentLength.toNat
  else writeMessageBody f contentLength

/-- **The fast path** sends the file from its offset on, however much the kernel sends at once. -/
theorem writeMessageBodySendfile_eq (data : Bytes) (room : ℕ → ℕ) (offset remaining : ℕ) :
    writeMessageBodySendfile data room offset remaining = slice data offset remaining := by
  fun_induction writeMessageBodySendfile data room offset remaining with
  | case1 => rw [slice, List.take_zero]
  | case2 offset remaining h hnil =>
    have hlen := length_slice data offset (min remaining (room offset + 1))
    rw [sendFile] at hnil
    rw [hnil, List.length_nil] at hlen
    rw [slice_of_length_le (by omega)]
  | case3 offset remaining h b bs hsent ih =>
    rw [ih, ← hsent, sendFile, slice_append_sub data offset (Nat.min_le_left _ _)]

/-- **A file as a body**: a plain socket is sent the first octets of the file, any other wire those behind the position
of the stream, if every window can be mapped. -/
theorem file_body_same_iff {sys : MapSystem} {data : Bytes} (hdata : data.length < 2 ^ 63)
    (hmaps : sys.opens = true → sys.Maps) (calls : List FileStream.FileCall) {f : FileStream}
    (hf : f = (FileStream.openRead sys data).after calls) (room : ℕ → ℕ) {contentLength : ℤ}
    (hlength : 1 ≤ contentLength) :
    writeFileBody f room true contentLength = data.take contentLength.toNat ∧
      writeFileBody f room false contentLength = slice data f.position contentLength.toNat ∧
      (writeFileBody f room true contentLength = writeFileBody f room false contentLength ↔
        ∀ i < contentLength.toNat, data[i]? = data[f.position + i]?) := by
  obtain ⟨p, hat⟩ := (FileStream.at_open sys data).after hdata hmaps calls
  rw [← hf] at hat
  have hplain : writeFileBody f room true contentLength = data.take contentLength.toNat := by
    rw [writeFileBody, if_pos ⟨rfl, by omega⟩, writeMessageBodySendfile_eq, hat.data_eq, slice_zero]
  have hother : writeFileBody f room false contentLength = slice data f.position contentLength.toNat := by
    rw [writeFileBody, if_neg fun h => Bool.false_ne_true h.1, writeMessageBody, if_neg (by omega), hat.position,
      writeExactly_of_yields (hat.yields hdata hmaps 4096)]
    rfl
  refine ⟨hplain, hother, ?_⟩
  rw [hplain, hother, ← slice_zero, List.ext_getElem?_iff]
  refine forall_congr' fun i => ?_
  rw [getElem?_slice, getElem?_slice, Nat.zero_add]
  split_ifs with hi
  · exact ⟨fun h _ => h, fun h => h hi⟩
  · exact iff_of_true rfl fun h => absurd h hi

def helloFile (calls : List FileStream.FileCall) : FileStream :=
  (FileStream.openRead FileStream.mappingSystem (ascii "hello")).after calls

/-- The stream was taken back to its beginning. -/
theorem file_body_same_rewound :
    writeFileBody (helloFile [.read 1, .seek 0 .begin (by decide) (by decide)]) (fun _ => 1) true 5 =
      writeFileBody (helloFile [.read 1, .seek 0 .begin (by decide) (by decide)]) (fun _ => 1) false 5 := by
  have hdata : (ascii "hello").length < 2 ^ 63 := by decide
  have hmaps : FileStream.mappingSystem.opens = true → FileStream.mappingSystem.Maps := fun _ _ _ => rfl
  obtain ⟨-, -, hiff⟩ := file_body_same_iff hdata hmaps [.read 1, .seek 0 .begin (by decide) (by decide)] rfl
    (fun _ => 1) (show (1 : ℤ) ≤ 5 by decide)
  exact hiff.mpr (by decide +kernel)

/-- The handler has read one octet of the file; or it has not touched the file, and no window can be mapped. -/
theorem file_body_differs :
    (writeFileBody (helloFile [.read 1]) (fun _ => 1) true 4 = ascii "hell" ∧
      writeFileBody (helloFile [.read 1]) (fun _ => 1) false 4 = ascii "ello") ∧
    writeFileBody (.openRead ⟨4096, by decide, 3, true, fun _ _ => none⟩ (ascii "hello")) (fun _ => 1) true 5 =
        ascii "hello" ∧
      writeFileBody (.openRead ⟨4096, by decide, 3, true, fun _ _ => none⟩ (ascii "hello")) (fun _ => 1) false 5 = [] := by
  decide +kernel

end Nhttp.Server
