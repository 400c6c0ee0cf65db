import Nhttp.Server.ConnectionBody

/-!
# What body streams yield

* `yields_chunked`, `yields_range`, `yields_unbounded`, `yields_memory`: the octets each kind of
  body stream hands over to reads of up to 4096 octets.
* `yields_makeBodyStream`: every body stream the server makes yields something.
-/

namespace Nhttp.Server

open Octets Reading Protocol Io RangeStream Source

variable {ω : Type} [Source ω UInt8]

theorem yields_chunked (m : ℕ) (d : ChunkedDecoder (BufferedWire ω)) :
    Yields m (BodyStream.chunked d) (contents d) := by
  refine ⟨fun s xs => ∃ d : ChunkedDecoder (BufferedWire ω), s = .chunked d ∧ contents d = xs,
    ⟨d, rfl, rfl⟩, ?_⟩
  rintro _ _ n ⟨d, rfl, rfl⟩ hn -
  exact ⟨length_read_le d n, contents_of_read_nil d n hn, _,
    read_append d n hn, _, rfl, rfl⟩

theorem yields_range (b : BufferedWire ω) (L : ℕ) :
    Yields 4096 (BodyStream.range (new b 0 L)) ((contents b).take L) := by
  refine ⟨fun s xs => ∃ r ys, s = .range r ∧ r.ensurePositioned.Window xs ys,
    ⟨_, _, rfl, window_new b L⟩, ?_⟩
  rintro _ xs n ⟨r, ys, rfl, hw⟩ hn hle
  obtain ⟨⟨xs', happ, hw'⟩, hnil⟩ := read_window hw hn (by omega)
  rw [read_ensurePositioned] at happ hw' hnil
  refine ⟨length_read_le r (by omega), hnil, xs', happ, _, ys, rfl, ?_⟩
  rwa [ensurePositioned_of_positioned hw'.positioned]

theorem yields_unbounded (m : ℕ) (b : BufferedWire ω) {e : ℤ} (he : e < 0) :
    Yields m (BodyStream.range (RangeStream.new b 0 e)) (contents b) := by
  have hb : (RangeStream.new b 0 e).bounded = false ∧ (RangeStream.new b 0 e).inner = b := by
    rw [RangeStream.new, if_pos (.inr he)]
    exact ⟨rfl, rfl⟩
  refine ⟨fun s xs => ∃ r : RangeStream (BufferedWire ω), s = .range r ∧ r.bounded = false ∧
    contents r.inner = xs, ⟨_, rfl, hb.1, by rw [hb.2]⟩, ?_⟩
  rintro _ _ n ⟨r, rfl, hr, rfl⟩ hn -
  have hpos : r.ensurePositioned.bounded = false := by
    unfold RangeStream.ensurePositioned
    split_ifs <;> simp_all
  have hread : r.read n = ((Readable.read r.inner n).1,
      { r.ensurePositioned with
        inner := (Readable.read r.inner n).2
        position := r.ensurePositioned.position + (Readable.read r.inner n).1.length }) := by
    have hclip : r.ensurePositioned.clip n = n := if_neg (by simp [hpos])
    rw [RangeStream.read]
    rw [if_neg (by simp [hpos]), hclip, BufferedWire.inner_ensurePositioned]
  have hfst : (Readable.read (BodyStream.range r) n).1 = (Readable.read r.inner n).1 :=
    congrArg Prod.fst hread
  rw [hfst]
  refine ⟨length_read_le _ n, contents_of_read_nil _ n hn, _,
    read_append _ n hn, (r.read n).2, rfl, ?_, ?_⟩
  · rw [hread]
    exact hpos
  · rw [hread]

theorem yields_memory (m : ℕ) (b : BufferedWire ω) : Yields m (BodyStream.memory b) [] := by
  refine ⟨fun s xs => s = .memory b ∧ xs = [], ⟨rfl, rfl⟩, ?_⟩
  rintro _ _ n ⟨rfl, rfl⟩ - -
  exact ⟨Nat.zero_le _, fun _ => rfl, [], rfl, rfl, rfl⟩

theorem yields_makeBodyStream {b : BufferedWire ω} {headers : HttpHeaders} {body : BodyStream ω}
    (h : makeBodyStream b headers = some body) : ∃ xs, Yields 4096 body xs := by
  unfold makeBodyStream at h
  split at h
  · cases h
    exact ⟨_, yields_chunked 4096 _⟩
  · split at h
    · cases h
      exact ⟨_, yields_memory 4096 b⟩
    · obtain ⟨length, -, rfl⟩ := Option.map_eq_some_iff.mp h
      obtain hneg | hpos := Int.lt_or_le length 0
      · exact ⟨_, yields_unbounded 4096 b hneg⟩
      · obtain ⟨L, rfl⟩ := Int.eq_ofNat_of_zero_le hpos
        exact ⟨_, yields_range b L⟩

end Nhttp.Server
