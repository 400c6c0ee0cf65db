import Nhttp.Http2.HpackRoundTrip
import Nhttp.Server.H2.Basic
import Nhttp.Server.H2.Client
import Nhttp.Server.Segmentation

/-!
# Requests of header blocks

`finish_header_block` takes the fields of a block as HPACK delivers them, and HPACK delivers any octets.

* `H2.handed`: the request `dispatch_stream` hands to the handler when a header block is complete.
* **`proper_fields_iff`**: when the request of a block is as if it had been parsed from lines, and every other
  block makes the stream malformed.
-/

namespace Nhttp.Server

open Octets Reading Protocol Http2

/-! ## Requests handed over -/

namespace H2

structure Collected (s : H2) (ref : ℕ) : Prop where
  lt : ref < s.objects.length
  resource : (s.object ref).resource = {}
  headers : (s.object ref).headers = []
  hostname : (s.object ref).hostname = []
  malformed : (s.object ref).malformed = false

def decoded (s : H2) (ref : ℕ) : HpackDecoder.Decoded := s.hpackDecoder.decode (s.object ref).headerBlock []

/-- The request `dispatch_stream` hands to the handler when the header block is complete. -/
def handed (s : H2) (ref : ℕ) : Option Request :=
  match ((s.finishHeaderBlock ref).dispatchStream ref).log.head? with
  | some (.called _ req _) => some req
  | _ => none

variable {s : H2} {ref : ℕ}

theorem object_finishHeaderBlock (hc : s.Collected ref) :
    (s.finishHeaderBlock ref).object ref =
      if (s.decoded ref).failed.isSome then { s.object ref with malformed := true }
      else { s.object ref with
        resource := (requestOf (s.decoded ref).out).resource
        headers := (requestOf (s.decoded ref).out).headers
        hostname := (requestOf (s.decoded ref).out).hostname } := by
  have hobj : ∀ dec f, (({ s with hpackDecoder := dec } : H2).modifyObject ref f).object ref = f (s.object ref) := by
    intro dec f
    rw [object_modifyObject, if_pos ⟨rfl, hc.lt⟩]
    rfl
  unfold finishHeaderBlock decoded
  dsimp only
  cases (s.hpackDecoder.decode (s.object ref).headerBlock []).failed with
  | some e => exact hobj _ _
  | none =>
    rw [hobj, foldl_applyField _ _ hc.resource hc.headers hc.hostname]
    rfl

theorem malformed_iff (hc : s.Collected ref) :
    ((s.finishHeaderBlock ref).object ref).malformed = true ↔ (s.decoded ref).failed.isSome = true := by
  rw [object_finishHeaderBlock hc]
  by_cases hf : (s.decoded ref).failed.isSome = true
  · rw [if_pos hf]
    exact iff_of_true rfl hf
  · rw [if_neg hf]
    rw [hc.malformed]
    exact iff_of_false Bool.false_ne_true hf

theorem hasHandler_finishHeaderBlock (s : H2) (ref : ℕ) : (s.finishHeaderBlock ref).hasHandler = s.hasHandler := by
  obtain ⟨dec, f, -, he⟩ := finishHeaderBlock_eq s ref
  rw [he]
  rfl

theorem handed_eq (hc : s.Collected ref) :
    s.handed ref =
      if (s.decoded ref).failed.isSome = false ∧ s.hasHandler = true then some (requestOf (s.decoded ref).out)
      else none := by
  have hobj := object_finishHeaderBlock hc
  have hm := malformed_iff hc
  have hh := hasHandler_finishHeaderBlock s ref
  unfold handed dispatchStream
  dsimp only [record]
  by_cases hf : (s.decoded ref).failed.isSome = true
  · rw [if_pos (hm.mpr hf), if_neg fun h => Bool.false_ne_true (h.1.symm.trans hf)]
    rfl
  · rw [if_neg fun hm' => hf (hm.mp hm'), hh]
    rw [if_neg hf] at hobj
    by_cases hs : s.hasHandler = true
    · rw [if_pos hs, if_pos ⟨Bool.eq_false_iff.mpr hf, hs⟩, hobj]
      rfl
    · rw [if_neg hs, if_neg fun h => hs h.2]
      rfl

variable {req : Request} {fields : HeaderList}

theorem eq_of_handed (hc : s.Collected ref) (h : s.handed ref = some req) :
    (s.decoded ref).failed.isSome = false ∧ req = requestOf (s.decoded ref).out := by
  rw [handed_eq hc] at h
  split_ifs at h with hf
  cases h
  exact ⟨hf.1, rfl⟩

end H2

/-! ## Lines -/

/-- What the parsing of text lines guarantees of a request. -/
structure Request.Lines (req : Request) : Prop where
  names : ∀ h ∈ req.headers, IsFieldName h.name
  values : ∀ h ∈ req.headers, LF ∉ h.value
  method : LF ∉ req.resource.method.name
  rawPath : LF ∉ req.resource.rawPath

/-- Written as lines and read again, the fields are the same up to blanks around their values. -/
def ReadBack (hs : HttpHeaders) : Prop :=
  ∀ (m : ℕ) (rest : Bytes) (b : BufferedWire (Segments UInt8)), (∀ x ∈ hs, (x.line ++ [CR, LF]).length ≤ m) →
    [CR, LF].length ≤ m → Source.contents b = hs.writeTo ++ CR :: LF :: rest →
    ∃ b', readHeaders b [] m = some (hs.map HttpHeader.trimmed, b') ∧ Source.contents b' = rest

theorem readBack_of_lines {req : Request} (h : req.Lines) : ReadBack req.headers := by
  intro m rest b hline hend hb
  have hm : ∀ x ∈ req.headers, x.line.length + 1 ≤ m := by
    intro x hx
    have := hline x hx
    simp only [List.length_append, List.length_cons, List.length_nil] at this
    omega
  have h1 : 1 ≤ m := le_trans (by decide) hend
  obtain ⟨b', hb', hc⟩ := exists_readHeaders_trimmed (fun x hx => ⟨h.names x hx, h.values x hx⟩) hm h1 rest [] b hb
  exact ⟨b', hb', hc⟩

/-! ## Fields -/

/-- A field that can stand on a line of text; of the pseudo-headers only method and path do. -/
def ProperField (f : HeaderField) : Prop :=
  if f.name = ascii ":method" then LF ∉ f.value
  else if f.name = ascii ":path" then LF ∉ f.value.takeWhile (· ≠ 0x3f)
  else f.name.head? = some 0x3a ∨ (IsFieldName f.name ∧ LF ∉ f.value)

instance (f : HeaderField) : Decidable (ProperField f) := by
  unfold ProperField
  infer_instance

theorem exists_mem_of_lastValue {name v : Bytes} (h : lastValue fields name = some v) :
    ⟨name, v⟩ ∈ fields := by
  obtain ⟨f, hf, rfl⟩ := Option.map_eq_some_iff.mp h
  obtain ⟨hmem, hname⟩ := List.mem_filter.mp (List.mem_of_getLast? hf)
  obtain rfl := of_decide_eq_true hname
  exact hmem

theorem lines_requestOf (h : ∀ f ∈ fields, ProperField f) : (requestOf fields).Lines := by
  have hheader : ∀ x ∈ (requestOf fields).headers, IsFieldName x.name ∧ LF ∉ x.value := by
    intro x hx
    obtain ⟨f, hf, rfl⟩ := List.mem_map.mp hx
    obtain ⟨hmem, hname⟩ := List.mem_filter.mp hf
    have hne := of_decide_eq_true hname
    have hp := h f hmem
    unfold ProperField at hp
    split_ifs at hp with h1 h2
    · exact absurd (by rw [h1]; rfl) hne
    · exact absurd (by rw [h2]; rfl) hne
    · exact hp.resolve_left hne
  refine ⟨fun x hx => (hheader x hx).1, fun x hx => (hheader x hx).2, ?_, ?_⟩
  · unfold requestOf
    cases hl : lastValue fields (ascii ":method") with
    | none => exact List.not_mem_nil
    | some v => exact h _ (exists_mem_of_lastValue hl)
  · unfold requestOf
    cases hl : lastValue fields (ascii ":path") with
    | none => exact List.not_mem_nil
    | some v => exact h _ (exists_mem_of_lastValue hl)

/-- A request handed over for the block of `ref` is as if parsed from lines, or the stream is malformed. -/
def KeepsLines (s : H2) (ref : ℕ) : Prop :=
  (∀ req, s.handed ref = some req → req.Lines ∧ ReadBack req.headers) ∧
    ((∃ f ∈ (s.decoded ref).out, ¬ProperField f) → ((s.finishHeaderBlock ref).object ref).malformed = true)

/-- **When the text rules survive HPACK**: exactly if the block cannot be decoded, or all its fields are proper
already. -/
theorem proper_fields_iff {s : H2} {ref : ℕ} (hc : s.Collected ref) :
    KeepsLines s ref ↔ (s.decoded ref).failed.isSome = true ∨ ∀ f ∈ (s.decoded ref).out, ProperField f := by
  constructor
  · rintro ⟨-, hbad⟩
    by_contra hnot
    obtain ⟨hfail, hall⟩ := not_or.mp hnot
    push Not at hall
    exact hfail ((H2.malformed_iff hc).mp (hbad hall))
  · intro h
    refine ⟨fun req hreq => ?_, fun ⟨f, hf, hnot⟩ => ?_⟩
    · obtain ⟨hfail, rfl⟩ := H2.eq_of_handed hc hreq
      have hproper := h.resolve_left fun hf => Bool.false_ne_true (hfail.symm.trans hf)
      have hlines := lines_requestOf hproper
      exact ⟨hlines, readBack_of_lines hlines⟩
    · exact (H2.malformed_iff hc).mpr (h.resolve_right fun hall => hnot (hall f hf))

def collecting (fields : HeaderList) : H2 := ({} : H2).openStream 1 (encode fields) true

theorem collected_collecting (fields : HeaderList) : (collecting fields).Collected 0 :=
  ⟨Nat.zero_lt_one, rfl, rfl, rfl, rfl⟩

theorem decoded_collecting (h : ∀ f ∈ fields, f.name.length < 2 ^ 60 ∧ f.value.length < 2 ^ 60) :
    (collecting fields).decoded 0 = ⟨none, {}, fields⟩ :=
  HpackDecoder.decodeFrom_encode fields h rfl

theorem handed_collecting (h : ∀ f ∈ fields, f.name.length < 2 ^ 60 ∧ f.value.length < 2 ^ 60) :
    (collecting fields).handed 0 = some (requestOf fields) := by
  rw [H2.handed_eq (collected_collecting _), decoded_collecting h]
  exact if_pos ⟨rfl, rfl⟩

def plainFields : HeaderList :=
  [⟨ascii ":method", ascii "GET"⟩, ⟨ascii ":path", ascii "/"⟩, ⟨ascii "a", ascii "b"⟩]

theorem proper_fields_get : (collecting plainFields).Collected 0 ∧ KeepsLines (collecting plainFields) 0 := by
  refine ⟨collected_collecting _, (proper_fields_iff (collected_collecting _)).mpr (Or.inr ?_)⟩
  rw [decoded_collecting (by decide +kernel)]
  decide +kernel

/-- A value with a line end in it, as HPACK carries it. -/
def injectedFields : HeaderList :=
  [⟨ascii ":method", ascii "GET"⟩, ⟨ascii ":path", ascii "/"⟩, ⟨ascii "a", ascii "b\r\nhost: evil"⟩]

/-- The handler gets the field, and written as lines it is two of them. -/
theorem injected_handed :
    (collecting injectedFields).Collected 0 ∧ ¬KeepsLines (collecting injectedFields) 0 ∧
      (collecting injectedFields).handed 0 = some (requestOf injectedFields) ∧
      (readHeaders ⟨(requestOf injectedFields).headers.writeTo ++ [CR, LF], (⟨[], by simp⟩ : Segments UInt8)⟩ [] 64).map
          Prod.fst =
        some [⟨ascii "a", ascii "b"⟩, ⟨ascii "host", ascii "evil"⟩] := by
  have hhanded : (collecting injectedFields).handed 0 = some (requestOf injectedFields) :=
    handed_collecting (by decide +kernel)
  refine ⟨collected_collecting _, fun hk => ?_, hhanded, by decide +kernel⟩
  obtain ⟨hlines, -⟩ := hk.1 _ hhanded
  exact absurd (hlines.values ⟨ascii "a", ascii "b\r\nhost: evil"⟩ (by decide +kernel)) (by decide)

end Nhttp.Server
