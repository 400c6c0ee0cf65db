import Nhttp.Server.H2.Handlers

/-!
# HTTP/2 clients

* `requestOf`: the request a header list stands for.
* `Client.Sends`: the frames a client may send next. Nothing comes between the frames of a header block;
  bodies of different streams interleave.
* `Client.Finishes`: the frames that complete all requests, and the order in which they do.
-/

namespace Nhttp.Server

open Octets Protocol Http2 FrameFlags List

/-! ## Header lists -/

def lastValue (fields : HeaderList) (name : Bytes) : Option Bytes :=
  ((fields.filter fun f => f.name = name).getLast?).map HeaderField.value

/-- Path and query of a `:path`, split at its first question mark. -/
def targetOf (path : Bytes) : HttpResource where
  rawPath := path.takeWhile (· ≠ 0x3f)
  path := urlDecode (path.takeWhile (· ≠ 0x3f))
  query := QueryString.parse ((path.dropWhile (· ≠ 0x3f)).drop 1)

def requestOf (fields : HeaderList) : Request where
  resource :=
    { ((lastValue fields (ascii ":path")).map targetOf).getD {} with
      method := ⟨(lastValue fields (ascii ":method")).getD []⟩
      httpMajor := 2
      httpMinor := 0 }
  headers := (fields.filter fun f => f.name.head? ≠ some 0x3a).map fun f => ⟨f.name, f.value⟩
  hostname := (lastValue fields (ascii ":authority")).getD []

theorem lastValue_append_singleton (fields : HeaderList) (f : HeaderField) (name : Bytes) :
    lastValue (fields ++ [f]) name = if f.name = name then some f.value else lastValue fields name := by
  unfold lastValue
  by_cases h : f.name = name
  · simp [h]
  · simp [h]

theorem setTarget_eq (r : HttpResource) (target : Bytes) :
    r.setTarget target = { targetOf target with
      method := r.method, httpMajor := r.httpMajor, httpMinor := r.httpMinor } := by
  unfold HttpResource.setTarget cutAt targetOf
  by_cases h : (0x3f : UInt8) ∈ target
  · simp only [if_pos h]
    rw [take_idxOf, ← drop_drop, drop_idxOf]
  · have hall : ∀ b ∈ target, decide (b ≠ 0x3f) = true := fun b hb =>
      decide_eq_true fun hc => h (hc ▸ hb)
    simp only [if_neg h]
    rw [takeWhile_eq_self_iff.mpr hall, dropWhile_eq_nil_iff.mpr hall]
    rfl

theorem requestOf_append_singleton (fields : HeaderList) (f : HeaderField) (o : H2Stream) :
    ({ o with
      resource := { (requestOf fields).resource with httpMajor := 1, httpMinor := 1 }
      headers := (requestOf fields).headers
      hostname := (requestOf fields).hostname } : H2Stream).applyField f =
      { o with
        resource := { (requestOf (fields ++ [f])).resource with httpMajor := 1, httpMinor := 1 }
        headers := (requestOf (fields ++ [f])).headers
        hostname := (requestOf (fields ++ [f])).hostname } := by
  have hl := lastValue_append_singleton fields f
  have hma : ascii ":method" ≠ ascii ":authority" := by decide
  have hmp : ascii ":method" ≠ ascii ":path" := by decide
  have hap : ascii ":authority" ≠ ascii ":path" := by decide
  unfold H2Stream.applyField
  split_ifs with h1 h2 h3 h4 h5
  · have hc : (ascii ":method").head? = some 0x3a := rfl
    simp [requestOf, hl, h1, hma, hmp, filter_append, hc]
  · have hc : (ascii ":authority").head? = some 0x3a := rfl
    simp [requestOf, hl, h2, hma.symm, hap, filter_append, hc]
  · have hc : (ascii ":path").head? = some 0x3a := rfl
    rw [setTarget_eq]
    simp [requestOf, hl, h3, hmp.symm, hap.symm, filter_append, hc]
  · have hc : f.name.head? = some 0x3a := by rw [h4]; rfl
    simp [requestOf, hl, h1, h2, h3, filter_append, hc]
  · simp [requestOf, hl, h1, h2, h3, filter_append, h5]
  · simp [requestOf, hl, h1, h2, h3, filter_append, h5, HttpHeaders.add]

theorem foldl_applyField (o : H2Stream) (fields : HeaderList) (hr : o.resource = {})
    (hh : o.headers = []) (hn : o.hostname = []) :
    fields.foldl H2Stream.applyField o =
      { o with
        resource := { (requestOf fields).resource with httpMajor := 1, httpMinor := 1 }
        headers := (requestOf fields).headers
        hostname := (requestOf fields).hostname } := by
  induction fields using List.reverseRecOn with
  | nil =>
    rw [foldl_nil, show requestOf [] = ⟨{ httpMajor := 2, httpMinor := 0 }, [], []⟩ from rfl]
    obtain ⟨⟩ := o
    simp_all
  | append_singleton fields f ih =>
    rw [foldl_append, ih, foldl_cons, foldl_nil, requestOf_append_singleton]

/-! ## Payloads -/

def padPayload (flags : UInt8) (content pad : Bytes) : Bytes :=
  if has flags padded then UInt8.ofNat pad.length :: (content ++ pad)
  else content

def withPriority (flags : UInt8) (fields block : Bytes) : Bytes :=
  if has flags priority then fields ++ block else block

variable {pad : Bytes}

theorem stripPadding_padPayload (flags : UInt8) (content : Bytes) (h : pad.length < 256) :
    stripPadding (padPayload flags content pad) (has flags padded) =
      some content := by
  unfold stripPadding padPayload
  by_cases hp : has flags padded = true
  · have hn : (UInt8.ofNat pad.length).toNat = pad.length := by
      exact Nat.mod_eq_of_lt h
    simp [hp, hn]
  · simp [hp]

theorem headersFragment_padPayload (fh : FrameHeader) (block : Bytes) {fields : Bytes}
    (hf : fields.length = 5) (hp : pad.length < 256) :
    H2.headersFragment fh (padPayload fh.flags (withPriority fh.flags fields block) pad) =
      some block := by
  unfold H2.headersFragment withPriority
  rw [stripPadding_padPayload fh.flags _ hp]
  by_cases hx : has fh.flags priority = true
  · simp [hx, hf]
  · simp [hx]

/-! ## Clients -/

structure ClientRequest where
  id : ℕ
  fields : HeaderList
  body : Bytes
  id_ne_zero : id ≠ 0
  id_lt : id < 2 ^ 31
  fields_lt : ∀ f ∈ fields, f.name.length < 2 ^ 60 ∧ f.value.length < 2 ^ 60
  body_le : body.length ≤ 16 * 1024 * 1024

def ClientRequest.call (r : ClientRequest) : ℕ × Request × Bytes := (r.id, requestOf r.fields, r.body)

structure HeaderBlock where
  request : ClientRequest
  left : Bytes
  endStream : Bool

/-- What a client has sent: what is not begun, in progress, and complete, in the order of completion. -/
structure Client where
  todo : List ClientRequest
  block : Option HeaderBlock := none
  bodies : List (ClientRequest × Bytes) := []
  done : List ClientRequest := []

def Harmless (f : Frame) : Prop :=
  f.streamId < 2 ^ 31 ∧
    match f.type with
    | .settings => f.streamId = 0 ∧
        (has f.flags ack = true ∨ f.payload.length % 6 = 0)
    | .ping => f.streamId = 0 ∧ f.payload.length = 8
    | .priority => True
    | .other code => 9 < code.toNat
    | _ => False

namespace Client

def requests (c : Client) : List ClientRequest :=
  c.todo ++ c.block.toList.map HeaderBlock.request ++ c.bodies.map Prod.fst ++ c.done

def sentBlock (c : Client) (b : HeaderBlock) (endHeaders : Bool) : Client :=
  if endHeaders then
    if b.endStream then { c with block := none, done := c.done ++ [b.request] }
    else { c with block := none, bodies := (b.request, b.request.body) :: c.bodies }
  else { c with block := some b }

/-- **The frames a client may send next.** END_STREAM is on the last frame of a request. -/
inductive Sends : Client → Frame → Client → Prop
  | other {c : Client} {f : Frame} : c.block = none → Harmless f → Sends c f c
  | headers {c : Client} {l₁ l₂ : List ClientRequest} {r : ClientRequest} {flags : UInt8}
      {block left fields pad : Bytes} :
      c.block = none → c.todo = l₁ ++ r :: l₂ → encode r.fields = block ++ left →
      fields.length = 5 → pad.length < 256 →
      (has flags endStream = true → r.body = []) →
      (has flags endHeaders = true → left = []) →
      Sends c
        ⟨.headers, flags, r.id, padPayload flags (withPriority flags fields block) pad⟩
        (sentBlock { c with todo := l₁ ++ l₂ }
          ⟨r, left, has flags endStream⟩
          (has flags endHeaders))
  | continuation {c : Client} {b : HeaderBlock} {flags : UInt8} {block left : Bytes} :
      c.block = some b → b.left = block ++ left →
      (has flags endHeaders = true → left = []) →
      Sends c ⟨.continuation, flags, b.request.id, block⟩
        (c.sentBlock { b with left := left } (has flags endHeaders))
  | data {c : Client} {l₁ l₂ : List (ClientRequest × Bytes)} {r : ClientRequest} {flags : UInt8}
      {content left pad : Bytes} :
      c.block = none → c.bodies = l₁ ++ (r, content ++ left) :: l₂ → pad.length < 256 →
      has flags endStream = false →
      Sends c ⟨.data, flags, r.id, padPayload flags content pad⟩
        { c with bodies := l₁ ++ (r, left) :: l₂ }
  | dataEnd {c : Client} {l₁ l₂ : List (ClientRequest × Bytes)} {r : ClientRequest} {flags : UInt8}
      {content pad : Bytes} :
      c.block = none → c.bodies = l₁ ++ (r, content) :: l₂ → pad.length < 256 →
      has flags endStream = true →
      Sends c ⟨.data, flags, r.id, padPayload flags content pad⟩
        { c with bodies := l₁ ++ l₂, done := c.done ++ [r] }

inductive Finishes : Client → List Frame → List ClientRequest → Prop
  | nil {c : Client} : c.todo = [] → c.block = none → c.bodies = [] → Finishes c [] c.done
  | cons {c c' : Client} {f : Frame} {fs : List Frame} {order : List ClientRequest} :
      Sends c f c' → f.payload.length < 2 ^ 24 → Finishes c' fs order → Finishes c (f :: fs) order

/-- A request whose body is in progress makes place for another one on its stream, or nothing happens. -/
inductive Turns : Client → Client → Prop
  | same (c : Client) : Turns c c
  | reopen {c : Client} {l₁ l₂ : List (ClientRequest × Bytes)} {r r' : ClientRequest} {left : Bytes} :
      c.bodies = l₁ ++ (r, left) :: l₂ → r'.id = r.id →
      Turns c { c with todo := r' :: c.todo, bodies := l₁ ++ l₂ }

/-- `Finishes` with such turns in between. -/
inductive Completes : Client → List Frame → List ClientRequest → Prop
  | nil {c : Client} : c.todo = [] → c.block = none → c.bodies = [] → Completes c [] c.done
  | cons {c c₁ c' : Client} {f : Frame} {fs : List Frame} {order : List ClientRequest} :
      Turns c c₁ → Sends c₁ f c' → f.payload.length < 2 ^ 24 → Completes c' fs order → Completes c (f :: fs) order

variable {c c' : Client} {fs : List Frame} {order : List ClientRequest} {f : Frame}

theorem Finishes.completes (h : Finishes c fs order) :
    Completes c fs order := by
  induction h with
  | nil h1 h2 h3 => exact .nil h1 h2 h3
  | cons hs hl _ ih => exact .cons (.same _) hs hl ih

theorem Turns.done_eq {c₁ : Client} (h : Turns c c₁) : c₁.done = c.done := by
  cases h with
  | same => rfl
  | reopen => rfl

theorem sentBlock_perm (c : Client) (b : HeaderBlock) (endHeaders : Bool) :
    (c.sentBlock b endHeaders).requests.Perm
      (c.todo ++ [b.request] ++ c.bodies.map Prod.fst ++ c.done) := by
  unfold sentBlock requests
  rw [← Multiset.coe_eq_coe]
  split_ifs <;>
    simp only [Option.toList_none, Option.toList_some, map_nil, map_cons,
      ← Multiset.coe_add, ← Multiset.cons_coe, ← Multiset.singleton_add, Multiset.coe_nil] <;>
    abel

theorem endBody_perm {l₁ l₂ : List (ClientRequest × Bytes)} {r : ClientRequest}
    {left : Bytes} (hbs : c.bodies = l₁ ++ (r, left) :: l₂) :
    ({ c with bodies := l₁ ++ l₂, done := c.done ++ [r] } : Client).requests.Perm c.requests := by
  unfold requests
  rw [← Multiset.coe_eq_coe, hbs]
  simp only [map_append, map_cons, ← Multiset.coe_add, ← Multiset.cons_coe,
    ← Multiset.singleton_add, Multiset.coe_nil]
  abel

theorem Sends.perm (h : Sends c f c') : c'.requests.Perm c.requests := by
  cases h with
  | other => exact List.Perm.refl _
  | headers hb ht =>
    refine (sentBlock_perm _ _ _).trans ?_
    unfold requests
    rw [← Multiset.coe_eq_coe, ht, hb]
    simp only [Option.toList_none, map_nil, ← Multiset.coe_add, ← Multiset.cons_coe,
      ← Multiset.singleton_add, Multiset.coe_nil]
    abel
  | continuation hb =>
    refine (sentBlock_perm _ _ _).trans ?_
    unfold requests
    rw [hb]
    exact List.Perm.refl _
  | data hb hd =>
    unfold requests
    rw [hd]
    simp
  | dataEnd hb hd => exact endBody_perm hd

theorem Sends.done_initial (h : Sends c f c') : c.done <+: c'.done := by
  have hb : ∀ {c c' : Client} {b e}, c.done = c'.done → c.done <+: (c'.sentBlock b e).done := by
    intro c c' b e hd
    rw [hd]
    unfold sentBlock
    split_ifs
    · exact prefix_append _ _
    · exact prefix_rfl
    · exact prefix_rfl
  cases h with
  | other => exact prefix_rfl
  | headers => exact hb rfl
  | continuation => exact hb rfl
  | data => exact prefix_rfl
  | dataEnd => exact prefix_append _ _

theorem Sends.parse_header (h : Sends c f c') (hl : f.payload.length < 2 ^ 24) (rest : Bytes) :
    FrameHeader.parse (f.header.write ++ rest) = f.header := by
  refine FrameHeader.parse_write_append f.header rest hl ?_ ?_
  · cases h with
    | other _ hh => exact hh.1
    | headers => exact ClientRequest.id_lt _
    | continuation => exact ClientRequest.id_lt _
    | data => exact ClientRequest.id_lt _
    | dataEnd => exact ClientRequest.id_lt _
  · cases h with
    | other _ hh =>
      obtain ⟨type, flags, id, payload⟩ := f
      cases type with
      | other code => exact FrameType.ofByte_of_lt hh.2
      | _ => rfl
    | headers => rfl
    | continuation => rfl
    | data => rfl
    | dataEnd => rfl

theorem Finishes.perm (h : Finishes c fs order) : order.Perm c.requests := by
  induction h with
  | nil h1 h2 h3 => simp [requests, h1, h2, h3]
  | cons hs _ _ ih => exact ih.trans hs.perm

theorem Completes.done_initial (h : Completes c fs order) : c.done <+: order := by
  induction h with
  | nil => exact prefix_rfl
  | cons ht hs _ _ ih => exact ht.done_eq ▸ hs.done_initial.trans ih

end Client

end Nhttp.Server
