import Nhttp.Server.H2.Progress

/-!
# Requests with trailers

* `Message`: a request and its trailer fields, if it has any.
* `MessageClient.Sends`: the frames of a client that sends messages.
* `MessageClient.view`: what the connection takes such a client for. The trailers are a request of their own,
  and the one they belong to is never completed.
* **`trailers_call_iff`**: the handler is called for a message exactly if there are no trailers.
-/

namespace Nhttp.Server

open Octets Protocol Http2 FrameFlags List

/-! ## Messages -/

structure Trailers where
  fields : HeaderList
  fields_lt : ∀ f ∈ fields, f.name.length < 2 ^ 60 ∧ f.value.length < 2 ^ 60
  regular : ∀ f ∈ fields, f.name.head? ≠ some 0x3a

structure Message where
  request : ClientRequest
  trailers : Option Trailers
  method_ne_nil : (requestOf request.fields).resource.method.name ≠ []

def Trailers.asRequest (t : Trailers) (r : ClientRequest) : ClientRequest where
  id := r.id
  fields := t.fields
  body := []
  id_ne_zero := r.id_ne_zero
  id_lt := r.id_lt
  fields_lt := t.fields_lt
  body_le := Nat.zero_le _

def blockOf (r : ClientRequest) : Option Trailers → ClientRequest
  | none => r
  | some t => t.asRequest r

/-- What the connection takes a message for. -/
def Message.seen (m : Message) : ClientRequest := blockOf m.request m.trailers

structure MessageBlock where
  message : Message
  trailers : Option Trailers
  left : Bytes
  endStream : Bool
  final : endStream = true → message.trailers = trailers
  first : endStream = false → trailers = none

/-! ## Clients -/

/-- What a client has sent: as `Client`, with messages. -/
structure MessageClient where
  todo : List Message
  block : Option MessageBlock := none
  bodies : List (Message × Bytes) := []
  done : List Message := []

namespace MessageClient

def sentBlock (c : MessageClient) (b : MessageBlock) (endHeaders : Bool) : MessageClient :=
  if endHeaders then
    if b.endStream then { c with block := none, done := c.done ++ [b.message] }
    else { c with block := none, bodies := (b.message, b.message.request.body) :: c.bodies }
  else { c with block := some b }

/-- **The frames a client may send next.** END_STREAM is on the last frame of a message. -/
inductive Sends : MessageClient → Frame → MessageClient → Prop
  | other {c : MessageClient} {f : Frame} : c.block = none → Harmless f → Sends c f c
  | headers {c : MessageClient} {l₁ l₂ : List Message} {m : Message} {flags : UInt8}
      {block left fields pad : Bytes} :
      c.block = none → c.todo = l₁ ++ m :: l₂ → encode m.request.fields = block ++ left →
      fields.length = 5 → pad.length < 256 →
      (has flags endStream = true → m.request.body = []) →
      (hend : has flags endStream = true → m.trailers = none) →
      (has flags endHeaders = true → left = []) →
      Sends c
        ⟨.headers, flags, m.request.id, padPayload flags (withPriority flags fields block) pad⟩
        (sentBlock { c with todo := l₁ ++ l₂ }
          ⟨m, none, left, has flags endStream, hend, fun _ => rfl⟩
          (has flags endHeaders))
  | continuation {c : MessageClient} {b : MessageBlock} {flags : UInt8} {block left : Bytes} :
      c.block = some b → b.left = block ++ left →
      (has flags endHeaders = true → left = []) →
      Sends c ⟨.continuation, flags, b.message.request.id, block⟩
        (c.sentBlock { b with left := left } (has flags endHeaders))
  | data {c : MessageClient} {l₁ l₂ : List (Message × Bytes)} {m : Message} {flags : UInt8}
      {content left pad : Bytes} :
      c.block = none → c.bodies = l₁ ++ (m, content ++ left) :: l₂ → pad.length < 256 →
      has flags endStream = false →
      Sends c ⟨.data, flags, m.request.id, padPayload flags content pad⟩
        { c with bodies := l₁ ++ (m, left) :: l₂ }
  | dataEnd {c : MessageClient} {l₁ l₂ : List (Message × Bytes)} {m : Message} {flags : UInt8}
      {content pad : Bytes} :
      c.block = none → c.bodies = l₁ ++ (m, content) :: l₂ → pad.length < 256 →
      has flags endStream = true → m.trailers = none →
      Sends c ⟨.data, flags, m.request.id, padPayload flags content pad⟩
        { c with bodies := l₁ ++ l₂, done := c.done ++ [m] }
  | trailers {c : MessageClient} {l₁ l₂ : List (Message × Bytes)} {m : Message} {t : Trailers} {flags : UInt8}
      {block left fields pad : Bytes} :
      c.block = none → c.bodies = l₁ ++ (m, []) :: l₂ → (ht : m.trailers = some t) →
      encode t.fields = block ++ left → fields.length = 5 → pad.length < 256 →
      has flags endStream = true →
      (has flags endHeaders = true → left = []) →
      Sends c
        ⟨.headers, flags, m.request.id, padPayload flags (withPriority flags fields block) pad⟩
        (sentBlock { c with bodies := l₁ ++ l₂ } ⟨m, some t, left, true, fun _ => ht, nofun⟩
          (has flags endHeaders))

inductive Finishes : MessageClient → List Frame → List Message → Prop
  | nil {c : MessageClient} : c.todo = [] → c.block = none → c.bodies = [] → Finishes c [] c.done
  | cons {c c' : MessageClient} {f : Frame} {fs : List Frame} {order : List Message} :
      Sends c f c' → f.payload.length < 2 ^ 24 → Finishes c' fs order → Finishes c (f :: fs) order

def messages (c : MessageClient) : List Message :=
  c.todo ++ c.block.toList.map MessageBlock.message ++ c.bodies.map Prod.fst ++ c.done

theorem sentBlock_perm (c : MessageClient) (b : MessageBlock) (endHeaders : Bool) :
    (c.sentBlock b endHeaders).messages.Perm (c.todo ++ [b.message] ++ c.bodies.map Prod.fst ++ c.done) := by
  unfold sentBlock messages
  rw [← Multiset.coe_eq_coe]
  split_ifs <;>
    simp only [Option.toList_none, Option.toList_some, map_nil, map_cons,
      ← Multiset.coe_add, ← Multiset.cons_coe, ← Multiset.singleton_add, Multiset.coe_nil] <;>
    abel

variable {c c' : MessageClient} {f : Frame} {fs : List Frame} {order : List Message}

theorem Sends.perm (h : Sends c f c') : c'.messages.Perm c.messages := by
  cases h with
  | other => exact List.Perm.refl _
  | headers hb ht =>
    refine (sentBlock_perm _ _ _).trans ?_
    unfold messages
    rw [← Multiset.coe_eq_coe, ht, hb]
    simp only [Option.toList_none, map_nil, ← Multiset.coe_add, ← Multiset.cons_coe,
      ← Multiset.singleton_add, Multiset.coe_nil]
    abel
  | continuation hb =>
    refine (sentBlock_perm _ _ _).trans ?_
    unfold messages
    rw [hb]
    exact List.Perm.refl _
  | data hb hd =>
    unfold messages
    rw [hd]
    simp
  | dataEnd hb hd =>
    unfold messages
    rw [← Multiset.coe_eq_coe, hd]
    simp only [map_append, map_cons, ← Multiset.coe_add, ← Multiset.cons_coe,
      ← Multiset.singleton_add, Multiset.coe_nil]
    abel
  | trailers hb hd =>
    refine (sentBlock_perm _ _ _).trans ?_
    unfold messages
    rw [← Multiset.coe_eq_coe, hd, hb]
    simp only [Option.toList_none, map_nil, map_append, map_cons, ← Multiset.coe_add,
      ← Multiset.cons_coe, ← Multiset.singleton_add, Multiset.coe_nil]
    abel

theorem Finishes.perm (h : Finishes c fs order) :
    order.Perm c.messages := by
  induction h with
  | nil h1 h2 h3 => simp [messages, h1, h2, h3]
  | cons hs _ _ ih => exact ih.trans hs.perm

/-! ## What the connection takes it for -/

def viewBlock (b : MessageBlock) : HeaderBlock := ⟨blockOf b.message.request b.trailers, b.left, b.endStream⟩

def viewBody (p : Message × Bytes) : ClientRequest × Bytes := (p.1.request, p.2)

def view (c : MessageClient) : Client where
  todo := c.todo.map Message.request
  block := c.block.map viewBlock
  bodies := c.bodies.map viewBody
  done := c.done.map Message.seen

theorem view_sentBlock (c : MessageClient) (b : MessageBlock) (endHeaders : Bool) :
    (c.sentBlock b endHeaders).view = c.view.sentBlock (viewBlock b) endHeaders := by
  obtain ⟨m, t, left, es, final, first⟩ := b
  unfold sentBlock Client.sentBlock
  cases endHeaders with
  | false => rfl
  | true =>
    cases es with
    | false =>
      obtain rfl := first rfl
      rfl
    | true =>
      obtain rfl := final rfl
      simp [view, viewBlock, Message.seen]

theorem view_bodies {l₁ l₂ : List (Message × Bytes)} {p : Message × Bytes}
    (h : c.bodies = l₁ ++ p :: l₂) : c.view.bodies = l₁.map viewBody ++ viewBody p :: l₂.map viewBody := by
  unfold view
  rw [h, map_append, map_cons]

/-- **A frame of the client**, as the connection takes it. -/
theorem Sends.view (h : Sends c f c') :
    ∃ c₁, c.view.Turns c₁ ∧ c₁.Sends f c'.view := by
  cases h with
  | other hb hh => exact ⟨_, .same _, .other (by rw [MessageClient.view, hb]; rfl) hh⟩
  | @headers l₁ l₂ m flags block left fields pad hb ht he hfl hpl hes hend heh =>
    refine ⟨_, .same _, ?_⟩
    rw [view_sentBlock]
    have htodo : c.view.todo = l₁.map Message.request ++ m.request :: l₂.map Message.request := by
      unfold MessageClient.view
      rw [ht, map_append, map_cons]
    have := Client.Sends.headers (c := c.view) (r := m.request) (by rw [MessageClient.view, hb]; rfl) htodo he hfl
      hpl hes heh
    rw [← map_append] at this
    exact this
  | @continuation b flags block left hb he heh =>
    refine ⟨_, .same _, ?_⟩
    rw [view_sentBlock]
    have hid : (viewBlock b).request.id = b.message.request.id := by
      unfold viewBlock blockOf
      cases b.trailers with
      | none => rfl
      | some t => rfl
    have := @Client.Sends.continuation c.view (viewBlock b) flags block left
      (by rw [MessageClient.view, hb]; rfl) he heh
    rw [hid] at this
    exact this
  | @data l₁ l₂ m flags content left pad hb hbs hpl hfl =>
    refine ⟨_, .same _, ?_⟩
    have := Client.Sends.data (c := c.view) (by rw [MessageClient.view, hb]; rfl) (view_bodies hbs) hpl hfl
    unfold MessageClient.view at this ⊢
    simpa [viewBody] using this
  | @dataEnd l₁ l₂ m flags content pad hb hbs hpl hfl ht =>
    refine ⟨_, .same _, ?_⟩
    have := Client.Sends.dataEnd (c := c.view) (by rw [MessageClient.view, hb]; rfl) (view_bodies hbs) hpl hfl
    unfold MessageClient.view at this ⊢
    simpa [viewBody, Message.seen, ht, blockOf] using this
  | @trailers l₁ l₂ m t flags block left fields pad hb hbs ht he hfl hpl hes heh =>
    have hturn : c.view.Turns { c.view with
        todo := t.asRequest m.request :: c.view.todo
        bodies := (l₁ ++ l₂).map viewBody } := by
      rw [map_append]
      exact .reopen (view_bodies hbs) rfl
    refine ⟨_, hturn, ?_⟩
    rw [view_sentBlock]
    have := @Client.Sends.headers { c.view with
        todo := t.asRequest m.request :: c.view.todo
        bodies := (l₁ ++ l₂).map viewBody } [] c.view.todo (t.asRequest m.request) flags block left
      fields pad (by rw [MessageClient.view, hb]; rfl) rfl he hfl hpl (fun _ => rfl) heh
    rw [hes] at this
    exact this

theorem Finishes.view (h : Finishes c fs order) :
    c.view.Completes fs (order.map Message.seen) := by
  induction h with
  | @nil c h1 h2 h3 =>
    refine .nil ?_ ?_ ?_
    · exact congrArg (List.map Message.request) h1
    · exact congrArg (Option.map viewBlock) h2
    · exact congrArg (List.map viewBody) h3
  | cons hs hl _ ih =>
    obtain ⟨c₁, hturn, hs'⟩ := hs.view
    exact .cons hturn hs' hl ih

end MessageClient

/-! ## The calls of the handler -/

theorem Message.seen_id (m : Message) : m.seen.id = m.request.id := by
  unfold Message.seen blockOf
  cases m.trailers with
  | none => rfl
  | some t => rfl

theorem Trailers.method_eq_nil (t : Trailers) : (requestOf t.fields).resource.method.name = [] := by
  have hnone : lastValue t.fields (ascii ":method") = none := by
    unfold lastValue
    rw [filter_eq_nil_iff.mpr, getLast?_nil, Option.map_none]
    intro f hf hname
    refine t.regular f hf ?_
    rw [of_decide_eq_true hname]
    rfl
  unfold requestOf
  rw [hnone]
  rfl

theorem Message.seen_call_iff (m : Message) : m.seen.call = m.request.call ↔ m.trailers = none := by
  unfold Message.seen
  cases ht : m.trailers with
  | none => exact iff_of_true rfl rfl
  | some t =>
    refine iff_of_false (fun h => ?_) (Option.some_ne_none t)
    have hreq : requestOf t.fields = requestOf m.request.fields := congrArg (fun x => x.2.1) h
    exact m.method_ne_nil (by rw [← hreq, t.method_eq_nil])

variable {order : List Message}

theorem filter_calls (hd : (order.map fun m => m.request.id).Nodup) {m : Message} (hm : m ∈ order) :
    (order.map fun m => m.seen.call).filter (fun call => call.1 = m.request.id) = [m.seen.call] := by
  induction order with
  | nil => cases hm
  | cons m' order ih =>
    rw [map_cons, nodup_cons] at hd
    rw [map_cons, filter_cons]
    obtain rfl | hm := mem_cons.mp hm
    · have hrest : (order.map fun m => m.seen.call).filter (fun call => call.1 = m.request.id) = [] := by
        refine filter_eq_nil_iff.mpr fun call hcall he => hd.1 ?_
        obtain ⟨q, hq, rfl⟩ := mem_map.mp hcall
        exact mem_map.mpr ⟨q, hq, q.seen_id.symm.trans (of_decide_eq_true he)⟩
      rw [if_pos (show decide (m.seen.call.1 = m.request.id) = true from decide_eq_true m.seen_id), hrest]
    · have hne : ¬m'.seen.call.1 = m.request.id := by
        intro he
        exact hd.1 (mem_map.mpr ⟨m, hm, he.symm.trans m'.seen_id⟩)
      rw [if_neg (by simpa using hne)]
      exact ih hd.2 hm

theorem delivers_messages {msgs : List Message} {fs : List Frame} {b rest rest' : Bytes} {es : List Event}
    {s : H2} (hd : (msgs.map fun m => m.request.id).Nodup) (hf : MessageClient.Finishes { todo := msgs } fs order)
    (hb : b ++ rest = clientPreface ++ framesBytes fs)
    (hx : Run.Exec feed (fun _ _ => True) (H2.start b, rest) es (s, rest')) :
    Delivers (order.map Message.seen) (s, rest') := by
  have hids : ((msgs.map Message.request).map ClientRequest.id).Nodup := by rwa [map_map]
  exact hx.inv (fun _ _ _ _ hs h => h.feed hs) (delivers_start hids hf.view hb)

/-- **Requests with trailers.** When `run` returns, the handler has been called once for every message; the call is that
of the request exactly if the message has no trailers, and otherwise one with the trailers for headers, and no body. -/
theorem trailers_call_iff {msgs order : List Message} {fs : List Frame} {b rest rest' : Bytes}
    {es : List Event} {s : H2} (hd : (msgs.map fun m => m.request.id).Nodup)
    (hf : MessageClient.Finishes { todo := msgs } fs order)
    (hb : b ++ rest = clientPreface ++ framesBytes fs)
    (hx : Run.Exec feed (fun _ _ => True) (H2.start b, rest) es (s, rest')) :
    (∃ es' y, Run.Exec feed (fun _ e => e.onWire = true) (s, rest') es' y ∧ y.1.loop = .done) ∧
      (s.loop = .done → ∀ m ∈ msgs,
        ((s.handlerCalls.filter fun call => call.1 = m.request.id) = [m.request.call] ↔ m.trailers = none) ∧
        ∀ t, m.trailers = some t →
          (s.handlerCalls.filter fun call => call.1 = m.request.id) = [(m.request.id, requestOf t.fields, [])]) := by
  have hperm : order.Perm msgs := by simpa [MessageClient.messages] using hf.perm
  obtain ⟨-, hcalls, es', y, hy, hl, -⟩ := (delivers_messages hd hf hb hx).calls
  refine ⟨⟨es', y, hy, hl⟩, fun hdone m hm => ?_⟩
  have hone : (s.handlerCalls.filter fun call => call.1 = m.request.id) = [m.seen.call] := by
    rw [hcalls hdone, map_map]
    exact filter_calls ((hperm.map _).nodup_iff.mpr hd) (hperm.mem_iff.mpr hm)
  rw [hone, singleton_inj]
  refine ⟨m.seen_call_iff, fun t ht => ?_⟩
  rw [singleton_inj, Message.seen, ht]
  rfl

def postMessage : Message where
  request := postRequest
  trailers := some ⟨[⟨ascii "sum", ascii "6"⟩], by decide, by decide⟩
  method_ne_nil := by decide

def trailerFrames : List Frame :=
  [⟨.headers, 0x4, 1, padPayload 0x4 (withPriority 0x4 [0, 0, 0, 0, 0] (encode postRequest.fields)) []⟩,
    ⟨.data, 0, 1, padPayload 0 [1, 2, 3] []⟩,
    ⟨.headers, 0x5, 1, padPayload 0x5 (withPriority 0x5 [0, 0, 0, 0, 0] (encode [⟨ascii "sum", ascii "6"⟩])) []⟩]

theorem finishes_trailerFrames :
    MessageClient.Finishes { todo := [postMessage] } trailerFrames [postMessage] := by
  have hlen : ∀ f ∈ trailerFrames, f.payload.length < 2 ^ 24 := by decide +kernel
  refine .cons (@MessageClient.Sends.headers _ [] _ postMessage _ _ [] _ _ rfl rfl (append_nil _).symm rfl
    (by decide) (by decide) (by decide) (fun _ => rfl)) (hlen _ (by simp [trailerFrames])) ?_
  refine .cons (@MessageClient.Sends.data _ [] [] postMessage _ _ [] _ rfl rfl (by decide) (by decide))
    (hlen _ (by simp [trailerFrames])) ?_
  refine .cons (@MessageClient.Sends.trailers _ [] [] postMessage _ _ _ [] _ _ rfl rfl rfl (append_nil _).symm
    rfl (by decide) (by decide) (fun _ => rfl)) (hlen _ (by simp [trailerFrames])) ?_
  exact .nil rfl rfl rfl

/-- From the start, when the listener has read the preface, to the end. -/
theorem trailers_call_post :
    ∃ es y, Run.Exec feed (fun _ _ => True) (H2.start clientPreface, framesBytes trailerFrames) es y ∧
      y.1.loop = .done ∧ ((y.1.handlerCalls.filter fun call => call.1 = postMessage.request.id) =
        [postMessage.request.call] ↔ postMessage.trailers = none) := by
  obtain ⟨⟨es, y, hy, hl⟩, -⟩ := trailers_call_iff (by decide) finishes_trailerFrames rfl (.nil _)
  have hx := hy.mono fun _ _ _ => trivial
  exact ⟨es, y, hx, hl,
    ((trailers_call_iff (by decide) finishes_trailerFrames rfl hx).2 hl postMessage (mem_singleton_self _)).1⟩

/-- The handler is called with the trailer field for the only header, without a method, a path and a body. -/
theorem trailers_replace_request :
    ∃ es y, Run.Exec feed (fun _ e => Event.onWire e = true) (H2.start clientPreface, framesBytes trailerFrames) es y ∧
      y.1.loop = .done ∧ y.1.handlerCalls =
        [(1, ⟨{ httpMajor := 2, httpMinor := 0 }, [⟨ascii "sum", ascii "6"⟩], []⟩, [])] ∧
      y.1.handlerCalls ≠ [postRequest.call] := by
  obtain ⟨-, -, es, y, hy, hl, hcalls⟩ :=
    (delivers_messages (by decide) finishes_trailerFrames rfl (.nil _)).calls
  refine ⟨es, y, hy, hl, hcalls, fun h => ?_⟩
  have hbody : ([] : Bytes) = [1, 2, 3] := congrArg (fun x => x.2.2) (singleton_inj.mp (hcalls.symm.trans h))
  cases hbody

end Nhttp.Server
