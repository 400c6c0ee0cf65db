import Nhttp.Server.H2.Lock
import Nhttp.Server.H2.Serves

/-!
# Delivery of requests over HTTP/2

* `feed`: a connection together with the octets its client has still to deliver, in any segmentation;
  nothing throws, everything else may interleave in any order.
* `Tracks order s input`: the client has sent what `s` has seen, and `input` completes its requests in the
  given order; `Tracks.feed`: every step keeps this.
-/

namespace Nhttp.Server

open Octets Protocol Http2 FrameFlags

/-! ## Input -/

def framesBytes (fs : List Frame) : Bytes := (fs.map Frame.bytes).flatten

theorem framesBytes_cons (f : Frame) (fs : List Frame) :
    framesBytes (f :: fs) = f.header.write ++ (f.payload ++ framesBytes fs) := by
  simp [framesBytes, Frame.bytes]

/-- A step of a connection whose client has `x.2` still to deliver. -/
def feed (x : H2 × Bytes) (e : Event) : Option (H2 × Bytes) :=
  match e with
  | .recv bs =>
    if bs <+: x.2 ∧ (bs = [] → x.2 = []) then
      (x.1.step (.recv bs)).map fun s => (s, x.2.drop bs.length)
    else none
  | e => if e.fails then none else (x.1.step e).map fun s => (s, x.2)

variable {e : Event} {c₁ : Client}

theorem feed_eq_some {x y : H2 × Bytes} (h : feed x e = some y) :
    e.fails = false ∧ x.1.step e = some y.1 ∧
      ((∃ bs, e = .recv bs ∧ bs ++ y.2 = x.2 ∧ (bs = [] → x.2 = [])) ∨
        (∀ bs, e ≠ .recv bs) ∧ y.2 = x.2) := by
  cases e with
  | recv bs =>
    simp only [feed] at h
    split_ifs at h with hb
    obtain ⟨s, hs, rfl⟩ := Option.map_eq_some_iff.mp h
    obtain ⟨⟨rest, hr⟩, h0⟩ := hb
    refine ⟨rfl, hs, .inl ⟨bs, rfl, ?_, h0⟩⟩
    rw [← hr, List.drop_left]
  | _ =>
    simp only [feed] at h
    split_ifs at h with hf
    obtain ⟨s, hs, rfl⟩ := Option.map_eq_some_iff.mp h
    exact ⟨by simpa using hf, hs, .inr ⟨by simp, rfl⟩⟩

theorem take_of_append_eq {a b c d : Bytes} (h : a ++ b = c ++ d) (hl : c.length ≤ a.length) :
    a.take c.length = c ∧ a.drop c.length ++ b = d := by
  have ht : (a ++ b).take c.length = c := by rw [h, List.take_left]
  have hd : (a ++ b).drop c.length = d := by rw [h, List.drop_left]
  rw [List.take_append_of_le_length hl] at ht
  rw [List.drop_append_of_le_length hl] at hd
  exact ⟨ht, hd⟩

/-! ## Turns of the client -/

theorem Client.Distinct.turns {c : Client} (h : c.Distinct) (ht : c.Turns c₁) : c₁.Distinct := by
  cases ht with
  | same => exact h
  | @reopen l₁ l₂ r r' left hbs hid =>
    have hp : (({ c with todo := r' :: c.todo, bodies := l₁ ++ l₂ } : Client).requests.map ClientRequest.id).Perm
        (c.requests.map ClientRequest.id) := by
      unfold Client.requests
      rw [← Multiset.coe_eq_coe, hbs]
      simp only [List.map_append, List.map_cons, hid, ← Multiset.coe_add, ← Multiset.cons_coe,
        ← Multiset.singleton_add, List.cons_append]
      abel
    exact hp.nodup_iff.mpr h

/-- The connection does not depend on what a client has still to send, and may forget a body. -/
theorem Serves.turns {c : Client} {s : H2} (h : Serves c s) (ht : c.Turns c₁) : Serves c₁ s := by
  cases ht with
  | same => exact h
  | reopen hbs _ =>
    have hdrop := h.dropBody hbs
    exact ⟨hdrop.handler, hdrop.limit, hdrop.calls, hdrop.tasks, hdrop.idle, hdrop.block, hdrop.bodies⟩

/-! ## What the loop expects -/

/-- A DATA frame for the stream object `ref` whose window updates are being sent. -/
structure Closing (order : List ClientRequest) (c : Client) (s : H2) (fh : FrameHeader) (ref : ℕ)
    (fs : List Frame) (l₁ l₂ : List (ClientRequest × Bytes)) (r : ClientRequest) (left : Bytes) :
    Prop where
  block : c.block = none
  bodies : c.bodies = l₁ ++ (r, left) :: l₂
  lookup : s.streams.lookup r.id = some ref
  ending : has fh.flags endStream = true →
    left = [] ∧ Client.Completes { c with bodies := l₁ ++ l₂, done := c.done ++ [r] } fs order
  going : has fh.flags endStream = false → c.Completes fs order

def Expects (order : List ClientRequest) (c : Client) (s : H2) (input : Bytes) : LoopPc → Prop
  | .preface => ∃ fs, c.Completes fs order ∧ input = clientPreface ++ framesBytes fs
  | .header | .sending _ .next => ∃ fs, c.Completes fs order ∧ input = framesBytes fs
  | .payload fh => ∃ f fs, c.Completes (f :: fs) order ∧ fh = f.header ∧
      input = f.payload ++ framesBytes fs
  | .sending _ (.dataStream fh ref) | .sending _ (.dataConnection fh ref) =>
      ∃ fs l₁ l₂ r left, Closing order c s fh ref fs l₁ l₂ r left ∧ input = framesBytes fs
  | .sending _ .goaway => False
  | .done => c.done = order ∧ input = []

/-- **The connection and the rest of the input** are those of a client that completes its requests in order. -/
def Tracks (order : List ClientRequest) (s : H2) (input : Bytes) : Prop :=
  ∃ c, Serves c s ∧ c.Distinct ∧ Expects order c s input s.loop

section Quiet

variable {order : List ClientRequest} {c : Client} {s s' : H2} {input : Bytes}

theorem expects_erase (pc : LoopPc) :
    Expects order c s input pc.erase ↔ Expects order c s input pc := by
  cases pc with
  | sending st k => cases k <;> exact Iff.rfl
  | _ => exact Iff.rfl

theorem Expects.quiet {pc : LoopPc} (h : Expects order c s input pc) (hs : Serves c s)
    (hd : c.Distinct) (hq : Quiet s s') : Expects order c s' input pc := by
  have hc : ∀ {fh ref fs l₁ l₂ r left}, Closing order c s fh ref fs l₁ l₂ r left →
      Closing order c s' fh ref fs l₁ l₂ r left := by
    intro fh ref fs l₁ l₂ r left h
    refine ⟨h.block, h.bodies, ?_, h.ending, h.going⟩
    have hmem : (r, left) ∈ c.bodies := by rw [h.bodies]; simp
    rw [hq.streams _ (hs.no_task (hd.body_not_done hmem))]
    exact h.lookup
  cases pc with
  | sending st k =>
    cases k with
    | dataStream fh ref | dataConnection fh ref =>
      obtain ⟨fs, l₁, l₂, r, left, hcl, hin⟩ := h
      exact ⟨fs, l₁, l₂, r, left, hc hcl, hin⟩
    | _ => exact h
  | _ => exact h

theorem Tracks.quiet (h : Tracks order s input) (hq : Quiet s s')
    (hl : s'.loop.erase = s.loop.erase) : Tracks order s' input := by
  obtain ⟨c, hs, hd, he⟩ := h
  refine ⟨c, hs.quiet hd hq, hd, (expects_erase _).mp ?_⟩
  rw [hl]
  exact (expects_erase _).mpr (he.quiet hs hd hq)

end Quiet

/-! ## Frames -/

section Frames

variable {order : List ClientRequest} {c c' : Client} {s : H2} {fs : List Frame}

theorem tracks_nextFrame (hs : Serves c s) (hd : c.Distinct) (hf : c.Completes fs order) :
    Tracks order s.nextFrame (framesBytes fs) :=
  ⟨c, hs.quiet hd (quiet_of_eq rfl rfl rfl rfl rfl rfl rfl (fun _ => rfl) rfl), hd, fs, hf, rfl⟩

theorem tracks_loopSend_next (hs : Serves c s) (hd : c.Distinct) (hf : c.Completes fs order)
    (f : Frame) : Tracks order (s.loopSend f .next) (framesBytes fs) := by
  refine ⟨c, hs.quiet hd (quiet_loopSend s f .next), hd, ?_⟩
  obtain ⟨lo, wa, st, he⟩ := H2.loopSend_eq s f .next
  exact ⟨fs, hf, rfl⟩

variable {left : Bytes} {l₁ l₂ : List (ClientRequest × Bytes)} {r : ClientRequest} {f : Frame}

theorem tracks_finishData (hs : Serves c s) (hw : s.Wf) (hd : c.Distinct) {fh : FrameHeader} {ref : ℕ}
    (hc : Closing order c s fh ref fs l₁ l₂ r left) :
    Tracks order (s.finishData fh ref) (framesBytes fs) := by
  have hn := hd.body_not_body hc.bodies
  by_cases hf : has fh.flags endStream = true
  · obtain ⟨rfl, hfin⟩ := hc.ending hf
    obtain ⟨s', he, hs'⟩ := hs.finishBody hw hc.block hc.bodies hn hc.lookup hf
    rw [he]
    refine tracks_nextFrame hs' ?_ hfin
    exact ((Client.endBody_perm hc.bodies).map _).nodup_iff.mpr hd
  · rw [H2.finishData, if_neg hf]
    exact tracks_nextFrame hs hd (hc.going (Bool.eq_false_iff.mpr hf))

theorem tracks_harmless (hs : Serves c s) (hd : c.Distinct) (hf : c.Completes fs order)
    (hh : Harmless f) : Tracks order (s.processFrame f.header f.payload) (framesBytes fs) := by
  obtain ⟨type, flags, id, payload⟩ := f
  obtain ⟨-, hh⟩ := hh
  unfold H2.processFrame
  cases type with
  | settings =>
    obtain ⟨hid, hp⟩ := hh
    dsimp only [Frame.header]
    unfold H2.handleSettings
    rw [if_neg (not_not.mpr hid)]
    by_cases ha : has flags ack = true
    · rw [if_pos ha]
      exact tracks_nextFrame hs hd hf
    · rw [if_neg ha, parseSettingsPayload, if_neg (not_not.mpr (hp.resolve_left ha))]
      obtain ⟨w, m, he⟩ := H2.foldl_applySetting_eq s (readSettings payload)
      dsimp only
      rw [he]
      refine tracks_loopSend_next (hs.quiet hd ?_) hd hf _
      exact quiet_of_eq rfl rfl rfl rfl rfl rfl rfl (fun _ => rfl) rfl
  | ping =>
    obtain ⟨hid, hp⟩ := hh
    dsimp only [Frame.header]
    unfold H2.handlePing
    rw [if_neg (not_or.mpr ⟨not_not.mpr hid, not_not.mpr hp⟩)]
    cases has flags ack with
    | true => exact tracks_nextFrame hs hd hf
    | false => exact tracks_loopSend_next hs hd hf _
  | priority => exact tracks_nextFrame hs hd hf
  | other code => exact tracks_nextFrame hs hd hf
  | _ => exact hh.elim

theorem tracks_data (hs : Serves c s) (hw : s.Wf) (hd : c.Distinct) (hb : c.block = none)
    {content payload : Bytes} {flags : UInt8} (hbs : c.bodies = l₁ ++ (r, content ++ left) :: l₂)
    (hp : stripPadding payload (has flags padded) = some content)
    (hend : has flags endStream = true → left = [] ∧
      Client.Completes { c with bodies := l₁ ++ l₂, done := c.done ++ [r] } fs order)
    (hgo : has flags endStream = false →
      Client.Completes { c with bodies := l₁ ++ (r, left) :: l₂ } fs order) :
    Tracks order (s.processFrame ⟨payload.length, .data, flags, r.id⟩ payload) (framesBytes fs) := by
  have hn := hd.body_not_body hbs
  have hd' : ({ c with bodies := l₁ ++ (r, left) :: l₂ } : Client).Distinct := by
    unfold Client.Distinct Client.requests at hd ⊢
    rw [hbs] at hd
    simpa using hd
  obtain ⟨s', ref, he, hl, hs'⟩ := hs.handleData hw hb hbs hn
    ⟨payload.length, .data, flags, r.id⟩ rfl hp
  have hc : Closing order { c with bodies := l₁ ++ (r, left) :: l₂ } s'
      ⟨payload.length, .data, flags, r.id⟩ ref fs l₁ l₂ r left :=
    ⟨hb, rfl, hl, hend, hgo⟩
  unfold H2.processFrame
  rw [he]
  dsimp only
  split_ifs
  · refine ⟨_, hs'.quiet hd' (quiet_loopSend s' _ _), hd', ?_⟩
    obtain ⟨lo, wa, st, hse⟩ := H2.loopSend_eq s'
      ⟨.windowUpdate, 0, r.id, writeWindowUpdatePayload payload.length⟩
      (.dataStream ⟨payload.length, .data, flags, r.id⟩ ref)
    rw [hse]
    exact ⟨fs, l₁, l₂, r, left, ⟨hc.block, hc.bodies, hc.lookup, hc.ending, hc.going⟩, rfl⟩
  · exact tracks_finishData hs' (hw.handleData he).1 hd' hc

theorem tracks_processFrame (hs : Serves c s) (hw : s.Wf) (hd : c.Distinct)
    (hsend : c.Sends f c') (hf : c'.Completes fs order) :
    Tracks order (s.processFrame f.header f.payload) (framesBytes fs) := by
  have hd' := hd.sends hsend
  cases hsend with
  | other _ hh => exact tracks_harmless hs hd hf hh
  | @headers l₁ l₂ r flags block left fields pad hb ht he hfl hpl hes heh =>
    have hs0 : Serves { c with todo := l₁ ++ l₂ } s :=
      ⟨hs.handler, hs.limit, hs.calls, hs.tasks, hs.idle, hs.block, hs.bodies⟩
    obtain ⟨s', hh, hs'⟩ := hs0.handleHeaders hw hb (hd.todo_not_body ht)
      (Frame.header ⟨.headers, _, _, _⟩) rfl (headersFragment_padPayload _ _ hfl hpl) he hes heh
    unfold H2.processFrame
    dsimp only [Frame.header] at hh ⊢
    rw [hh]
    exact tracks_nextFrame hs' hd' hf
  | continuation hb he heh =>
    obtain ⟨s', hh, hs'⟩ := hs.handleContinuation hw hb (hd.block_not_body hb)
      (Frame.header ⟨.continuation, _, _, _⟩) rfl he heh
    unfold H2.processFrame
    rw [hh]
    exact tracks_nextFrame hs' hd' hf
  | data hb hbs hpl hfl =>
    refine tracks_data hs hw hd hb hbs (stripPadding_padPayload _ _ hpl) (fun h => ?_) (fun _ => hf)
    rw [hfl] at h
    cases h
  | @dataEnd l₁ l₂ r flags content pad hb hbs hpl hfl =>
    have hbs' : c.bodies = l₁ ++ (r, content ++ []) :: l₂ := by
      rw [List.append_nil]
      exact hbs
    refine tracks_data hs hw hd hb hbs' (stripPadding_padPayload _ _ hpl) (fun _ => ⟨rfl, hf⟩)
      (fun h => ?_)
    rw [hfl] at h
    cases h

end Frames

/-! ## The loop -/

section Loop

variable {order : List ClientRequest} {s : H2}

theorem readBuffer_finishData (s : H2) (fh : FrameHeader) (ref : ℕ) :
    (s.finishData fh ref).readBuffer = s.readBuffer := by
  obtain ⟨s₁, hw, he⟩ := H2.work_finishData s fh fh ref 0
  rw [he]
  exact (congrArg H2.readBuffer hw.rest_eq :)

theorem readBuffer_loopSend (s : H2) (f : Frame) (k : LoopCont) :
    (s.loopSend f k).readBuffer = s.readBuffer := by
  obtain ⟨lo, wa, st, he⟩ := H2.loopSend_eq s f k
  rw [he]

theorem readBuffer_frameMove {s' : H2} {fh : FrameHeader} {payload : Bytes}
    (h : H2.FrameMove s fh payload s') : s'.readBuffer = s.readBuffer := by
  obtain ⟨r, s₁, hh, hl⟩ := h.phases
  exact H2.readBuffer_of_phases hh hl

theorem Tracks.recvEnd (h : Tracks order s s.readBuffer) (hlt : s.readBuffer.length < s.wanted) :
    Tracks order { s with loop := .done } s.readBuffer := by
  obtain ⟨c, hs, hd, he⟩ := h
  refine ⟨c, hs.quiet hd (quiet_of_eq rfl rfl rfl rfl rfl rfl rfl (fun _ => rfl) rfl), hd, ?_⟩
  unfold H2.wanted at hlt
  cases hl : s.loop with
  | preface =>
    rw [hl] at he hlt
    obtain ⟨fs, -, hin⟩ := he
    have := congrArg List.length hin
    rw [List.length_append] at this
    dsimp only at hlt
    omega
  | header =>
    rw [hl] at he hlt
    obtain ⟨fs, hf, hin⟩ := he
    cases hf with
    | nil => exact ⟨rfl, hin⟩
    | cons =>
      have := congrArg List.length hin
      rw [framesBytes_cons, List.length_append, FrameHeader.length_write] at this
      dsimp only at hlt
      omega
  | payload fh =>
    rw [hl] at he hlt
    obtain ⟨f, fs, -, rfl, hin⟩ := he
    have := congrArg List.length hin
    rw [List.length_append] at this
    dsimp only [Frame.header] at hlt
    omega
  | _ =>
    rw [hl] at hlt
    cases hlt

theorem Tracks.loopStep {s' : H2} {rest : Bytes} (h : Tracks order s (s.readBuffer ++ rest))
    (hw : s.Wf) (hs : s.loopStep = some s') : Tracks order s' (s'.readBuffer ++ rest) := by
  obtain ⟨c, hc, hd, he⟩ := h
  have hq : ∀ n pc, Quiet s { (s.takeBuffer n).2 with loop := pc } := fun n pc =>
    quiet_of_eq rfl rfl rfl rfl rfl rfl rfl (fun _ => rfl) rfl
  have hq' : ∀ n, Quiet s (s.takeBuffer n).2 := fun n =>
    quiet_of_eq rfl rfl rfl rfl rfl rfl rfl (fun _ => rfl) rfl
  unfold H2.loopStep at hs
  split_ifs at hs with hlt
  unfold H2.wanted at hlt
  cases hl : s.loop with
  | preface =>
    rw [hl] at hs he hlt
    obtain ⟨fs, hf, hin⟩ := he
    obtain ⟨ht, hdr⟩ := take_of_append_eq hin (Nat.le_of_not_lt hlt)
    dsimp only [H2.takeBuffer] at hs
    rw [if_pos ht] at hs
    cases hs
    rw [readBuffer_loopSend, hdr]
    exact tracks_loopSend_next (hc.quiet hd (hq' _)) hd hf _
  | header =>
    rw [hl] at hs he hlt
    obtain ⟨fs, hf, hin⟩ := he
    have hlen := FrameHeader.length_parse_lt (s.readBuffer.take FrameHeader.wireSize)
    dsimp only [H2.takeBuffer] at hs
    rw [if_neg (by omega)] at hs
    cases hs
    refine ⟨c, hc.quiet hd (hq _ _), hd, ?_⟩
    cases hf with
    | nil =>
      obtain ⟨hnil, -⟩ := List.append_eq_nil_iff.mp hin
      rw [hnil] at hlt
      exact absurd (by decide) hlt
    | @cons _ c₁ c' f fs _ hturn hsend hpl hfin =>
      rw [framesBytes_cons] at hin
      obtain ⟨ht, hdr⟩ := take_of_append_eq hin (Nat.le_of_not_lt hlt)
      refine ⟨f, fs, .cons hturn hsend hpl hfin, ?_, hdr⟩
      rw [show FrameHeader.wireSize = f.header.write.length from rfl, ht]
      have := hsend.parse_header hpl []
      rwa [List.append_nil] at this
  | payload fh =>
    rw [hl] at hs he hlt
    obtain ⟨f, fs, hf, rfl, hin⟩ := he
    obtain ⟨ht, hdr⟩ := take_of_append_eq hin (Nat.le_of_not_lt hlt)
    cases hf with
    | cons hturn hsend hpl hfin =>
      dsimp only [H2.takeBuffer] at hs
      cases hs
      rw [readBuffer_frameMove (H2.frameMove_processFrame _ _ _),
        show f.header.length = f.payload.length from rfl, hdr, ht]
      exact tracks_processFrame ((hc.turns hturn).quiet (hd.turns hturn) (hq' f.payload.length))
        (hw.mono rfl (fun _ he => he) rfl (.inr rfl)) (hd.turns hturn) hsend hfin
  | sending st k =>
    rw [hl] at hs he
    cases st with
    | written =>
      cases hs
      cases k with
      | next =>
        obtain ⟨fs, hf, hin⟩ := he
        rw [show (s.continueLoop .next).readBuffer ++ rest = framesBytes fs from hin]
        exact tracks_nextFrame hc hd hf
      | dataStream fh ref =>
        obtain ⟨fs, l₁, l₂, r, left, hcl, hin⟩ := he
        dsimp only [H2.continueLoop]
        rw [readBuffer_loopSend, hin]
        refine ⟨c, hc.quiet hd (quiet_loopSend s _ _), hd, ?_⟩
        obtain ⟨lo, wa, st, hse⟩ := H2.loopSend_eq s
          ⟨.windowUpdate, 0, 0, writeWindowUpdatePayload fh.length⟩ (.dataConnection fh ref)
        rw [hse]
        exact ⟨fs, l₁, l₂, r, left, ⟨hcl.block, hcl.bodies, hcl.lookup, hcl.ending, hcl.going⟩, rfl⟩
      | dataConnection fh ref =>
        obtain ⟨fs, l₁, l₂, r, left, hcl, hin⟩ := he
        dsimp only [H2.continueLoop]
        rw [readBuffer_finishData, hin]
        exact tracks_finishData hc hw hd hcl
      | goaway => exact he.elim
    | _ => cases hs
  | done =>
    rw [hl] at hs
    cases hs

end Loop

/-! ## Steps -/

/-- **Every step keeps track.** -/
theorem Tracks.feed {order : List ClientRequest} {s s' : H2} {rest rest' : Bytes}
    (h : Tracks order s (s.readBuffer ++ rest)) (hw : s.Wf)
    (hf : Server.feed (s, rest) e = some (s', rest')) :
    Tracks order s' (s'.readBuffer ++ rest') := by
  obtain ⟨hfail, hs, ⟨bs, rfl, hrest, h0⟩ | ⟨hne, hrest⟩⟩ := feed_eq_some hf
  · simp only [H2.step] at hs
    split_ifs at hs with hlt hbs
    · cases hs
      obtain rfl := hbs
      obtain rfl : rest = [] := h0 rfl
      obtain rfl : rest' = [] := hrest
      rw [List.append_nil] at h ⊢
      exact h.recvEnd (by omega)
    · cases hs
      rw [← show bs ++ rest' = rest from hrest, ← List.append_assoc] at h
      exact h.quiet (quiet_of_eq rfl rfl rfl rfl rfl rfl rfl (fun _ => rfl) rfl) rfl
  · obtain rfl : rest' = rest := hrest
    cases e with
    | recv bs => exact absurd rfl (hne bs)
    | loop => exact h.loopStep hw hs
    | write who k =>
      have hb := H2.bare_writeStep hs
      have hr : s'.readBuffer = s.readBuffer := (congrArg H2.readBuffer hb :)
      rw [hr]
      exact h.quiet (quiet_of_bare _ hb) (congrArg H2.loop hb :)
    | recvFail | writeFail | handlerFail | bodyFail => cases hfail
    | handlerReturn | bodyRead | resume =>
      cases H2.move_of_step hs with
      | task _ t z hz _ hm =>
        rw [hm.loop_eq.2]
        exact h.quiet (quiet_taskMove hw hz hm) (congrArg LoopPc.erase hm.loop_eq.1)

end Nhttp.Server
