import Nhttp.Server.H2.Continuation
import Nhttp.Server.H2.Lock

/-!
# Credit for received DATA frames

`handle_data` gives the length of a DATA frame back to the client, but only if the map knows the stream.

* `creditSent`: the increments of the connection's window sent so far; `dataIn`: the lengths received.
* **`creditSent_eq_dataIn_iff`**: between frames, everything has been given back if and only if every
  DATA frame of the run, unless empty, came on a stream in the map.
-/

open List

namespace Nhttp.Http2

open Octets

def Frame.connectionIncrement (f : Frame) : ℕ :=
  if f.type = .windowUpdate ∧ f.streamId = 0 then (parseWindowUpdatePayload f.payload).getD 0 else 0

variable {n : ℕ} {f : Frame}

theorem parse_writeWindowUpdatePayload (h : n < 2 ^ 31) :
    parseWindowUpdatePayload (writeWindowUpdatePayload n) = some n := by
  have hm : n % 2 ^ 31 = n := Nat.mod_eq_of_lt h
  have hl : (writeWindowUpdatePayload n).length = 4 := rfl
  rw [parseWindowUpdatePayload, if_neg (not_not.mpr hl), writeWindowUpdatePayload, hm,
    readNumber_writeU32 (by omega), hm]

theorem Frame.connectionIncrement_of_type (h : f.type ≠ .windowUpdate) :
    f.connectionIncrement = 0 := by
  simp [connectionIncrement, h]

theorem Frame.connectionIncrement_of_streamId (h : f.streamId ≠ 0) :
    f.connectionIncrement = 0 := by
  simp [connectionIncrement, h]

theorem Frame.connectionIncrement_update (h : n < 2 ^ 31) :
    connectionIncrement ⟨.windowUpdate, 0, 0, writeWindowUpdatePayload n⟩ = n := by
  simp [connectionIncrement, parse_writeWindowUpdatePayload h]

end Nhttp.Http2

namespace Nhttp.Server

open Octets Protocol Http2

namespace H2

/-- The increments of the connection's window handed to `send_frame`. -/
def creditSent (s : H2) : ℕ := (s.frames.map Frame.connectionIncrement).sum

def dataIn (s : H2) (es : List Event) : ℕ :=
  (((s.acceptedIn es).filter fun fh => fh.type = .data).map FrameHeader.length).sum

def KnownData (s : H2) : Event → Prop :=
  s.OnFrame fun fh => fh.type = .data → 0 < fh.length → s.streams.lookup fh.streamId ≠ none

instance (s : H2) (e : Event) : Decidable (s.KnownData e) := inferInstanceAs (Decidable (s.OnFrame _ e))

def dataOf (s s' : H2) : ℕ :=
  (((accepted s s').filter fun fh => fh.type = .data).map FrameHeader.length).sum

def ignoredOf (s s' : H2) : ℕ :=
  (((accepted s s').filter fun fh => fh.type = .data ∧ s.streams.lookup fh.streamId = none).map
    FrameHeader.length).sum

def ignoredIn (s : H2) (es : List Event) : ℕ :=
  (Run.collect H2.step (fun s s' => [ignoredOf s s']) s es).sum

end H2

def LoopPc.pendingCredit : LoopPc → ℕ
  | .sending _ (.dataStream fh _) => fh.length
  | _ => 0

def LoopPc.frame : LoopPc → Option FrameHeader
  | .payload fh | .sending _ (.dataStream fh _) => some fh
  | _ => none

theorem LoopPc.pendingCredit_erase (pc : LoopPc) : pc.erase.pendingCredit = pc.pendingCredit := by
  cases pc with
  | sending st k => cases k <;> rfl
  | _ => rfl

theorem LoopPc.frame_erase (pc : LoopPc) : pc.erase.frame = pc.frame := by
  cases pc with
  | sending st k => cases k <;> rfl
  | _ => rfl

namespace H2

/-- The lengths the loop holds fit into a window update, and no stream has the id of the
connection. -/
structure Small (s : H2) : Prop where
  frame : ∀ fh, s.loop.frame = some fh → fh.length < 2 ^ 24
  streams : ∀ e ∈ s.streams, e.1 ≠ 0

/-! ## Small lengths -/

section Small

variable {s s' : H2} {fh : FrameHeader} {payload : Bytes}

theorem Small.mono (h : s.Small) (hl : s'.loop.frame = none ∨ s'.loop.frame = s.loop.frame)
    (hs : ∀ e ∈ s'.streams, e ∈ s.streams) : s'.Small := by
  refine ⟨fun fh hf => ?_, fun e he => h.streams e (hs e he)⟩
  obtain hl | hl := hl
  · rw [hl] at hf
    cases hf
  · exact h.frame fh (hl ▸ hf)

theorem Small.lookup (h : s.Small) {id ref : ℕ} (hl : s.streams.lookup id = some ref) : id ≠ 0 := by
  obtain ⟨l₁, l₂, he, -⟩ := lookup_eq_some_iff.mp hl
  exact h.streams (id, ref) (by rw [he]; simp)

theorem Begin.mem_streams {s₀ : H2} {r : Option (ℕ × ℕ)} (hb : Begin s fh r s₀) {e : ℕ × ℕ}
    (he : e ∈ s₀.streams) : e ∈ s.streams ∨ e.1 = fh.streamId ∧ fh.streamId ≠ 0 := by
  cases hb with
  | opened _ _ _ h0 =>
    obtain rfl | he := mem_cons.mp he
    · exact .inr ⟨rfl, h0⟩
    · exact .inl (mem_of_mem_filter he)
  | erased => exact .inl (mem_of_mem_filter he)
  | _ => exact .inl he

theorem Small.loopMove (h : s.Small) (hm : LoopMove s s') : s'.Small := by
  obtain ⟨n, fh, r, s₁, hp, ⟨s₀, hb, hw⟩, hl⟩ := hm.phases
  have hstreams : ∀ e ∈ s₁.streams, e.1 ≠ 0 := fun e he => by
    have hs : s₁.streams = s₀.streams := (congrArg H2.streams hw.rest_eq :)
    obtain he | ⟨he, h0⟩ := hb.mem_streams (hs ▸ he)
    · exact h.streams e he
    · rw [he]
      exact h0
  cases hl with
  | go pc hpc =>
    refine ⟨fun fh hf => ?_, hstreams⟩
    obtain rfl | rfl | ⟨bs, rfl⟩ := hpc
    · cases hf
    · cases hf
    · cases hf
      exact FrameHeader.length_parse_lt bs
  | send f k _ hk =>
    obtain ⟨lo, wa, st, he⟩ := loopSend_eq s₁ f k
    rw [he]
    refine ⟨fun fh' hf => ?_, hstreams⟩
    cases k with
    | dataStream =>
      cases hf
      rw [(hk st _ _ rfl).2 rfl]
      obtain hp | ⟨rfl, -⟩ := hp
      · exact h.frame fh (by rw [hp]; rfl)
      · decide
    | _ => cases hf

theorem Small.step {e : Event} (h : s.Small) (hs : s.step e = some s') : s'.Small := by
  cases move_of_step hs with
  | recv => exact h.mono (.inr rfl) (fun _ he => he)
  | recvEnd | recvFail | writeFail => exact h.mono (.inl rfl) (fun _ he => he)
  | loop hm => exact h.loopMove hm
  | write who k hb =>
    have hl : s'.loop.erase = s.loop.erase := congrArg H2.loop hb
    have hst : s'.bare.streams = s.bare.streams := congrArg H2.streams hb
    refine h.mono (.inr ?_) (fun e he => hst ▸ he)
    rw [← LoopPc.frame_erase, hl, LoopPc.frame_erase]
  | task e t x _ _ hm =>
    have hl : s'.loop.frame = s.loop.frame := congrArg LoopPc.frame hm.loop_eq.1
    exact h.mono (.inr hl) hm.streams_subset

end Small

/-! ## One step -/

section Step

variable {s s' : H2} {fh : FrameHeader} {payload : Bytes}

theorem creditSent_of_frames (h : s'.frames = s.frames) : s'.creditSent = s.creditSent := by
  rw [creditSent, h, creditSent]

theorem creditSent_loopSend (s : H2) (f : Frame) (k : LoopCont) :
    (s.loopSend f k).creditSent = s.creditSent + f.connectionIncrement := by
  have hf : (s.loopSend f k).frames = s.frames ++ [f] := by
    obtain ⟨lo, wa, st, he⟩ := loopSend_eq s f k
    rw [he]
    exact frames_cons s (.sent none f) _ rfl
  simp [creditSent, hf]

theorem pendingCredit_loopSend (s : H2) (f : Frame) (k : LoopCont) :
    (s.loopSend f k).loop.pendingCredit = (LoopPc.sending .written k).pendingCredit := by
  cases k <;> rfl

theorem frames_finishData (s : H2) (fh : FrameHeader) (ref : ℕ) :
    (s.finishData fh ref).frames = s.frames := by
  obtain ⟨s₁, hw, he⟩ := work_finishData s fh fh ref 0
  rw [he]
  exact ((sameLock_work hw).frames :)

theorem creditSent_task {t : ℕ} {x : Task} (hm : TaskMove s t x s') :
    s'.creditSent = s.creditSent := by
  obtain ⟨f, streams, c, lo, wa, pc, acts, -, -, ha, rfl⟩ := hm.effect
  have hz : ∀ n ∈ (acts.reverse.filterMap Action.frame).map Frame.connectionIncrement, n = 0 := by
    intro n hn
    obtain ⟨g, hg, rfl⟩ := mem_map.mp hn
    obtain ⟨a, ham, hag⟩ := mem_filterMap.mp hg
    have hof := ha a (mem_reverse.mp ham)
    cases a with
    | sent r g' =>
      cases hag
      cases r with
      | none => cases hof
      | some r =>
        simp only [Action.ofTask, Bool.and_eq_true, Bool.or_eq_true, beq_iff_eq] at hof
        refine Frame.connectionIncrement_of_type ?_
        obtain hg | hg := hof.1.2 <;> simp [hg]
    | _ => cases hag
  simp only [creditSent, frames, reverse_append, filterMap_append, map_append,
    sum_append, sum_eq_zero hz, Nat.add_zero]

theorem dataOf_of_type (hl : s.loop = .payload fh) (ht : fh.type ≠ .data) :
    dataOf s s' = 0 ∧ ignoredOf s s' = 0 := by
  unfold dataOf ignoredOf accepted
  rw [hl]
  dsimp only
  split_ifs <;> simp [ht]

theorem dataOf_of_accepted (h : accepted s s' = []) : dataOf s s' = 0 ∧ ignoredOf s s' = 0 := by
  simp [dataOf, ignoredOf, h]

theorem accepted_of_loop (h : ∀ fh, s.loop ≠ .payload fh) : accepted s s' = [] := by
  unfold accepted
  split
  · rename_i fh hl
    exact absurd hl (h fh)
  · rfl

theorem dataOf_data (hl : s.loop = .payload fh) (hlv : s'.loop.leaving = false)
    (hne : ∀ fh', s'.loop ≠ .payload fh') (ht : fh.type = .data) :
    dataOf s s' = fh.length ∧
      ignoredOf s s' = if s.streams.lookup fh.streamId = none then fh.length else 0 := by
  have ha : accepted s s' = [fh] := by simp [accepted, hl, hlv, hne]
  unfold dataOf ignoredOf
  rw [ha]
  refine ⟨by simp [ht], ?_⟩
  split_ifs with hn <;> simp [ht, hn]

/-- What a step changes in the account, unless the loop leaves. -/
def Balances (s s' : H2) : Prop :=
  s'.loop.leaving = false → s.loop.leaving = false ∧
    s'.creditSent + s'.loop.pendingCredit + ignoredOf s s' =
      s.creditSent + s.loop.pendingCredit + dataOf s s'

/-- **A frame that is not refused** is given back, or ignored. -/
theorem FrameMove.balances (hsm : s.Small) (hm : FrameMove s fh payload s') :
    s'.loop.leaving = false →
      s'.creditSent + s'.loop.pendingCredit +
          (if fh.type = .data ∧ s.streams.lookup fh.streamId = none then fh.length else 0) =
        s.creditSent + if fh.type = .data then fh.length else 0 := by
  intro hlv
  have hnext : ∀ s₁ : H2, fh.type ≠ .data → s₁.frames = s.frames →
      s₁.nextFrame.creditSent + s₁.nextFrame.loop.pendingCredit +
          (if fh.type = .data ∧ s.streams.lookup fh.streamId = none then fh.length else 0) =
        s.creditSent + if fh.type = .data then fh.length else 0 := by
    intro s₁ ht hf
    rw [if_neg fun h => ht h.1, if_neg ht]
    have hc : s₁.nextFrame.creditSent = s.creditSent := creditSent_of_frames hf
    exact hc
  cases hm with
  | refuse => rw [(endsWithGoaway_refuse s).leaving] at hlv; cases hlv
  | goaway => cases hlv
  | ignore _ hd =>
    by_cases ht : fh.type = .data
    · rw [if_pos ⟨ht, hd ht⟩, if_pos ht]
      rfl
    · rw [if_neg fun h => ht h.1, if_neg ht]
      rfl
  | settings w m f hf ht =>
    have ht' : fh.type ≠ .data := by obtain ht | ht := ht <;> simp [ht]
    have hf' : f.type ≠ .windowUpdate := by obtain hf | hf := hf <;> simp [hf]
    rw [if_neg fun h => ht' h.1, if_neg ht', creditSent_loopSend, pendingCredit_loopSend,
      Frame.connectionIncrement_of_type hf']
    rfl
  | headers ht he =>
    obtain ⟨r, hh⟩ := handles_handleHeaders ht he
    exact hnext _ (by simp [ht]) hh.sameLock.frames
  | continuation ht he =>
    obtain ⟨r, hh⟩ := handles_handleContinuation ht he
    exact hnext _ (by simp [ht]) hh.sameLock.frames
  | windowUpdate he ht =>
    obtain ⟨r, hh⟩ := handles_handleWindowUpdate ht he
    exact hnext _ (by simp [ht]) hh.sameLock.frames
  | rstStream ht => exact hnext (s.eraseStream fh.streamId) (by simp [ht]) rfl
  | data ref f ht he _ hf =>
    have hlk := lookup_of_handleData_some he
    -- the stream's own window update is not one of the connection
    have hz : f.connectionIncrement = 0 :=
      Frame.connectionIncrement_of_streamId (by rw [hf]; exact hsm.lookup hlk)
    have hc := creditSent_of_frames (sameLock_begin (begin_handleData ht he)).frames
    rw [if_neg fun h => (by simp [hlk] at h), if_pos ht, creditSent_loopSend, pendingCredit_loopSend,
      hz, hc]
    rfl
  | dataEmpty ref ht he h0 =>
    have hlk := lookup_of_handleData_some he
    have hc := creditSent_of_frames
      ((frames_finishData _ fh ref).trans (sameLock_begin (begin_handleData ht he)).frames)
    rw [if_neg fun h => (by simp [hlk] at h), if_pos ht, hc, loop_finishData, h0]
    rfl

theorem LoopMove.balances (hsm : s.Small) (hm : LoopMove s s') : Balances s s' := by
  intro hlv
  have hidle (h : ∀ fh, s.loop ≠ .payload fh) : dataOf s s' = 0 ∧ ignoredOf s s' = 0 :=
    dataOf_of_accepted (accepted_of_loop h)
  cases hm with
  | preface f hl _ hf =>
    obtain ⟨hd, hi⟩ := hidle (by simp [hl])
    refine ⟨by rw [hl]; rfl, ?_⟩
    rw [hd, hi, hl, creditSent_loopSend, pendingCredit_loopSend,
      Frame.connectionIncrement_of_type (by simp [hf])]
    rfl
  | badPreface => cases hlv
  | header hl =>
    obtain ⟨hd, hi⟩ := hidle (by simp [hl])
    refine ⟨by rw [hl]; rfl, ?_⟩
    rw [hd, hi, hl]
    rfl
  | frame fh hl hf =>
    refine ⟨by rw [hl]; rfl, ?_⟩
    have hsm' : (s.takeBuffer fh.length).2.Small := hsm.mono (.inr rfl) (fun _ he => he)
    have hb := hf.balances hsm' hlv
    rw [show (s.takeBuffer fh.length).2.creditSent = s.creditSent from rfl,
      show (s.takeBuffer fh.length).2.streams = s.streams from rfl] at hb
    by_cases ht : fh.type = .data
    · obtain ⟨hd, hi⟩ := dataOf_data hl hlv hf.loop_ne ht
      simp only [ht, true_and, if_true] at hb
      rw [hd, hi, hl]
      exact hb
    · obtain ⟨hd, hi⟩ : dataOf s s' = 0 ∧ ignoredOf s s' = 0 := dataOf_of_type hl ht
      simp only [ht, false_and, if_false] at hb
      rw [hd, hi, hl]
      exact hb
  | sent k hl =>
    obtain ⟨hd, hi⟩ := hidle (by simp [hl])
    rw [hd, hi, hl]
    cases k with
    | next => exact ⟨rfl, rfl⟩
    | goaway => cases hlv
    | dataConnection fh ref =>
      refine ⟨rfl, ?_⟩
      rw [H2.continueLoop, creditSent_of_frames (frames_finishData s fh ref),
        loop_finishData]
      rfl
    | dataStream fh ref =>
      have hlen := hsm.frame fh (by rw [hl]; rfl)
      refine ⟨rfl, ?_⟩
      rw [H2.continueLoop, creditSent_loopSend, pendingCredit_loopSend,
        Frame.connectionIncrement_update (by omega)]
      rfl

variable {e : Event}

/-- **Every step keeps the account**, unless the loop leaves. -/
theorem balances_step (hsm : s.Small) (hs : s.step e = some s') : Balances s s' := by
  -- a step that leaves the loop where it is
  have hother : accepted s s' = [] → s'.creditSent = s.creditSent →
      s'.loop.erase = s.loop.erase → Balances s s' := by
    intro ha hc hl hlv
    obtain ⟨hd, hi⟩ := dataOf_of_accepted ha
    rw [← LoopPc.leaving_erase, hl, LoopPc.leaving_erase] at hlv
    refine ⟨hlv, ?_⟩
    rw [hd, hi, hc, ← LoopPc.pendingCredit_erase s'.loop, hl, LoopPc.pendingCredit_erase]
  cases move_of_step hs with
  | recv => exact hother (accepted_of_loop_eq (.inl rfl)) rfl rfl
  | recvEnd | recvFail | writeFail => exact fun hlv => by cases hlv
  | loop hm => exact hm.balances hsm
  | write who k hb =>
    have hl : s'.loop.erase = s.loop.erase := congrArg H2.loop hb
    have hg : s'.bare.frames = s.bare.frames := congrArg frames hb
    obtain ⟨ha, -⟩ | ⟨_, -, h, -⟩ := accepted_step hs
    · exact hother ha (creditSent_of_frames hg) hl
    · cases h
  | task e t x hx _ hm =>
    have hl : s'.loop.erase = s.loop.erase := congrArg LoopPc.erase hm.loop_eq.1
    exact hother (accepted_of_loop_eq (.inl hm.loop_eq.1)) (creditSent_task hm) hl

theorem ignoredOf_eq_zero_iff (hs : s.step e = some s') :
    ignoredOf s s' = 0 ↔ s.KnownData e := by
  obtain ⟨ha, -⟩ | ⟨fh, hl, rfl, ha, -, -, -⟩ := accepted_step hs
  · refine ⟨fun _ => ?_, fun _ => (dataOf_of_accepted ha).2⟩
    cases e with
    | loop =>
      cases hl : s.loop with
      | payload fh =>
        -- such a frame would have been accepted
        simp only [KnownData, OnFrame, hl]
        intro ht _ hn
        have heq : s' = (s.takeBuffer fh.length).2.nextFrame := by
          have hn' : (s.takeBuffer fh.length).2.streams.lookup fh.streamId = none := hn
          simpa [processFrame, ht, handleData, hn'] using ((step_payload_iff hl).mp hs).2
        subst heq
        simp [accepted, hl, nextFrame, LoopPc.leaving] at ha
      | _ => simp [KnownData, OnFrame, hl]
    | _ => trivial
  · unfold ignoredOf
    rw [ha]
    simp only [KnownData, OnFrame, hl]
    by_cases hd : fh.type = .data ∧ s.streams.lookup fh.streamId = none
    · simp [hd]
    · simp only [filter_cons, hd, decide_false, Bool.false_eq_true, if_false, filter_nil,
        map_nil, sum_nil, true_iff]
      exact fun ht _ hn => hd ⟨ht, hn⟩

end Step

/-! ## Runs -/

variable {C : H2 → Event → Prop} {e : Event} {es : List Event} {s₁ : H2}

theorem dataIn_append {s s' : H2} (h : Run.Exec H2.step C s es s₁) (hs : s₁.step e = some s') :
    s.dataIn (es ++ [e]) = s.dataIn es + dataOf s₁ s' := by
  simp [dataIn, dataOf, acceptedIn_append h hs]

theorem ignoredIn_append {s s' : H2} (h : Run.Exec H2.step C s es s₁) (hs : s₁.step e = some s') :
    s.ignoredIn (es ++ [e]) = s.ignoredIn es + ignoredOf s₁ s' := by
  simp [ignoredIn, h.collect_append hs]

/-- **The account of a run**: what has been received has been given back, is about to be, or was
ignored. -/
theorem credit_balance {b : Bytes} {s : H2}
    (h : Run.Exec H2.step C (start b) es s) (hl : s.loop.leaving = false) :
    s.creditSent + s.loop.pendingCredit + (start b).ignoredIn es = (start b).dataIn es := by
  have key : s.Small ∧ (s.loop.leaving = false →
      s.creditSent + s.loop.pendingCredit + (start b).ignoredIn es = (start b).dataIn es) := by
    refine h.snoc_induction (P := fun es s => s.Small ∧ (s.loop.leaving = false →
      s.creditSent + s.loop.pendingCredit + (start b).ignoredIn es = (start b).dataIn es))
      ⟨⟨fun _ hf => (by cases hf), fun _ he => (by cases he)⟩, fun _ => rfl⟩ ?_
    intro es s e s' hx _ hs ⟨hsm, ih⟩
    refine ⟨hsm.step hs, fun hlv => ?_⟩
    obtain ⟨hlv', hb⟩ := balances_step hsm hs hlv
    have hi := ih hlv'
    rw [ignoredIn_append hx hs, dataIn_append hx hs]
    omega
  exact key.2 hl

theorem ignoredIn_eq_zero_iff {s s' : H2}
    (h : Run.Exec H2.step C s es s') : s.ignoredIn es = 0 ↔ Run.Exec H2.step KnownData s es s' := by
  induction h with
  | nil => exact ⟨fun _ => .nil _, fun _ => rfl⟩
  | @cons s s₁ s' e es _ hs _ ih =>
    have hsum : s.ignoredIn (e :: es) = ignoredOf s s₁ + s₁.ignoredIn es := by
      simp [ignoredIn, Run.collect, hs]
    rw [hsum, Nat.add_eq_zero_iff, ignoredOf_eq_zero_iff hs, ih]
    refine ⟨fun h => .cons h.1 hs h.2, fun hx => ?_⟩
    cases hx with
    | cons hk hs' hx =>
      rw [hs] at hs'
      cases hs'
      exact ⟨hk, hx⟩

/-- **Credit for every octet.** Between two frames, the increments sent are the lengths received if and only if each
DATA frame, unless empty, came on a stream in the map. -/
theorem creditSent_eq_dataIn_iff {b : Bytes} {es : List Event} {s : H2}
    (h : Run.Exec H2.step (fun _ _ => True) (start b) es s) (hl : s.loop = .header) :
    s.creditSent = (start b).dataIn es ↔ Run.Exec H2.step KnownData (start b) es s := by
  have hb := credit_balance h (by rw [hl]; rfl)
  rw [hl] at hb
  rw [← ignoredIn_eq_zero_iff h, ← hb]
  simp [LoopPc.pendingCredit]

def postFrame (id : ℕ) : Frame := ⟨.headers, FrameFlags.endHeaders, id, [0x83, 0x84]⟩

def paddedFrame (id : ℕ) : Frame := ⟨.data, FrameFlags.padded, id, [3, 0x61, 0, 0, 0]⟩

/-- A padded DATA frame on an open stream. -/
theorem creditSent_eq_dataIn_padded :
    ∃ es s, Run.Exec H2.step KnownData
        (start (clientPreface ++ (postFrame 1).bytes ++ (paddedFrame 1).bytes)) es s ∧
      s.creditSent = 5 ∧ s.creditSent =
        (start (clientPreface ++ (postFrame 1).bytes ++ (paddedFrame 1).bytes)).dataIn es := by
  have h : (Run.runChecked H2.step KnownData
      (start (clientPreface ++ (postFrame 1).bytes ++ (paddedFrame 1).bytes))
      (dispatchEvents 1 ++ [.loop, .loop, .write .loop 13, .loop, .write .loop 13, .loop])).map
        (fun s => decide (s.loop = .header ∧ s.creditSent = 5)) = some true := by
    decide +kernel
  obtain ⟨s, hx, he⟩ := Run.exists_exec h
  obtain ⟨hl, hc⟩ := of_decide_eq_true he
  exact ⟨_, s, hx, hc, (creditSent_eq_dataIn_iff (hx.mono fun _ _ _ => trivial) hl).mpr hx⟩

/-- DATA on a stream that was never opened: five octets are received and nothing is given back. -/
theorem credit_leaks :
    ∃ es s, Run.Exec H2.step (fun _ _ => True) (start (clientPreface ++ (paddedFrame 5).bytes)) es s ∧
      s.loop = .header ∧ s.creditSent = 0 ∧
      (start (clientPreface ++ (paddedFrame 5).bytes)).dataIn es = 5 := by
  have h : (Run.runChecked H2.step (fun _ _ => True)
      (start (clientPreface ++ (paddedFrame 5).bytes)) (dispatchEvents 1)).map
        (fun s => decide (s.loop = .header ∧ s.creditSent = 0)) = some true := by
    decide +kernel
  obtain ⟨s, hx, he⟩ := Run.exists_exec h
  obtain ⟨hl, hc⟩ := of_decide_eq_true he
  exact ⟨_, s, hx, hl, hc, by decide +kernel⟩

end H2

end Nhttp.Server
