import Nhttp.Server.H2.Frames
import Nhttp.Server.H2.Wakeups

/-!
# The DATA frames of a response

* `TaskPc.rest`: what a response coroutine has still to cut into DATA frames; `none` after the last one.
* `cutBy`: the DATA frames that an event of the coroutine hands to `send_frame`.
* **`cut_of_step`**: a step of the coroutine cuts a frame off the rest, or nothing.
-/

namespace Nhttp.Server

open Octets Protocol Http2 Option TaskPc
open List hiding le_trans

/-! ## What is still to be sent -/

def Writer.rest (w : Writer) : Bytes := if 0 ≤ w.remaining then w.body.take w.remaining.toNat else w.body

/-- After a chunk of `got` octets has been sent. -/
def Writer.after (w : Writer) (got : ℕ) : Writer :=
  { w with remaining := if 0 ≤ w.remaining then w.remaining - got else w.remaining }

def Response.carried (resp : Response) : Option Bytes :=
  if resp.upgradeHandler ∨ resp.contentLength = 0 then none
  else resp.body.map fun b => (⟨resp.contentLength, b⟩ : Writer).rest

/-- What a response coroutine has still to cut into DATA frames. -/
def TaskPc.rest : TaskPc → Option Bytes
  | .answer resp => resp.carried
  | .sending _ (.headers (some w)) | .read w => some w.rest
  | .check w got chunk | .waiting w got chunk | .sending _ (.data w got _ chunk) =>
    some (chunk ++ (w.after got).rest)
  | _ => none

/-- The last DATA frame has been cut. -/
def TaskPc.ended : TaskPc → Bool
  | .sending _ .endStream | .done => true
  | _ => false

/-- The chunk is not empty in front of a window check, and within the length. -/
def TaskPc.Valid : TaskPc → Prop
  | .check w got chunk | .waiting w got chunk => chunk ≠ [] ∧ (0 ≤ w.remaining → got ≤ w.remaining)
  | .sending _ (.data w got _ _) => 0 ≤ w.remaining → got ≤ w.remaining
  | .read w => w.remaining ≠ 0
  | _ => True

/-- Forget how far a `send_frame` has got and whether the coroutine sleeps. -/
def TaskPc.settle : TaskPc → TaskPc
  | .sending _ k => .sending .written k
  | .waiting w got chunk => .check w got chunk
  | pc => pc

section Settle

variable {pc pc' : TaskPc}

theorem TaskPc.rest_settle (pc : TaskPc) : pc.settle.rest = pc.rest := by
  cases pc with
  | sending st k => rcases k with (_ | _) | _ | _ <;> rfl
  | _ => rfl

theorem TaskPc.ended_settle (pc : TaskPc) : pc.settle.ended = pc.ended := by
  cases pc with
  | sending st k => cases k <;> rfl
  | _ => rfl

theorem TaskPc.valid_settle (pc : TaskPc) : pc.settle.Valid ↔ pc.Valid := by
  cases pc with
  | sending st k => cases k <;> rfl
  | _ => rfl

theorem TaskPc.settle_of_erase (h : pc'.erase = pc.erase) : pc'.settle = pc.settle := by
  have key : ∀ p : TaskPc, p.settle = p.erase.settle := by
    intro p
    cases p <;> rfl
  rw [key pc', key pc, h]

end Settle

theorem Writer.rest_after {w : Writer} {k : ℕ} (h : 0 ≤ w.remaining → k ≤ w.remaining) :
    w.body.take k ++ (({ w with body := w.body.drop k } : Writer).after k).rest = w.rest := by
  unfold Writer.rest Writer.after
  dsimp only
  by_cases h0 : 0 ≤ w.remaining
  · have hk := h h0
    obtain ⟨n, hn⟩ := Int.eq_ofNat_of_zero_le h0
    rw [if_pos h0, if_pos (by omega), if_pos h0, hn]
    have he : ((n : ℤ) - k).toNat = n - k := by omega
    have hle : k + (n - k) = n := by omega
    rw [he, Int.toNat_natCast, ← take_add, hle]
  · rw [if_neg h0, if_neg h0, if_neg h0, take_append_drop]

namespace H2

/-! ## Frames cut -/

/-- The frames that a step hands to `send_frame`. -/
def sentBetween (s s' : H2) : List Frame :=
  (s'.log.take (s'.log.length - s.log.length)).reverse.filterMap Action.frame

/-- The DATA frames that an event of the coroutine `t` cuts, with the peer's frame size. -/
def cutBy (t : ℕ) (s : H2) (e : Event) : List (ℕ × Frame) :=
  match s.step e with
  | none => []
  | some s' =>
    if e.task = some t then
      ((sentBetween s s').filter fun f => f.type = .data).map fun f => (s.peerMaxFrameSize, f)
    else []

theorem sentBetween_of_log {s s' : H2} {acts : List Action} (h : s'.log = acts ++ s.log) :
    sentBetween s s' = acts.reverse.filterMap Action.frame := by
  unfold sentBetween
  rw [h, length_append, Nat.add_sub_cancel, take_left]

/-- What one event cuts off the rest. -/
inductive Cut (m id : ℕ) : Bytes → List (ℕ × Frame) → Option Bytes → Prop
  | nothing (r : Bytes) : Cut m id r [] (some r)
  | data (p r : Bytes) : p ≠ [] → p.length ≤ m → Cut m id (p ++ r) [(m, ⟨.data, 0, id, p⟩)] (some r)
  | last : Cut m id [] [(m, ⟨.data, FrameFlags.endStream, id, []⟩)] none

section Own

variable {s s' : H2} {t : ℕ} {x : Task} {e : Event}

theorem cutBy_of_log (hs : s.step e = some s') (he : e.task = some t) (acts : List Action)
    (h : s'.log = acts ++ s.log) :
    cutBy t s e = ((acts.reverse.filterMap Action.frame).filter fun f => f.type = .data).map
      fun f => (s.peerMaxFrameSize, f) := by
  unfold cutBy
  rw [hs]
  dsimp only
  rw [if_pos he, sentBetween_of_log h]

/-- The coroutine after a step of its own, and what the step cuts. -/
def After (s : H2) (t : ℕ) (x : Task) (e : Event) (r : Bytes) (s' : H2) : Prop :=
  ∃ pc, s'.tasks[t]? = some ⟨x.ref, pc⟩ ∧ pc.Valid ∧ (pc.rest = none → pc.ended = true) ∧
    Cut s.peerMaxFrameSize (s.object x.ref).id r (cutBy t s e) pc.rest

theorem tasks_setTask (hx : s.tasks[t]? = some x) (pc : TaskPc) :
    (s.setTask t pc).tasks[t]? = some ⟨x.ref, pc⟩ := by
  simp [setTask, hx]

variable {r : Bytes} {w : Writer} (acts : List Action)

theorem after_setTask {s₁ : H2} (hx : s₁.tasks[t]? = some x) (he : e.task = some t)
    (hl : s₁.log = acts ++ s.log) (ha : acts.filterMap Action.frame = []) {pc : TaskPc}
    (hs : s.step e = some (s₁.setTask t pc)) (hv : pc.Valid) (hr : pc.rest = some r) :
    After s t x e r (s₁.setTask t pc) := by
  refine ⟨pc, tasks_setTask hx pc, hv, fun hn => (by rw [hn] at hr; cases hr), ?_⟩
  rw [cutBy_of_log hs he acts hl, filterMap_reverse, ha, hr]
  exact .nothing r

theorem after_taskSend {s₁ : H2} {ref : ℕ} {f : Frame} {k : TaskCont}
    (hx : s₁.tasks[t]? = some x) (he : e.task = some t) (hl : s₁.log = acts ++ s.log)
    (ha : acts.filterMap Action.frame = []) (hs : s.step e = some (s₁.taskSend t ref f k))
    (hv : (sending .written k).Valid)
    (hend : (sending .written k).rest = none → (sending .written k).ended = true)
    (hc : Cut s.peerMaxFrameSize (s.object x.ref).id r
      ((([f] : List Frame).filter fun f => f.type = .data).map fun f => (s.peerMaxFrameSize, f))
      (sending .written k).rest) :
    After s t x e r (s₁.taskSend t ref f k) := by
  obtain ⟨lo, wa, st, hsend⟩ := taskSend_eq s₁ t ref f k
  have hlog : (s₁.taskSend t ref f k).log = (.sent (some ref) f :: acts) ++ s.log := by
    rw [hsend]
    rw [hl]
    rfl
  have hcut : cutBy t s e = (([f] : List Frame).filter fun f => f.type = .data).map
      fun f => (s.peerMaxFrameSize, f) := by
    have hnil : acts.reverse.filterMap Action.frame = [] := by
      rw [filterMap_reverse, ha]
      rfl
    rw [cutBy_of_log hs he _ hlog, reverse_cons, filterMap_append, hnil]
    rfl
  have hsettle : (sending st k).settle = .sending .written k := rfl
  refine ⟨.sending st k, ?_, ?_, fun hn => ?_, ?_⟩
  · rw [hsend]
    simp [hx]
  · rw [← valid_settle]
    exact hv
  · rw [← rest_settle] at hn
    rw [← ended_settle]
    exact hend hn
  · rw [hcut, ← rest_settle]
    exact hc

theorem after_nextChunk {s₁ : H2} (hx : s₁.tasks[t]? = some x) (he : e.task = some t)
    (hl : s₁.log = acts ++ s.log) (ha : acts.filterMap Action.frame = [])
    (hid : (s₁.object x.ref).id = (s.object x.ref).id) (hs : s.step e = some (s₁.nextChunk t x.ref w)) :
    After s t x e w.rest (s₁.nextChunk t x.ref w) := by
  unfold nextChunk at hs ⊢
  split_ifs at hs ⊢ with h0
  · have hr : w.rest = [] := by
      rw [Writer.rest, h0]
      rfl
    refine after_taskSend acts hx he hl ha hs trivial (fun _ => rfl) ?_
    rw [hr, hid]
    exact .last
  · exact after_setTask acts hx he hl ha hs h0 rfl

theorem after_checkWindow (hx : s.tasks[t]? = some x) {got : ℕ} {chunk : Bytes}
    (hm : 0 < s.peerMaxFrameSize) (hne : chunk ≠ []) (hv : 0 ≤ w.remaining → got ≤ w.remaining)
    (hs : s.step (.resume t) = some (s.checkWindow t x.ref w got chunk)) :
    After s t x (.resume t) (chunk ++ (w.after got).rest) (s.checkWindow t x.ref w got chunk) := by
  unfold checkWindow at hs ⊢
  split_ifs at hs ⊢ with hc
  · have hx1 : (s.modifyObject x.ref fun o => { o with windowWaiter := some t }).tasks[t]? = some x := hx
    exact after_setTask [] hx1 rfl rfl rfl hs ⟨hne, hv⟩ rfl
  · have hpos : 0 < chunk.length := length_pos_iff.mpr hne
    have hn : 0 < (s.allowed x.ref chunk).toNat ∧ (s.allowed x.ref chunk).toNat ≤ s.peerMaxFrameSize := by
      unfold allowed
      omega
    refine after_taskSend [] hx rfl rfl rfl hs hv (fun hnone => by cases hnone) ?_
    have hsplit : chunk ++ (w.after got).rest = chunk.take (s.allowed x.ref chunk).toNat ++
        (chunk.drop (s.allowed x.ref chunk).toNat ++ (w.after got).rest) := by
      rw [← append_assoc, take_append_drop]
    rw [hsplit]
    refine .data _ _ ?_ (le_trans (length_take_le _ _) hn.2)
    intro hnil
    obtain hnil | hnil := take_eq_nil_iff.mp hnil
    · omega
    · exact hne hnil

theorem cut_of_step (hx : s.tasks[t]? = some x) (he : e.task = some t) (hf : e.fails = false)
    (hs : s.step e = some s') (hm : 0 < s.peerMaxFrameSize) (hv : x.pc.Valid)
    (hr : x.pc.rest = some r) : After s t x e r s' := by
  obtain ⟨ref, pc⟩ := x
  cases e with
  | handlerReturn i resp =>
    cases he
    obtain ⟨y, hy, hs⟩ := bind_eq_some_iff.mp hs
    rw [hx] at hy
    cases hy
    split_ifs at hs with hp
    obtain rfl : pc = .handler := hp
    cases hr
  | bodyRead i k =>
    cases he
    have hstep := hs
    obtain ⟨y, hy, hs⟩ := bind_eq_some_iff.mp hs
    rw [hx] at hy
    cases hy
    cases pc with
    | read w =>
      unfold bodyStep at hs
      dsimp only at hs
      split_ifs at hs with hk h₀
      · cases hs
        have hbody : w.body = [] := by
          by_contra hne
          exact hk (.inr (.inr ⟨h₀, hne⟩))
        have hnil : r = [] := by
          obtain rfl : w.rest = r := Option.some.inj hr
          rw [Writer.rest, hbody]
          simp
        subst hnil
        exact after_taskSend [] hx rfl rfl rfl hstep trivial (fun _ => rfl) .last
      · cases hs
        have hwant : k ≤ w.want ∧ k ≤ w.body.length := by omega
        have hle : 0 ≤ w.remaining → (k : ℤ) ≤ w.remaining := by
          intro h0
          have := hwant.1
          unfold Writer.want at this
          rw [if_pos h0] at this
          omega
        refine after_setTask [] hx rfl rfl rfl hstep ⟨?_, hle⟩ ?_
        · intro hnil
          rw [take_eq_nil_iff] at hnil
          obtain hnil | hnil := hnil
          · exact h₀ hnil
          · rw [hnil] at hwant
            exact h₀ (Nat.le_zero.mp hwant.2)
        · rw [← hr]
          exact congrArg some (Writer.rest_after hle)
    | _ => cases hs
  | resume i =>
    cases he
    have hstep := hs
    obtain ⟨y, hy, hs⟩ := bind_eq_some_iff.mp hs
    rw [hx] at hy
    cases hy
    cases pc with
    | answer resp =>
      cases hs
      have hresp : resp.carried = some r := hr
      unfold Response.carried at hresp
      split_ifs at hresp with hcl
      push Not at hcl
      obtain ⟨b, hb, hbr⟩ := map_eq_some_iff.mp hresp
      unfold writeResponse at hstep ⊢
      have hup : ¬resp.upgradeHandler = true := hcl.1
      simp only [if_neg hup, if_neg hcl.2, hb, map_some] at hstep ⊢
      refine after_taskSend [] hx rfl rfl rfl hstep trivial (fun hn => by cases hn) ?_
      rw [show (sending .written (.headers (some ⟨resp.contentLength, b⟩))).rest = some r from
        congrArg some hbr]
      exact .nothing r
    | check w got chunk =>
      cases hs
      obtain rfl : chunk ++ (w.after got).rest = r := Option.some.inj hr
      exact after_checkWindow hx hm hv.1 hv.2 hstep
    | sending st k =>
      cases st with
      | written =>
        cases hs
        cases k with
        | headers next =>
          cases next with
          | none => cases hr
          | some w =>
            obtain rfl : w.rest = r := Option.some.inj hr
            exact after_nextChunk [] hx rfl rfl rfl rfl hstep
        | data w got n chunk =>
          have hid : ((s.deduct ref n).object ref).id = (s.object ref).id :=
            object_modifyObject_of_keeps (g := H2Stream.id) (by intro _; rfl) s ref ref
          have hx1 : (s.deduct ref n).tasks[t]? = some ⟨ref, .sending .written (.data w got n chunk)⟩ := hx
          obtain rfl : chunk ++ (w.after got).rest = r := Option.some.inj hr
          unfold continueTask at hstep ⊢
          dsimp only at hstep ⊢
          by_cases hc : chunk = []
          · subst hc
            exact after_nextChunk [.deducted ref n] hx1 rfl rfl rfl hid hstep
          · rw [if_neg hc] at hstep ⊢
            exact after_setTask [.deducted ref n] hx1 rfl rfl rfl hstep ⟨hc, hv⟩ rfl
        | endStream => cases hr
      | _ => cases hs
    | _ => cases hs
  | writeFail | handlerFail | bodyFail => cases hf
  | _ => cases he

end Own

/-! ## What others leave alone -/

/-- The coroutine `t` is where it was, up to the writer lock and a wake-up. -/
structure Settled (t : ℕ) (s s' : H2) : Prop where
  ids : s.ids <+: s'.ids
  task : ∀ x, s.tasks[t]? = some x →
    ∃ pc, s'.tasks[t]? = some ⟨x.ref, pc⟩ ∧ pc.settle = x.pc.settle

section Settled

variable {t : ℕ} {s s₁ s' : H2}

theorem Settled.trans (h : Settled t s s₁) (h' : Settled t s₁ s') : Settled t s s' := by
  refine ⟨h.ids.trans h'.ids, fun x hx => ?_⟩
  obtain ⟨pc, hpc, he⟩ := h.task x hx
  obtain ⟨pc', hpc', he'⟩ := h'.task _ hpc
  exact ⟨pc', hpc', he'.trans he⟩

theorem settled_of_eq (hi : s'.ids = s.ids) (ht : s'.tasks = s.tasks) : Settled t s s' :=
  ⟨hi ▸ prefix_rfl, fun x hx => ⟨x.pc, by rw [ht, hx], rfl⟩⟩

theorem settled_modifyObject {f : H2Stream → H2Stream} (hf : ∀ o, (f o).id = o.id) (s : H2) (ref : ℕ) :
    Settled t s (s.modifyObject ref f) :=
  settled_of_eq (ids_modifyObject hf s ref) rfl

theorem settled_dispatchStream (s : H2) (ref : ℕ) : Settled t s (s.dispatchStream ref) := by
  obtain ⟨f, pc, called, hf, -, -, -, he⟩ := dispatchStream_eq s ref
  rw [he]
  refine ⟨(settled_modifyObject (t := t) hf.id s ref).ids, fun x hx => ⟨x.pc, ?_, rfl⟩⟩
  rw [getElem?_append_left (List.getElem?_eq_some_iff.mp hx).1, hx]

theorem settled_openStream (s : H2) (id : ℕ) (block : Bytes) (endStream : Bool) :
    Settled t s (s.openStream id block endStream) :=
  ⟨ids_openStream s id block endStream ▸ prefix_append _ _, fun x hx => ⟨x.pc, hx, rfl⟩⟩

theorem settled_wake (s : H2) (ref : ℕ) : Settled t s (s.wake ref) := by
  cases hw : (s.object ref).windowWaiter with
  | none =>
    rw [wake_of_none hw]
    exact settled_of_eq rfl rfl
  | some i =>
    rw [wake_of_some hw]
    refine ⟨(settled_modifyObject (t := t) (by intro _; rfl) s ref).ids, fun x hx => ?_⟩
    rw [getElem?_modify, hx]
    obtain ⟨r, pc⟩ := x
    by_cases hi : i = t
    · cases pc <;> simp [hi, settle]
    · simp [hi]

variable {fh : FrameHeader} {r : Option (ℕ × ℕ)}

theorem settled_begin (hb : Begin s fh r s') : Settled t s s' := by
  cases hb with
  | opened block endStream => exact settled_openStream s _ block endStream
  | fragment ref | content ref => exact settled_modifyObject (by intro _; rfl) s ref
  | creditStream ref =>
    exact settled_of_eq (ids_modifyObject (by intro _; rfl) s ref) rfl
  | _ => exact settled_of_eq rfl rfl

theorem settled_work (hw : Work fh r s s') : Settled t s s' := by
  induction hw with
  | refl | block => exact settled_of_eq rfl rfl
  | trans _ _ h h' => exact h.trans h'
  | object s _ hf => exact settled_modifyObject (H2Stream.Keeps.of_kept hf).id s _
  | dispatched s => exact settled_dispatchStream s _
  | woken s ref => exact settled_wake s ref

theorem settled_loopMove (hm : LoopMove s s') : Settled t s s' := by
  obtain ⟨n, fh, r, s₁, -, ⟨s₀, hb, hw⟩, hl⟩ := hm.phases
  obtain ⟨lo, wa, pc, log, rfl⟩ := hl.eq
  have ht : Settled t s (s.takeBuffer n).2 := settled_of_eq rfl rfl
  exact ((ht.trans (settled_begin hb)).trans (settled_work hw)).trans (settled_of_eq rfl rfl)

theorem settled_of_bare (hb : s'.bare = s.bare) : Settled t s s' := by
  have ht : s'.tasks.map Task.erase = s.tasks.map Task.erase := (congrArg H2.tasks hb :)
  have hi : s'.ids = s.ids := (congrArg H2.ids hb :)
  refine ⟨hi ▸ prefix_rfl, fun x hx => ?_⟩
  have he : (s'.tasks.map Task.erase)[t]? = (s.tasks.map Task.erase)[t]? := by rw [ht]
  rw [getElem?_map, getElem?_map, hx] at he
  obtain ⟨y, hy, hey⟩ := map_eq_some_iff.mp he
  have href : y.ref = x.ref := (congrArg Task.ref hey :)
  refine ⟨y.pc, ?_, settle_of_erase (congrArg Task.pc hey :)⟩
  rw [hy, ← href]

/-- **Events of others** leave a coroutine where it is. -/
theorem settled_of_step {e : Event} (ht : e.task ≠ some t) (hs : s.step e = some s') : Settled t s s' := by
  cases he : e.task with
  | some i =>
    obtain ⟨x, -, -, -, -, hm⟩ := taskMove_of_task he hs
    obtain ⟨f, streams, c, lo, wa, pc, acts, hf, -, -, rfl⟩ := hm.effect
    have hne : i ≠ t := fun h => ht (h ▸ he)
    refine ⟨(settled_modifyObject (t := t) hf.id s x.ref).ids, fun y hy => ⟨y.pc, ?_, rfl⟩⟩
    rw [getElem?_modify, hy]
    simp [hne]
  | none =>
    obtain ⟨-, b, pc, rfl⟩ | ⟨-, hm⟩ | ⟨who, k, -, hb⟩ := move_of_no_task he hs
    · exact settled_of_eq rfl rfl
    · exact settled_loopMove hm
    · exact settled_of_bare hb

end Settled

/-! ## The peer's frame size -/

theorem frameSize_foldl_applySetting {s : H2} (h : 0 < s.peerMaxFrameSize) (params : List SettingsParam) :
    0 < (params.foldl applySetting s).peerMaxFrameSize := by
  induction params generalizing s with
  | nil => exact h
  | cons p params ih =>
    refine ih ?_
    unfold applySetting
    split_ifs with h1 h2 h3
    · exact h
    · exact h
    · exact Nat.pos_of_ne_zero h3
    · exact h

theorem frameSize_loopSend (s : H2) (f : Frame) (k : LoopCont) :
    (s.loopSend f k).peerMaxFrameSize = s.peerMaxFrameSize := by
  obtain ⟨lo, wa, st, he⟩ := loopSend_eq s f k
  rw [he]

variable {fh : FrameHeader} {payload : Bytes}

theorem frameSize_processFrame {s : H2} (h : 0 < s.peerMaxFrameSize) :
    0 < (s.processFrame fh payload).peerMaxFrameSize := by
  by_cases h1 : fh.type = .settings
  · unfold processFrame
    rw [h1]
    cases hp : s.handleSettings fh payload with
    | none => exact (frameSize_loopSend s _ _).symm ▸ h
    | some r =>
      obtain ⟨s', ack⟩ := r
      have hs' : 0 < s'.peerMaxFrameSize := by
        unfold handleSettings at hp
        split_ifs at hp
        · cases hp
          exact h
        · split at hp
          · cases hp
          · cases hp
            exact frameSize_foldl_applySetting h _
      cases ack with
      | false => exact hs'
      | true => exact (frameSize_loopSend s' _ _).symm ▸ hs'
  · by_cases h2 : fh.type = .ping
    · unfold processFrame
      rw [h2]
      dsimp only
      split
      · exact (frameSize_loopSend s _ _).symm ▸ h
      · exact h
      · exact (frameSize_loopSend s _ _).symm ▸ h
    · obtain ⟨r, s₁, hh, hl⟩ := (frameMove_processFrame s fh payload).phases
      rw [frameSize_of_phases hh hl h1 h2]
      exact h

theorem frameSize_step {s s' : H2} {e : Event} (h : 0 < s.peerMaxFrameSize) (hs : s.step e = some s') :
    0 < s'.peerMaxFrameSize := by
  cases he : e.task with
  | some i =>
    obtain ⟨x, -, -, -, -, hm⟩ := taskMove_of_task he hs
    have hi : s'.input.peerMaxFrameSize = s.input.peerMaxFrameSize := congrArg H2.peerMaxFrameSize hm.input_eq
    exact lt_of_lt_of_eq h hi.symm
  | none =>
    obtain ⟨-, b, pc, rfl⟩ | ⟨rfl, hm⟩ | ⟨who, k, -, hb⟩ := move_of_no_task he hs
    · exact h
    · obtain ⟨n, fh, r, s₁, hl | ⟨rfl, -⟩, hh, hx⟩ := hm.phases
      · obtain ⟨-, rfl⟩ := (step_payload_iff hl).mp hs
        exact frameSize_processFrame (s := (s.takeBuffer fh.length).2) h
      · rw [frameSize_of_phases hh hx (by simp) (by simp)]
        exact h
    · have hm : s'.peerMaxFrameSize = s.peerMaxFrameSize := (congrArg H2.peerMaxFrameSize hb :)
      exact lt_of_lt_of_eq h hm.symm

end H2

end Nhttp.Server
