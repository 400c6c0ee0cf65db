import Nhttp.Server.H2.Moves

/-!
# Dispatches, handler calls and responses

* `dispatches`, `calls`, `responses`: how often the log shows them for a stream id; `owed`: the
  coroutines that have not begun their response.
* **`Counted.step`**: whatever the client sends, the handler is called at most once, and at most one
  response is written, for every dispatch.
-/

namespace Nhttp.Server

open Octets Protocol Http2 Lists

/-! ## Counts -/

namespace Action

def dispatches (id : ℕ) : Action → Bool
  | .dispatched _ i => i == id
  | _ => false

def calls (id : ℕ) : Action → Bool
  | .called i _ _ => i == id
  | _ => false

def responds (id : ℕ) : Action → Bool
  | .sent (some _) f => f.type == .headers && f.streamId == id
  | _ => false

end Action

namespace H2

def dispatches (s : H2) (id : ℕ) : ℕ := s.log.countP (Action.dispatches id)

def calls (s : H2) (id : ℕ) : ℕ := s.log.countP (Action.calls id)

def responses (s : H2) (id : ℕ) : ℕ := s.log.countP (Action.responds id)

/-- The coroutines that still owe a response on a stream id. -/
def owed (s : H2) (id : ℕ) : ℕ :=
  s.tasks.countP fun x => x.pc.unanswered && s.ids[x.ref]? == some id

end H2

namespace H2

structure Within (s s' : H2) : Prop where
  dispatches : s'.dispatches = s.dispatches
  calls : s'.calls = s.calls
  responses : ∀ id, s'.responses id + s'.owed id ≤ s.responses id + s.owed id

structure Counted (s : H2) : Prop where
  calls : ∀ id, s.calls id ≤ s.dispatches id
  responses : ∀ id, s.responses id + s.owed id ≤ s.dispatches id

variable {s' : H2} {t : ℕ} {f : Frame} {k : TaskCont} {x : Task} {fh : FrameHeader} {payload : Bytes} {s : H2}

theorem Counted.within (h : s.Counted) (hw : Within s s') : s'.Counted := by
  refine ⟨fun id => ?_, fun id => ?_⟩
  · rw [hw.calls, hw.dispatches]
    exact h.calls id
  · rw [hw.dispatches]
    exact (hw.responses id).trans (h.responses id)

theorem Within.trans {s₁ : H2} (h : Within s s₁) (h' : Within s₁ s') : Within s s' :=
  ⟨h'.dispatches.trans h.dispatches, h'.calls.trans h.calls,
    fun id => (h'.responses id).trans (h.responses id)⟩

theorem owed_eq (hi : s'.ids = s.ids) (ht : s'.tasks = s.tasks) : s'.owed = s.owed := by
  unfold owed
  rw [hi, ht]

theorem within_of_eq (hi : s'.ids = s.ids) (ht : s'.tasks = s.tasks) (hl : s'.log = s.log) : Within s s' := by
  refine ⟨?_, ?_, fun id => ?_⟩
  · unfold dispatches
    rw [hl]
  · unfold calls
    rw [hl]
  · rw [owed_eq hi ht]
    unfold responses
    rw [hl]

theorem within_bare (s : H2) : Within s s.bare ∧ Within s.bare s := by
  have ho : s.bare.owed = s.owed := by
    funext id
    unfold owed
    rw [show s.bare.tasks = s.tasks.map Task.erase from rfl, List.countP_map]
    congr 1
    funext x
    have hx : x.erase.pc.unanswered = x.pc.unanswered := by
      obtain ⟨r, pc⟩ := x
      cases pc <;> rfl
    simp only [Function.comp_apply, hx]
    rfl
  refine ⟨⟨rfl, rfl, fun id => ?_⟩, ⟨rfl, rfl, fun id => ?_⟩⟩
  · rw [ho]
    exact Nat.le_refl _
  · rw [ho]
    exact Nat.le_refl _

theorem owed_modify_le {id : ℕ} {g : Task → Task} (hi : s'.ids = s.ids)
    (ht : s'.tasks = s.tasks.modify t g) (hr : ∀ x, (g x).ref = x.ref)
    (hu : ∀ x, s.tasks[t]? = some x → (g x).pc.unanswered = true → x.pc.unanswered = true) :
    s'.owed id ≤ s.owed id := by
  unfold owed
  rw [hi, ht]
  cases hx : s.tasks[t]? with
  | none => rw [List.modify_eq_self (List.getElem?_eq_none_iff.mp hx)]
  | some x =>
    have h := countP_modify_add (fun x => x.pc.unanswered && s.ids[x.ref]? == some id) g hx
    have hg := hu x hx
    rw [hr x] at h
    cases hgu : (g x).pc.unanswered with
    | false =>
      simp only [hgu, Bool.false_and, Bool.false_eq_true, if_false, Nat.add_zero] at h
      exact Nat.le.intro h
    | true =>
      rw [hg hgu, hgu] at h
      exact Nat.le_of_eq (Nat.add_right_cancel h)

theorem within_setTask {pc : TaskPc}
    (h : ∀ x, s.tasks[t]? = some x → pc.unanswered = true → x.pc.unanswered = true) :
    Within s (s.setTask t pc) := by
  refine ⟨rfl, rfl, fun id => Nat.add_le_add_left ?_ (s.responses id)⟩
  exact owed_modify_le (g := fun x => { x with pc := pc }) rfl rfl (fun _ => rfl) h

theorem within_taskSend {ref : ℕ} (hf : f.type = .data) : Within s (s.taskSend t ref f k) := by
  obtain ⟨lo, wa, st, he⟩ := taskSend_eq s t ref f k
  rw [he]
  refine ⟨?_, ?_, fun id => ?_⟩
  · funext id
    simp [dispatches, Action.dispatches]
  · funext id
    simp [calls, Action.calls]
  · refine Nat.add_le_add (by simp [responses, Action.responds, hf]) ?_
    exact owed_modify_le (g := fun x => { x with pc := .sending st k }) rfl rfl (fun _ => rfl)
      (fun _ _ h => by cases h)

theorem within_nextChunk (s : H2) (t ref : ℕ) (w : Writer) : Within s (s.nextChunk t ref w) := by
  unfold nextChunk
  split_ifs
  · exact within_taskSend rfl
  · exact within_setTask fun _ _ h => by cases h

theorem within_taskSend_headers (hw : s.Wf) (hx : s.tasks[t]? = some x) (hu : x.pc.unanswered = true)
    (hf : f.streamId = (s.object x.ref).id) : Within s (s.taskSend t x.ref f k) := by
  obtain ⟨lo, wa, st, he⟩ := taskSend_eq s t x.ref f k
  have hl : (s.taskSend t x.ref f k).log = .sent (some x.ref) f :: s.log := by rw [he]
  refine ⟨?_, ?_, fun id => ?_⟩
  · funext id
    simp [dispatches, hl, Action.dispatches]
  · funext id
    simp [calls, hl, Action.calls]
  · have ht : (s.taskSend t x.ref f k).tasks = s.tasks.modify t fun x => { x with pc := .sending st k } := by
      rw [he]
    have hi : (s.taskSend t x.ref f k).ids = s.ids := by rw [he]; rfl
    have hr : s.ids[x.ref]? = some f.streamId := by
      rw [hf]
      refine ids_getElem? ?_
      rw [← length_ids]
      exact hw.tasks x.ref (List.mem_map_of_mem (List.mem_of_getElem? hx))
    have hs : TaskPc.unanswered (.sending st k) = false := rfl
    have h := countP_modify_add (fun x => x.pc.unanswered && s.ids[x.ref]? == some id)
      (fun x => { x with pc := .sending st k }) hx
    simp only [hu, hr, hs, Bool.true_and, Bool.false_and, Bool.false_eq_true, if_false,
      Nat.add_zero, beq_iff_eq, Option.some.injEq] at h
    unfold responses owed
    rw [ht, hi, hl, List.countP_cons]
    simp only [Action.responds, Bool.and_eq_true, beq_iff_eq]
    by_cases hid : f.streamId = id
    · rw [if_pos hid] at h
      split_ifs <;> omega
    · rw [if_neg hid] at h
      rw [if_neg fun hc => hid hc.2]
      omega

theorem TaskMove.within (hw : s.Wf) (hx : s.tasks[t]? = some x) (h : TaskMove s t x s') : Within s s' := by
  cases h with
  | answer resp hp =>
    refine within_setTask fun y hy _ => ?_
    rw [hx] at hy
    cases hy
    rw [hp]
    rfl
  | finish =>
    have he : Within s (s.eraseStream (s.object x.ref).id) := within_of_eq rfl rfl rfl
    exact he.trans (within_setTask fun _ _ h => by cases h)
  | respond resp hp => exact within_taskSend_headers hw hx (by rw [hp]; rfl) rfl
  | start w => exact within_nextChunk s t x.ref w
  | read => exact within_setTask fun _ _ h => by cases h
  | readEnd => exact within_taskSend rfl
  | check w got chunk =>
    unfold checkWindow
    split_ifs
    · exact (within_of_eq (ids_modifyObject (by intro _; rfl) s x.ref) rfl rfl).trans
        (within_setTask fun _ _ h => by cases h)
    · exact within_taskSend rfl
  | deduct w got n chunk =>
    have hd : Within s (s.deduct x.ref n) := by
      refine ⟨?_, ?_, fun id => Nat.add_le_add ?_ ?_⟩
      · funext id
        simp [dispatches, H2.deduct, Action.dispatches]
      · funext id
        simp [calls, H2.deduct, Action.calls]
      · simp [responses, H2.deduct, Action.responds]
      · exact Nat.le_of_eq (congrFun (owed_eq (ids_modifyObject (by intro _; rfl) s x.ref) rfl) id)
    unfold continueTask
    dsimp only
    split_ifs
    · exact hd.trans (within_nextChunk _ _ _ _)
    · exact hd.trans (within_nextChunk _ _ _ _)
    · exact hd.trans (within_setTask fun _ _ h => by cases h)

/-! ## The loop -/

theorem within_loopSend (s : H2) (f : Frame) (k : LoopCont) : Within s (s.loopSend f k) := by
  obtain ⟨lo, wa, st, he⟩ := loopSend_eq s f k
  rw [he]
  refine ⟨?_, ?_, fun id => ?_⟩
  · funext id
    simp [dispatches, Action.dispatches]
  · funext id
    simp [calls, Action.calls]
  · refine Nat.add_le_add ?_ (Nat.le_of_eq (congrFun (owed_eq rfl rfl) id))
    simp [responses, Action.responds]

theorem within_credit {ref : Option ℕ} {inc : ℕ} (hi : s'.ids = s.ids)
    (ht : s'.tasks = s.tasks) (hl : s'.log = .credit ref inc :: s.log) : Within s s' := by
  refine ⟨?_, ?_, fun id => ?_⟩
  · funext id
    simp [dispatches, hl, Action.dispatches]
  · funext id
    simp [calls, hl, Action.calls]
  · rw [owed_eq hi ht]
    simp [responses, hl, Action.responds]

theorem within_wake (s : H2) (ref : ℕ) : Within s (s.wake ref) := by
  obtain ⟨f, t, g, hf, -, hg, he⟩ := wake_eq s ref
  rw [he]
  refine ⟨rfl, rfl, fun id => Nat.add_le_add_left ?_ (s.responses id)⟩
  exact owed_modify_le (g := g) (ids_modifyObject hf.id s ref) rfl (fun x => (hg x).1)
    (fun x _ h => (hg x).2 ▸ h)

theorem within_openStream (hw : s.Wf) (id : ℕ) (block : Bytes) (endStream : Bool) :
    Within s (s.openStream id block endStream) := by
  refine ⟨?_, ?_, fun i => Nat.add_le_add ?_ (Nat.le_of_eq ?_)⟩
  · funext i
    simp [dispatches, H2.openStream, Action.dispatches]
  · funext i
    simp [calls, H2.openStream, Action.calls]
  · simp [responses, H2.openStream, Action.responds]
  · unfold owed
    rw [ids_openStream]
    refine List.countP_congr fun x hx => ?_
    rw [List.getElem?_append_left (hw.tasks x.ref (List.mem_map_of_mem hx))]

section DispatchCounts

variable (s : H2) (ref id : ℕ)

theorem dispatches_dispatchStream :
    (s.dispatchStream ref).dispatches id =
      s.dispatches id + if (s.object ref).id = id then 1 else 0 := by
  obtain ⟨f, pc, called, -, -, -, hc, he⟩ := dispatchStream_eq s ref
  rw [he]
  obtain rfl | ⟨req, body, rfl⟩ := hc <;>
    simp [dispatches, List.countP_cons, Action.dispatches]

theorem calls_dispatchStream_le :
    (s.dispatchStream ref).calls id ≤ s.calls id + if (s.object ref).id = id then 1 else 0 := by
  obtain ⟨f, pc, called, -, -, -, hc, he⟩ := dispatchStream_eq s ref
  rw [he]
  obtain rfl | ⟨req, body, rfl⟩ := hc <;>
    simp [calls, List.countP_cons, Action.calls]

theorem responses_dispatchStream : (s.dispatchStream ref).responses id = s.responses id := by
  obtain ⟨f, pc, called, -, -, -, hc, he⟩ := dispatchStream_eq s ref
  rw [he]
  obtain rfl | ⟨req, body, rfl⟩ := hc <;>
    simp [responses, Action.responds]

variable {s ref}

theorem owed_dispatchStream (hr : ref < s.ids.length) :
    (s.dispatchStream ref).owed id = s.owed id + if (s.object ref).id = id then 1 else 0 := by
  obtain ⟨f, pc, called, hf, -, hu, -, he⟩ := dispatchStream_eq s ref
  have ht : (s.dispatchStream ref).tasks = s.tasks ++ [⟨ref, pc⟩] := by rw [he]
  have hi : (s.dispatchStream ref).ids = s.ids := by
    rw [he]
    exact ids_modifyObject hf.id s ref
  unfold owed
  rw [ht, hi, List.countP_append, List.countP_singleton, hu,
    ids_getElem? (lt_of_lt_of_eq hr (length_ids s))]
  simp

end DispatchCounts

theorem Counted.dispatchStream (h : s.Counted) {ref : ℕ} (hr : ref < s.ids.length) :
    (s.dispatchStream ref).Counted := by
  refine ⟨fun id => ?_, fun id => ?_⟩
  · rw [dispatches_dispatchStream]
    exact (calls_dispatchStream_le s ref id).trans (Nat.add_le_add_right (h.calls id) _)
  · rw [dispatches_dispatchStream, responses_dispatchStream, owed_dispatchStream id hr,
      ← Nat.add_assoc]
    exact Nat.add_le_add_right (h.responses id) _

section Phases

variable {s s₀ : H2} {r : Option (ℕ × ℕ)}

theorem Counted.begins (h : s.Counted) (hw : s.Wf) (hb : Begin s fh r s₀) : s₀.Counted := by
  refine h.within ?_
  cases hb with
  | pass | settings | erased | resumed => exact within_of_eq rfl rfl rfl
  | opened block endStream => exact within_openStream hw _ block endStream
  | fragment ref | content ref => exact within_of_eq (ids_modifyObject (by intro _; rfl) s ref) rfl rfl
  | credit => exact within_credit rfl rfl rfl
  | creditStream ref => exact within_credit (ids_modifyObject (by intro _; rfl) s ref) rfl rfl

theorem Counted.work (h : s.Counted) (hr : s.Refers r) (hw : Work fh r s s') : s'.Counted := by
  induction hw with
  | refl => exact h
  | trans hw _ ih ih' => exact ih' (ih h hr) (hr.work hw)
  | block => exact h.within (within_of_eq rfl rfl rfl)
  | object s _ hf =>
    exact h.within (within_of_eq (ids_modifyObject (H2Stream.Keeps.of_kept hf).id s _) rfl rfl)
  | dispatched s he => exact h.dispatchStream (lt_length_ids (hr _ _ he))
  | woken s ref => exact h.within (within_wake s ref)

end Phases

theorem Counted.loopMove (h : s.Counted) (hw : s.Wf) (hm : LoopMove s s') : s'.Counted := by
  obtain ⟨n, fh, r, s₁, -, ⟨s₀, hb, hk⟩, hl⟩ := hm.phases
  have ht : (s.takeBuffer n).2.Counted := h.within (within_of_eq rfl rfl rfl)
  refine ((ht.begins (hw.takeBuffer n) hb).work (hb.refers (hw.takeBuffer n)) hk).within ?_
  cases hl with
  | go => exact within_of_eq rfl rfl rfl
  | send f k => exact within_loopSend s₁ f k

/-- **One call and one response per dispatch**, whatever the client sends. -/
theorem Counted.step {e : Event} (h : s.Counted) (hw : s.Wf) (hs : s.step e = some s') : s'.Counted := by
  cases move_of_step hs with
  | recv | recvEnd | recvFail | writeFail => exact h.within (within_of_eq rfl rfl rfl)
  | loop hm => exact h.loopMove hw hm
  | write _ _ hb =>
    have hc := h.within (within_bare s).1
    rw [← hb] at hc
    exact hc.within (within_bare s').2
  | task _ t x hx _ hm => exact h.within (hm.within hw hx)

end H2

end Nhttp.Server
