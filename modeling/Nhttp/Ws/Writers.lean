import Nhttp.Ws.Step

/-!
# Concurrent writers of a WebSocket connection

* `Move`, `step_move`: what a step does to the one coroutine that goes on.
* **`wire_eq_frames`**: the octets on the wire are whole frames, but for one that is being written, if
  `write_frame` is called only while no other call of it is under way.
* **`log_close_last`**: nothing begins after a Close frame if, in addition, it is not called on a closed
  connection.
-/

namespace Nhttp.Ws

open Octets ExactReads Run List

namespace WsState

/-! ## Moves -/

/-- The coroutine `t` is in `write_frame`. -/
def Writes (s : WsState) (t : ℕ) : Prop := ∃ head body k, s.tasks[t]? = some (.writing head body k)

/-- What a step does to the coroutine `t`. -/
inductive Move (s s' : WsState) (e : Event) (t : ℕ) : Prop
  | wait (h : ¬s.Writes t) (h' : ¬s'.Writes t) (wire : s'.wire = s.wire) (log : s'.log = s.log)
      (closed : s'.closed = s.closed ∨ s'.closed = true)
  | begin (f : RawFrame) (k : Cont) (h : ¬s.Writes t) (hf : s.frameOf e = some f)
      (h' : s'.tasks[t]? = some (.writing (frameHeader f.fin f.opcode f.payload.length) f.payload k))
      (hk : f.opcode = opcodeClose → k = .close) (wire : s'.wire = s.wire) (log : s'.log = s.log ++ [f])
      (closed : s'.closed = s.closed)
  | write (head body written head' body' : Bytes) (k : Cont) (h : s.tasks[t]? = some (.writing head body k))
      (h' : s'.tasks[t]? = some (.writing head' body' k)) (hw : written ++ (head' ++ body') = head ++ body)
      (wire : s'.wire = s.wire ++ written) (log : s'.log = s.log) (closed : s'.closed = s.closed)
  | finish (head body : Bytes) (k : Cont) (h : s.tasks[t]? = some (.writing head body k)) (h' : ¬s'.Writes t)
      (wire : s'.wire = s.wire ++ (head ++ body)) (log : s'.log = s.log)
      (closed : s'.closed = s.closed ∨ s'.closed = true) (hk : k = .close → s'.closed = true)
  | abort (he : e = .fail t) (h : s.Writes t) (h' : ¬s'.Writes t)

variable {s s' : WsState} {t : ℕ} {e : Event}

theorem not_writes_of_eq {pc : Option Pc} (h : s.tasks[t]? = pc)
    (hpc : ∀ head body k, pc ≠ some (.writing head body k)) : ¬s.Writes t := by
  rintro ⟨head, body, k, hw⟩
  exact hpc head body k (h.symm.trans hw)

/-- A coroutine that goes on is not inside a frame, and a Close frame it begins closes the connection. -/
def NextOk : Next → Prop
  | .wait pc => ∀ head body k, pc ≠ .writing head body k
  | .write f k => f.opcode = opcodeClose → k = .close

theorem loopHead_ne_writing (closed : Bool) (r : Reassembly) (head body : Bytes) (k : Cont) :
    loopHead closed r ≠ .writing head body k := by
  cases closed <;> exact nofun

theorem nextOk_closeCall (closed : Bool) (code : ℕ) (reason : Bytes) : NextOk (closeCall closed code reason) := by
  cases closed with
  | true => exact fun _ _ _ => nofun
  | false => exact fun _ => rfl

theorem nextOk_startCall (closed : Bool) (c : Call) : NextOk (startCall closed c) := by
  cases c with
  | receive => exact loopHead_ne_writing closed {}
  | sendText text => exact fun h => absurd h (by decide : opcodeText ≠ opcodeClose)
  | sendBinary data => exact fun h => absurd h (by decide : opcodeBinary ≠ opcodeClose)
  | close code reason => exact nextOk_closeCall closed code reason

theorem nextOk_afterTake (closed : Bool) (r : Reassembly) (p : Prog UInt8 RawFrame) :
    NextOk (afterTake closed r p) := by
  cases p with
  | need n k => exact fun _ _ _ => nofun
  | ret f =>
    rw [afterTake, afterFrameNext]
    cases r.onFrame f with
    | closeReply payload => exact fun _ => rfl
    | pong payload => exact fun h => absurd h (by decide : opcodePong ≠ opcodeClose)
    | fail code reason => exact nextOk_closeCall closed code reason
    | goOn r' => exact loopHead_ne_writing closed r'
    | deliver msg => exact fun _ _ _ => nofun

theorem move_enter {s₁ : WsState} {next : Next} (ht : t < s₁.tasks.length)
    (h : ¬s.Writes t) (hok : NextOk next) (hf : s.frameOf e = Next.frame next) (hwire : s₁.wire = s.wire)
    (hlog : s₁.log = s.log) (hclosed : s₁.closed = s.closed) : Move s (s₁.enter t next) e t := by
  cases next with
  | wait pc =>
    refine .wait h (not_writes_of_eq (getElem?_set_self ht) ?_) hwire hlog (.inl hclosed)
    rintro head body k ⟨⟩
    exact hok head body k rfl
  | write f k =>
    exact .begin f k h hf (getElem?_set_self ht) hok hwire (by rw [← hlog]; rfl) hclosed

theorem tasks_enter_of_ne (s : WsState) (next : Next) {u : ℕ} (hu : u ≠ t) :
    (s.enter t next).tasks[u]? = s.tasks[u]? := by
  cases next <;> exact getElem?_set_ne hu.symm

theorem move_wrote {head body written head' body' : Bytes} {k : Cont}
    (h : s.tasks[t]? = some (.writing head body k)) (hw : written ++ (head' ++ body') = head ++ body) :
    Move s (s.wrote t written head' body' k) e t ∧
      ∀ u ≠ t, (s.wrote t written head' body' k).tasks[u]? = s.tasks[u]? := by
  have ht : t < s.tasks.length := (List.getElem?_eq_some_iff.mp h).1
  unfold wrote
  split_ifs with hend
  · obtain ⟨rfl, rfl⟩ := hend
    refine ⟨.finish head body k h (not_writes_of_eq (getElem?_set_self ht) ?_) ?_ rfl ?_ ?_,
      fun u hu => getElem?_set_ne hu.symm⟩
    · rintro head' body' k' he
      cases k with
      | stop => cases he
      | close => cases he
      | loop r => exact loopHead_ne_writing s.closed r head' body' k' (Option.some.inj he)
    · rw [← hw, append_nil, append_nil]
      rfl
    · cases k with
      | stop => exact .inl rfl
      | close => exact .inr rfl
      | loop r => exact .inl rfl
    · rintro rfl
      rfl
  · exact ⟨.write head body written head' body' k h (getElem?_set_self ht) hw rfl rfl rfl,
      fun u hu => getElem?_set_ne hu.symm⟩

/-- **What a step does.** One coroutine goes on, and the others stay where they are. -/
theorem step_move (h : s.step e = some s') :
    ∃ t, Move s s' e t ∧ ∀ u ≠ t, s'.tasks[u]? = s.tasks[u]? := by
  cases e with
  | call c =>
    cases h
    refine ⟨s.tasks.length, move_enter (by simp) (not_writes_of_eq rfl (by simp)) (nextOk_startCall _ _) rfl
      rfl rfl rfl, fun u hu => ?_⟩
    rw [tasks_enter_of_ne _ _ hu]
    obtain hlt | hgt := Nat.lt_or_gt_of_ne hu
    · exact getElem?_append_left hlt
    · rw [getElem?_eq_none (by simpa using hgt), getElem?_eq_none hgt.le]
  | read t bs =>
    dsimp only [step] at h
    split at h
    · next r n k ht =>
      split_ifs at h with hc
      cases h
      have hlt : t < s.tasks.length := (List.getElem?_eq_some_iff.mp ht).1
      have hno : ¬s.Writes t := not_writes_of_eq ht (by simp)
      refine ⟨t, ?_⟩
      unfold fill
      split_ifs
      · exact ⟨.wait hno (not_writes_of_eq (getElem?_set_self hlt) (by simp)) rfl rfl (.inr rfl),
          fun u hu => getElem?_set_ne hu.symm⟩
      · exact ⟨.wait hno hno rfl rfl (.inl rfl), fun _ _ => rfl⟩
    · cases h
  | take t =>
    dsimp only [step] at h
    split at h
    · next r n k ht =>
      split_ifs at h with hc
      cases h
      have hlt : t < s.tasks.length := (List.getElem?_eq_some_iff.mp ht).1
      refine ⟨t, move_enter hlt (not_writes_of_eq ht (by simp)) (nextOk_afterTake _ _ _) ?_ rfl rfl rfl,
        fun u hu => tasks_enter_of_ne _ _ hu⟩
      rw [frameOf, ht]
    · cases h
  | write t k =>
    dsimp only [step] at h
    split at h
    · next head body cont ht =>
      refine ⟨t, ?_⟩
      by_cases hhead : head = []
      · rw [if_neg (not_not.mpr hhead)] at h
        split_ifs at h
        cases h
        exact move_wrote ht (by rw [hhead]; simp)
      · rw [if_pos hhead] at h
        split_ifs at h
        cases h
        exact move_wrote ht (by rw [← append_assoc, take_append_drop])
    · cases h
  | fail t =>
    dsimp only [step] at h
    split at h
    · next r p ht =>
      cases h
      have hlt : t < s.tasks.length := (List.getElem?_eq_some_iff.mp ht).1
      exact ⟨t, .wait (not_writes_of_eq ht (by simp))
        (not_writes_of_eq (getElem?_set_self hlt) (by simp)) rfl rfl (.inl rfl),
        fun u hu => getElem?_set_ne hu.symm⟩
    · next head body k ht =>
      cases h
      have hlt : t < s.tasks.length := (List.getElem?_eq_some_iff.mp ht).1
      exact ⟨t, .abort rfl ⟨_, _, _, ht⟩ (not_writes_of_eq (getElem?_set_self hlt) (by simp)),
        fun u hu => getElem?_set_ne hu.symm⟩
    · cases h

/-! ## Whole frames -/

def isWriting : Pc → Bool
  | .writing .. => true
  | _ => false

/-- No coroutine is in `write_frame`. -/
def Idle (s : WsState) : Prop := ∀ pc ∈ s.tasks, isWriting pc = false

instance (s : WsState) : Decidable s.Idle := inferInstanceAs (Decidable (∀ pc ∈ s.tasks, _))

theorem idle_iff (s : WsState) : s.Idle ↔ ∀ t, ¬s.Writes t := by
  constructor
  · rintro h t ⟨head, body, k, ht⟩
    cases h _ (mem_of_getElem? ht)
  · intro h pc hpc
    obtain ⟨t, ht⟩ := mem_iff_getElem?.mp hpc
    cases pc with
    | writing head body k => exact absurd ⟨head, body, k, ht⟩ (h t)
    | _ => rfl

/-- The wire holds the frames begun, but for the rest of one that a coroutine is writing. -/
def Serial (s : WsState) : Prop :=
  (∀ t, ¬s.Writes t) ∧ s.wire = s.log.flatMap frameBytes ∨
    ∃ t head body k, s.tasks[t]? = some (.writing head body k) ∧ (∀ u ≠ t, ¬s.Writes u) ∧
      s.wire ++ (head ++ body) = s.log.flatMap frameBytes

theorem Serial.of_writing {head body : Bytes} {k : Cont} (h : s.Serial)
    (ht : s.tasks[t]? = some (.writing head body k)) :
    (∀ u ≠ t, ¬s.Writes u) ∧ s.wire ++ (head ++ body) = s.log.flatMap frameBytes := by
  obtain ⟨hidle, -⟩ | ⟨u, _, _, _, hu, huniq, hw⟩ := h
  · exact absurd ⟨head, body, k, ht⟩ (hidle t)
  · obtain rfl : t = u := by
      by_contra hne
      exact huniq t hne ⟨head, body, k, ht⟩
    rw [ht] at hu
    cases hu
    exact ⟨huniq, hw⟩

def failsWrite (s : WsState) : Event → Bool
  | .fail t => (s.tasks[t]?.map isWriting).getD false
  | _ => false

/-- A frame is begun only while no other one is being written, and no write of a frame throws. -/
def OneWriter (s : WsState) (e : Event) : Prop :=
  ((s.frameOf e).isSome = true → s.Idle) ∧ s.failsWrite e = false

instance (s : WsState) (e : Event) : Decidable (s.OneWriter e) := inferInstanceAs (Decidable (_ ∧ _))

theorem OneWriter.not_abort (h : s.OneWriter (.fail t)) : ¬s.Writes t := by
  rintro ⟨head, body, k, ht⟩
  have := h.2
  rw [failsWrite, ht] at this
  cases this

theorem Serial.step (hc : s.OneWriter e) (h : s.step e = some s') (hs : s.Serial) : s'.Serial := by
  obtain ⟨t, hmove, hothers⟩ := step_move h
  have hwrites : ∀ u ≠ t, ¬s.Writes u → ¬s'.Writes u := by
    rintro u hu hno ⟨head, body, k, hw⟩
    exact hno ⟨head, body, k, (hothers u hu).symm.trans hw⟩
  cases hmove with
  | wait ht ht' hwire hlog _ =>
    -- the coroutine writes neither before nor after the step
    obtain ⟨hidle, hw⟩ | ⟨u, head, body, k, hu, huniq, hw⟩ := hs
    · refine .inl ⟨fun u => ?_, by rw [hwire, hlog, hw]⟩
      by_cases hut : u = t
      · exact hut ▸ ht'
      · exact hwrites u hut (hidle u)
    · have hut : u ≠ t := by
        rintro rfl
        exact ht ⟨head, body, k, hu⟩
      refine .inr ⟨u, head, body, k, (hothers u hut).trans hu, fun v hv => ?_, by rw [hwire, hlog, hw]⟩
      by_cases hvt : v = t
      · exact hvt ▸ ht'
      · exact hwrites v hvt (huniq v hv)
  | begin f k ht hf ht' _ hwire hlog _ =>
    have hidle := (idle_iff s).mp (hc.1 (by rw [hf]; rfl))
    obtain ⟨-, hw⟩ | ⟨u, head, body, k, hu, -⟩ := hs
    · refine .inr ⟨t, _, _, k, ht', fun u hu => hwrites u hu (hidle u), ?_⟩
      rw [hwire, hlog, hw, flatMap_append, flatMap_singleton]
      rfl
    · exact absurd ⟨head, body, k, hu⟩ (hidle u)
  | write head body written head' body' k ht ht' hsplit hwire hlog _ =>
    obtain ⟨huniq, hw⟩ := hs.of_writing ht
    refine .inr ⟨t, head', body', k, ht', fun v hv => hwrites v hv (huniq v hv), ?_⟩
    rw [hwire, hlog, append_assoc, hsplit, hw]
  | finish head body k ht ht' hwire hlog _ _ =>
    obtain ⟨huniq, hw⟩ := hs.of_writing ht
    refine .inl ⟨fun v => ?_, by rw [hwire, hlog, hw]⟩
    by_cases hvt : v = t
    · exact hvt ▸ ht'
    · exact hwrites v hvt (huniq v hvt)
  | abort he ht _ => exact absurd ht (he ▸ hc).not_abort

theorem Serial.start (buffer : Bytes) : Serial { buffer := buffer } :=
  .inl ⟨fun t ⟨_, _, _, h⟩ => (by cases h), rfl⟩

theorem Serial.wire_initial (h : s.Serial) : s.wire <+: s.log.flatMap frameBytes := by
  obtain ⟨-, hw⟩ | ⟨t, head, body, k, -, -, hw⟩ := h
  · rw [hw]
  · exact ⟨_, hw⟩

theorem Serial.wire_eq (h : s.Serial) (hi : s.Idle) : s.wire = s.log.flatMap frameBytes := by
  obtain ⟨-, hw⟩ | ⟨t, head, body, k, ht, -⟩ := h
  · exact hw
  · exact absurd ⟨head, body, k, ht⟩ ((idle_iff s).mp hi t)

/-! ## Nothing after a Close frame -/

/-- The connection is closed, or will be when a Close frame has been written. -/
def Closing (s : WsState) : Prop :=
  s.closed = true ∨ ∃ (t : ℕ) (head body : Bytes), s.tasks[t]? = some (Pc.writing head body .close)

def CloseLast (s : WsState) : Prop :=
  (∀ f ∈ s.log, f.opcode ≠ opcodeClose) ∨
    ∃ l f, s.log = l ++ [f] ∧ (∀ g ∈ l, g.opcode ≠ opcodeClose) ∧ s.Closing

/-- A frame is begun only while no other is being written and the connection is open, and no write throws. -/
def OneWriterOpen (s : WsState) (e : Event) : Prop :=
  s.OneWriter e ∧ ((s.frameOf e).isSome = true → s.closed = false)

instance (s : WsState) (e : Event) : Decidable (s.OneWriterOpen e) := inferInstanceAs (Decidable (_ ∧ _))

theorem Closing.step (hc : s.OneWriter e) (h : s.step e = some s') (hs : s.Closing) : s'.Closing := by
  obtain ⟨t, hmove, hothers⟩ := step_move h
  -- a coroutine that writes a Close frame goes on doing so if another one moves
  have hkeep : ∀ u head body, u ≠ t → s.tasks[u]? = some (Pc.writing head body .close) → s'.Closing :=
    fun u head body hu hw => .inr ⟨u, head, body, (hothers u hu).trans hw⟩
  have hclosed : s'.closed = s.closed ∨ s'.closed = true → s.closed = true → s'.Closing := by
    rintro (h | h) hs
    · exact .inl (h.trans hs)
    · exact .inl h
  cases hmove with
  | wait ht ht' _ _ hcl =>
    obtain hs | ⟨u, head, body, hu⟩ := hs
    · exact hclosed hcl hs
    · exact hkeep u head body (fun hut => ht (hut ▸ ⟨head, body, _, hu⟩)) hu
  | begin f k ht hf ht' hk _ _ hcl =>
    obtain hs | ⟨u, head, body, hu⟩ := hs
    · exact hclosed (.inl hcl) hs
    · exact hkeep u head body (fun hut => ht (hut ▸ ⟨head, body, _, hu⟩)) hu
  | write head body written head' body' k ht ht' _ _ _ hcl =>
    obtain hs | ⟨u, head0, body₀, hu⟩ := hs
    · exact hclosed (.inl hcl) hs
    · by_cases hut : u = t
      · subst hut
        rw [ht] at hu
        cases hu
        exact .inr ⟨u, head', body', ht'⟩
      · exact hkeep u head0 body₀ hut hu
  | finish head body k ht ht' _ _ hcl hk =>
    obtain hs | ⟨u, head0, body₀, hu⟩ := hs
    · exact hclosed hcl hs
    · by_cases hut : u = t
      · subst hut
        rw [ht] at hu
        cases hu
        exact .inl (hk rfl)
      · exact hkeep u head0 body₀ hut hu
  | abort he ht _ => exact absurd ht (he ▸ hc).not_abort

theorem CloseLast.step (hc : s.OneWriterOpen e) (h : s.step e = some s') (hs : s.CloseLast) : s'.CloseLast := by
  have hclosing := Closing.step hc.1 h
  obtain ⟨t, hmove, -⟩ := step_move h
  -- what a step that begins no frame keeps
  have hkeep : s'.log = s.log → s'.CloseLast := by
    intro hlog
    obtain hs | ⟨l, f, hl, hno, hcl⟩ := hs
    · exact .inl (hlog ▸ hs)
    · exact .inr ⟨l, f, hlog.trans hl, hno, hclosing hcl⟩
  cases hmove with
  | wait _ _ _ hlog _ => exact hkeep hlog
  | begin f k _ hf ht' hk _ hlog _ =>
    have hidle := (idle_iff s).mp (hc.1.1 (by rw [hf]; rfl))
    have hopen := hc.2 (by rw [hf]; rfl)
    obtain hs | ⟨-, -, -, -, hcl | ⟨u, head, body, hu⟩⟩ := hs
    · by_cases hfc : f.opcode = opcodeClose
      · exact .inr ⟨s.log, f, hlog, hs, .inr ⟨t, _, _, (hk hfc) ▸ ht'⟩⟩
      · refine .inl fun g hg => ?_
        rw [hlog, mem_append, mem_singleton] at hg
        obtain hg | rfl := hg
        · exact hs g hg
        · exact hfc
    · rw [hopen] at hcl
      cases hcl
    · exact absurd ⟨head, body, _, hu⟩ (hidle u)
  | write _ _ _ _ _ _ _ _ _ _ hlog _ => exact hkeep hlog
  | finish _ _ _ _ _ _ hlog _ _ => exact hkeep hlog
  | abort he ht _ => exact absurd ht (he ▸ hc.1).not_abort

theorem CloseLast.eq_nil (h : s.CloseLast) {l₁ l₂ : List RawFrame} {f : RawFrame}
    (hl : s.log = l₁ ++ f :: l₂) (hf : f.opcode = opcodeClose) : l₂ = [] := by
  obtain h | ⟨l, g, hlog, hno, -⟩ := h
  · exact absurd hf (h f (by rw [hl]; simp))
  · obtain rfl | ⟨m, x, rfl⟩ := eq_nil_or_concat' l₂
    · rfl
    · -- then `f` is not the last frame
      have heq : (l₁ ++ f :: m) ++ [x] = l ++ [g] := by
        rw [← hlog, hl]
        simp
      have hmem : f ∈ l := by
        rw [← (append_inj' heq rfl).1]
        simp
      exact absurd hf (hno f hmem)

end WsState

/-! ## Main results -/

/-- **Whole frames.** As long as a frame is begun only while no other one is being written, and no write throws, the wire
holds the frames in order; only the last one can be incomplete. -/
theorem wire_eq_frames (buffer : Bytes) (es : List Event) (s : WsState)
    (h : Exec WsState.step WsState.OneWriter { buffer := buffer } es s) :
    s.wire <+: s.log.flatMap frameBytes ∧ (s.Idle → s.wire = s.log.flatMap frameBytes) := by
  have hserial := h.inv (fun _ _ _ => WsState.Serial.step) (.start buffer)
  exact ⟨hserial.wire_initial, hserial.wire_eq⟩

/-- Two texts one after the other. -/
theorem wire_eq_frames_ab :
    ∃ s, Exec WsState.step WsState.OneWriter {} [.call (.sendText (ascii "a")), .write 0 2, .write 0 1,
      .call (.sendText (ascii "b")), .write 1 1, .write 1 1, .write 1 1] s ∧
      s.wire <+: s.log.flatMap frameBytes ∧ (s.Idle → s.wire = s.log.flatMap frameBytes) := by
  obtain ⟨s, hs, -⟩ := exists_exec (show (runChecked WsState.step WsState.OneWriter {} [.call (.sendText (ascii "a")),
    .write 0 2, .write 0 1, .call (.sendText (ascii "b")), .write 1 1, .write 1 1, .write 1 1]).map
      WsState.wire = some [0x81, 0x01, 0x61, 0x81, 0x01, 0x62] by decide +kernel)
  exact ⟨s, hs, wire_eq_frames [] _ s hs⟩

/-- Two texts whose headers and payloads are written in turn. -/
theorem wire_interleaved :
    ∃ es s, Exec WsState.step (fun _ _ => True) {} es s ∧ s.Idle ∧
      ¬∃ fs : List RawFrame, s.wire = fs.flatMap frameBytes := by
  obtain ⟨s, hs, hw⟩ := exists_exec (show (runChecked WsState.step (fun _ _ => True) {}
    [.call (.sendText (ascii "a")), .call (.sendText (ascii "b")), .write 0 2, .write 1 2, .write 0 1,
      .write 1 1]).map (fun s => (s.wire, decide s.Idle)) =
      some ([0x81, 0x01, 0x81, 0x01, 0x61, 0x62], true) by decide +kernel)
  obtain ⟨hwire, hidle⟩ := Prod.mk.inj hw
  refine ⟨_, s, hs, of_decide_eq_true hidle, ?_⟩
  rw [hwire]
  rintro ⟨fs, hfs⟩
  -- a reader takes the second header for the first payload, and what is left is no frame
  cases fs with
  | nil => cases hfs
  | cons f fs =>
    obtain ⟨g, hg⟩ := exists_readFrame_flatMap hfs (by decide)
    have hrest : some (fs.flatMap frameBytes) = some [0x01, 0x61, 0x62] :=
      (congrArg (Option.map Prod.snd) hg.symm).trans (by decide +kernel)
    cases fs with
    | nil => cases hrest
    | cons f' fs =>
      obtain ⟨g', hg'⟩ := exists_readFrame_flatMap (Option.some.inj hrest).symm (by decide)
      have hnone : readFrame.parse [0x01, 0x61, 0x62] = none := by decide +kernel
      rw [hnone] at hg'
      cases hg'

/-- **Nothing after Close**, as long as, in addition, a frame is begun only while the connection is not closed. -/
theorem log_close_last (buffer : Bytes) (es : List Event) (s : WsState)
    (h : Exec WsState.step WsState.OneWriterOpen { buffer := buffer } es s) :
    s.wire <+: s.log.flatMap frameBytes ∧
      ∀ l₁ f l₂, s.log = l₁ ++ f :: l₂ → f.opcode = opcodeClose → l₂ = [] := by
  have hinv : s.Serial ∧ s.CloseLast := by
    refine h.inv (I := fun s => s.Serial ∧ s.CloseLast) (fun _ _ _ hc hstep hI => ?_) ⟨.start buffer, .inl ?_⟩
    · exact ⟨hI.1.step hc.1 hstep, hI.2.step hc hstep⟩
    · exact fun f hf => absurd hf not_mem_nil
  exact ⟨hinv.1.wire_initial, fun _ _ _ => hinv.2.eq_nil⟩

/-- A text and a Close frame. -/
theorem log_close_last_text :
    ∃ s, Exec WsState.step WsState.OneWriterOpen {} [.call (.sendText (ascii "a")), .write 0 2, .write 0 1,
      .call (.close 1000 []), .write 1 2, .write 1 2] s ∧
      s.wire <+: s.log.flatMap frameBytes ∧
      ∀ l₁ f l₂, s.log = l₁ ++ f :: l₂ → f.opcode = opcodeClose → l₂ = [] := by
  obtain ⟨s, hs, -⟩ := exists_exec (show (runChecked WsState.step WsState.OneWriterOpen {}
    [.call (.sendText (ascii "a")), .write 0 2, .write 0 1, .call (.close 1000 []), .write 1 2,
      .write 1 2]).map WsState.closed = some true by decide +kernel)
  exact ⟨s, hs, log_close_last [] _ s hs⟩

/-- A text is sent after `close` has returned. -/
theorem log_after_close :
    ∃ es s, Exec WsState.step (fun _ _ => True) {} es s ∧ s.wire = s.log.flatMap frameBytes ∧
      ∃ l₁ f l₂, s.log = l₁ ++ f :: l₂ ∧ f.opcode = opcodeClose ∧ l₂ ≠ [] := by
  obtain ⟨s, hs, hw⟩ := exists_exec (show (runChecked WsState.step (fun _ _ => True) {}
    [.call (.close 1000 []), .write 0 2, .write 0 2, .call (.sendText (ascii "a")), .write 1 2,
      .write 1 1]).map (fun s => (s.wire, s.log)) =
      some ([0x88, 0x02, 0x03, 0xe8, 0x81, 0x01, 0x61],
        [⟨true, opcodeClose, [0x03, 0xe8]⟩, ⟨true, opcodeText, ascii "a"⟩]) by decide +kernel)
  obtain ⟨hwire, hlog⟩ := Prod.mk.inj hw
  refine ⟨_, s, hs, ?_, [], _, _, hlog, rfl, cons_ne_nil _ _⟩
  rw [hwire, hlog]
  decide +kernel

end Nhttp.Ws
