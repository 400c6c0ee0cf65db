import Nhttp.Server.H2.DataFrames

/-!
# Responses sent in DATA frames

* `Carries`: the DATA frames cut in a run, and what is left.
* `Funded`: the windows allow everything that is left.
* **`dataFrames_carry`**: the frames of a response carry its body up to the content length, the last one
  ends the stream, and with enough window it is sent.
-/

namespace Nhttp.Server

open Octets Protocol Http2 List TaskPc
open Option hiding mem_map

namespace H2

/-! ## Runs -/

def NothingThrows (_ : H2) (e : Event) : Prop := e.fails = false

instance (s : H2) (e : Event) : Decidable (s.NothingThrows e) :=
  inferInstanceAs (Decidable (e.fails = false))

variable {s s' : H2} {t : ℕ}

theorem object_id_of_settled {ref : ℕ} (h : Settled t s s') (hr : ref < s.ids.length) :
    (s'.object ref).id = (s.object ref).id ∧ ref < s'.ids.length := by
  have hi : s.ids[ref]? = some (s.object ref).id := ids_getElem? (by rwa [length_ids] at hr)
  have hi' : s'.ids[ref]? = some (s.object ref).id := by
    obtain ⟨l, hl⟩ := h.ids
    rw [← hl, getElem?_append_left hr, hi]
  exact ⟨object_id_of_ids hi', lt_length_ids hi'⟩

variable {e : Event} {x : Task} {es : List Event} {r : Bytes}

theorem object_id_step {ref : ℕ} (hr : ref < s.ids.length)
    (hs : s.step e = some s') : (s'.object ref).id = (s.object ref).id ∧ ref < s'.ids.length := by
  -- some coroutine is not the one whose event it is
  obtain ⟨i, hi⟩ : ∃ i, e.task ≠ some i := by
    by_contra hall
    push Not at hall
    have := (hall 0).symm.trans (hall 1)
    cases this
  exact object_id_of_settled (settled_of_step hi hs) hr

theorem cutBy_of_other (he : e.task ≠ some t) : cutBy t s e = [] := by
  unfold cutBy
  split
  · rfl
  · exact if_neg he

theorem ended_step (hx : s.tasks[t]? = some x) (hend : x.pc.ended = true) (hs : s.step e = some s') :
    ∃ pc, s'.tasks[t]? = some ⟨x.ref, pc⟩ ∧ pc.ended = true ∧ cutBy t s e = [] := by
  by_cases he : e.task = some t
  · obtain ⟨y, hy, -, -, -, hm⟩ := taskMove_of_task he hs
    rw [hx] at hy
    cases hy
    cases hm with
    | finish =>
      refine ⟨.done, tasks_setTask (s := s.eraseStream (s.object x.ref).id) hx .done, rfl, ?_⟩
      rw [cutBy_of_log hs he [] rfl]
      rfl
    | answer _ hp | respond _ hp | start _ hp | read _ _ _ _ hp | readEnd _ hp | check _ _ _ hp
    | deduct _ _ _ _ hp =>
      rw [hp] at hend
      cases hend
  · obtain ⟨pc, hpc, hsettle⟩ := (settled_of_step he hs).task x hx
    refine ⟨pc, hpc, ?_, cutBy_of_other he⟩
    rw [← ended_settle, hsettle, ended_settle, hend]

theorem gather_ended (hx : s.tasks[t]? = some x)
    (hend : x.pc.ended = true) (h : Run.Exec H2.step NothingThrows s es s') :
    Run.gather H2.step (cutBy t) s es = [] ∧ ∃ pc, s'.tasks[t]? = some ⟨x.ref, pc⟩ ∧ pc.ended = true := by
  induction h generalizing x with
  | nil => exact ⟨rfl, x.pc, hx, hend⟩
  | cons _ hs _ ih =>
    obtain ⟨pc, hpc, hend', hcut⟩ := ended_step hx hend hs
    obtain ⟨hg, hpc'⟩ := ih hpc hend'
    refine ⟨?_, hpc'⟩
    simp only [Run.gather, hs, hcut, hg, append_nil]

/-- DATA frames of a stream that do not end it, none of them empty or larger than allowed. -/
def DataOnly (id : ℕ) (fs : List (ℕ × Frame)) : Prop :=
  ∀ p ∈ fs, p.2.type = .data ∧ p.2.flags = 0 ∧ p.2.streamId = id ∧ p.2.payload ≠ [] ∧ p.2.payload.length ≤ p.1

/-- What frames carry. -/
def payloads (fs : List (ℕ × Frame)) : Bytes := (fs.map fun p => p.2.payload).flatten

/-- The frames cut so far, if `r` was to be sent and the coroutine is at `pc`. -/
def Carries (id : ℕ) (r : Bytes) (fs : List (ℕ × Frame)) (pc : TaskPc) : Prop :=
  ∃ cut rest, DataOnly id cut ∧ payloads cut ++ rest = r ∧
    ((fs = cut ∧ pc.rest = some rest ∧ pc.Valid) ∨
      (rest = [] ∧ pc.ended = true ∧ ∃ m, fs = cut ++ [(m, ⟨.data, FrameFlags.endStream, id, []⟩)]))

theorem Carries.cons {id m : ℕ} {p : Bytes} {fs : List (ℕ × Frame)} {pc : TaskPc} (hne : p ≠ [])
    (hle : p.length ≤ m) (h : Carries id r fs pc) :
    Carries id (p ++ r) ((m, ⟨.data, 0, id, p⟩) :: fs) pc := by
  obtain ⟨cut, rest, hcut, hpay, hfs⟩ := h
  refine ⟨(m, ⟨.data, 0, id, p⟩) :: cut, rest, forall_mem_cons.mpr ⟨⟨rfl, rfl, rfl, hne, hle⟩, hcut⟩,
    ?_, ?_⟩
  · rw [← hpay]
    exact append_assoc _ _ _
  · obtain ⟨rfl, hr, hv⟩ | ⟨hr, hend, m', rfl⟩ := hfs
    · exact .inl ⟨rfl, hr, hv⟩
    · exact .inr ⟨hr, hend, m', rfl⟩

theorem gather_cut {ref : ℕ} {pc : TaskPc}
    (hx : s.tasks[t]? = some ⟨ref, pc⟩) (hv : pc.Valid) (hr : pc.rest = some r)
    (hm : 0 < s.peerMaxFrameSize) (href : ref < s.ids.length) (h : Run.Exec H2.step NothingThrows s es s') :
    ∃ pc', s'.tasks[t]? = some ⟨ref, pc'⟩ ∧
      Carries (s.object ref).id r (Run.gather H2.step (cutBy t) s es) pc' := by
  induction h generalizing pc r with
  | nil => exact ⟨pc, hx, [], r, fun _ hp => (by cases hp), rfl, .inl ⟨rfl, hr, hv⟩⟩
  | @cons s s₁ s' e es hf hs hx' ih =>
    obtain ⟨hid, href1⟩ := object_id_step href hs
    have hm1 := frameSize_step hm hs
    have hg : Run.gather H2.step (cutBy t) s (e :: es) = cutBy t s e ++ Run.gather H2.step (cutBy t) s₁ es := by
      simp only [Run.gather, hs]
    rw [hg, ← hid]
    by_cases he : e.task = some t
    · obtain ⟨pc₁, hx1, hv1, hend1, hcut⟩ := cut_of_step hx he hf hs hm hv hr
      rw [← hid] at hcut
      generalize hc : cutBy t s e = c at hcut
      generalize hr1 : pc₁.rest = r₁ at hcut
      cases hcut with
      | nothing => exact ih hx1 hv1 hr1 hm1 href1
      | data p r' hne hle =>
        obtain ⟨pc', hpc, hcarries⟩ := ih hx1 hv1 hr1 hm1 href1
        exact ⟨pc', hpc, hcarries.cons hne hle⟩
      | last =>
        obtain ⟨hnil, pc', hpc, hend⟩ := gather_ended hx1 (hend1 hr1) hx'
        rw [hnil]
        exact ⟨pc', hpc, [], [], fun _ hp => (by cases hp), rfl, .inr ⟨rfl, hend, _, rfl⟩⟩
    · rw [cutBy_of_other he]
      obtain ⟨pc₁, hx1, hsettle⟩ := (settled_of_step he hs).task _ hx
      refine ih hx1 ?_ ?_ hm1 href1
      · rw [← valid_settle, hsettle, valid_settle]
        exact hv
      · rw [← rest_settle, hsettle, rest_settle, hr]

/-! ## Progress -/

end H2

/-- A DATA frame that has been cut and not yet taken off the windows. -/
def TaskPc.owed : TaskPc → ℕ
  | .sending _ (.data _ _ n _) => n
  | _ => 0

/-- The octets still to be cut, and one for the end of the stream. -/
def TaskPc.left (pc : TaskPc) : ℕ :=
  match pc.rest with
  | some r => r.length + 1
  | none => 0

/-- How far the coroutine is from the next frame. -/
def TaskPc.rank : TaskPc → ℕ
  | .answer _ => 5
  | .sending _ (.headers _) => 4
  | .sending _ (.data _ _ _ _) => 3
  | .read _ => 2
  | .check _ _ _ | .sending _ .endStream => 1
  | _ => 0

theorem TaskPc.left_eq {pc : TaskPc} (h : pc.rest = some r) : pc.left = r.length + 1 := by
  rw [left, h]

namespace H2

/-- Turns at the lock before the coroutine `t` goes on. -/
def taskTurns (s : H2) (t : ℕ) : ℕ :=
  match s.sendingOf (.task t) with
  | some (.queued _) => s.waiters.length + 2
  | some (.writing _) => 1
  | _ => 0

def Allows (s : H2) (ref : ℕ) (pc : TaskPc) : Prop :=
  ∀ r, pc.rest = some r → (r.length : ℤ) + pc.owed ≤ (s.object ref).sendWindow ∧
    (r.length : ℤ) + pc.owed ≤ s.connectionSendWindow

/-- The coroutine `t` is in the middle of a response, awake and with enough window. -/
structure Funded (t ref : ℕ) (pc : TaskPc) (s : H2) : Prop where
  lock : s.LockOk
  size : 0 < s.peerMaxFrameSize
  known : ref < s.ids.length
  task : s.tasks[t]? = some ⟨ref, pc⟩
  awake : pc.isWaiting = false
  valid : pc.Valid
  writes : pc.ended = true ∨ ∃ r, pc.rest = some r
  allows : s.Allows ref pc

/-- Something that does not throw brings the end of the response closer. -/
def Closer (t ref : ℕ) (pc : TaskPc) (s : H2) : Prop :=
  ∃ e s' pc', e.fails = false ∧ s.step e = some s' ∧ Funded t ref pc' s' ∧
    Prod.Lex (· < ·) (Prod.Lex (· < ·) (· < ·)) (pc'.left, pc'.rank, s'.taskTurns t)
      (pc.left, pc.rank, s.taskTurns t)

section Closer

variable {t ref : ℕ} {pc : TaskPc} {s s' : H2}

variable {e : Event} {pc' : TaskPc} {r : Bytes} {a a' b b' c c' : ℕ} {x : Task} {k : TaskCont} {who : Sender}
  {w : Writer}

theorem Funded.of_own (h : Funded t ref pc s) (he : e.task = some t) (hf : e.fails = false)
    (hs : s.step e = some s') (hr : pc.rest = some r)
    (hpc : s'.tasks[t]? = some ⟨ref, pc'⟩) (ha : pc'.isWaiting = false) (hw : s'.Allows ref pc') :
    Funded t ref pc' s' ∧ Cut s.peerMaxFrameSize (s.object ref).id r (cutBy t s e) pc'.rest := by
  obtain ⟨pc₁, hx1, hv1, hend1, hcut⟩ := cut_of_step h.task he hf hs h.size h.valid hr
  rw [hpc] at hx1
  cases hx1
  refine ⟨⟨h.lock.step (Event.writeFails_of_fails hf) hs, frameSize_step h.size hs,
    (object_id_step h.known hs).2, hpc, ha, hv1, ?_, hw⟩, hcut⟩
  cases hr' : pc'.rest with
  | none => exact .inl (hend1 hr')
  | some r' => exact .inr ⟨r', rfl⟩

theorem closer_of_left (h : a' < a) :
    Prod.Lex (· < ·) (Prod.Lex (· < ·) (· < ·)) (a', b', c') (a, b, c) :=
  .left _ _ h

theorem closer_of_rank (ha : a' = a) (h : b' < b) :
    Prod.Lex (· < ·) (Prod.Lex (· < ·) (· < ·)) (a', b', c') (a, b, c) := by
  subst ha
  exact .right _ (.left _ _ h)

theorem closer_of_turns (ha : a' = a) (hb : b' = b) (h : c' < c) :
    Prod.Lex (· < ·) (Prod.Lex (· < ·) (· < ·)) (a', b', c') (a, b, c) := by
  subst ha hb
  exact .right _ (.right _ h)

theorem closer_of_own (h : Funded t ref pc s) (he : e.task = some t) (hf : e.fails = false)
    (hs : s.step e = some s') (hr : pc.rest = some r)
    (hpc : s'.tasks[t]? = some ⟨ref, pc'⟩) (ha : pc'.isWaiting = false) (hw : s'.Allows ref pc')
    (hrank : pc'.rest = some r → pc'.rank < pc.rank) : Closer t ref pc s := by
  obtain ⟨hfund, hcut⟩ := h.of_own he hf hs hr hpc ha hw
  refine ⟨e, s', pc', hf, hs, hfund, ?_⟩
  generalize cutBy t s e = c at hcut
  generalize hr' : pc'.rest = r' at hcut
  cases hcut with
  | nothing => exact closer_of_rank ((left_eq hr').trans (left_eq hr).symm) (hrank hr')
  | data p r₁ hne =>
    refine closer_of_left ?_
    have hpos := length_pos_iff.mpr hne
    rw [left_eq hr', left_eq hr, length_append]
    omega
  | last =>
    refine closer_of_left ?_
    rw [left_eq hr, left, hr']
    exact Nat.succ_pos _

theorem tasks_taskSend (hx : s.tasks[t]? = some x) (r : ℕ) (f : Frame) (k : TaskCont) :
    ∃ st, (s.taskSend t r f k).tasks[t]? = some ⟨x.ref, .sending st k⟩ ∧
      (s.taskSend t r f k).objects = s.objects ∧
      (s.taskSend t r f k).connectionSendWindow = s.connectionSendWindow := by
  obtain ⟨lo, wa, st, he⟩ := taskSend_eq s t r f k
  rw [he]
  exact ⟨st, by simp [hx], rfl, rfl⟩

theorem Allows.mono (h : s.Allows ref pc) (hobj : s'.objects = s.objects)
    (hc : s'.connectionSendWindow = s.connectionSendWindow) (hrest : pc'.rest = pc.rest)
    (howed : pc'.owed = pc.owed) : s'.Allows ref pc' := by
  intro r hr
  rw [hrest] at hr
  rw [howed, hc]
  unfold object
  rw [hobj]
  exact h r hr

theorem nextChunk_spec {s₁ : H2} (hx : s₁.tasks[t]? = some x) (ref : ℕ) (w : Writer) :
    ∃ pc', (s₁.nextChunk t ref w).tasks[t]? = some ⟨x.ref, pc'⟩ ∧ pc'.isWaiting = false ∧
      (pc'.rest = none ∨ pc' = .read w) ∧ pc'.owed = 0 ∧
      (s₁.nextChunk t ref w).objects = s₁.objects ∧
      (s₁.nextChunk t ref w).connectionSendWindow = s₁.connectionSendWindow := by
  unfold nextChunk
  split_ifs
  · obtain ⟨st, htask, hobj, hconn⟩ := tasks_taskSend hx ref
      ⟨.data, FrameFlags.endStream, (s₁.object ref).id, []⟩ .endStream
    exact ⟨_, htask, rfl, .inl rfl, rfl, hobj, hconn⟩
  · exact ⟨_, tasks_setTask hx _, rfl, .inr rfl, rfl, rfl, rfl⟩

theorem closer_resume_written (h : Funded t ref (.sending .written k) s) :
    Closer t ref (.sending .written k) s := by
  have hs : s.step (.resume t) = some (s.continueTask t ref k) := by
    simp only [H2.step, h.task, bind_some, resumeStep]
  cases k with
  | headers next =>
    cases next with
    | none =>
      obtain hw | ⟨r, hw⟩ := h.writes <;> cases hw
    | some w =>
      obtain ⟨pc', htask, hawake, hpc, howed, hobj, hconn⟩ := nextChunk_spec h.task ref w
      refine closer_of_own h rfl rfl hs rfl htask hawake ?_ ?_
      · obtain hpc | rfl := hpc
        · intro r hr
          rw [hpc] at hr
          cases hr
        · exact h.allows.mono hobj hconn rfl rfl
      · intro hr
        obtain hpc | rfl := hpc
        · rw [hpc] at hr
          cases hr
        · exact (by decide : 2 < 4)
  | data w got n chunk =>
    have hallow := h.allows _ rfl
    have hlt : ref < s.objects.length := by
      rw [← length_ids]
      exact h.known
    have hobj1 : ((s.deduct ref n).object ref).sendWindow = (s.object ref).sendWindow - n := by
      have ho : (s.deduct ref n).object ref = _ := object_modifyObject s ref ref _
      rw [ho, if_pos ⟨rfl, hlt⟩]
    have hx1 : (s.deduct ref n).tasks[t]? = some ⟨ref, .sending .written (.data w got n chunk)⟩ := h.task
    have hwin : ∀ {s₂ : H2} {pc' : TaskPc}, s₂.objects = (s.deduct ref n).objects →
        s₂.connectionSendWindow = s.connectionSendWindow - n → pc'.owed = 0 →
        (pc'.rest = none ∨ pc'.rest = some (chunk ++ (w.after got).rest)) → s₂.Allows ref pc' := by
      intro s₂ pc' hobj hconn howed hrest r hr
      obtain hrest | hrest := hrest
      · rw [hrest] at hr
        cases hr
      · rw [hrest] at hr
        cases hr
        have hwindow : (s₂.object ref).sendWindow = (s.object ref).sendWindow - n := by
          rw [← hobj1]
          unfold object
          rw [hobj]
        simp only [TaskPc.owed] at hallow
        exact ⟨by have := hallow.1; omega, by have := hallow.2; omega⟩
    unfold continueTask at hs
    dsimp only at hs
    by_cases hc : chunk = []
    · subst hc
      obtain ⟨pc', htask, hawake, hpc, howed, hobj, hconn⟩ := nextChunk_spec hx1 ref
        ({ w with remaining := if 0 ≤ w.remaining then w.remaining - got else w.remaining } : Writer)
      refine closer_of_own h rfl rfl hs rfl htask hawake (hwin hobj hconn howed ?_) ?_
      · obtain hpc | rfl := hpc
        · exact .inl hpc
        · exact .inr rfl
      · intro hr
        obtain hpc | rfl := hpc
        · rw [hpc] at hr
          cases hr
        · exact (by decide : 2 < 3)
    · rw [if_neg hc] at hs
      refine closer_of_own h rfl rfl hs rfl (tasks_setTask hx1 _) rfl (hwin rfl rfl rfl (.inr rfl)) ?_
      intro _
      exact (by decide : 1 < 3)
  | endStream =>
    have hx' : (s.finishTask t ref).tasks[t]? = some ⟨ref, .done⟩ :=
      tasks_setTask (s := s.eraseStream (s.object ref).id) h.task .done
    refine ⟨.resume t, _, .done, rfl, hs, ⟨h.lock.step rfl hs, frameSize_step h.size hs,
      (object_id_step h.known hs).2, hx', rfl, trivial, .inl rfl, fun r hr => by cases hr⟩, ?_⟩
    exact closer_of_rank rfl (by decide)

theorem Funded.of_write (h : Funded t ref pc s) {k : ℕ} (hs : s.step (.write who k) = some s') :
    ∃ pc', Funded t ref pc' s' ∧ pc'.erase = pc.erase := by
  have hb : s'.bare = s.bare := bare_writeStep hs
  have ht : s'.tasks.map Task.erase = s.tasks.map Task.erase := (congrArg H2.tasks hb :)
  have he : (s'.tasks.map Task.erase)[t]? = (s.tasks.map Task.erase)[t]? := by rw [ht]
  rw [getElem?_map, getElem?_map, h.task] at he
  obtain ⟨⟨ref', pc'⟩, hy, hey⟩ := map_eq_some_iff.mp he
  obtain ⟨rfl, hpc⟩ : ref' = ref ∧ pc'.erase = pc.erase := Task.mk.inj hey
  have hsettle := settle_of_erase hpc
  have hrest : pc'.rest = pc.rest := by rw [← rest_settle, hsettle, rest_settle]
  have hawake : pc'.isWaiting = false := by
    cases hw : pc'.isWaiting with
    | false => rfl
    | true =>
      rw [← (erase_eq_of_isWaiting hw).mp hpc.symm, h.awake] at hw
      cases hw
  have howed : pc'.owed = pc.owed := by
    have key : ∀ p : TaskPc, p.erase.owed = p.owed := by
      intro p
      cases p with
      | sending st k => cases k <;> rfl
      | _ => rfl
    rw [← key, hpc, key]
  refine ⟨pc', ⟨h.lock.step rfl hs, frameSize_step h.size hs, (object_id_step h.known hs).2, hy, hawake, ?_, ?_, ?_⟩, hpc⟩
  · rw [← valid_settle, hsettle, valid_settle]
    exact h.valid
  · rw [← ended_settle, hsettle, ended_settle, hrest]
    exact h.writes
  · exact h.allows.mono (congrArg H2.objects hb :) (congrArg H2.connectionSendWindow hb :) hrest howed

theorem closer_of_write (h : Funded t ref pc s) {k : ℕ} (hs : s.step (.write who k) = some s')
    (hturns : s'.taskTurns t < s.taskTurns t) : Closer t ref pc s := by
  obtain ⟨pc', hfund, hpc⟩ := h.of_write hs
  refine ⟨.write who k, s', pc', rfl, hs, hfund, closer_of_turns ?_ ?_ hturns⟩
  · rw [left, left, ← rest_settle, settle_of_erase hpc, rest_settle]
  · have key : ∀ p : TaskPc, p.erase.rank = p.rank := by
      intro p
      cases p with
      | sending st k => cases k <;> rfl
      | _ => rfl
    rw [← key, hpc, key]

theorem claim_task_of_sending {st : Sending} (hx : s.tasks[t]? = some ⟨ref, .sending st k⟩) :
    s.claim (.task t) = st.claim := by
  simp [claim, hx, TaskPc.claim]

theorem taskTurns_of_claim (s : H2) (t : ℕ) : s.taskTurns t =
    match s.claim (.task t) with
    | some (.waiting _) => s.waiters.length + 2
    | some (.holding _) => 1
    | none => 0 := by
  unfold taskTurns
  rw [claim_eq]
  cases s.sendingOf (.task t) with
  | none => rfl
  | some st => cases st <;> rfl

theorem closer_writing {left : Bytes} (h : Funded t ref (.sending (.writing left) k) s) :
    Closer t ref (.sending (.writing left) k) s := by
  have hclaim : s.claim (.task t) = some (.holding left) := claim_task_of_sending h.task
  have hs : s.step (.write (.task t) left.length) = _ := writeStep_all (claim_eq_holding.mp hclaim)
  refine closer_of_write h hs ?_
  have hnone : (({ s with wire := s.wire ++ left } : H2).setSending .written (.task t)).unlock.claim (.task t) =
      none := by
    obtain ⟨-, he⟩ | ⟨b, bs, y, -, -, hne, he⟩ := output_unlock h.lock hclaim
    · have hc := congrFun (congrArg FifoLock.Output.claim he) (.task t)
      exact hc.trans (Function.update_self _ _ _)
    · have hc := congrFun (congrArg FifoLock.Output.claim he) (.task t)
      refine hc.trans ?_
      dsimp only
      rw [Function.update_of_ne hne.symm, Function.update_self]
  rw [taskTurns_of_claim, taskTurns_of_claim, hnone, hclaim]
  exact Nat.zero_lt_one

theorem closer_queued {out : Bytes} (h : Funded t ref (.sending (.queued out) k) s) :
    Closer t ref (.sending (.queued out) k) s := by
  have hclaim : s.claim (.task t) = some (.waiting out) := claim_task_of_sending h.task
  have hok := lockOk_iff.mp h.lock
  have hclaim' : s.output.claim (.task t) = some (.waiting out) := hclaim
  have hmem : Sender.task t ∈ s.waiters := (hok.waiting _).mp (FifoLock.Output.phase_eq hclaim')
  obtain ⟨who, n, s', hs, hlt⟩ := exists_shorter h.lock (ne_nil_of_mem hmem)
  refine closer_of_write h hs ?_
  rw [taskTurns_of_claim, taskTurns_of_claim, hclaim]
  obtain ⟨hw, -⟩ | ⟨b, bs, y, hw, hw', -, hb, hbs⟩ :=
    (outputMove_of_step h.lock (e := .write who n) rfl hs).turn hok
  · -- the queue has got shorter
    exfalso
    obtain hw | ⟨a, -, hw⟩ := hw
    · exact absurd (congrArg List.length hw) (Nat.ne_of_lt hlt)
    · have hlen := congrArg List.length hw
      rw [length_append] at hlen
      have : s'.output.waiters.length = s'.waiters.length := rfl
      have : s.output.waiters.length = s.waiters.length := rfl
      omega
  · have hq : s.waiters = b :: bs := hw
    have hq' : s'.waiters = bs := hw'
    rw [hq] at hmem
    obtain rfl | hmem := mem_cons.mp hmem
    · rw [show s'.claim (.task t) = _ from hb]
      exact Nat.succ_lt_succ (Nat.succ_pos _)
    · rw [show s'.claim (.task t) = s.claim (.task t) from hbs _ hmem, hclaim, hq, hq']
      exact Nat.lt_succ_self _

theorem closer_answer {resp : Response} (h : Funded t ref (.answer resp) s) : Closer t ref (.answer resp) s := by
  obtain hw | ⟨r, hr⟩ := h.writes
  · cases hw
  have hs : s.step (.resume t) = some (s.writeResponse t ref resp) := by
    simp only [H2.step, h.task, bind_some, resumeStep]
  have hresp : resp.carried = some r := hr
  unfold Response.carried at hresp
  split_ifs at hresp with hcl
  push Not at hcl
  obtain ⟨b, hb, hbr⟩ := map_eq_some_iff.mp hresp
  unfold writeResponse at hs
  have hup : ¬resp.upgradeHandler = true := hcl.1
  simp only [if_neg hup, if_neg hcl.2, hb, map_some] at hs
  obtain ⟨st, htask, hobj, hconn⟩ := tasks_taskSend h.task ref _ (.headers (some ⟨resp.contentLength, b⟩))
  refine closer_of_own h rfl rfl hs hr htask rfl (h.allows.mono hobj hconn ?_ rfl) fun _ => ?_
  · rw [hr]
    exact congrArg some hbr
  · exact (by decide : 4 < 5)

theorem closer_read (h : Funded t ref (.read w) s) : Closer t ref (.read w) s := by
  have hne : w.remaining ≠ 0 := h.valid
  have hwant : 0 < w.want := by
    unfold Writer.want
    split_ifs <;> omega
  by_cases hbody : w.body = []
  · have hs : s.step (.bodyRead t 0) = some (s.sendEndStream t ref) := by
      simp [H2.step, h.task, bodyStep, hbody]
    obtain ⟨st, htask, hobj, hconn⟩ := tasks_taskSend h.task ref
      ⟨.data, FrameFlags.endStream, (s.object ref).id, []⟩ .endStream
    exact closer_of_own h rfl rfl hs rfl htask rfl (fun r hr => by cases hr) fun hr => by cases hr
  · have hpos : 0 < w.body.length := length_pos_iff.mpr hbody
    obtain ⟨k, hk⟩ : ∃ k, k = min w.want w.body.length := ⟨_, rfl⟩
    have hk0 : k ≠ 0 := by omega
    have hle : 0 ≤ w.remaining → (k : ℤ) ≤ w.remaining := by
      intro h0
      unfold Writer.want at hk
      rw [if_pos h0] at hk
      omega
    have hs : s.step (.bodyRead t k) =
        some (s.setTask t (.check { w with body := w.body.drop k } k (w.body.take k))) := by
      simp only [H2.step, h.task, bind_some, bodyStep]
      rw [if_neg (by omega), if_neg hk0]
    refine closer_of_own h rfl rfl hs rfl (tasks_setTask h.task _) rfl
      (h.allows.mono rfl rfl ?_ rfl) fun _ => ?_
    · exact congrArg some (Writer.rest_after hle)
    · exact (by decide : 1 < 2)

theorem closer_check {got : ℕ} {chunk : Bytes} (h : Funded t ref (.check w got chunk) s) :
    Closer t ref (.check w got chunk) s := by
  obtain ⟨hne, -⟩ : chunk ≠ [] ∧ _ := h.valid
  have hpos : 0 < chunk.length := length_pos_iff.mpr hne
  obtain ⟨hwin, hconn⟩ := h.allows _ rfl
  simp only [TaskPc.owed, length_append, Nat.cast_add] at hwin hconn
  have hopen : ¬((s.object ref).sendWindow ≤ 0 ∨ s.connectionSendWindow ≤ 0) := by omega
  have hs : s.step (.resume t) = some (s.checkWindow t ref w got chunk) := by
    simp only [H2.step, h.task, bind_some, resumeStep]
  unfold checkWindow at hs
  rw [if_neg hopen] at hs
  obtain ⟨n, hn⟩ : ∃ n, n = (s.allowed ref chunk).toNat := ⟨_, rfl⟩
  have hle : 0 < n ∧ n ≤ chunk.length := by
    have := h.size
    unfold allowed at hn
    omega
  rw [← hn] at hs
  obtain ⟨st, htask, hobj, hconn'⟩ := tasks_taskSend h.task ref
    ⟨.data, 0, (s.object ref).id, chunk.take n⟩ (.data w got n (chunk.drop n))
  have hwin' : ((s.taskSend t ref ⟨.data, 0, (s.object ref).id, chunk.take n⟩
      (.data w got n (chunk.drop n))).object ref) = s.object ref := by
    rw [object, hobj, object]
  refine closer_of_own h rfl rfl hs rfl htask rfl ?_ fun hr => ?_
  · intro r hr
    cases hr
    rw [hwin']
    simp only [TaskPc.owed, length_append, length_drop, Nat.cast_add]
    omega
  · -- what is cut is no longer to be sent
    have hlen := congrArg List.length (Option.some.inj hr)
    simp only [length_append, length_drop] at hlen
    omega

/-- **With enough window the response goes on.** -/
theorem exists_closer (h : Funded t ref pc s) (hd : pc ≠ .done) : Closer t ref pc s := by
  cases pc with
  | handler => obtain hw | ⟨r, hw⟩ := h.writes <;> cases hw
  | answer resp => exact closer_answer h
  | sending st k =>
    cases st with
    | queued out => exact closer_queued h
    | writing left => exact closer_writing h
    | written => exact closer_resume_written h
  | read w => exact closer_read h
  | check w got chunk => exact closer_check h
  | waiting w got chunk => cases h.awake
  | done => exact absurd rfl hd

end Closer

/-- **With enough window the response is sent.** -/
theorem exists_sent {t ref : ℕ} {pc : TaskPc} {s : H2} (h : Funded t ref pc s) :
    ∃ es s', Run.Exec H2.step NothingThrows s es s' ∧ s'.tasks[t]? = some ⟨ref, .done⟩ := by
  have hwf : WellFounded (Prod.Lex (· < ·) (Prod.Lex (· < ·) (· < ·)) : ℕ × ℕ × ℕ → ℕ × ℕ × ℕ → Prop) :=
    (Prod.lex Nat.lt_wfRel (Prod.lex Nat.lt_wfRel Nat.lt_wfRel)).wf
  induction hm : (pc.left, pc.rank, s.taskTurns t) using hwf.induction generalizing pc s with
  | h m ih =>
    subst hm
    by_cases hd : pc = .done
    · subst hd
      exact ⟨[], s, .nil s, h.task⟩
    · obtain ⟨e, s₁, pc₁, hf, hs, h1, hlt⟩ := exists_closer h hd
      obtain ⟨es, s', hx, hdone⟩ := ih _ hlt h1 rfl
      exact ⟨e :: es, s', .cons hf hs hx, hdone⟩

/-! ## Responses -/

theorem frameSize_start (b : Bytes) : 0 < (start b).peerMaxFrameSize := by
  simp [start]

/-- **The DATA frames of a response.** As long as nothing throws, the frames a coroutine has cut carry the body in order,
up to the content length if that is known. None of them is empty or larger than the peer allows. One empty frame
more ends the stream. As long as it does not sleep and the windows allow what is left, the coroutine can finish. -/
theorem dataFrames_carry {b : Bytes} {es₀ es : List Event} {s₀ s : H2} {t ref : ℕ} {resp : Response}
    {body : Bytes} (h₀ : Run.Exec H2.step NothingThrows (start b) es₀ s₀)
    (hx : s₀.tasks[t]? = some ⟨ref, .answer resp⟩) (hup : resp.upgradeHandler = false)
    (hbody : resp.body = some body) (hlen : resp.contentLength ≠ 0)
    (h : Run.Exec H2.step NothingThrows s₀ es s) :
    ∃ cut rest pc, DataOnly (s₀.object ref).id cut ∧
      payloads cut ++ rest =
        (if 0 ≤ resp.contentLength then body.take resp.contentLength.toNat else body) ∧
      s.tasks[t]? = some ⟨ref, pc⟩ ∧
      ((Run.gather H2.step (cutBy t) s₀ es = cut ∧ pc ≠ .done) ∨
        (rest = [] ∧ ∃ m, Run.gather H2.step (cutBy t) s₀ es =
          cut ++ [(m, ⟨.data, FrameFlags.endStream, (s₀.object ref).id, []⟩)])) ∧
      (pc.isWaiting = false → (rest.length : ℤ) + pc.owed ≤ (s.object ref).sendWindow →
        (rest.length : ℤ) + pc.owed ≤ s.connectionSendWindow →
        ∃ es' s', Run.Exec H2.step NothingThrows s es' s' ∧ s'.tasks[t]? = some ⟨ref, .done⟩) := by
  have hall : ∀ {es : List Event} {s : H2}, Run.Exec H2.step NothingThrows (start b) es s →
      s.Wf ∧ s.LockOk ∧ 0 < s.peerMaxFrameSize := fun hx =>
    hx.inv (I := fun s => s.Wf ∧ s.LockOk ∧ 0 < s.peerMaxFrameSize)
      (fun s e s' hf hs hi => ⟨hi.1.step hs, hi.2.1.step (Event.writeFails_of_fails hf) hs,
        frameSize_step hi.2.2 hs⟩) ⟨wf_start b, lockOk_start b, frameSize_start b⟩
  obtain ⟨hwf, -, hm⟩ := hall h₀
  obtain ⟨hwf', hlock', hm'⟩ := hall (h₀.append h)
  have href : ∀ {s : H2} {pc : TaskPc}, s.Wf → s.tasks[t]? = some ⟨ref, pc⟩ → ref < s.ids.length :=
    fun hw hx => hw.tasks ref (mem_map.mpr ⟨_, mem_of_getElem? hx, rfl⟩)
  have hrest : (TaskPc.answer resp).rest =
      some (if 0 ≤ resp.contentLength then body.take resp.contentLength.toNat else body) := by
    show resp.carried = _
    rw [Response.carried, if_neg (by simp [hup, hlen]), hbody]
    rfl
  obtain ⟨pc, hpc, cut, rest, hcut, hpay, hfs⟩ := gather_cut hx trivial hrest hm (href hwf hx) h
  refine ⟨cut, rest, pc, hcut, hpay, hpc, ?_, fun hawake hwin hconn => ?_⟩
  · obtain ⟨hg, hr, -⟩ | ⟨hr, -, m, hg⟩ := hfs
    · refine .inl ⟨hg, ?_⟩
      rintro rfl
      cases hr
    · exact .inr ⟨hr, m, hg⟩
  · obtain ⟨-, hr, hv⟩ | ⟨-, hend, -⟩ := hfs
    · refine exists_sent ⟨hlock', hm', href hwf' hpc, hpc, hawake, hv, .inr ⟨rest, hr⟩, fun r hr' => ?_⟩
      rw [hr] at hr'
      cases hr'
      exact ⟨hwin, hconn⟩
    · have hnone : pc.rest = none ∧ pc.Valid := by
        cases pc with
        | sending st k =>
          cases k with
          | endStream => exact ⟨rfl, trivial⟩
          | _ => cases hend
        | done => exact ⟨rfl, trivial⟩
        | _ => cases hend
      refine exists_sent ⟨hlock', hm', href hwf' hpc, hpc, hawake, hnone.2, .inl hend, fun r hr' => ?_⟩
      rw [hnone.1] at hr'
      cases hr'

def respondInTwo : List Event :=
  [.resume 0, .write (.task 0) 19, .resume 0, .bodyRead 0 1, .resume 0, .write (.task 0) 10, .resume 0,
    .bodyRead 0 2, .resume 0, .write (.task 0) 11, .resume 0, .write (.task 0) 9, .resume 0]

theorem dataFrames_carry_two :
    ∃ s₀ s, Run.Exec H2.step NothingThrows (start (requestsOn [1])) (dispatchEvents 1 ++
        [.handlerReturn 0 { body := some [1, 2, 3, 4], contentLength := 3 }]) s₀ ∧
      Run.Exec H2.step NothingThrows s₀ respondInTwo s ∧ s.tasks[0]? = some ⟨0, .done⟩ ∧
      Run.gather H2.step (cutBy 0) s₀ respondInTwo = [(16384, ⟨.data, 0, 1, [1]⟩),
        (16384, ⟨.data, 0, 1, [2, 3]⟩), (16384, ⟨.data, FrameFlags.endStream, 1, []⟩)] ∧
      ∃ cut rest, DataOnly (s₀.object 0).id cut ∧ payloads cut ++ rest = [1, 2, 3] := by
  have h₀ : (Run.runChecked H2.step NothingThrows (start (requestsOn [1])) (dispatchEvents 1 ++
      [.handlerReturn 0 { body := some [1, 2, 3, 4], contentLength := 3 }])).map (fun s => (s.tasks[0]?,
        (Run.runChecked H2.step NothingThrows s respondInTwo).map (fun s => s.tasks[0]?),
        Run.gather H2.step (cutBy 0) s respondInTwo)) =
      some (some ⟨0, .answer { body := some [1, 2, 3, 4], contentLength := 3 }⟩, some (some ⟨0, .done⟩),
        [(16384, ⟨.data, 0, 1, [1]⟩), (16384, ⟨.data, 0, 1, [2, 3]⟩),
          (16384, ⟨.data, FrameFlags.endStream, 1, []⟩)]) := by
    decide +kernel
  obtain ⟨s₀, hx₀, hp⟩ := Run.exists_exec h₀
  obtain ⟨htask, hp⟩ := Prod.mk.inj hp
  obtain ⟨hrun, hg⟩ := Prod.mk.inj hp
  obtain ⟨s, hx, hdone⟩ := Run.exists_exec hrun
  obtain ⟨cut, rest, -, hcut, hpay, -⟩ := dataFrames_carry hx₀ htask rfl rfl (by decide) hx
  exact ⟨s₀, s, hx₀, hx, hdone, hg, cut, rest, hcut, hpay⟩

end H2

end Nhttp.Server
