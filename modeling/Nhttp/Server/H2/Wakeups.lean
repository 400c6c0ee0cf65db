import Nhttp.Server.H2.Moves

/-!
# Writers that wait for window

A response coroutine without window puts its handle into `window_waiter` of its stream object and
suspends; a WINDOW_UPDATE frame takes handles out and resumes them.

* `Slots`: a handle in a slot is that of a coroutine suspended for this stream object.
* `Starved`: whoever sleeps on a stream of the map has no window, its own or the connection's.
* **`windowWaiters`**: both invariants in every state, and every suspension is ended at most once.
-/

namespace Nhttp.Server

open Octets Protocol Http2
open List hiding le_trans lt_irrefl not_le

theorem TaskPc.erase_eq_of_isWaiting {pc pc' : TaskPc} (h : pc'.isWaiting = true) :
    pc.erase = pc'.erase ↔ pc = pc' := by
  cases pc' with
  | waiting => cases pc <;> simp [TaskPc.erase]
  | _ => cases h

namespace H2

variable {e : Event} {fh : FrameHeader} {payload : Bytes} {s s' : H2}

theorem move_of_no_task (ht : e.task = none) (hs : s.step e = some s') :
    (e ≠ .loop ∧ ∃ b pc, s' = { s with readBuffer := b, loop := pc }) ∨ (e = .loop ∧ LoopMove s s') ∨
      ∃ who k, e = .write who k ∧ s'.bare = s.bare := by
  cases e with
  | recv bs =>
    simp only [H2.step] at hs
    split_ifs at hs
    · cases hs
      exact .inl ⟨by simp, s.readBuffer, .done, rfl⟩
    · cases hs
      exact .inl ⟨by simp, s.readBuffer ++ bs, s.loop, rfl⟩
  | recvFail =>
    simp only [H2.step] at hs
    split_ifs at hs
    cases hs
    exact .inl ⟨by simp, s.readBuffer, .done, rfl⟩
  | loop => exact .inr (.inl ⟨rfl, loopMove_of_loopStep hs⟩)
  | write who k => exact .inr (.inr ⟨who, k, rfl, bare_writeStep hs⟩)
  | writeFail who =>
    cases who with
    | task t => cases ht
    | loop =>
      simp only [H2.step, failSending] at hs
      split at hs
      · cases hs
        exact .inl ⟨by simp, s.readBuffer, .done, rfl⟩
      · cases hs
  | _ => cases ht

/-! ## Suspensions and resumptions -/

/-- Whether the coroutine `t` is suspended for want of window. -/
def sleeping (s : H2) (t : ℕ) : Bool := (s.tasks[t]?).any fun x => x.pc.isWaiting

/-- The handles that are resumed when the slots of these stream objects are emptied in turn. -/
def resumedFrom (s : H2) : List ℕ → List ℕ
  | [] => []
  | ref :: refs => (s.object ref).windowWaiter.toList ++ (s.wake ref).resumedFrom refs

/-- The handles that `handle_window_update` resumes. -/
def resumedByUpdate (s : H2) (fh : FrameHeader) (payload : Bytes) : List ℕ :=
  ((s.creditWindows fh payload).map fun c => c.1.resumedFrom c.2).getD []

def resumedBy (s : H2) : Event → List ℕ
  | .loop =>
    match s.loop with
    | .payload fh =>
      if fh.type = .windowUpdate then
        (s.takeBuffer fh.length).2.resumedByUpdate fh (s.takeBuffer fh.length).1
      else []
    | _ => []
  | _ => []

def suspendedBy (s : H2) : Event → List ℕ
  | .resume t =>
    match s.tasks[t]? with
    | some ⟨ref, .check _ _ _⟩ =>
      if (s.object ref).sendWindow ≤ 0 ∨ s.connectionSendWindow ≤ 0 then [t] else []
    | _ => []
  | _ => []

/-! ## Invariants -/

/-- A handle in a slot is that of a coroutine suspended for this stream object. -/
def Slots (s : H2) : Prop :=
  ∀ ref t, (s.object ref).windowWaiter = some t →
    ∃ x, s.tasks[t]? = some x ∧ x.ref = ref ∧ x.pc.isWaiting = true

def Starved (s : H2) : Prop :=
  ∀ e ∈ s.streams, (s.object e.2).windowWaiter ≠ none →
    (s.object e.2).sendWindow ≤ 0 ∨ s.connectionSendWindow ≤ 0

/-- Nobody is suspended or resumed, and no window grows, except where nobody waits. -/
structure Undisturbed (s s' : H2) : Prop where
  streams : ∀ e ∈ s'.streams, e ∈ s.streams ∨ (s'.object e.2).windowWaiter = none
  slots : ∀ ref, (s'.object ref).windowWaiter = none ∨
    (s'.object ref).windowWaiter = (s.object ref).windowWaiter ∧
      (s'.object ref).sendWindow ≤ (s.object ref).sendWindow
  connection : s'.connectionSendWindow ≤ s.connectionSendWindow
  tasks : ∀ (t : ℕ) (x : Task), x.pc.isWaiting = true → (s'.tasks[t]? = some x ↔ s.tasks[t]? = some x)

section Undisturbed

variable {s s₁ s' : H2}

theorem Slots.undisturbed (h : s.Slots) (hu : Undisturbed s s') : s'.Slots := by
  intro ref t hw
  obtain hn | ⟨he, -⟩ := hu.slots ref
  · rw [hn] at hw
    cases hw
  · rw [he] at hw
    obtain ⟨x, hx, hr, hp⟩ := h ref t hw
    exact ⟨x, (hu.tasks t x hp).mpr hx, hr, hp⟩

theorem Starved.undisturbed (h : s.Starved) (hu : Undisturbed s s') : s'.Starved := by
  intro e he hw
  obtain hn | ⟨hsame, hle⟩ := hu.slots e.2
  · exact absurd hn hw
  · obtain hold | hn := hu.streams e he
    · rw [hsame] at hw
      have hc := hu.connection
      obtain hs | hs := h e hold hw
      · exact .inl (le_trans hle hs)
      · exact .inr (le_trans hc hs)
    · exact absurd hn hw

theorem sleeping_iff {t : ℕ} :
    s.sleeping t = true ↔ ∃ x, s.tasks[t]? = some x ∧ x.pc.isWaiting = true := by
  unfold sleeping
  rw [Option.any_eq_true]

theorem Undisturbed.sleeping_eq (hu : Undisturbed s s') (t : ℕ) : s'.sleeping t = s.sleeping t := by
  rw [Bool.eq_iff_iff, sleeping_iff, sleeping_iff]
  constructor
  · rintro ⟨x, hx, hp⟩
    exact ⟨x, (hu.tasks t x hp).mp hx, hp⟩
  · rintro ⟨x, hx, hp⟩
    exact ⟨x, (hu.tasks t x hp).mpr hx, hp⟩

theorem Undisturbed.trans (h : Undisturbed s s₁) (h' : Undisturbed s₁ s') : Undisturbed s s' := by
  refine ⟨fun e he => ?_, fun ref => ?_, le_trans h'.connection h.connection,
    fun t x hp => (h'.tasks t x hp).trans (h.tasks t x hp)⟩
  · obtain he | hn := h'.streams e he
    · obtain he | hn := h.streams e he
      · exact .inl he
      · obtain hn' | ⟨hsame, -⟩ := h'.slots e.2
        · exact .inr hn'
        · exact .inr (hsame.trans hn)
    · exact .inr hn
  · obtain hn | ⟨hsame, hle⟩ := h'.slots ref
    · exact .inl hn
    · obtain hn | ⟨hsame', hle'⟩ := h.slots ref
      · exact .inl (hsame.trans hn)
      · exact .inr ⟨hsame.trans hsame', le_trans hle hle'⟩

theorem undisturbed_of_eq (hs : ∀ e ∈ s'.streams, e ∈ s.streams) (ho : s'.objects = s.objects)
    (hc : s'.connectionSendWindow = s.connectionSendWindow) (ht : s'.tasks = s.tasks) :
    Undisturbed s s' := by
  refine ⟨fun e he => .inl (hs e he), fun ref => .inr ?_, le_of_eq hc, fun t x _ => by rw [ht]⟩
  unfold object
  rw [ho]
  exact ⟨rfl, le_rfl⟩

theorem undisturbed_modifyObject {f : H2Stream → H2Stream} (hw : ∀ o, (f o).windowWaiter = o.windowWaiter)
    (hs : ∀ o, (f o).sendWindow ≤ o.sendWindow) (s : H2) (ref : ℕ) :
    Undisturbed s (s.modifyObject ref f) := by
  refine ⟨fun e he => .inl he, fun r => .inr ?_, le_rfl, fun _ _ _ => Iff.rfl⟩
  rw [object_modifyObject]
  split_ifs
  · exact ⟨hw _, hs _⟩
  · exact ⟨rfl, le_rfl⟩

theorem undisturbed_modifyTask {t : ℕ} {x : Task} {g : Task → Task} (hx : s.tasks[t]? = some x)
    (hp : x.pc.isWaiting = false) (hp' : (g x).pc.isWaiting = false)
    (hs : ∀ e ∈ s'.streams, e ∈ s.streams) (ho : s'.objects = s.objects)
    (hc : s'.connectionSendWindow = s.connectionSendWindow) (ht : s'.tasks = s.tasks.modify t g) :
    Undisturbed s s' := by
  have hmid : Undisturbed s { s' with tasks := s.tasks } := undisturbed_of_eq hs ho hc rfl
  refine ⟨hmid.streams, hmid.slots, hmid.connection, fun i y hy => ?_⟩
  rw [ht, getElem?_modify]
  by_cases hi : t = i
  · subst hi
    rw [hx]
    constructor
    · intro he
      obtain rfl : g x = y := by simpa using he
      rw [hp'] at hy
      cases hy
    · intro he
      cases he
      rw [hp] at hy
      cases hy
  · simp [hi]

end Undisturbed

/-! ## Steps that suspend and resume nobody -/

theorem undisturbed_dispatchStream (s : H2) (ref : ℕ) : Undisturbed s (s.dispatchStream ref) := by
  have hm : Undisturbed s (s.modifyObject ref fun o => { o with headers := [] }) :=
    undisturbed_modifyObject (by intro _; rfl) (by intro _; exact le_rfl) s ref
  have ht : ∀ {pc : TaskPc} (t : ℕ) (x : Task), pc.isWaiting = false → x.pc.isWaiting = true →
      ((s.tasks ++ [⟨ref, pc⟩])[t]? = some x ↔ s.tasks[t]? = some x) := by
    intro pc t x hpc hx
    by_cases hlt : t < s.tasks.length
    · rw [getElem?_append_left hlt]
    · rw [getElem?_append_right (Nat.le_of_not_lt hlt), getElem?_eq_none (Nat.le_of_not_lt hlt)]
      cases t - s.tasks.length with
      | zero =>
        refine iff_of_false (fun he => ?_) (by simp)
        cases he
        rw [hpc] at hx
        cases hx
      | succ n => simp
  unfold dispatchStream
  dsimp only
  split_ifs
  · have hself : Undisturbed s s := undisturbed_of_eq (fun _ he => he) rfl rfl rfl
    exact ⟨hself.streams, hself.slots, hself.connection, fun t x => ht t x rfl⟩
  · exact ⟨hm.streams, hm.slots, hm.connection, fun t x => ht t x rfl⟩
  · exact ⟨hm.streams, hm.slots, hm.connection, fun t x => ht t x rfl⟩

theorem undisturbed_openStream (s : H2) (id : ℕ) (block : Bytes) (endStream : Bool) :
    Undisturbed s (s.openStream id block endStream) := by
  have hnew : ((s.openStream id block endStream).object s.objects.length).windowWaiter = none := by
    rw [object_openStream_new]
  refine ⟨fun e he => ?_, fun ref => ?_, le_rfl, fun _ _ _ => Iff.rfl⟩
  · obtain rfl | he := mem_cons.mp he
    · exact .inr hnew
    · exact .inl (mem_of_mem_filter he)
  · obtain hlt | rfl | hgt := lt_trichotomy ref s.objects.length
    · rw [object_openStream_old (by rwa [length_ids])]
      exact .inr ⟨rfl, le_rfl⟩
    · exact .inl hnew
    · refine .inl ?_
      unfold object openStream
      rw [getD_eq_getElem?_getD, getElem?_eq_none (by simp; omega)]
      rfl

theorem undisturbed_loopSend (s : H2) (f : Frame) (k : LoopCont) : Undisturbed s (s.loopSend f k) := by
  obtain ⟨lo, wa, st, he⟩ := loopSend_eq s f k
  rw [he]
  exact undisturbed_of_eq (fun _ he => he) rfl rfl rfl

theorem undisturbed_loop (s : H2) (pc : LoopPc) : Undisturbed s { s with loop := pc } :=
  undisturbed_of_eq (fun _ he => he) rfl rfl rfl

theorem undisturbed_takeBuffer (s : H2) (n : ℕ) : Undisturbed s (s.takeBuffer n).2 :=
  undisturbed_of_eq (fun _ he => he) rfl rfl rfl

theorem undisturbed_begin {s₀ : H2} {r : Option (ℕ × ℕ)} (hb : Begin s fh r s₀)
    (ht : fh.type ≠ .windowUpdate) : Undisturbed s s₀ := by
  cases hb with
  | opened block endStream => exact undisturbed_openStream s _ block endStream
  | fragment | content => exact undisturbed_modifyObject (by intro _; rfl) (by intro _; exact le_rfl) s _
  | credit _ h | creditStream _ _ h => exact absurd h ht
  | erased => exact undisturbed_of_eq (fun _ he => mem_of_mem_filter he) rfl rfl rfl
  | pass | settings | resumed => exact undisturbed_of_eq (fun _ he => he) rfl rfl rfl

theorem undisturbed_work {r : Option (ℕ × ℕ)} (hw : Work fh r s s')
    (ht : fh.type ≠ .windowUpdate) : Undisturbed s s' := by
  induction hw with
  | refl | block => exact undisturbed_of_eq (fun _ he => he) rfl rfl rfl
  | trans _ _ h h' => exact h.trans h'
  | object s _ hf =>
    exact undisturbed_modifyObject (fun o => congrArg (fun p => p.2.2.1) (hf o))
      (fun o => le_of_eq (congrArg (fun p => p.2.1) (hf o))) s _
  | dispatched s => exact undisturbed_dispatchStream s _
  | woken _ _ h => exact absurd h ht

theorem undisturbed_of_bare (hb : s'.bare = s.bare) : Undisturbed s s' := by
  have ho : s'.objects = s.objects := (congrArg H2.objects hb :)
  have hs : s'.streams = s.streams := (congrArg H2.streams hb :)
  have hc : s'.connectionSendWindow = s.connectionSendWindow := (congrArg H2.connectionSendWindow hb :)
  have ht : s'.tasks.map Task.erase = s.tasks.map Task.erase := (congrArg H2.tasks hb :)
  have hmid : Undisturbed s { s' with tasks := s.tasks } :=
    undisturbed_of_eq (fun e he => hs ▸ he) ho hc rfl
  -- a coroutine that sleeps is not in a `send_frame`
  have hiff : ∀ (l : List Task) (t : ℕ) (x : Task), x.pc.isWaiting = true →
      (l[t]? = some x ↔ (l.map Task.erase)[t]? = some x.erase) := by
    intro l t x hx
    rw [getElem?_map]
    cases l[t]? with
    | none => simp
    | some y =>
      obtain ⟨ref, pc⟩ := x
      obtain ⟨ref', pc'⟩ := y
      simp [Task.erase, TaskPc.erase_eq_of_isWaiting hx]
  refine ⟨hmid.streams, hmid.slots, hmid.connection, fun t x hx => ?_⟩
  rw [hiff _ t x hx, hiff s.tasks t x hx, ht]

section Task

variable {s s' : H2} {t : ℕ} {x : Task}

theorem undisturbed_setTask (hx : s.tasks[t]? = some x) (hp : x.pc.isWaiting = false) {pc : TaskPc}
    (hp' : pc.isWaiting = false) : Undisturbed s (s.setTask t pc) :=
  undisturbed_modifyTask (g := fun x => { x with pc := pc }) hx hp hp' (fun _ he => he) rfl rfl rfl

theorem undisturbed_taskSend (hx : s.tasks[t]? = some x) (hp : x.pc.isWaiting = false) (ref : ℕ)
    (f : Frame) (k : TaskCont) : Undisturbed s (s.taskSend t ref f k) := by
  obtain ⟨lo, wa, st, he⟩ := taskSend_eq s t ref f k
  rw [he]
  exact undisturbed_modifyTask (g := fun x => { x with pc := .sending st k }) hx hp rfl (fun _ he => he)
    rfl rfl rfl

theorem undisturbed_nextChunk (hx : s.tasks[t]? = some x) (hp : x.pc.isWaiting = false) (ref : ℕ)
    (w : Writer) : Undisturbed s (s.nextChunk t ref w) := by
  unfold nextChunk
  split_ifs
  · exact undisturbed_taskSend hx hp _ _ _
  · exact undisturbed_setTask hx hp rfl

theorem undisturbed_deduct (s : H2) (ref n : ℕ) : Undisturbed s (s.deduct ref n) := by
  have hm : Undisturbed s (s.modifyObject ref fun o => { o with sendWindow := o.sendWindow - n }) :=
    undisturbed_modifyObject (by intro _; rfl) (fun o => Int.sub_le_self _ (Int.natCast_nonneg n)) s ref
  exact ⟨hm.streams, hm.slots, Int.sub_le_self _ (Int.natCast_nonneg n), hm.tasks⟩

theorem undisturbed_taskMove (hx : s.tasks[t]? = some x) (hp : x.pc.isWaiting = false)
    (hc : ∀ w got chunk, x.pc = .check w got chunk →
      ¬((s.object x.ref).sendWindow ≤ 0 ∨ s.connectionSendWindow ≤ 0))
    (hm : TaskMove s t x s') : Undisturbed s s' := by
  cases hm with
  | answer => exact undisturbed_setTask hx hp rfl
  | finish =>
    exact undisturbed_modifyTask (g := fun x => { x with pc := .done }) hx hp rfl
      (fun _ he => mem_of_mem_filter he) rfl rfl rfl
  | respond => exact undisturbed_taskSend hx hp _ _ _
  | start w => exact undisturbed_nextChunk hx hp _ _
  | read => exact undisturbed_setTask hx hp rfl
  | readEnd => exact undisturbed_taskSend hx hp _ _ _
  | check w got chunk h =>
    unfold checkWindow
    rw [if_neg (hc w got chunk h)]
    exact undisturbed_taskSend hx hp _ _ _
  | deduct w got n chunk =>
    have hx' : (s.deduct x.ref n).tasks[t]? = some x := hx
    refine (undisturbed_deduct s x.ref n).trans ?_
    unfold continueTask
    dsimp only
    split_ifs
    · exact undisturbed_nextChunk hx' hp _ _
    · exact undisturbed_nextChunk hx' hp _ _
    · exact undisturbed_setTask hx' hp rfl

end Task

/-! ## Resumptions -/

def sleeps (s : H2) (t : ℕ) : ℕ := if s.sleeping t then 1 else 0

section Wake

variable {s : H2} {ref t : ℕ}

theorem wake_of_none (h : (s.object ref).windowWaiter = none) : s.wake ref = s := by
  unfold wake
  rw [h]

theorem wake_of_some (h : (s.object ref).windowWaiter = some t) :
    s.wake ref = { s.modifyObject ref (fun o => { o with windowWaiter := none }) with
      tasks := s.tasks.modify t fun x =>
        match x.pc with
        | .waiting w got chunk => { x with pc := .check w got chunk }
        | _ => x } := by
  unfold wake
  split
  · next h' =>
    rw [h] at h'
    cases h'
  · next h' =>
    rw [h] at h'
    cases h'
    rfl

theorem wake_frame (s : H2) (ref : ℕ) : (s.wake ref).streams = s.streams ∧
    (s.wake ref).connectionSendWindow = s.connectionSendWindow := by
  cases h : (s.object ref).windowWaiter with
  | none => rw [wake_of_none h]; exact ⟨rfl, rfl⟩
  | some t => rw [wake_of_some h]; exact ⟨rfl, rfl⟩

theorem object_wake (s : H2) (ref r : ℕ) :
    ((s.wake ref).object r).windowWaiter = (if r = ref then none else (s.object r).windowWaiter) ∧
      ((s.wake ref).object r).sendWindow = (s.object r).sendWindow := by
  cases h : (s.object ref).windowWaiter with
  | none =>
    rw [wake_of_none h]
    refine ⟨?_, rfl⟩
    split_ifs with hr
    · rw [hr, h]
    · rfl
  | some t =>
    have hlt : ref < s.objects.length := by
      by_contra hge
      rw [object, getD_eq_getElem?_getD, getElem?_eq_none (Nat.le_of_not_lt hge)] at h
      cases h
    rw [wake_of_some h]
    have ho : ∀ ts, (({ s.modifyObject ref (fun o => { o with windowWaiter := none }) with
        tasks := ts } : H2).object r) = if ref = r ∧ r < s.objects.length then
          { s.object r with windowWaiter := none } else s.object r :=
      fun _ => object_modifyObject s ref r _
    rw [ho]
    by_cases hr : r = ref
    · subst hr
      simp [hlt]
    · rw [if_neg (fun hh => hr hh.1.symm), if_neg hr]
      exact ⟨rfl, rfl⟩

theorem sleeping_wake (h : s.Slots) (ref t : ℕ) :
    (s.object ref).windowWaiter.toList.count t + (s.wake ref).sleeps t = s.sleeps t := by
  cases hw : (s.object ref).windowWaiter with
  | none => simp [wake_of_none hw]
  | some t' =>
    obtain ⟨x, hx, -, hp⟩ := h ref t' hw
    obtain ⟨r, pc⟩ := x
    cases pc with
    | waiting w got chunk =>
      have hs : (s.wake ref).sleeping t = (s.sleeping t && decide (t' ≠ t)) := by
        rw [wake_of_some hw]
        by_cases ht : t' = t
        · subst ht
          simp [sleeping, hx, TaskPc.isWaiting]
        · simp [sleeping, ht]
      by_cases ht : t' = t
      · subst ht
        have hsleep : s.sleeping t' = true := sleeping_iff.mpr ⟨_, hx, rfl⟩
        simp [sleeps, hs, hsleep]
      · simp [sleeps, hs, ht]
    | _ => cases hp

theorem Slots.wake (h : s.Slots) (ref : ℕ) : (s.wake ref).Slots := by
  intro r i hr
  rw [(object_wake s ref r).1] at hr
  split_ifs at hr with hne
  obtain ⟨x, hx, hxr, hp⟩ := h r i hr
  refine ⟨x, ?_, hxr, hp⟩
  cases hw : (s.object ref).windowWaiter with
  | none => rw [wake_of_none hw, hx]
  | some t =>
    -- the coroutine resumed belongs to another stream object
    obtain ⟨y, hy, hyr, -⟩ := h ref t hw
    have hit : t ≠ i := by
      rintro rfl
      rw [hx] at hy
      cases hy
      exact hne (hxr.symm.trans hyr)
    rw [wake_of_some hw]
    rw [getElem?_modify, hx]
    simp [hit]

theorem resumedFrom_spec (h : s.Slots) (refs : List ℕ) :
    (refs.foldl H2.wake s).Slots ∧
      (∀ t, (s.resumedFrom refs).count t + (refs.foldl H2.wake s).sleeps t = s.sleeps t) ∧
      (∀ r, ((refs.foldl H2.wake s).object r).sendWindow = (s.object r).sendWindow ∧
        ((refs.foldl H2.wake s).object r).windowWaiter =
          if r ∈ refs then none else (s.object r).windowWaiter) ∧
      (refs.foldl H2.wake s).streams = s.streams ∧
      (refs.foldl H2.wake s).connectionSendWindow = s.connectionSendWindow := by
  induction refs generalizing s with
  | nil => exact ⟨h, fun t => by simp [resumedFrom], fun r => ⟨rfl, by simp⟩, rfl, rfl⟩
  | cons ref refs ih =>
    obtain ⟨hslots, hcount, hobject, hstreams, hconn⟩ := ih (h.wake ref)
    refine ⟨hslots, fun t => ?_, fun r => ?_, hstreams.trans (wake_frame s ref).1,
      hconn.trans (wake_frame s ref).2⟩
    · have h1 := sleeping_wake h ref t
      have h2 := hcount t
      simp only [resumedFrom, count_append, foldl_cons]
      omega
    · obtain ⟨hs, hw⟩ := hobject r
      obtain ⟨hw1, hs1⟩ := object_wake s ref r
      refine ⟨hs.trans hs1, ?_⟩
      rw [foldl_cons, hw, hw1]
      by_cases hr : r = ref
      · simp [hr]
      · simp [hr]

end Wake

/-! ## Steps -/

theorem suspendedBy_of_resumedBy (h : s.resumedBy e ≠ []) : s.suspendedBy e = [] := by
  cases e with
  | loop => rfl
  | _ => exact absurd rfl h

/-- Both invariants. -/
def Asleep (s : H2) : Prop := s.Slots ∧ s.Starved

/-- What a step does to the coroutines that sleep, and to the invariants. -/
def Wakes (s : H2) (e : Event) (s' : H2) : Prop :=
  s'.Asleep ∧ ∀ t, (s.resumedBy e).count t + s'.sleeps t = (s.suspendedBy e).count t + s.sleeps t

theorem Undisturbed.wakes (hu : Undisturbed s s') (h : s.Asleep)
    (hr : s.resumedBy e = []) (hs : s.suspendedBy e = []) : Wakes s e s' := by
  refine ⟨⟨h.1.undisturbed hu, h.2.undisturbed hu⟩, fun t => ?_⟩
  rw [hr, hs, sleeps, sleeps, hu.sleeping_eq]

/-- **A window update** resumes everybody who can go on, and nobody twice. -/
theorem handleWindowUpdate_wakes (h : s.Asleep) (hs : s.handleWindowUpdate fh payload = some s') :
    s'.Asleep ∧ ∀ t, (s.resumedByUpdate fh payload).count t + s'.sleeps t = s.sleeps t := by
  obtain ⟨c, hc, rfl⟩ := Option.map_eq_some_iff.mp hs
  rw [resumedByUpdate, hc, Option.map_some, Option.getD_some]
  obtain rfl | ⟨inc, hc1, hc2⟩ | ⟨ref, inc, -, rfl⟩ := creditWindows_eq_some hc
  · exact ⟨h, fun t => by simp [resumedFrom]⟩
  · have hslots : c.1.Slots := by
      rw [hc1]
      exact h.1
    have hsleeps : c.1.sleeps = s.sleeps := by
      rw [hc1]
      rfl
    obtain ⟨hslots', hcount, hobject, hstreams, hconn⟩ := resumedFrom_spec hslots c.2
    rw [hsleeps] at hcount
    refine ⟨⟨hslots', fun e he hw => .inl ?_⟩, hcount⟩
    obtain ⟨hwin, hwait⟩ := hobject e.2
    rw [hstreams] at he
    rw [hwait, hc2] at hw
    rw [hwin]
    -- whoever has window of its own has been resumed
    by_contra hpos
    refine hw (if_pos (mem_map.mpr ⟨e, mem_filter.mpr ⟨he, ?_⟩, rfl⟩))
    exact decide_eq_true (not_le.mp hpos)
  · obtain ⟨s₁, hs1⟩ : ∃ s₁ : H2, s₁ = (s.modifyObject ref fun o =>
        { o with sendWindow := o.sendWindow + inc }).record (.credit (some ref) inc) := ⟨_, rfl⟩
    have hobj : ∀ r, (s₁.object r).windowWaiter = (s.object r).windowWaiter ∧
        (r ≠ ref → (s₁.object r).sendWindow = (s.object r).sendWindow) := by
      intro r
      have ho : s₁.object r = if ref = r ∧ r < s.objects.length then
          { s.object r with sendWindow := (s.object r).sendWindow + inc } else s.object r := by
        rw [hs1]
        exact object_modifyObject s ref r _
      rw [ho]
      split_ifs with hr
      · exact ⟨rfl, fun hne => absurd hr.1.symm hne⟩
      · exact ⟨rfl, fun _ => rfl⟩
    have hsame : s₁.tasks = s.tasks ∧ s₁.streams = s.streams ∧
        s₁.connectionSendWindow = s.connectionSendWindow := by
      rw [hs1]
      exact ⟨rfl, rfl, rfl⟩
    have hslots : s₁.Slots := by
      intro r t hw
      rw [(hobj r).1] at hw
      rw [hsame.1]
      exact h.1 r t hw
    have hsleeps : s₁.sleeps = s.sleeps := by
      funext t
      rw [sleeps, sleeps, sleeping, sleeping, hsame.1]
    dsimp only
    rw [← hs1]
    obtain ⟨hslots', hcount, hobject, hstreams, hconn⟩ := resumedFrom_spec hslots [ref]
    rw [hsleeps] at hcount
    refine ⟨⟨hslots', fun e he hw => ?_⟩, hcount⟩
    obtain ⟨hwin, hwait⟩ := hobject e.2
    have hne : e.2 ≠ ref := by
      intro heq
      rw [hwait, if_pos (by rw [heq]; exact mem_singleton_self _)] at hw
      exact hw rfl
    rw [hwait, if_neg (by simpa using hne), (hobj e.2).1] at hw
    rw [hstreams, hsame.2.1] at he
    rw [hwin, (hobj e.2).2 hne, hconn, hsame.2.2]
    exact h.2 e he hw

/-- **A suspension**: there was no window, and the handle goes into the slot of its own stream object. -/
theorem suspend_wakes {t : ℕ} {x : Task} {w : Writer} {got : ℕ} {chunk : Bytes} (h : s.Asleep)
    (hx : s.tasks[t]? = some x) (hp : x.pc = .check w got chunk)
    (hc : (s.object x.ref).sendWindow ≤ 0 ∨ s.connectionSendWindow ≤ 0) :
    Wakes s (.resume t) (s.checkWindow t x.ref w got chunk) := by
  have hsusp : s.suspendedBy (.resume t) = [t] := by
    obtain ⟨ref, pc⟩ := x
    obtain rfl : pc = .check w got chunk := hp
    simp only [suspendedBy, hx]
    exact if_pos hc
  have hawake : s.sleeping t = false := by
    simp [sleeping, hx, hp, TaskPc.isWaiting]
  unfold checkWindow
  rw [if_pos hc]
  have htask : ∀ i, ((s.modifyObject x.ref fun o => { o with windowWaiter := some t }).setTask t
      (.waiting w got chunk)).tasks[i]? =
        if t = i then some ⟨x.ref, .waiting w got chunk⟩ else s.tasks[i]? := by
    intro i
    simp only [setTask, H2.modifyObject, getElem?_modify]
    by_cases hi : t = i
    · subst hi
      simp [hx]
    · simp [hi]
  have hobj : ∀ r, ((s.modifyObject x.ref fun o => { o with windowWaiter := some t }).setTask t
      (.waiting w got chunk)).object r =
        if x.ref = r ∧ r < s.objects.length then { s.object r with windowWaiter := some t }
        else s.object r :=
    fun r => object_modifyObject s x.ref r _
  refine ⟨⟨fun r i hr => ?_, fun e he hw => ?_⟩, fun i => ?_⟩
  · rw [hobj] at hr
    rw [htask]
    split_ifs at hr with hrx
    · cases hr
      rw [if_pos rfl]
      exact ⟨_, rfl, hrx.1, rfl⟩
    · obtain ⟨y, hy, hyr, hyp⟩ := h.1 r i hr
      have hne : t ≠ i := by
        rintro rfl
        rw [hx] at hy
        cases hy
        rw [hp] at hyp
        cases hyp
      rw [if_neg hne]
      exact ⟨y, hy, hyr, hyp⟩
  · rw [hobj] at hw ⊢
    split_ifs at hw ⊢ with hrx
    · rw [← hrx.1]
      exact hc
    · exact h.2 e he hw
  · have hsleep : ((s.modifyObject x.ref fun o => { o with windowWaiter := some t }).setTask t
        (.waiting w got chunk)).sleeping i = (s.sleeping i || decide (t = i)) := by
      rw [sleeping, htask]
      by_cases hi : t = i
      · simp [hi, TaskPc.isWaiting]
      · simp [hi, sleeping]
    rw [hsusp, show s.resumedBy (.resume t) = [] from rfl, sleeps, sleeps, hsleep]
    by_cases hi : t = i
    · subst hi
      simp [hawake]
    · simp [hi]

theorem processFrame_windowUpdate (s : H2) (h : fh.type = .windowUpdate) (payload : Bytes) :
    s.processFrame fh payload =
      match s.handleWindowUpdate fh payload with
      | none => s.refuse
      | some s => s.nextFrame := by
  obtain ⟨length, type, flags, streamId⟩ := fh
  obtain rfl : type = .windowUpdate := h
  rfl

theorem loop_wakes (h : s.Asleep) (hs : s.step .loop = some s') : Wakes s .loop s' := by
  obtain ⟨n, fh, r, s₁, hp, ⟨s₀, hb, hk⟩, hx⟩ := (loopMove_of_loopStep hs).phases
  by_cases hw : fh.type = .windowUpdate
  · obtain hl | ⟨rfl, -⟩ := hp
    · have ht := undisturbed_takeBuffer s fh.length
      obtain ⟨-, rfl⟩ := (step_payload_iff hl).mp hs
      have h1 : (s.takeBuffer fh.length).2.Asleep := ⟨h.1.undisturbed ht, h.2.undisturbed ht⟩
      have hr : s.resumedBy .loop = (s.takeBuffer fh.length).2.resumedByUpdate fh (s.takeBuffer fh.length).1 := by
        simp [resumedBy, hl, hw]
      rw [processFrame_windowUpdate _ hw]
      cases hu : (s.takeBuffer fh.length).2.handleWindowUpdate fh (s.takeBuffer fh.length).1 with
      | none =>
        have hnil : (s.takeBuffer fh.length).2.resumedByUpdate fh (s.takeBuffer fh.length).1 = [] := by
          rw [resumedByUpdate, Option.map_eq_none_iff.mp hu]
          rfl
        exact (ht.trans (undisturbed_loopSend _ _ _)).wakes h (hr.trans hnil) rfl
      | some s₁ =>
        obtain ⟨hasleep, hcount⟩ := handleWindowUpdate_wakes h1 hu
        have hloop := undisturbed_loop s₁ .header
        refine ⟨⟨hasleep.1.undisturbed hloop, hasleep.2.undisturbed hloop⟩, fun t => ?_⟩
        rw [hr]
        exact (hcount t).trans (Nat.zero_add _).symm
    · cases hw
  · obtain ⟨lo, wa, pc, log, rfl⟩ := hx.eq
    have ht := ((undisturbed_takeBuffer s n).trans (undisturbed_begin hb hw)).trans (undisturbed_work hk hw)
    refine (ht.trans (undisturbed_of_eq (fun _ he => he) rfl rfl rfl)).wakes h ?_ rfl
    obtain hl | ⟨-, hl⟩ := hp
    · simp [resumedBy, hl, hw]
    · cases hp : s.loop with
      | payload fh => exact absurd hp (hl fh)
      | _ => simp [resumedBy, hp]

theorem step_wakes (h : s.Asleep) (hs : s.step e = some s') : Wakes s e s' := by
  cases ht : e.task with
  | some t =>
    obtain ⟨x, hx, hp, hcheck, -, hm⟩ := taskMove_of_task ht hs
    have hr : s.resumedBy e = [] := by
      cases e with
      | loop => cases ht
      | _ => rfl
    by_cases hc : ∃ w got chunk, x.pc = .check w got chunk
    · obtain ⟨w, got, chunk, hpc⟩ := hc
      obtain rfl := hcheck w got chunk hpc
      by_cases hwin : (s.object x.ref).sendWindow ≤ 0 ∨ s.connectionSendWindow ≤ 0
      · have he : s' = s.checkWindow t x.ref w got chunk := by
          simp only [H2.step, hx, Option.bind_some, resumeStep, hpc] at hs
          exact (Option.some.inj hs).symm
        rw [he]
        exact suspend_wakes h hx hpc hwin
      · refine (undisturbed_taskMove hx hp (fun _ _ _ _ => hwin) hm).wakes h hr ?_
        obtain ⟨ref, pc⟩ := x
        obtain rfl : pc = .check w got chunk := hpc
        simp only [suspendedBy, hx]
        exact if_neg hwin
    · refine (undisturbed_taskMove hx hp (fun w got chunk hpc => absurd ⟨w, got, chunk, hpc⟩ hc) hm).wakes h hr ?_
      cases e with
      | resume t' =>
        cases ht
        obtain ⟨ref, pc⟩ := x
        cases pc with
        | check w got chunk => exact absurd ⟨w, got, chunk, rfl⟩ hc
        | _ => simp [suspendedBy, hx]
      | _ => rfl
  | none =>
    obtain ⟨hne, b, pc, rfl⟩ | ⟨rfl, -⟩ | ⟨who, k, rfl, hb⟩ := move_of_no_task ht hs
    · refine (undisturbed_of_eq (fun _ he => he) rfl rfl rfl).wakes h ?_ ?_
      · cases e with
        | loop => exact absurd rfl hne
        | _ => rfl
      · cases e with
        | resume => cases ht
        | _ => rfl
    · exact loop_wakes h hs
    · exact (undisturbed_of_bare hb).wakes h rfl rfl

/-! ## Runs -/

theorem asleep_start (b : Bytes) : (start b).Asleep := by
  have hn : ∀ ref, ((start b).object ref).windowWaiter = none := by
    intro ref
    simp [start, object]
  refine ⟨fun ref t h => ?_, fun e he => ?_⟩
  · rw [hn] at h
    cases h
  · simp [start] at he

/-- **Nobody sleeps who could send, and every suspension is ended at most once.** Whoever is in the slot of a stream of
the map has no window; every frame resumes different handles, all of coroutines that are suspended; and no coroutine
has been resumed more often than it was suspended. -/
theorem windowWaiters {b : Bytes} {es : List Event} {s : H2}
    (h : Run.Exec H2.step (fun _ _ => True) (start b) es s) :
    (∀ e ∈ s.streams, (s.object e.2).windowWaiter ≠ none →
      (s.object e.2).sendWindow ≤ 0 ∨ s.connectionSendWindow ≤ 0) ∧
    (∀ e s', s.step e = some s' → (s.resumedBy e).Nodup ∧ ∀ t ∈ s.resumedBy e, s.sleeping t = true) ∧
    ∀ t, (Run.gather H2.step resumedBy (start b) es).count t ≤
      (Run.gather H2.step suspendedBy (start b) es).count t := by
  have hasleep : s.Asleep := h.inv (I := Asleep) (fun _ _ _ _ hs hi => (step_wakes hi hs).1) (asleep_start b)
  refine ⟨hasleep.2, fun e s' hs => ?_, fun t => ?_⟩
  · have hle : ∀ t, (s.resumedBy e).count t ≤ 1 ∧ (0 < (s.resumedBy e).count t → s.sleeping t = true) := by
      intro t
      have hcount := (step_wakes hasleep hs).2 t
      have hsleeps : s.sleeps t ≤ 1 ∧ (0 < s.sleeps t → s.sleeping t = true) := by
        unfold sleeps
        split_ifs with hsl
        · exact ⟨le_rfl, fun _ => hsl⟩
        · exact ⟨Nat.zero_le 1, fun h0 => absurd h0 (lt_irrefl 0)⟩
      by_cases hr : s.resumedBy e = []
      · rw [hr]
        exact ⟨Nat.zero_le 1, fun h0 => absurd h0 (lt_irrefl 0)⟩
      · rw [suspendedBy_of_resumedBy hr, count_nil] at hcount
        exact ⟨by omega, fun h0 => hsleeps.2 (by omega)⟩
    exact ⟨nodup_iff_count_le_one.mpr fun t => (hle t).1,
      fun t ht => (hle t).2 (count_pos_iff.mpr ht)⟩
  · have hcount : (Run.gather H2.step resumedBy (start b) es).count t + s.sleeps t =
        (Run.gather H2.step suspendedBy (start b) es).count t + (start b).sleeps t :=
      h.gather_count (I := Asleep) (m := fun s => s.sleeps t)
        (fun _ _ _ _ hs hi => ⟨(step_wakes hi hs).1, (step_wakes hi hs).2 t⟩) (asleep_start b)
    have hstart : (start b).sleeps t = 0 := by simp [start, sleeps, sleeping]
    omega

/-- A client that allows no octets at first, asks for `/`, and then allows five. -/
def reluctantClient : Bytes :=
  clientPreface ++ (⟨.settings, 0, 0, [0, 4, 0, 0, 0, 0]⟩ : Frame).bytes ++ (requestFrame 1).bytes ++
    (⟨.windowUpdate, 0, 1, writeWindowUpdatePayload 5⟩ : Frame).bytes

def reluctantDispatch : List Event :=
  [.loop, .write .loop 9, .loop, .loop, .loop, .write .loop 9, .loop, .loop, .loop]

def respondThree : List Event :=
  [.handlerReturn 0 { status := 200, body := some [1, 2, 3], contentLength := 3 }, .resume 0,
    .write (.task 0) 19, .resume 0, .bodyRead 0 3, .resume 0]

/-- The response sleeps until the window update, which resumes it. -/
theorem windowWaiters_reluctant :
    ∃ s, Run.Exec H2.step (fun _ _ => True) (start reluctantClient)
        (reluctantDispatch ++ respondThree ++ [.loop]) s ∧
      s.resumedBy .loop = [0] ∧ s.sleeping 0 = true ∧
      ∀ t, (Run.gather H2.step resumedBy (start reluctantClient)
        (reluctantDispatch ++ respondThree ++ [.loop])).count t ≤
          (Run.gather H2.step suspendedBy (start reluctantClient)
            (reluctantDispatch ++ respondThree ++ [.loop])).count t := by
  have h : (Run.runChecked H2.step (fun _ _ => True) (start reluctantClient)
      (reluctantDispatch ++ respondThree ++ [.loop])).map
        (fun s => (s.resumedBy .loop, (s.step .loop).isSome)) = some ([0], true) := by
    decide +kernel
  obtain ⟨s, hx, hp⟩ := Run.exists_exec h
  obtain ⟨hr, hs⟩ := Prod.mk.inj hp
  obtain ⟨s', hs⟩ := Option.isSome_iff_exists.mp hs
  obtain ⟨-, hstep, hcount⟩ := windowWaiters hx
  exact ⟨s, hx, hr, (hstep .loop s' hs).2 0 (by rw [hr]; decide), hcount⟩

end H2

end Nhttp.Server
