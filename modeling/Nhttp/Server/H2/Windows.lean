import Nhttp.Server.H2.Moves

/-!
# Flow control of response bodies

A window is that of the connection (`none`) or of a stream object (`some ref`). The log tells how
much has been granted on it, handed to `send_frame` and taken off.

* `Spaced`: the octets handed over and not yet taken off leave room for the next DATA frame.
* **`data_within_windows`**: in a run all of whose DATA frames are such, no window is overrun.
-/

namespace Nhttp.Server

open Octets Protocol Http2 List Nhttp.Server.Action

/-! ## Accounts -/

namespace Action

def dataOn (q : Option ℕ) : Action → ℕ
  | .sent (some ref) f => if f.type = .data ∧ (q = none ∨ q = some ref) then f.payload.length else 0
  | _ => 0

/-- The increments of a window. -/
def creditOn (q : Option ℕ) : Action → ℕ
  | .credit p inc => if p = q then inc else 0
  | _ => 0

/-- The first size of the window of a stream object. -/
def openedOn (ref : ℕ) : Action → ℤ
  | .opened r _ w => if r = ref then w else 0
  | _ => 0

/-- What is taken off a window. -/
def deductedOn (q : Option ℕ) : Action → ℕ
  | .deducted ref n => if q = none ∨ q = some ref then n else 0
  | _ => 0

def plain : Action → Bool
  | .opened .. | .credit .. | .deducted .. => false
  | .sent (some _) f => f.type ≠ .data || f.payload = []
  | _ => true

section Plain

variable {a : Action} (h : a.plain = true)

include h

theorem dataOn_of_plain (q : Option ℕ) : a.dataOn q = 0 := by
  cases a with
  | sent ref f =>
    cases ref with
    | none => rfl
    | some ref =>
      simp only [plain, ne_eq, decide_not, Bool.or_eq_true, Bool.not_eq_eq_eq_not, Bool.not_true,
        decide_eq_false_iff_not, decide_eq_true_eq] at h
      obtain h | h := h
      · simp [dataOn, h]
      · simp [dataOn, h]
  | _ => rfl

theorem creditOn_of_plain (q : Option ℕ) : a.creditOn q = 0 := by
  cases a with
  | credit => cases h
  | _ => rfl

theorem openedOn_of_plain (ref : ℕ) : a.openedOn ref = 0 := by
  cases a with
  | opened => cases h
  | _ => rfl

theorem deductedOn_of_plain (q : Option ℕ) : a.deductedOn q = 0 := by
  cases a with
  | deducted => cases h
  | _ => rfl

end Plain

end Action

namespace H2

/-- The octets of DATA frames handed to `send_frame`, of all streams or of one. -/
def dataSent (s : H2) (q : Option ℕ) : ℕ := (s.log.map (Action.dataOn q)).sum

def increments (s : H2) (q : Option ℕ) : ℕ := (s.log.map (Action.creditOn q)).sum

def initialWindow (s : H2) (ref : ℕ) : ℤ := (s.log.map (Action.openedOn ref)).sum

def deducted (s : H2) (q : Option ℕ) : ℕ := (s.log.map (Action.deductedOn q)).sum

/-- What the client has allowed so far. -/
def granted (s : H2) : Option ℕ → ℤ
  | none => 65535 + s.increments none
  | some ref => s.initialWindow ref + s.increments (some ref)

def window (s : H2) : Option ℕ → ℤ
  | none => s.connectionSendWindow
  | some ref => (s.object ref).sendWindow

/-- The octets handed to `send_frame` and not yet taken off the window. -/
def inFlight (s : H2) (q : Option ℕ) : ℤ := s.dataSent q - s.deducted q

def HasWindow (s : H2) : Option ℕ → Prop
  | none => True
  | some ref => ref < s.objects.length

/-- What is in flight on both windows leaves room for the DATA frame that is about to be sent. -/
def Spaced (s : H2) : Event → Prop
  | .resume t =>
    match s.tasks[t]? with
    | some ⟨ref, .check _ _ chunk⟩ =>
      0 < s.window none → 0 < s.window (some ref) →
        (s.inFlight none = 0 ∨ s.inFlight none +
          min (s.window (some ref)) (min s.peerMaxFrameSize chunk.length) ≤ s.window none) ∧
        (s.inFlight (some ref) = 0 ∨ s.inFlight (some ref) +
          min (s.window none) (min s.peerMaxFrameSize chunk.length) ≤ s.window (some ref))
    | _ => True
  | _ => True

instance (s : H2) (e : Event) : Decidable (s.Spaced e) := by
  unfold Spaced
  split
  · split <;> infer_instance
  · infer_instance

/-! ## The ledger -/

/-- Windows and log agree, and nothing is overrun. -/
structure Ledger (s : H2) : Prop where
  windows : ∀ q, s.HasWindow q → s.window q = s.granted q - s.deducted q
  fresh : ∀ q, ¬s.HasWindow q → s.dataSent q = 0 ∧ s.granted q = 0 ∧ s.deducted q = 0
  bound : ∀ q, (s.dataSent q : ℤ) ≤ s.granted q

/-- A change that the ledger does not see. -/
structure SameLedger (s s' : H2) : Prop where
  length : s'.objects.length = s.objects.length
  window : s'.window = s.window
  dataSent : s'.dataSent = s.dataSent
  granted : s'.granted = s.granted
  deducted : s'.deducted = s.deducted

variable {s s' : H2}

theorem HasWindow.congr (h : s'.objects.length = s.objects.length) (q : Option ℕ) :
    s'.HasWindow q ↔ s.HasWindow q := by
  cases q with
  | none => exact Iff.rfl
  | some ref =>
    unfold HasWindow
    rw [h]

theorem Ledger.same (h : s.Ledger) (hs : SameLedger s s') : s'.Ledger := by
  refine ⟨fun q hq => ?_, fun q hq => ?_, fun q => ?_⟩
  · rw [hs.window, hs.granted, hs.deducted]
    exact h.windows q ((HasWindow.congr hs.length q).mp hq)
  · rw [hs.dataSent, hs.granted, hs.deducted]
    exact h.fresh q fun h => hq ((HasWindow.congr hs.length q).mpr h)
  · rw [hs.dataSent, hs.granted]
    exact h.bound q

theorem SameLedger.trans {s₁ : H2} (h : SameLedger s s₁) (h' : SameLedger s₁ s') : SameLedger s s' :=
  ⟨h'.length.trans h.length, h'.window.trans h.window, h'.dataSent.trans h.dataSent,
    h'.granted.trans h.granted, h'.deducted.trans h.deducted⟩

section Plain

variable {s s' : H2}

theorem sum_map_eq_of_plain {α : Type} [AddCommMonoid α] {g : Action → α} {acts log : List Action}
    (h : ∀ a ∈ acts, g a = 0) : ((acts ++ log).map g).sum = (log.map g).sum := by
  rw [map_append, sum_append, sum_eq_zero (by simpa using h), zero_add]

theorem sameLedger (acts : List Action) (hl : s'.log = acts ++ s.log) (hp : ∀ a ∈ acts, a.plain = true)
    (hlen : s'.objects.length = s.objects.length)
    (hc : s'.connectionSendWindow = s.connectionSendWindow)
    (ho : ∀ ref, (s'.object ref).sendWindow = (s.object ref).sendWindow) : SameLedger s s' := by
  have hinc : s'.increments = s.increments := by
    funext q
    rw [increments, hl, sum_map_eq_of_plain fun a ha => creditOn_of_plain (hp a ha) q]
    rfl
  have hini : s'.initialWindow = s.initialWindow := by
    funext ref
    rw [initialWindow, hl, sum_map_eq_of_plain fun a ha => openedOn_of_plain (hp a ha) ref]
    rfl
  refine ⟨hlen, ?_, ?_, ?_, ?_⟩
  · funext q
    cases q with
    | none => exact hc
    | some ref => exact ho ref
  · funext q
    rw [dataSent, hl, sum_map_eq_of_plain fun a ha => dataOn_of_plain (hp a ha) q]
    rfl
  · funext q
    cases q with
    | none => rw [granted, granted, hinc]
    | some ref => rw [granted, granted, hinc, hini]
  · funext q
    rw [deducted, hl, sum_map_eq_of_plain fun a ha => deductedOn_of_plain (hp a ha) q]
    rfl

theorem sameLedger_of_eq (hl : s'.log = s.log) (hlen : s'.objects.length = s.objects.length)
    (hc : s'.connectionSendWindow = s.connectionSendWindow)
    (ho : ∀ ref, (s'.object ref).sendWindow = (s.object ref).sendWindow) : SameLedger s s' :=
  sameLedger [] hl (by simp) hlen hc ho

end Plain

theorem sameLedger_modifyObject {f : H2Stream → H2Stream}
    (hf : ∀ o, (f o).sendWindow = o.sendWindow) (ref : ℕ) : SameLedger s (s.modifyObject ref f) :=
  sameLedger_of_eq rfl (length_modify _ _ _) rfl (object_modifyObject_of_keeps hf s ref)

theorem sameLedger_loopSend (s : H2) (f : Frame) (k : LoopCont) : SameLedger s (s.loopSend f k) := by
  obtain ⟨lo, wa, st, he⟩ := loopSend_eq s f k
  rw [he]
  exact sameLedger [.sent none f] rfl (by simp [plain]) rfl rfl (fun _ => rfl)

theorem sameLedger_dispatchStream (s : H2) (ref : ℕ) : SameLedger s (s.dispatchStream ref) := by
  obtain ⟨f, pc, called, hf, -, -, hc, he⟩ := dispatchStream_eq s ref
  rw [he]
  refine sameLedger (called ++ [.dispatched ref (s.object ref).id]) (by simp) ?_
    (length_modify _ _ _) rfl (object_modifyObject_of_keeps hf.sendWindow s ref)
  obtain rfl | ⟨req, body, rfl⟩ := hc <;> simp [plain]

theorem sameLedger_wake (s : H2) (ref : ℕ) : SameLedger s (s.wake ref) := by
  obtain ⟨f, t, g, hf, -, -, he⟩ := wake_eq s ref
  rw [he]
  exact sameLedger_of_eq rfl (length_modify _ _ _) rfl
    (object_modifyObject_of_keeps hf.sendWindow s ref)

theorem sameLedger_setTask (s : H2) (t : ℕ) (pc : TaskPc) : SameLedger s (s.setTask t pc) :=
  sameLedger_of_eq rfl rfl rfl (fun _ => rfl)

variable {f : Frame} {k : TaskCont} {ref t got : ℕ} {chunk payload : Bytes} {w : Writer} {x : Task}
  {fh : FrameHeader}

theorem sameLedger_taskSend (hf : f.type ≠ .data ∨ f.payload = []) : SameLedger s (s.taskSend t ref f k) := by
  obtain ⟨lo, wa, st, he⟩ := taskSend_eq s t ref f k
  rw [he]
  refine sameLedger [.sent (some ref) f] rfl ?_ rfl rfl (fun _ => rfl)
  simpa [plain] using hf

theorem sameLedger_nextChunk (s : H2) (t ref : ℕ) (w : Writer) :
    SameLedger s (s.nextChunk t ref w) := by
  unfold nextChunk
  split_ifs
  · exact sameLedger_taskSend (.inr rfl)
  · exact sameLedger_setTask _ _ _

/-! ## Entries of the ledger -/

theorem Ledger.openStream (h : s.Ledger) (id : ℕ) (block : Bytes) (endStream : Bool) :
    (s.openStream id block endStream).Ledger := by
  have hdata : (s.openStream id block endStream).dataSent = s.dataSent := by
    funext q
    simp [H2.dataSent, H2.openStream, dataOn]
  have hded : (s.openStream id block endStream).deducted = s.deducted := by
    funext q
    simp [H2.deducted, H2.openStream, deductedOn]
  have hgr : ∀ q, (s.openStream id block endStream).granted q =
      s.granted q + if q = some s.objects.length then (s.peerInitialWindowSize : ℤ) else 0 := by
    intro q
    cases q with
    | none => simp [H2.granted, increments, H2.openStream, creditOn]
    | some ref =>
      simp only [H2.granted, increments, initialWindow, H2.openStream, map_cons, sum_cons,
        creditOn, openedOn, Nat.zero_add, Option.some.injEq]
      by_cases hr : s.objects.length = ref
      · rw [if_pos hr, if_pos hr.symm]
        omega
      · rw [if_neg hr, if_neg (Ne.symm hr)]
        omega
  have hhas : ∀ q, (s.openStream id block endStream).HasWindow q ↔
      s.HasWindow q ∨ q = some s.objects.length := by
    intro q
    cases q with
    | none => simp [HasWindow]
    | some ref =>
      simp only [HasWindow, H2.openStream, length_append, length_singleton, Option.some.injEq]
      omega
  refine ⟨fun q hq => ?_, fun q hq => ?_, fun q => ?_⟩
  · rw [hgr, hded]
    by_cases hnew : q = some s.objects.length
    · -- the account of a new stream object is empty
      have hf := h.fresh q (by simp [hnew, HasWindow])
      subst hnew
      rw [hf.2.1, hf.2.2, if_pos rfl]
      simp [window, H2.openStream, object]
    · have hq := ((hhas q).mp hq).resolve_right hnew
      rw [if_neg hnew, add_zero, ← h.windows q hq]
      cases q with
      | none => rfl
      | some ref =>
        have hlt : ref < s.objects.length := hq
        simp [window, H2.openStream, object, getElem?_append_left hlt]
  · obtain ⟨h1, h2⟩ := not_or.mp fun hc => hq ((hhas q).mpr hc)
    rw [hdata, hded, hgr, if_neg h2, add_zero]
    exact h.fresh q h1
  · rw [hdata, hgr]
    have := h.bound q
    split_ifs <;> omega

theorem Ledger.credit (h : s.Ledger) {p : Option ℕ} {inc : ℕ} (hp : s.HasWindow p)
    (hlen : s'.objects.length = s.objects.length) (hl : s'.log = .credit p inc :: s.log)
    (hw : ∀ q, s.HasWindow q → s'.window q = s.window q + if p = q then (inc : ℤ) else 0) :
    s'.Ledger := by
  have hdata : s'.dataSent = s.dataSent := by
    funext q
    simp [H2.dataSent, hl, dataOn]
  have hded : s'.deducted = s.deducted := by
    funext q
    simp [H2.deducted, hl, deductedOn]
  have hgr : ∀ q, s'.granted q = s.granted q + if p = q then (inc : ℤ) else 0 := by
    intro q
    cases q with
    | none =>
      simp only [H2.granted, increments, hl, map_cons, sum_cons, creditOn]
      split_ifs <;> omega
    | some ref =>
      simp only [H2.granted, increments, initialWindow, hl, map_cons, sum_cons,
        creditOn, openedOn]
      split_ifs <;> omega
  refine ⟨fun q hq => ?_, fun q hq => ?_, fun q => ?_⟩
  · have hq := (HasWindow.congr hlen q).mp hq
    rw [hw q hq, hgr, hded, h.windows q hq]
    omega
  · have hq : ¬s.HasWindow q := fun hc => hq ((HasWindow.congr hlen q).mpr hc)
    have hne : p ≠ q := fun hpq => hq (hpq ▸ hp)
    rw [hdata, hded, hgr, if_neg hne, add_zero]
    exact h.fresh q hq
  · rw [hdata, hgr]
    have := h.bound q
    split_ifs <;> omega

theorem Ledger.deduct (h : s.Ledger) (hr : ref < s.objects.length) (n : ℕ) :
    (s.deduct ref n).Ledger := by
  have hlen : (s.deduct ref n).objects.length = s.objects.length := length_modify _ _ _
  have hdata : (s.deduct ref n).dataSent = s.dataSent := by
    funext q
    simp [H2.dataSent, H2.deduct, H2.modifyObject, dataOn]
  have hgr : (s.deduct ref n).granted = s.granted := by
    funext q
    cases q <;> simp [H2.granted, increments, initialWindow, H2.deduct, H2.modifyObject,
      creditOn, openedOn]
  have hded : ∀ q, (s.deduct ref n).deducted q =
      s.deducted q + if q = none ∨ q = some ref then n else 0 := by
    intro q
    simp only [H2.deducted, H2.deduct, map_cons, sum_cons, deductedOn]
    omega
  have hw : ∀ q, (s.deduct ref n).window q =
      s.window q - if q = none ∨ q = some ref then (n : ℤ) else 0 := by
    intro q
    cases q with
    | none => simp [H2.window, H2.deduct]
    | some r =>
      have ho := object_modifyObject s ref r fun o => { o with sendWindow := o.sendWindow - n }
      have he : (s.deduct ref n).window (some r) =
          ((s.modifyObject ref fun o => { o with sendWindow := o.sendWindow - n }).object r).sendWindow :=
        rfl
      rw [he, ho]
      by_cases hrr : ref = r
      · subst hrr
        simp [H2.window, hr]
      · simp [H2.window, hrr, Ne.symm hrr]
  refine ⟨fun q hq => ?_, fun q hq => ?_, fun q => ?_⟩
  · rw [hw, hgr, hded, h.windows q ((HasWindow.congr hlen q).mp hq)]
    split_ifs <;> omega
  · have hq : ¬s.HasWindow q := fun hc => hq ((HasWindow.congr hlen q).mpr hc)
    have hne : ¬(q = none ∨ q = some ref) := by
      rintro (rfl | rfl)
      · exact hq trivial
      · exact hq hr
    rw [hdata, hgr, hded, if_neg hne]
    exact h.fresh q hq
  · rw [hdata, hgr]
    exact h.bound q

theorem Ledger.taskSend (h : s.Ledger) (hr : ref < s.objects.length)
    (hc : (s.dataSent none + f.payload.length : ℤ) ≤ s.granted none)
    (ho : (s.dataSent (some ref) + f.payload.length : ℤ) ≤ s.granted (some ref)) :
    (s.taskSend t ref f k).Ledger := by
  obtain ⟨lo, wa, st, he⟩ := taskSend_eq s t ref f k
  have hl : (s.taskSend t ref f k).log = .sent (some ref) f :: s.log := by rw [he]
  have hlen : (s.taskSend t ref f k).objects.length = s.objects.length := by rw [he]
  have hw : (s.taskSend t ref f k).window = s.window := by
    rw [he]
    funext q
    cases q <;> rfl
  have hgr : (s.taskSend t ref f k).granted = s.granted := by
    funext q
    cases q <;> simp [H2.granted, increments, initialWindow, hl, creditOn, openedOn]
  have hded : (s.taskSend t ref f k).deducted = s.deducted := by
    funext q
    simp [H2.deducted, hl, deductedOn]
  have hdata : ∀ q, (s.taskSend t ref f k).dataSent q =
      s.dataSent q + if f.type = .data ∧ (q = none ∨ q = some ref) then f.payload.length else 0 := by
    intro q
    simp only [H2.dataSent, hl, map_cons, sum_cons, dataOn]
    omega
  refine ⟨fun q hq => ?_, fun q hq => ?_, fun q => ?_⟩
  · rw [hw, hgr, hded]
    exact h.windows q ((HasWindow.congr hlen q).mp hq)
  · have hq : ¬s.HasWindow q := fun hc => hq ((HasWindow.congr hlen q).mpr hc)
    have hne : ¬(f.type = .data ∧ (q = none ∨ q = some ref)) := by
      rintro ⟨-, rfl | rfl⟩
      · exact hq trivial
      · exact hq hr
    rw [hdata, hgr, hded, if_neg hne]
    exact h.fresh q hq
  · rw [hdata, hgr]
    have hb := h.bound q
    split_ifs with hq
    · obtain ⟨-, rfl | rfl⟩ := hq
      · push_cast
        exact hc
      · push_cast
        exact ho
    · simpa using hb

/-! ## Steps -/

theorem Spaced.check (h : s.Spaced (.resume t)) (hx : s.tasks[t]? = some x) (hp : x.pc = .check w got chunk)
    (hc : 0 < s.window none) (ho : 0 < s.window (some x.ref)) :
    (s.inFlight none = 0 ∨ s.inFlight none +
        min (s.window (some x.ref)) (min s.peerMaxFrameSize chunk.length) ≤ s.window none) ∧
      (s.inFlight (some x.ref) = 0 ∨ s.inFlight (some x.ref) +
        min (s.window none) (min s.peerMaxFrameSize chunk.length) ≤ s.window (some x.ref)) := by
  obtain ⟨ref, pc⟩ := x
  subst hp
  simp only [Spaced, hx] at h
  exact h hc ho

theorem Ledger.checkWindow (h : s.Ledger) (hx : s.tasks[t]? = some x) (hp : x.pc = .check w got chunk)
    (hr : x.ref < s.objects.length) (hc : s.Spaced (.resume t)) :
    (s.checkWindow t x.ref w got chunk).Ledger := by
  unfold H2.checkWindow
  split_ifs with hopen
  · refine Ledger.same ?_ (sameLedger_setTask _ _ _)
    exact h.same (sameLedger_modifyObject (by intro _; rfl) x.ref)
  · obtain ⟨ho, hcw⟩ := not_or.mp hopen
    have hcw' : 0 < s.window none := Int.not_le.mp hcw
    have ho' : 0 < s.window (some x.ref) := Int.not_le.mp ho
    obtain ⟨h1, h2⟩ := hc.check hx hp hcw' ho'
    have hwc := h.windows none trivial
    have hwo := h.windows (some x.ref) hr
    have hlen : ((chunk.take (s.allowed x.ref chunk).toNat).length : ℤ) ≤
        min (s.window (some x.ref)) (min (s.window none) (min s.peerMaxFrameSize chunk.length)) := by
      have ha : s.allowed x.ref chunk = min (s.window (some x.ref))
        (min (s.window none) (min s.peerMaxFrameSize chunk.length)) := rfl
      rw [length_take, ha]
      omega
    unfold inFlight at h1 h2
    refine h.taskSend hr ?_ ?_
    · dsimp only
      omega
    · dsimp only
      omega

theorem Ledger.taskMove (h : s.Ledger) (hw : s.Wf)
    (hx : s.tasks[t]? = some x) (hc : ∀ w got chunk, x.pc = .check w got chunk → s.Spaced (.resume t))
    (hm : TaskMove s t x s') : s'.Ledger := by
  have hr : x.ref < s.objects.length := by
    rw [← length_ids]
    exact hw.tasks x.ref (mem_map_of_mem (mem_of_getElem? hx))
  cases hm with
  | answer => exact h.same (sameLedger_setTask _ _ _)
  | finish => exact h.same (sameLedger_of_eq rfl rfl rfl (fun _ => rfl))
  | respond => exact h.same (sameLedger_taskSend (.inl (by simp)))
  | start w => exact h.same (sameLedger_nextChunk _ _ _ _)
  | read => exact h.same (sameLedger_setTask _ _ _)
  | readEnd => exact h.same (sameLedger_taskSend (.inr rfl))
  | check w got chunk hp => exact h.checkWindow hx hp hr (hc w got chunk hp)
  | deduct w got n chunk =>
    have hd := h.deduct hr n
    unfold continueTask
    dsimp only
    split_ifs
    · exact hd.same (sameLedger_nextChunk _ _ _ _)
    · exact hd.same (sameLedger_nextChunk _ _ _ _)
    · exact hd.same (sameLedger_setTask _ _ _)

section Phases

variable {s s₀ s' : H2} {r : Option (ℕ × ℕ)}

theorem Ledger.begins (h : s.Ledger) (hw : s.Wf) (hb : Begin s fh r s₀) : s₀.Ledger := by
  cases hb with
  | pass | resumed => exact h
  | settings | erased => exact h.same (sameLedger_of_eq rfl rfl rfl (fun _ => rfl))
  | opened block endStream => exact h.openStream _ block endStream
  | fragment ref | content ref => exact h.same (sameLedger_modifyObject (by intro _; rfl) ref)
  | credit inc =>
    refine h.credit (p := none) trivial rfl rfl fun q _ => ?_
    cases q with
    | none => rfl
    | some ref => simp [window, record, object]
  | creditStream ref inc _ hl =>
    have hr : ref < s.objects.length := by
      rw [← length_ids]
      exact lt_length_ids (hw.lookup hl)
    refine h.credit (p := some ref) hr (length_modify _ _ _) rfl fun q _ => ?_
    cases q with
    | none => simp [window, record, H2.modifyObject]
    | some r =>
      have ho := object_modifyObject s ref r fun o => { o with sendWindow := o.sendWindow + inc }
      refine (congrArg H2Stream.sendWindow ho).trans ?_
      by_cases hrr : ref = r
      · subst hrr
        simp [window, hr]
      · simp [window, hrr]

theorem sameLedger_work (hw : Work fh r s s') : SameLedger s s' := by
  induction hw with
  | refl | block => exact sameLedger_of_eq rfl rfl rfl (fun _ => rfl)
  | trans _ _ h h' => exact h.trans h'
  | object s _ hf => exact sameLedger_modifyObject (H2Stream.Keeps.of_kept hf).sendWindow _
  | dispatched s => exact sameLedger_dispatchStream s _
  | woken s ref => exact sameLedger_wake s ref

theorem Ledger.loopMove (h : s.Ledger) (hw : s.Wf) (hm : LoopMove s s') : s'.Ledger := by
  obtain ⟨n, fh, r, s₁, -, ⟨s₀, hb, hk⟩, hl⟩ := hm.phases
  have ht : (s.takeBuffer n).2.Ledger := h.same (sameLedger_of_eq rfl rfl rfl (fun _ => rfl))
  refine ((ht.begins (hw.takeBuffer n) hb).same (sameLedger_work hk)).same ?_
  cases hl with
  | go => exact sameLedger_of_eq rfl rfl rfl (fun _ => rfl)
  | send f k => exact sameLedger_loopSend s₁ f k

end Phases

theorem Ledger.step {e : Event} (h : s.Ledger) (hw : s.Wf) (hc : s.Spaced e)
    (hs : s.step e = some s') : s'.Ledger := by
  cases move_of_step hs with
  | recv | recvEnd | recvFail | writeFail => exact h.same (sameLedger_of_eq rfl rfl rfl (fun _ => rfl))
  | loop hm => exact h.loopMove hw hm
  | write _ _ hb =>
    have hbare : s.bare.Ledger := h.same (sameLedger_of_eq rfl rfl rfl (fun _ => rfl))
    rw [← hb] at hbare
    exact hbare.same (sameLedger_of_eq rfl rfl rfl (fun _ => rfl))
  | task _ t x hx he hm => exact h.taskMove hw hx (fun w got chunk hp => he w got chunk hp ▸ hc) hm

theorem ledger_start (b : Bytes) : (start b).Ledger := by
  refine ⟨fun q hq => ?_, fun q hq => ?_, fun q => ?_⟩
  · cases q with
    | none => rfl
    | some ref => exact absurd hq (Nat.not_lt_zero ref)
  · cases q with
    | none => exact absurd trivial hq
    | some ref => exact ⟨rfl, rfl, rfl⟩
  · cases q <;> simp [start, H2.dataSent, H2.granted, increments, initialWindow]

/-! ## Runs -/

/-- **No window is overrun** in a run in which the octets in flight leave room for every DATA frame. -/
theorem data_within_windows {b : Bytes} {es : List Event} {s : H2}
    (h : Run.Exec H2.step Spaced (start b) es s) :
    (s.dataSent none : ℤ) ≤ 65535 + s.increments none ∧
      ∀ ref, (s.dataSent (some ref) : ℤ) ≤ s.initialWindow ref + s.increments (some ref) := by
  have hi : s.Wf ∧ s.Ledger :=
    h.inv (I := fun s => s.Wf ∧ s.Ledger) (fun s e s' hc hs hi => ⟨hi.1.step hs, hi.2.step hi.1 hc hs⟩)
      ⟨wf_start b, ledger_start b⟩
  exact ⟨hi.2.bound none, fun ref => hi.2.bound (some ref)⟩

/-- A response up to the window check in front of its first DATA frame. -/
def respondEvents (t n : ℕ) : List Event :=
  [.handlerReturn t { body := some (List.replicate n 0), contentLength := n }, .resume t,
    .write (.task t) 19, .resume t, .bodyRead t n]

theorem data_within_windows_small :
    ∃ es s, Run.Exec H2.step Spaced (start (requestsOn [1, 3])) es s ∧ s.dataSent none = 7 ∧
      ((s.dataSent none : ℤ) ≤ 65535 + s.increments none ∧
        ∀ ref, (s.dataSent (some ref) : ℤ) ≤ s.initialWindow ref + s.increments (some ref)) := by
  have h : (Run.runChecked H2.step Spaced (start (requestsOn [1, 3]))
      (dispatchEvents 2 ++ respondEvents 0 3 ++ respondEvents 1 4 ++ [.resume 0, .resume 1])).map
        (fun s => s.dataSent none) = some 7 := by
    decide +kernel
  obtain ⟨s, hx, he⟩ := Run.exists_exec h
  exact ⟨_, s, hx, he, data_within_windows hx⟩

/-- Four responses of 16384 octets: every frame is handed over before the first is taken off. -/
theorem data_overruns_window :
    ∃ es s, Run.Exec H2.step (fun _ _ => True) (start (requestsOn [1, 3, 5, 7])) es s ∧
      s.dataSent none = 65536 ∧ s.increments none = 0 := by
  have h : (Run.runChecked H2.step (fun _ _ => True) (start (requestsOn [1, 3, 5, 7]))
      (dispatchEvents 4 ++ respondEvents 0 16384 ++ respondEvents 1 16384 ++
        respondEvents 2 16384 ++ respondEvents 3 16384 ++
        [.resume 0, .resume 1, .resume 2, .resume 3])).map
        (fun s => (s.dataSent none, s.increments none)) = some (65536, 0) := by
    decide +kernel
  obtain ⟨s, hx, he⟩ := Run.exists_exec h
  exact ⟨_, s, hx, congrArg Prod.fst he, congrArg Prod.snd he⟩

end H2

end Nhttp.Server
