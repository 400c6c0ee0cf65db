import Nhttp.Lib.Run
import Nhttp.Lib.Tickets

/-!
# The bounded queue `mpmc_queue`

A ring of cells with a sequence number each, and two counters. Every atomic access and every access to a
value is a step.

* `Capacity`, `cell`, `difference`: positions and sequence numbers are kept as the unbounded numbers of
  which the code has the residues; every comparison is one of residues.
* `Op`: where a thread is in a call; `MpmcQueue`, `step`: the queue and the threads at it.
* `Unhindered`: no thread is between its claim and its store at a cell that a failing load depends on.
* `Inv`: a cell is free for one position or holds the value of one; `Inv.owns_ne`.
-/

namespace Nhttp.Async

open Function

/-! ## Arithmetic of `std::size_t` -/

/-- The size of a queue: a power of two that fits into a `std::size_t`, and at least two. -/
structure Capacity where
  log : ℕ
  pos : 0 < log
  fits : log < 64

namespace Capacity

variable (c : Capacity)

def val : ℕ := 2 ^ c.log

def mask : ℕ := c.val - 1

/-- `pos & mask_`. -/
def cell (pos : ℕ) : ℕ := pos % 2 ^ 64 &&& c.mask

theorem cell_eq (pos : ℕ) : c.cell pos = pos % c.val := by
  rw [cell, mask, val, Nat.and_two_pow_sub_one_eq_mod]
  exact Nat.mod_mod_of_dvd _ (pow_dvd_pow 2 c.fits.le)

theorem two_le_val : 2 ≤ c.val := by
  calc 2 = 2 ^ 1 := rfl
    _ ≤ 2 ^ c.log := Nat.pow_le_pow_right (by decide) c.pos

theorem val_le : c.val ≤ 2 ^ 63 := Nat.pow_le_pow_right (by decide) (Nat.le_of_lt_succ c.fits)

theorem add_mask_add_one (pos : ℕ) : pos + c.mask + 1 = pos + c.val := by
  have := c.two_le_val
  unfold mask
  omega

theorem cell_lt (pos : ℕ) : c.cell pos < c.val := by
  rw [cell_eq]
  exact Nat.mod_lt _ (Nat.zero_lt_of_lt c.two_le_val)

theorem cell_of_lt {i : ℕ} (h : i < c.val) : c.cell i = i := by
  rw [cell_eq, Nat.mod_eq_of_lt h]

theorem cell_add_val (pos : ℕ) : c.cell (pos + c.val) = c.cell pos := by
  rw [cell_eq, cell_eq, Nat.add_mod_right]

/-- Neighbours are in different cells: this is where a queue of one cell would fail. -/
theorem cell_succ_ne (pos : ℕ) : c.cell (pos + 1) ≠ c.cell pos := by
  rw [cell_eq, cell_eq]
  intro h
  have hd : c.val ∣ pos + 1 - pos := (Nat.modEq_iff_dvd' (Nat.le_succ pos)).mp h.symm
  rw [Nat.add_sub_cancel_left] at hd
  have := Nat.le_of_dvd Nat.one_pos hd
  have := c.two_le_val
  omega

theorem add_val_le {p q : ℕ} (h : c.cell p = c.cell q) (hlt : p < q) : p + c.val ≤ q := by
  rw [cell_eq, cell_eq] at h
  have hd : c.val ∣ q - p := (Nat.modEq_iff_dvd' hlt.le).mp h
  have := Nat.le_of_dvd (Nat.sub_pos_of_lt hlt) hd
  omega

end Capacity

/-- `static_cast<std::intptr_t>(a) - static_cast<std::intptr_t>(b)`, in wrap-around arithmetic. -/
def difference (a b : ℕ) : ℤ := Int.bmod ((a : ℤ) - b) (2 ^ 64)

/-- `compare_exchange_weak` finds the value that it expects. -/
def SameWord (a b : ℕ) : Prop := a % 2 ^ 64 = b % 2 ^ 64

instance (a b : ℕ) : Decidable (SameWord a b) := inferInstanceAs (Decidable (_ = _))

theorem difference_eq_zero {a b : ℕ} (h : difference a b = 0) (hab : a < b + 2 ^ 64) (hba : b < a + 2 ^ 64) :
    a = b := by
  have hd := Int.dvd_of_bmod_eq_zero h
  omega

/-- The difference of two numbers that are not too far apart has the right sign. -/
theorem difference_neg {a b : ℕ} (h : difference a b < 0) (hab : a < b + 2 ^ 63) : a < b := by
  by_contra hle
  rw [difference, Int.bmod_eq_of_le] at h <;> omega

theorem eq_of_sameWord {a b : ℕ} (h : SameWord a b) (hba : b ≤ a) (hab : a < b + 2 ^ 64) : a = b := by
  unfold SameWord at h
  omega

/-! ## The queue -/

variable {ι T : Type}

/-- Where a thread is; every push carries the value that its call was given. -/
inductive Op (T : Type)
  | idle
  | pushLoad (v : T)
  | pushSequence (v : T) (pos : ℕ)
  | pushExchange (v : T) (pos : ℕ)
  /-- The position is claimed; in front of the write of the value. -/
  | pushValue (v : T) (pos : ℕ)
  | pushStore (v : T) (pos : ℕ)
  | pushDone (v : T) (pos : ℕ)
  | pushFull (v : T)
  | popLoad
  | popSequence (pos : ℕ)
  | popExchange (pos : ℕ)
  | popValue (pos : ℕ)
  | popStore (pos : ℕ) (out : Option T)
  | popDone (pos : ℕ) (out : Option T)
  | popEmpty
  deriving DecidableEq, Repr

namespace Op

def given : Op T → Option ℕ
  | .pushValue _ pos | .pushStore _ pos | .pushDone _ pos => some pos
  | _ => none

def taken : Op T → Option ℕ
  | .popValue pos | .popStore pos _ | .popDone pos _ => some pos
  | _ => none

/-- The position that the push of a thread has claimed and not published. -/
def writing : Op T → Option ℕ
  | .pushValue _ pos | .pushStore _ pos => some pos
  | _ => none

/-- The position that the pop of a thread has claimed, and whose cell it has not given back. -/
def reading : Op T → Option ℕ
  | .popValue pos | .popStore pos _ => some pos
  | _ => none

/-- The position whose cell belongs to the thread: claimed, and the sequence number not stored yet. -/
def owns : Op T → Option ℕ
  | .pushValue _ pos | .pushStore _ pos | .popValue pos | .popStore pos _ => some pos
  | _ => none

/-- The position whose cell's value the thread is about to access. -/
def accesses : Op T → Option ℕ
  | .pushValue _ pos | .popValue pos => some pos
  | _ => none

/-- In a `try_push`. -/
def isPush : Op T → Bool
  | .pushLoad _ | .pushSequence .. | .pushExchange .. | .pushValue .. | .pushStore .. | .pushDone ..
  | .pushFull _ => true
  | _ => false

/-- In a `try_pop`. -/
def isPop : Op T → Bool
  | .popLoad | .popSequence _ | .popExchange _ | .popValue _ | .popStore .. | .popDone .. | .popEmpty => true
  | _ => false

theorem given_eq_none {op : Op T} (h : op.isPush = false) : op.given = none := by
  cases op with
  | pushValue | pushStore | pushDone => cases h
  | _ => rfl

theorem taken_eq_none {op : Op T} (h : op.isPop = false) : op.taken = none := by
  cases op with
  | popValue | popStore | popDone => cases h
  | _ => rfl

theorem owns_of_accesses {op : Op T} {p : ℕ} (h : op.accesses = some p) : op.owns = some p := by
  cases op with
  | pushValue | popValue => exact h
  | _ => cases h

end Op

/-- A queue, the threads at it, and what has happened; `none` is a value that has been moved from. -/
structure MpmcQueue (ι T : Type) where
  /-- `buffer_[i].sequence`. -/
  sequence : ℕ → ℕ := fun i => i
  /-- `buffer_[i].value`. -/
  value : ℕ → Option T := fun _ => none
  enqueuePos : ℕ := 0
  dequeuePos : ℕ := 0
  ops : ι → Op T := fun _ => .idle
  /-- The argument object of a thread's `try_push`. -/
  arg : ι → Option T := fun _ => none
  /-- The values of the pushes that have claimed a position, by position. -/
  pushes : List T := []
  /-- The pushes that have returned `true`: position and value given. -/
  pushed : List (ℕ × T) := []
  /-- The pushes that have returned `false`: value given, and argument object. -/
  refused : List (T × Option T) := []
  /-- The pops that have returned `true`: position and value returned. -/
  popped : List (ℕ × Option T) := []

namespace MpmcQueue

inductive Event (ι T : Type)
  | push (t : ι) (v : T)
  | pop (t : ι)
  /-- The next step of a call; a compare-exchange may fail without a reason. -/
  | run (t : ι) (spurious : Bool)
  | ret (t : ι)
  deriving DecidableEq, Repr

/-- The thread of an event. -/
def Event.thread : Event ι T → ι
  | .push t _ | .pop t | .run t _ | .ret t => t

section Steps

variable [DecidableEq ι]

def goto (s : MpmcQueue ι T) (t : ι) (op : Op T) : MpmcQueue ι T :=
  { s with ops := update s.ops t op }

def run (c : Capacity) (s : MpmcQueue ι T) (t : ι) (spurious : Bool) : Option (MpmcQueue ι T) :=
  match s.ops t with
  | .pushLoad v => some (s.goto t (.pushSequence v s.enqueuePos))
  | .pushSequence v pos =>
    let diff := difference (s.sequence (c.cell pos)) pos
    some (s.goto t
      (if diff = 0 then .pushExchange v pos else if diff < 0 then .pushFull v else .pushLoad v))
  | .pushExchange v pos =>
    if spurious = false ∧ SameWord s.enqueuePos pos then
      some { s.goto t (.pushValue v pos) with
        enqueuePos := s.enqueuePos + 1
        pushes := s.pushes ++ [v] }
    -- a compare-exchange that fails has loaded the position
    else some (s.goto t (.pushSequence v s.enqueuePos))
  | .pushValue v pos =>
    some { s.goto t (.pushStore v pos) with
      value := update s.value (c.cell pos) (s.arg t)
      arg := update s.arg t none }
  | .pushStore v pos =>
    some { s.goto t (.pushDone v pos) with
      sequence := update s.sequence (c.cell pos) (pos + 1) }
  | .popLoad => some (s.goto t (.popSequence s.dequeuePos))
  | .popSequence pos =>
    let diff := difference (s.sequence (c.cell pos)) (pos + 1)
    some (s.goto t
      (if diff = 0 then .popExchange pos else if diff < 0 then .popEmpty else .popLoad))
  | .popExchange pos =>
    if spurious = false ∧ SameWord s.dequeuePos pos then
      some { s.goto t (.popValue pos) with dequeuePos := s.dequeuePos + 1 }
    else some (s.goto t (.popSequence s.dequeuePos))
  | .popValue pos =>
    some { s.goto t (.popStore pos (s.value (c.cell pos))) with
      value := update s.value (c.cell pos) none }
  | .popStore pos out =>
    some { s.goto t (.popDone pos out) with
      sequence := update s.sequence (c.cell pos) (pos + c.mask + 1) }
  | _ => none

def step (c : Capacity) (s : MpmcQueue ι T) : Event ι T → Option (MpmcQueue ι T)
  | .push t v =>
    match s.ops t with
    | .idle => some { s.goto t (.pushLoad v) with arg := update s.arg t (some v) }
    | _ => none
  | .pop t =>
    match s.ops t with
    | .idle => some (s.goto t .popLoad)
    | _ => none
  | .run t spurious => s.run c t spurious
  | .ret t =>
    match s.ops t with
    | .pushDone v pos => some { s.goto t .idle with pushed := s.pushed ++ [(pos, v)] }
    | .pushFull v => some { s.goto t .idle with refused := s.refused ++ [(v, s.arg t)] }
    | .popDone pos out => some { s.goto t .idle with popped := s.popped ++ [(pos, out)] }
    | .popEmpty => some (s.goto t .idle)
    | _ => none

end Steps

/-- No compare-exchange finds the counter `2 ^ 64` or more positions past the one loaded. -/
def Fresh (s : MpmcQueue ι T) : Event ι T → Prop
  | .run t _ =>
    match s.ops t with
    | .pushExchange _ pos => s.enqueuePos < pos + 2 ^ 64
    | .popExchange pos => s.dequeuePos < pos + 2 ^ 64
    | _ => True
  | _ => True

instance (s : MpmcQueue ι T) (e : Event ι T) : Decidable (Fresh s e) := by
  unfold Fresh
  split
  · split <;> infer_instance
  · infer_instance

/-- No load of a sequence number meets a thread between its claim and its store, or a counter that has moved on by half
of its range. -/
def Unhindered (c : Capacity) (s : MpmcQueue ι T) : Event ι T → Prop
  | .run t _ =>
    match s.ops t with
    | .popSequence pos => s.dequeuePos + c.val ≤ pos + 2 ^ 63 ∧ ∀ t', (s.ops t').writing ≠ some pos
    | .pushSequence _ pos => s.enqueuePos + c.val ≤ pos + 2 ^ 63 ∧
      (∀ t', ∀ p ∈ (s.ops t').reading, p + c.val ≠ pos) ∧
      (s.dequeuePos + c.val ≤ pos → ∀ t', (s.ops t').writing = none)
    | _ => True
  | _ => True

instance [Fintype ι] (c : Capacity) (s : MpmcQueue ι T) (e : Event ι T) : Decidable (Unhindered c s e) := by
  unfold Unhindered
  split
  · split <;> infer_instance
  · infer_instance

/-! ## The invariant -/

section Invariant

variable (c : Capacity) (s : MpmcQueue ι T)

/-- The cell waits for the push of the position that is its sequence number. -/
def Free (i : ℕ) : Prop :=
  c.cell (s.sequence i) = i ∧ s.dequeuePos ≤ s.sequence i ∧ s.sequence i < s.dequeuePos + c.val

/-- The cell holds the value of position `p` until the pop of `p` takes it. -/
def Full (i : ℕ) : Prop :=
  ∃ p, s.sequence i = p + 1 ∧ c.cell p = i ∧ p < s.enqueuePos ∧ s.enqueuePos ≤ p + c.val ∧
    (s.dequeuePos ≤ p → ∃ v, s.pushes[p]? = some v ∧ s.value i = some v)

def Published (p : ℕ) : Prop := p < s.sequence (c.cell p)

/-- What a thread can rely on. -/
def OpOk (t : ι) : Op T → Prop
  | .idle | .popLoad | .popEmpty => True
  | .pushLoad v | .pushFull v => s.arg t = some v
  | .pushSequence v pos => s.arg t = some v ∧ pos ≤ s.enqueuePos
  | .pushExchange v pos =>
    s.arg t = some v ∧ pos ≤ s.enqueuePos ∧ (pos = s.enqueuePos → s.sequence (c.cell pos) = pos)
  | .pushValue v pos => s.arg t = some v ∧ s.pushes[pos]? = some v ∧ s.sequence (c.cell pos) = pos
  | .pushStore v pos =>
    s.pushes[pos]? = some v ∧ s.sequence (c.cell pos) = pos ∧ s.value (c.cell pos) = some v
  | .pushDone v pos => s.pushes[pos]? = some v ∧ s.Published c pos
  | .popSequence pos => pos ≤ s.dequeuePos
  | .popExchange pos =>
    pos ≤ s.dequeuePos ∧ (pos = s.dequeuePos → s.sequence (c.cell pos) = pos + 1)
  | .popValue pos =>
    s.sequence (c.cell pos) = pos + 1 ∧ ∃ v, s.pushes[pos]? = some v ∧ s.value (c.cell pos) = some v
  | .popStore pos out =>
    s.sequence (c.cell pos) = pos + 1 ∧ ∃ v, s.pushes[pos]? = some v ∧ out = some v
  | .popDone pos out => s.Published c pos ∧ ∃ v, s.pushes[pos]? = some v ∧ out = some v

/-- **The invariant of the queue.** -/
structure Inv : Prop where
  length : s.pushes.length = s.enqueuePos
  le : s.dequeuePos ≤ s.enqueuePos
  room : s.enqueuePos ≤ s.dequeuePos + c.val
  cells : ∀ i < c.val, s.Free c i ∨ s.Full c i
  ops : ∀ t, s.OpOk c t (s.ops t)
  given : Tickets s.enqueuePos (Op.given ∘ s.ops) (s.pushed.map Prod.fst)
  taken : Tickets s.dequeuePos (Op.taken ∘ s.ops) (s.popped.map Prod.fst)
  pushed : ∀ r ∈ s.pushed, s.pushes[r.1]? = some r.2 ∧ s.Published c r.1
  refused : ∀ r ∈ s.refused, r.2 = some r.1
  popped : ∀ r ∈ s.popped, s.Published c r.1 ∧ ∃ v, s.pushes[r.1]? = some v ∧ r.2 = some v

end Invariant

theorem inv_start (c : Capacity) : ({} : MpmcQueue ι T).Inv c where
  length := rfl
  le := Nat.le_refl 0
  room := Nat.zero_le _
  cells i hi := .inl ⟨c.cell_of_lt hi, Nat.zero_le i, by simpa using hi⟩
  ops _ := trivial
  given := Tickets.start
  taken := Tickets.start
  pushed _ hr := by cases hr
  refused _ hr := by cases hr
  popped _ hr := by cases hr

section Consequences

variable {c : Capacity} {s : MpmcQueue ι T}

theorem Inv.sequence_bounds (h : s.Inv c) (pos : ℕ) :
    s.dequeuePos < s.sequence (c.cell pos) + c.val ∧ s.enqueuePos < s.sequence (c.cell pos) + c.val + 1 ∧
      s.sequence (c.cell pos) ≤ s.dequeuePos + c.val := by
  have := h.le
  have := h.room
  have := c.two_le_val
  rcases h.cells _ (c.cell_lt pos) with ⟨_, _, _⟩ | ⟨p, hp, _, _, _, _⟩ <;> omega

theorem Inv.sequence_of_owns (h : s.Inv c) {t : ι} {p : ℕ} (ho : (s.ops t).owns = some p) :
    ((s.ops t).given = some p ∧ s.sequence (c.cell p) = p) ∨
      ((s.ops t).taken = some p ∧ s.sequence (c.cell p) = p + 1) := by
  have hok := h.ops t
  cases hop : s.ops t with
  | pushValue v pos =>
    rw [hop] at ho hok
    cases ho
    exact .inl ⟨rfl, hok.2.2⟩
  | pushStore v pos =>
    rw [hop] at ho hok
    cases ho
    exact .inl ⟨rfl, hok.2.1⟩
  | popValue pos =>
    rw [hop] at ho hok
    cases ho
    exact .inr ⟨rfl, hok.1⟩
  | popStore pos out =>
    rw [hop] at ho hok
    cases ho
    exact .inr ⟨rfl, hok.1⟩
  | _ =>
    rw [hop] at ho
    cases ho

theorem Inv.owns_ne (h : s.Inv c) {t t' : ι} {p q : ℕ} (hne : t ≠ t') (hp : (s.ops t).owns = some p)
    (hq : (s.ops t').owns = some q) : c.cell p ≠ c.cell q := by
  intro hcell
  rcases h.sequence_of_owns hp with ⟨hgp, hsp⟩ | ⟨hgp, hsp⟩ <;>
    rcases h.sequence_of_owns hq with ⟨hgq, hsq⟩ | ⟨hgq, hsq⟩ <;> rw [hcell] at hsp
  · have hpq : p = q := hsp.symm.trans hsq
    subst hpq
    exact hne (h.given.alone hgp hgq)
  · have hpq : p = q + 1 := hsp.symm.trans hsq
    exact c.cell_succ_ne q (hpq ▸ hcell)
  · have hpq : q = p + 1 := hsq.symm.trans hsp
    exact c.cell_succ_ne p (hpq ▸ hcell.symm)
  · have hpq : p = q := Nat.succ.inj (hsp.symm.trans hsq)
    subst hpq
    exact hne (h.taken.alone hgp hgq)

/-- A claimed position that is not published is in the hands of a thread. -/
theorem Inv.exists_given (h : s.Inv c) {p : ℕ} (hp : p < s.enqueuePos) (hn : ¬s.Published c p) :
    ∃ t, (s.ops t).given = some p := by
  rcases h.given.kept hp with hd | ht
  · obtain ⟨r, hr, rfl⟩ := List.mem_map.mp hd
    exact absurd (h.pushed r hr).2 hn
  · exact ht

/-- A push finds that its position is the next one, and that the cell is free for it. -/
theorem Inv.sequence_eq_of_push (h : s.Inv c)
    (hd : difference (s.sequence (c.cell s.enqueuePos)) s.enqueuePos = 0) :
    s.sequence (c.cell s.enqueuePos) = s.enqueuePos := by
  have hb := h.sequence_bounds s.enqueuePos
  have hle := h.le
  have hc := c.val_le
  exact difference_eq_zero hd (by omega) (by omega)

theorem Inv.sequence_eq_of_pop (h : s.Inv c)
    (hd : difference (s.sequence (c.cell s.dequeuePos)) (s.dequeuePos + 1) = 0) :
    s.sequence (c.cell s.dequeuePos) = s.dequeuePos + 1 := by
  have hb := h.sequence_bounds s.dequeuePos
  have hc := c.val_le
  exact difference_eq_zero hd (by omega) (by omega)

theorem Inv.pushed_or (h : s.Inv c) {p : ℕ} {v : T} (hget : s.pushes[p]? = some v) (hp : s.Published c p) :
    (p, v) ∈ s.pushed ∨ ∃ t, s.ops t = .pushDone v p := by
  have hlt : p < s.enqueuePos := h.length ▸ (List.getElem?_eq_some_iff.mp hget).1
  rcases h.given.kept hlt with hd | ⟨t, ht⟩
  · obtain ⟨⟨q, w⟩, hr, rfl⟩ := List.mem_map.mp hd
    have hw := (h.pushed _ hr).1
    rw [hget] at hw
    cases hw
    exact .inl hr
  · refine .inr ⟨t, ?_⟩
    have hok := h.ops t
    rw [comp] at ht
    cases hop : s.ops t with
    | pushValue w pos =>
      rw [hop] at ht hok
      cases ht
      exact absurd hok.2.2 hp.ne'
    | pushStore w pos =>
      rw [hop] at ht hok
      cases ht
      exact absurd hok.2.1 hp.ne'
    | pushDone w pos =>
      rw [hop] at ht hok
      cases ht
      rw [OpOk, hget] at hok
      cases hok.1
      rfl
    | _ =>
      rw [hop] at ht
      cases ht

end Consequences

end MpmcQueue

end Nhttp.Async
