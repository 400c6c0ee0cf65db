import Nhttp.Async.MpmcEffect
import Nhttp.Async.MpmcRuns

/-!
# What the failures of the queue mean

* `Empty`, `AllFull`: what the comments say about a queue on which `try_pop` and `try_push` fail.
* **`failure_meaning`**: in runs of unhindered loads, a failing call has met such a queue.
-/

namespace Nhttp.Async

open Function

variable {ι T : Type}

/-- A call that has failed does nothing but return. -/
def Op.failed : Op T → Bool
  | .popEmpty | .pushFull _ => true
  | _ => false

theorem Capacity.exists_cell (c : Capacity) (p : ℕ) {i : ℕ} (hi : i < c.val) :
    ∃ q, p ≤ q ∧ q < p + c.val ∧ c.cell q = i := by
  have hlt := Nat.mod_lt p (Nat.zero_lt_of_lt hi)
  have hsum : p + (i + (c.val - p % c.val)) = i + c.val * (p / c.val + 1) := by
    have := Nat.div_add_mod p c.val
    rw [Nat.mul_succ]
    omega
  refine ⟨p + (i + (c.val - p % c.val)) % c.val, Nat.le_add_right _ _,
    Nat.add_lt_add_left (Nat.mod_lt _ (Nat.zero_lt_of_lt hi)) p, ?_⟩
  rw [c.cell_eq, Nat.add_mod_mod, hsum, Nat.add_mul_mod_self_left, Nat.mod_eq_of_lt hi]

namespace MpmcQueue

variable {c : Capacity} {s s' : MpmcQueue ι T} {t : ι}

/-- No completed `try_push` has its item in the queue: pops have claimed all of them. -/
def Empty (s : MpmcQueue ι T) : Prop := ∀ r ∈ s.pushed, r.1 < s.dequeuePos

def HoldsItem (c : Capacity) (s : MpmcQueue ι T) (i : ℕ) : Prop :=
  ∃ p < s.enqueuePos, c.cell p = i ∧ s.dequeuePos ≤ p ∧ s.Published c p

def AllFull (c : Capacity) (s : MpmcQueue ι T) : Prop := ∀ i < c.val, HoldsItem c s i

instance (s : MpmcQueue ι T) : Decidable s.Empty := inferInstanceAs (Decidable (∀ _ ∈ _, _))

instance (c : Capacity) (s : MpmcQueue ι T) (p : ℕ) : Decidable (s.Published c p) := inferInstanceAs (Decidable (_ < _))

instance (c : Capacity) (s : MpmcQueue ι T) (i : ℕ) : Decidable (HoldsItem c s i) :=
  inferInstanceAs (Decidable (∃ p < s.enqueuePos, _ ∧ _ ∧ _))

instance (c : Capacity) (s : MpmcQueue ι T) : Decidable (AllFull c s) :=
  inferInstanceAs (Decidable (∀ i < c.val, _))

/-! ## Cells of pops that are done -/

structure Recycled (c : Capacity) (s : MpmcQueue ι T) : Prop where
  ops : ∀ t pos out, s.ops t = .popDone pos out → pos + c.val ≤ s.sequence (c.cell pos)
  popped : ∀ r ∈ s.popped, r.1 + c.val ≤ s.sequence (c.cell r.1)

theorem recycled_start (c : Capacity) : Recycled c ({} : MpmcQueue ι T) where
  ops t pos out h := by cases h
  popped r hr := by cases hr

section steps

variable [DecidableEq ι]

theorem popDone_run {spurious : Bool} {pos : ℕ} {out : Option T} (hs : s.run c t spurious = some s')
    (h : s'.ops t = .popDone pos out) :
    s.ops t = .popStore pos out ∧ s'.sequence (c.cell pos) = pos + c.val := by
  unfold MpmcQueue.run at hs
  cases hop : s.ops t with
  | pushSequence v p | popSequence p =>
    rw [hop] at hs
    cases hs
    rw [goto_self] at h
    split_ifs at h
  | pushExchange v p | popExchange p =>
    rw [hop] at hs
    dsimp only at hs
    split_ifs at hs
    · cases hs
      cases (goto_self _).symm.trans h
    · cases hs
      cases (goto_self _).symm.trans h
  | popStore p o =>
    rw [hop] at hs
    cases hs
    cases (goto_self _).symm.trans h
    exact ⟨rfl, (update_self ..).trans (c.add_mask_add_one pos)⟩
  | pushLoad v | pushValue v p | pushStore v p | popLoad | popValue p =>
    rw [hop] at hs
    cases hs
    cases (goto_self _).symm.trans h
  | _ =>
    rw [hop] at hs
    cases hs

variable {e : Event ι T}

theorem ops_of_thread_ne (hs : s.step c e = some s') (h : e.thread ≠ t) : s'.ops t = s.ops t := by
  cases e with
  | push t' v =>
    simp only [step] at hs
    split at hs
    · cases hs
      exact update_of_ne (Ne.symm h) ..
    · cases hs
  | pop t' =>
    simp only [step] at hs
    split at hs
    · cases hs
      exact update_of_ne (Ne.symm h) ..
    · cases hs
  | run t' spurious =>
    change s.run c t' spurious = some s' at hs
    unfold MpmcQueue.run at hs
    split at hs
    case h_3 | h_8 =>
      split_ifs at hs
      · cases hs
        exact update_of_ne (Ne.symm h) ..
      · cases hs
        exact update_of_ne (Ne.symm h) ..
    case h_11 => cases hs
    all_goals
      cases hs
      exact update_of_ne (Ne.symm h) ..
  | ret t' =>
    simp only [step] at hs
    split at hs
    case h_5 => cases hs
    all_goals
      cases hs
      exact update_of_ne (Ne.symm h) ..

theorem ops_of_ret (hs : s.step c (.ret t) = some s') : s'.ops t = .idle ∧ s'.sequence = s.sequence := by
  simp only [step] at hs
  split at hs
  case h_5 => cases hs
  all_goals
    cases hs
    exact ⟨update_self .., rfl⟩

theorem sequence_step (h : s.Inv c) (hf : s.Fresh e) (hs : s.step c e = some s') (i : ℕ) :
    s.sequence i ≤ s'.sequence i := by
  cases e with
  | push t v => exact (effect_push hs).sequence i
  | pop t => exact (effect_pop hs).sequence i
  | run t spurious => exact (effect_run h hf hs).sequence i
  | ret t => rw [(ops_of_ret hs).2]

theorem mem_popped_step (h : s.Inv c) (hf : s.Fresh e) (hs : s.step c e = some s') {r : ℕ × Option T}
    (hr : r ∈ s'.popped) : r ∈ s.popped ∨ s.ops e.thread = .popDone r.1 r.2 := by
  cases e with
  | push t v => exact .inl ((effect_push hs).logs.2 ▸ hr)
  | pop t => exact .inl ((effect_pop hs).logs.2 ▸ hr)
  | run t spurious => exact .inl ((effect_run h hf hs).logs.2 ▸ hr)
  | ret t =>
    simp only [step] at hs
    split at hs
    case h_3 pos out hop =>
      cases hs
      obtain hr | hr := List.mem_append.mp hr
      · exact .inl hr
      · cases List.mem_singleton.mp hr
        exact .inr hop
    case h_5 => cases hs
    all_goals
      cases hs
      exact .inl hr

theorem recycled_step (h : s.Inv c) (hf : s.Fresh e) (hs : s.step c e = some s')
    (hr : Recycled c s) : Recycled c s' := by
  have hmono := sequence_step h hf hs
  refine ⟨fun t pos out hop => ?_, fun r hmem => ?_⟩
  · by_cases ht : e.thread = t
    · subst ht
      cases e with
      | push t v =>
        simp only [step] at hs
        split at hs
        · cases hs
          cases (goto_self _).symm.trans hop
        · cases hs
      | pop t =>
        simp only [step] at hs
        split at hs
        · cases hs
          cases (goto_self _).symm.trans hop
        · cases hs
      | run t spurious => exact (popDone_run hs hop).2.ge
      | ret t => cases (ops_of_ret hs).1.symm.trans hop
    · exact (hr.ops t pos out ((ops_of_thread_ne hs ht).symm.trans hop)).trans (hmono _)
  · obtain hmem | hop := mem_popped_step h hf hs hmem
    · exact (hr.popped r hmem).trans (hmono _)
    · exact (hr.ops _ _ _ hop).trans (hmono _)

end steps

/-! ## Loads that fail -/

variable {p pos : ℕ}

theorem Inv.writing_of_given (h : s.Inv c) (hg : (s.ops t).given = some p) (hn : ¬s.Published c p) :
    (s.ops t).writing = some p := by
  have hok := h.ops t
  cases hop : s.ops t with
  | pushValue v pos | pushStore v pos =>
    rw [hop] at hg
    exact hg
  | pushDone v pos =>
    rw [hop] at hg hok
    cases hg
    exact absurd hok.2 hn
  | _ =>
    rw [hop] at hg
    cases hg

theorem Inv.published_or_writing (h : s.Inv c) (hp : p < s.enqueuePos) :
    s.Published c p ∨ ∃ t, (s.ops t).writing = some p := by
  by_cases hn : s.Published c p
  · exact .inl hn
  · obtain ⟨t, ht⟩ := h.exists_given hp hn
    exact .inr ⟨t, h.writing_of_given ht hn⟩

theorem Inv.recycled_or_reading (h : s.Inv c) (hr : Recycled c s) (hp : p < s.dequeuePos) :
    p + c.val ≤ s.sequence (c.cell p) ∨ ∃ t, (s.ops t).reading = some p := by
  obtain hd | ⟨t, ht⟩ := h.taken.kept hp
  · obtain ⟨r, hmem, rfl⟩ := List.mem_map.mp hd
    exact .inl (hr.popped r hmem)
  · rw [Function.comp] at ht
    cases hop : s.ops t with
    | popValue pos | popStore pos out =>
      rw [hop] at ht
      exact .inr ⟨t, by rw [hop]; exact ht⟩
    | popDone pos out =>
      rw [hop] at ht
      cases ht
      exact .inl (hr.ops t p out hop)
    | _ =>
      rw [hop] at ht
      cases ht

/-- **A pop that fails**, with no push at its position, has met an empty queue. -/
theorem Inv.empty_of_load (h : s.Inv c) (hop : s.ops t = .popSequence pos)
    (hneg : difference (s.sequence (c.cell pos)) (pos + 1) < 0) (hfar : s.dequeuePos + c.val ≤ pos + 2 ^ 63)
    (hno : ∀ t', (s.ops t').writing ≠ some pos) : s.Empty := by
  have hpos : pos ≤ s.dequeuePos := by
    have := h.ops t
    rwa [hop] at this
  have hbound := (h.sequence_bounds pos).2.2
  have hlt : s.sequence (c.cell pos) < pos + 1 := difference_neg hneg (by omega)
  have hall : s.enqueuePos ≤ pos := by
    by_contra hgt
    obtain hpub | ⟨t', ht'⟩ := h.published_or_writing (Nat.lt_of_not_le hgt)
    · exact absurd hpub (by unfold Published; omega)
    · exact hno t' ht'
  intro r hr
  have := h.given.done_lt (List.mem_map_of_mem hr)
  omega

/-- **A push that fails**, with no thread between its claim and its store, has met a full queue. -/
theorem Inv.allFull_of_load (h : s.Inv c) (hr : Recycled c s) {v : T} (hop : s.ops t = .pushSequence v pos)
    (hneg : difference (s.sequence (c.cell pos)) pos < 0) (hfar : s.enqueuePos + c.val ≤ pos + 2 ^ 63)
    (hread : ∀ t' p, (s.ops t').reading = some p → p + c.val ≠ pos)
    (hwrite : s.dequeuePos + c.val ≤ pos → ∀ t', (s.ops t').writing = none) : AllFull c s := by
  have hpos : pos ≤ s.enqueuePos := by
    have := h.ops t
    rw [hop] at this
    exact this.2
  have hle := h.le
  have hroom := h.room
  have htwo := c.two_le_val
  have hlt : s.sequence (c.cell pos) < pos := by
    refine difference_neg hneg ?_
    obtain ⟨-, -, hlt⟩ | ⟨p, hp, -, hlt, -, -⟩ := h.cells _ (c.cell_lt pos) <;> omega
  -- all cells have been claimed for pushes, and none for a pop
  have hfull : pos = s.enqueuePos ∧ s.dequeuePos + c.val = s.enqueuePos := by
    obtain ⟨hcell, hd, -⟩ | ⟨p, hp, hcell, -, hround, -⟩ := h.cells _ (c.cell_lt pos)
    · have := c.add_val_le hcell hlt
      omega
    · have hnext := c.add_val_le hcell (show p < pos by omega)
      refine ⟨by omega, ?_⟩
      by_contra hne
      obtain hrec | ⟨t', ht'⟩ := h.recycled_or_reading hr (show p < s.dequeuePos by omega)
      · rw [hcell] at hrec
        omega
      · exact hread t' p ht' (by omega)
  intro i hi
  obtain ⟨q, hq, hlt', hcell⟩ := c.exists_cell s.dequeuePos hi
  refine ⟨q, by omega, hcell, hq, ?_⟩
  obtain hpub | ⟨t', ht'⟩ := h.published_or_writing (show q < s.enqueuePos by omega)
  · exact hpub
  · rw [hwrite (by omega) t'] at ht'
    cases ht'

/-! ## Calls that fail -/

section runs

variable [DecidableEq ι]

/-- At some instant since the call that the thread is in began, `P` held. -/
def SinceCall (c : Capacity) (es : List (Event ι T)) (t : ι) (P : MpmcQueue ι T → Prop) : Prop :=
  ∃ es₁ es₂ s₁, es = es₁ ++ es₂ ∧ Run.Exec (step c) (fun _ _ => True) {} es₁ s₁ ∧ s₁.ops t ≠ .idle ∧
    Event.ret t ∉ es₂ ∧ P s₁

def FailingLoad (c : Capacity) (s : MpmcQueue ι T) (t : ι) (op : Op T) : Prop :=
  (op = .popEmpty ∧ ∃ pos, s.ops t = .popSequence pos ∧ difference (s.sequence (c.cell pos)) (pos + 1) < 0) ∨
    ∃ v, op = .pushFull v ∧ ∃ pos, s.ops t = .pushSequence v pos ∧ difference (s.sequence (c.cell pos)) pos < 0

theorem failed_run {spurious : Bool} (hs : s.run c t spurious = some s') (h : (s'.ops t).failed = true) :
    FailingLoad c s t (s'.ops t) := by
  unfold MpmcQueue.run at hs
  cases hop : s.ops t with
  | pushSequence v pos =>
    rw [hop] at hs
    cases hs
    rw [goto_self] at h ⊢
    split_ifs at h ⊢ with hz hneg
    · cases h
    · exact .inr ⟨v, rfl, pos, hop, hneg⟩
    · cases h
  | popSequence pos =>
    rw [hop] at hs
    cases hs
    rw [goto_self] at h ⊢
    split_ifs at h ⊢ with hz hneg
    · cases h
    · exact .inl ⟨rfl, pos, hop, hneg⟩
    · cases h
  | pushExchange v pos | popExchange pos =>
    rw [hop] at hs
    dsimp only at hs
    split_ifs at hs
    · cases hs
      cases (congrArg Op.failed (goto_self _)).symm.trans h
    · cases hs
      cases (congrArg Op.failed (goto_self _)).symm.trans h
  | pushLoad v | pushValue v pos | pushStore v pos | popLoad | popValue pos | popStore pos out =>
    rw [hop] at hs
    cases hs
    cases (congrArg Op.failed (goto_self _)).symm.trans h
  | _ =>
    rw [hop] at hs
    cases hs

theorem failed_step {e : Event ι T} (hs : s.step c e = some s') (h : (s'.ops t).failed = true) :
    (s'.ops t = s.ops t ∧ e ≠ .ret t) ∨ ∃ spurious, e = .run t spurious ∧ FailingLoad c s t (s'.ops t) := by
  by_cases ht : e.thread = t
  · subst ht
    cases e with
    | push t v | pop t =>
      simp only [step] at hs
      split at hs
      · cases hs
        cases (congrArg Op.failed (goto_self _)).symm.trans h
      · cases hs
    | run t spurious => exact .inr ⟨spurious, rfl, failed_run hs h⟩
    | ret t => cases (congrArg Op.failed (ops_of_ret hs).1).symm.trans h
  · refine .inl ⟨ops_of_thread_ne hs ht, ?_⟩
    rintro rfl
    exact ht rfl

variable {P : MpmcQueue ι T → Prop} {es : List (Event ι T)}

theorem sinceCall_of_failed {C : MpmcQueue ι T → Event ι T → Prop} {op : Op T}
    (hop : op.failed = true) (h : Run.Exec (step c) C {} es s)
    (hP : ∀ es s₁ spurious, Run.Exec (step c) C {} es s₁ → C s₁ (.run t spurious) → FailingLoad c s₁ t op → P s₁)
    (ht : s.ops t = op) : SinceCall c es t P := by
  refine Run.Exec.snoc_induction (P := fun es s => s.ops t = op → SinceCall c es t P) ?_ ?_ h ht
  · rintro rfl
    cases hop
  · intro es s e s' hx hc hs ih ht
    obtain ⟨hsame, hne⟩ | ⟨spurious, rfl, hload⟩ := failed_step hs (by rw [ht]; exact hop)
    · obtain ⟨es₁, es₂, s₁, rfl, hx1, hcall, hret, hp⟩ := ih (hsame.symm.trans ht)
      refine ⟨es₁, es₂ ++ [_], s₁, List.append_assoc .., hx1, hcall, ?_, hp⟩
      simp only [List.mem_append, List.mem_singleton, not_or]
      exact ⟨hret, hne.symm⟩
    · rw [ht] at hload
      refine ⟨_, [_], _, rfl, hx.mono fun _ _ _ => trivial, ?_, by simp, hP _ _ _ hx hc hload⟩
      obtain ⟨-, pos, hat, -⟩ | ⟨v, -, pos, hat, -⟩ := hload
      · rw [hat]
        exact nofun
      · rw [hat]
        exact nofun

/-- **What failures mean.** In every run whose loads are not hindered, a failing `try_pop` has met an instant without
completed items in the queue, and a failing `try_push` one with an item in every cell. -/
theorem failure_meaning {es : List (Event ι T)} {s : MpmcQueue ι T}
    (h : Run.Exec (step c) (fun s e => s.Fresh e ∧ Unhindered c s e) {} es s) :
    (∀ t, s.ops t = .popEmpty → SinceCall c es t Empty) ∧
      ∀ t v, s.ops t = .pushFull v → SinceCall c es t (AllFull c) := by
  have hinv : ∀ {es : List (Event ι T)} {s : MpmcQueue ι T},
      Run.Exec (step c) (fun s e => s.Fresh e ∧ Unhindered c s e) {} es s → s.Inv c ∧ Recycled c s := fun hx =>
    hx.inv (I := fun s => s.Inv c ∧ Recycled c s)
      (fun _ _ _ hc hs hi => ⟨inv_step hc.1 hs hi.1, recycled_step hi.1 hc.1 hs hi.2⟩)
      ⟨inv_start c, recycled_start c⟩
  refine ⟨fun t ht => sinceCall_of_failed rfl h (fun es s₁ spurious hx hc hload => ?_) ht,
    fun t v ht => sinceCall_of_failed rfl h (fun es s₁ spurious hx hc hload => ?_) ht⟩
  · obtain ⟨-, pos, hat, hneg⟩ | ⟨v, hv, -⟩ := hload
    · have hun := hc.2
      rw [Unhindered, hat] at hun
      exact (hinv hx).1.empty_of_load hat hneg hun.1 hun.2
    · cases hv
  · obtain ⟨hv, -⟩ | ⟨w, -, pos, hat, hneg⟩ := hload
    · cases hv
    · have hun := hc.2
      rw [Unhindered, hat] at hun
      exact (hinv hx).1.allFull_of_load (hinv hx).2 hat hneg hun.1 hun.2.1 hun.2.2

/-- A `try_pop` on a new queue, and a `try_push` behind two others. -/
theorem failure_meaning_new :
    (∃ es, ∃ s : MpmcQueue (Fin 2) ℕ,
      Run.Exec (step twoCells) (fun s e => s.Fresh e ∧ Unhindered twoCells s e) {} es s ∧ s.ops 0 = .popEmpty ∧
        SinceCall twoCells es 0 Empty) ∧
    ∃ es, ∃ s : MpmcQueue (Fin 2) ℕ,
      Run.Exec (step twoCells) (fun s e => s.Fresh e ∧ Unhindered twoCells s e) {} es s ∧ s.ops 1 = .pushFull 9 ∧
        SinceCall twoCells es 1 (AllFull twoCells) := by
  have h1 : (Run.runChecked (step twoCells) (fun s e => s.Fresh e ∧ Unhindered twoCells s e)
      ({} : MpmcQueue (Fin 2) ℕ) [.pop 0, .run 0 false, .run 0 false]).map (fun s => s.ops 0) = some .popEmpty := by
    decide
  have h2 : (Run.runChecked (step twoCells) (fun s e => s.Fresh e ∧ Unhindered twoCells s e)
      ({} : MpmcQueue (Fin 2) ℕ)
      [.push 0 7, .run 0 false, .run 0 false, .run 0 false, .run 0 false, .run 0 false, .ret 0,
        .push 0 8, .run 0 false, .run 0 false, .run 0 false, .run 0 false, .run 0 false, .ret 0,
        .push 1 9, .run 1 false, .run 1 false]).map (fun s => s.ops 1) = some (.pushFull 9) := by
    decide
  obtain ⟨s₁, hx1, hop1⟩ := Run.exists_exec h1
  obtain ⟨s₂, hx2, hop2⟩ := Run.exists_exec h2
  exact ⟨⟨_, s₁, hx1, hop1, (failure_meaning hx1).1 0 hop1⟩, _, s₂, hx2, hop2, (failure_meaning hx2).2 1 9 hop2⟩

/-! ## A thread that sleeps behind its claim -/

/-- Whether `P` failed at all instants since the call of the thread began. -/
def neverSince (c : Capacity) (es : List (Event ι T)) (t : ι) (P : MpmcQueue ι T → Prop) [DecidablePred P]
    [DecidableEq T] : Bool :=
  (List.range (es.length + 1)).all fun k =>
    (Run.runChecked (step c) (fun _ _ => True) {} (es.take k)).all fun s =>
      decide (s.ops t = .idle ∨ .ret t ∈ es.drop k ∨ ¬P s)

theorem not_sinceCall [DecidableEq T] [DecidablePred P]
    (h : neverSince c es t P = true) : ¬SinceCall c es t P := by
  rintro ⟨es₁, es₂, s₁, rfl, hx, hcall, hret, hp⟩
  have hk := List.all_eq_true.mp h es₁.length (List.mem_range.mpr (by rw [List.length_append]; omega))
  rw [List.take_left, List.drop_left, hx.runChecked_eq, Option.all_some, decide_eq_true_eq] at hk
  obtain hk | hk | hk := hk
  · exact hcall hk
  · exact hret hk
  · exact hk hp

end runs

/-- A push that sleeps behind its claim hides the item of another push; a pop that does keeps a push out. -/
theorem failure_misleads :
    (∃ es, ∃ s : MpmcQueue (Fin 3) ℕ, Run.Exec (step twoCells) Fresh {} es s ∧ s.ops 2 = .popEmpty ∧
        ¬SinceCall twoCells es 2 Empty) ∧
      ∃ es, ∃ s : MpmcQueue (Fin 3) ℕ, Run.Exec (step twoCells) Fresh {} es s ∧ s.ops 2 = .pushFull 9 ∧
        ¬SinceCall twoCells es 2 (AllFull twoCells) := by
  constructor
  · have h : (Run.runChecked (step twoCells) Fresh ({} : MpmcQueue (Fin 3) ℕ)
        [.push 0 7, .run 0 false, .run 0 false, .run 0 false, .push 1 8, .run 1 false, .run 1 false, .run 1 false,
          .run 1 false, .run 1 false, .ret 1, .pop 2, .run 2 false, .run 2 false]).map (fun s => s.ops 2) =
        some .popEmpty := by
      decide
    obtain ⟨s, hx, hop⟩ := Run.exists_exec h
    exact ⟨_, s, hx, hop, not_sinceCall (by decide)⟩
  · have h : (Run.runChecked (step twoCells) Fresh ({} : MpmcQueue (Fin 3) ℕ)
        [.push 0 7, .run 0 false, .run 0 false, .run 0 false, .run 0 false, .run 0 false, .ret 0,
          .push 0 8, .run 0 false, .run 0 false, .run 0 false, .run 0 false, .run 0 false, .ret 0,
          .pop 0, .run 0 false, .run 0 false, .run 0 false,
          .pop 1, .run 1 false, .run 1 false, .run 1 false, .run 1 false, .run 1 false, .ret 1,
          .push 2 9, .run 2 false, .run 2 false]).map (fun s => s.ops 2) = some (.pushFull 9) := by
      decide
    obtain ⟨s, hx, hop⟩ := Run.exists_exec h
    exact ⟨_, s, hx, hop, not_sinceCall (by decide)⟩

end MpmcQueue

end Nhttp.Async
