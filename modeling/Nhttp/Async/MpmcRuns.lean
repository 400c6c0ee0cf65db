import Nhttp.Async.MpmcStep

/-!
# Runs of the queue

* **`delivered_once`**: what a `try_pop` returns is what the one `try_push` of its position was given, and
  no cell is accessed by two operations at once, unless a compare-exchange meets a counter that has gone
  round.
* `push_alone`, `pop_alone`: a call that nobody disturbs.
-/

namespace Nhttp.Async

open Function

namespace MpmcQueue

variable {ι T : Type} [DecidableEq ι]

/-- **Every value goes to one `try_pop`, and cells are not shared.** -/
theorem delivered_once {c : Capacity} {es : List (Event ι T)} {s : MpmcQueue ι T}
    (h : Run.Exec (step c) Fresh {} es s) :
    -- what a pop has returned was given to the push of its position, which has succeeded
    (∀ p x, (p, x) ∈ s.popped → ∃ v, s.pushes[p]? = some v ∧ x = some v ∧
        ((p, v) ∈ s.pushed ∨ ∃ t, s.ops t = .pushDone v p)) ∧
      -- a position belongs to one push
      (∀ p v, (p, v) ∈ s.pushed → s.pushes[p]? = some v) ∧
      (∀ p < s.pushes.length,
        (p ∈ s.pushed.map Prod.fst ∧ ∀ t, (s.ops t).given ≠ some p) ∨
          (p ∉ s.pushed.map Prod.fst ∧ ∃! t, (s.ops t).given = some p)) ∧
      (s.pushed.map Prod.fst).Nodup ∧
      -- no position is popped twice
      (s.popped.map Prod.fst).Nodup ∧
      (∀ t t' p q, t ≠ t' → (s.ops t).accesses = some p → (s.ops t').accesses = some q →
        c.cell p ≠ c.cell q) ∧
      -- a push that fails leaves its argument as it was
      ∀ v x, (v, x) ∈ s.refused → x = some v := by
  have hi : s.Inv c := h.inv (I := fun s => s.Inv c) (fun _ _ _ hf hs hi => inv_step hf hs hi) (inv_start c)
  refine ⟨fun p x hp => ?_, fun p v hp => (hi.pushed _ hp).1, fun p hp => ?_, hi.given.nodup,
    hi.taken.nodup, fun t t' p q hne hp hq => ?_, fun v x hx => hi.refused _ hx⟩
  · obtain ⟨hpub, v, hv, hx⟩ := hi.popped _ hp
    exact ⟨v, hv, hx, hi.pushed_or hv hpub⟩
  · exact hi.given.exists_one (hi.length ▸ hp)
  · exact hi.owns_ne hne (Op.owns_of_accesses hp) (Op.owns_of_accesses hq)

/-- One value goes through a queue of two cells. -/
theorem delivered_once_two_cells :
    ∃ es, ∃ s : MpmcQueue ℕ ℕ, Run.Exec (step ⟨1, by decide, by decide⟩) Fresh {} es s ∧
      s.popped = [(0, some 7)] ∧ s.refused = [] ∧ s.pushes[0]? = some 7 ∧
      ((0, 7) ∈ s.pushed ∨ ∃ t, s.ops t = .pushDone 7 0) := by
  have h : (Run.runChecked (step ⟨1, by decide, by decide⟩) Fresh ({} : MpmcQueue ℕ ℕ)
      [.push 0 7, .pop 1, .run 0 false, .run 1 false, .run 0 false, .run 0 true, .run 0 false, .run 0 false,
        .run 0 false, .run 0 false, .run 1 false, .run 1 false, .run 1 false, .run 1 false,
        .ret 1]).map (fun s => (s.popped, s.refused)) = some ([(0, some 7)], []) := by
    decide
  obtain ⟨s, hx, he⟩ := Run.exists_exec h
  have hpopped : s.popped = [(0, some 7)] := congrArg Prod.fst he
  obtain ⟨hpop, _⟩ := delivered_once hx
  obtain ⟨v, hv, hxv, hpush⟩ := hpop 0 (some 7) (hpopped ▸ List.mem_singleton_self _)
  cases hxv
  exact ⟨_, s, hx, hpopped, congrArg Prod.snd he, hv, hpush⟩

/-! ## A counter that goes round -/

section Alone

variable {c : Capacity} {s : MpmcQueue ι T} {t : ι}

theorem difference_self (a : ℕ) : difference a a = 0 := by
  simp [difference]

theorem push_alone (hop : s.ops t = .idle) (hseq : s.sequence (c.cell s.enqueuePos) = s.enqueuePos) (v : T) :
    ∃ es s', Run.Exec (step c) (fun _ _ => True) s es s' ∧ s'.ops = s.ops ∧
      s'.enqueuePos = s.enqueuePos + 1 ∧ s'.dequeuePos = s.dequeuePos ∧
      s'.sequence = update s.sequence (c.cell s.enqueuePos) (s.enqueuePos + 1) := by
  have hdiff : difference (s.sequence (c.cell s.enqueuePos)) s.enqueuePos = 0 := by
    rw [hseq, difference_self]
  have hidle : update s.ops t .idle = s.ops := by
    rw [← hop, update_eq_self]
  have hrun : Run.runChecked (step c) (fun _ _ => True) s
      [.push t v, .run t false, .run t false, .run t false, .run t false, .run t false, .ret t] =
        some { s with
          sequence := update s.sequence (c.cell s.enqueuePos) (s.enqueuePos + 1)
          value := update s.value (c.cell s.enqueuePos) (some v)
          enqueuePos := s.enqueuePos + 1
          arg := update s.arg t none
          pushes := s.pushes ++ [v]
          pushed := s.pushed ++ [(s.enqueuePos, v)] } := by
    simp [Run.runChecked, step, run, goto, hop, hdiff, SameWord, hidle]
  exact ⟨_, _, Run.exec_of_runChecked hrun, rfl, rfl, rfl, rfl⟩

theorem pop_alone (hop : s.ops t = .idle) (hseq : s.sequence (c.cell s.dequeuePos) = s.dequeuePos + 1) :
    ∃ es s', Run.Exec (step c) (fun _ _ => True) s es s' ∧ s'.ops = s.ops ∧
      s'.enqueuePos = s.enqueuePos ∧ s'.dequeuePos = s.dequeuePos + 1 ∧
      s'.sequence = update s.sequence (c.cell s.dequeuePos) (s.dequeuePos + c.val) := by
  have hdiff : difference (s.sequence (c.cell s.dequeuePos)) (s.dequeuePos + 1) = 0 := by
    rw [hseq, difference_self]
  have hidle : update s.ops t .idle = s.ops := by
    rw [← hop, update_eq_self]
  have hrun : Run.runChecked (step c) (fun _ _ => True) s
      [.pop t, .run t false, .run t false, .run t false, .run t false, .run t false, .ret t] =
        some { s with
          sequence := update s.sequence (c.cell s.dequeuePos) (s.dequeuePos + c.val)
          value := update s.value (c.cell s.dequeuePos) none
          dequeuePos := s.dequeuePos + 1
          popped := s.popped ++ [(s.dequeuePos, s.value (c.cell s.dequeuePos))] } := by
    simp [Run.runChecked, step, run, goto, hop, hdiff, SameWord, hidle, c.add_mask_add_one]
  exact ⟨_, _, Run.exec_of_runChecked hrun, rfl, rfl, rfl, rfl⟩

theorem push_to_exchange (hop : s.ops t = .idle)
    (hseq : s.sequence (c.cell s.enqueuePos) = s.enqueuePos) (v : T) :
    ∃ es s', Run.Exec (step c) (fun _ _ => True) s es s' ∧
      s'.ops = update s.ops t (.pushExchange v s.enqueuePos) ∧
      s'.enqueuePos = s.enqueuePos ∧ s'.dequeuePos = s.dequeuePos ∧ s'.sequence = s.sequence := by
  have hdiff : difference (s.sequence (c.cell s.enqueuePos)) s.enqueuePos = 0 := by
    rw [hseq, difference_self]
  have hrun : Run.runChecked (step c) (fun _ _ => True) s [.push t v, .run t false, .run t false] =
      some { s with
        ops := update s.ops t (.pushExchange v s.enqueuePos)
        arg := update s.arg t (some v) } := by
    simp [Run.runChecked, step, run, goto, hop, hdiff]
  exact ⟨_, _, Run.exec_of_runChecked hrun, rfl, rfl, rfl, rfl⟩

theorem pop_to_value (hop : s.ops t = .idle) (hseq : s.sequence (c.cell s.dequeuePos) = s.dequeuePos + 1) :
    ∃ es s', Run.Exec (step c) (fun _ _ => True) s es s' ∧
      s'.ops = update s.ops t (.popValue s.dequeuePos) ∧ s'.enqueuePos = s.enqueuePos := by
  have hdiff : difference (s.sequence (c.cell s.dequeuePos)) (s.dequeuePos + 1) = 0 := by
    rw [hseq, difference_self]
  have hrun : Run.runChecked (step c) (fun _ _ => True) s [.pop t, .run t false, .run t false, .run t false] =
      some { s with
        ops := update s.ops t (.popValue s.dequeuePos)
        dequeuePos := s.dequeuePos + 1 } := by
    simp [Run.runChecked, step, run, goto, hop, hdiff, SameWord]
  exact ⟨_, _, Run.exec_of_runChecked hrun, rfl, rfl⟩

/-- Nothing is in the queue; some threads may sleep in their calls. -/
structure AtRest (c : Capacity) (ops : ι → Op T) (n : ℕ) (s : MpmcQueue ι T) : Prop where
  ops : s.ops = ops
  enqueuePos : s.enqueuePos = n
  dequeuePos : s.dequeuePos = n
  free : ∀ i < c.val, s.Free c i

variable {ops : ι → Op T} {n : ℕ}

omit [DecidableEq ι] in
theorem AtRest.sequence_eq (h : AtRest c ops n s) {j : ℕ} (hj : n ≤ j) (hlt : j < n + c.val) :
    s.sequence (c.cell j) = j := by
  obtain ⟨hcell, hle, hlt'⟩ := h.free _ (c.cell_lt j)
  rw [h.dequeuePos] at hle hlt'
  rcases Nat.lt_trichotomy (s.sequence (c.cell j)) j with hlt'' | he | hgt
  · have := c.add_val_le hcell hlt''
    omega
  · exact he
  · have := c.add_val_le hcell.symm hgt
    omega

theorem AtRest.round (h : AtRest c ops n s) (hop : ops t = .idle) (v : T) :
    ∃ es s', Run.Exec (step c) (fun _ _ => True) s es s' ∧ AtRest c ops (n + 1) s' := by
  have htwo := c.two_le_val
  have hseq : s.sequence (c.cell s.enqueuePos) = s.enqueuePos := by
    rw [h.enqueuePos]
    exact h.sequence_eq (Nat.le_refl n) (by omega)
  obtain ⟨es₁, s₁, hx1, hops1, he1, hd1, hs1⟩ := push_alone (h.ops ▸ hop) hseq v
  rw [h.enqueuePos] at he1 hs1
  rw [h.dequeuePos] at hd1
  have hseq1 : s₁.sequence (c.cell s₁.dequeuePos) = s₁.dequeuePos + 1 := by
    rw [hd1, hs1, update_self]
  obtain ⟨es₂, s₂, hx2, hops2, he2, hd2, hs2⟩ := pop_alone (hops1 ▸ h.ops ▸ hop) hseq1
  rw [hd1] at hd2 hs2
  rw [hs1, update_idem] at hs2
  refine ⟨es₁ ++ es₂, s₂, hx1.append hx2, hops2.trans (hops1.trans h.ops), he2.trans he1, hd2, fun i hi => ?_⟩
  rw [Free, hs2, hd2]
  by_cases hcell : i = c.cell n
  · subst hcell
    rw [update_self]
    exact ⟨c.cell_add_val n, by omega, by omega⟩
  · rw [update_of_ne hcell]
    obtain ⟨hi', hle, hlt⟩ := h.free i hi
    rw [h.dequeuePos] at hle hlt
    have hne : s.sequence i ≠ n := by
      intro he
      rw [he] at hi'
      exact hcell hi'.symm
    exact ⟨hi', by omega, by omega⟩

theorem AtRest.rounds (h : AtRest c ops n s) (hop : ops t = .idle) (v : T) (k : ℕ) :
    ∃ es s', Run.Exec (step c) (fun _ _ => True) s es s' ∧ AtRest c ops (n + k) s' := by
  induction k with
  | zero => exact ⟨[], s, .nil s, h⟩
  | succ k ih =>
    obtain ⟨es₁, s₁, hx1, h1⟩ := ih
    obtain ⟨es₂, s₂, hx2, h2⟩ := h1.round hop v
    exact ⟨es₁ ++ es₂, s₂, hx1.append hx2, h2⟩

end Alone

/-- The smallest queue. -/
def twoCells : Capacity := ⟨1, by decide, by decide⟩

/-- A thread is about to claim position 0 while the counter goes round. -/
theorem exists_gone_round :
    ∃ es, ∃ s : MpmcQueue ℕ ℕ, Run.Exec (step twoCells) (fun _ _ => True) {} es s ∧
      s.ops = update (fun _ => .idle) 0 (.pushExchange 7 0) ∧ s.enqueuePos = 2 ^ 64 ∧
      s.dequeuePos = 2 ^ 64 - 2 ∧ s.sequence (twoCells.cell s.dequeuePos) = s.dequeuePos + 1 := by
  obtain ⟨es₀, s₀, hx0, hops0, he0, hd0, hs0⟩ :=
    push_to_exchange (c := twoCells) (s := ({} : MpmcQueue ℕ ℕ)) (t := 0) rfl rfl 7
  have hrest : AtRest twoCells (update (fun _ => .idle) 0 (.pushExchange 7 0)) 0 s₀ := by
    refine ⟨hops0, he0, hd0, fun i hi => ?_⟩
    rw [Free, hs0, hd0]
    exact ⟨twoCells.cell_of_lt hi, Nat.zero_le i, by simpa using hi⟩
  obtain ⟨es₁, s₁, hx1, h1⟩ := hrest.rounds (t := 1) rfl 8 (2 ^ 64 - 2)
  -- two more pushes fill the queue
  have hseq1 : s₁.sequence (twoCells.cell s₁.enqueuePos) = s₁.enqueuePos := by
    rw [h1.enqueuePos]
    exact h1.sequence_eq (Nat.le_refl _) (by decide)
  obtain ⟨es₂, s₂, hx2, hops2, he2, hd2, hs2⟩ := push_alone (t := 1) (by rw [h1.ops]; rfl) hseq1 9
  rw [h1.enqueuePos] at he2 hs2
  have hseq2 : s₂.sequence (twoCells.cell s₂.enqueuePos) = s₂.enqueuePos := by
    rw [he2, hs2, update_of_ne (twoCells.cell_succ_ne _)]
    exact h1.sequence_eq (Nat.le_succ _) (by decide)
  obtain ⟨es₃, s₃, hx3, hops3, he3, hd3, hs3⟩ := push_alone (t := 1) (by rw [hops2, h1.ops]; rfl) hseq2 10
  rw [he2] at he3 hs3
  rw [hd2, h1.dequeuePos] at hd3
  refine ⟨_, s₃, ((hx0.append hx1).append hx2).append hx3, hops3.trans (hops2.trans h1.ops), he3, hd3, ?_⟩
  rw [hd3, hs3, update_of_ne (twoCells.cell_succ_ne _).symm, hs2, update_self]

/-- A thread sleeps in front of its compare-exchange until the counter is at 0 again. -/
theorem accessed_twice :
    ∃ es, ∃ s : MpmcQueue ℕ ℕ, Run.Exec (step twoCells) (fun _ _ => True) {} es s ∧
      ∃ t t' p q, t ≠ t' ∧ (s.ops t).accesses = some p ∧ (s.ops t').accesses = some q ∧
        twoCells.cell p = twoCells.cell q := by
  obtain ⟨es₁, s₁, hx₁, hops₁, he₁, hd₁, hseq₁⟩ := exists_gone_round
  obtain ⟨es₂, s₂, hx₂, hops₂, he₂⟩ := pop_to_value (t := 2) (by rw [hops₁]; rfl) hseq₁
  rw [hops₁, hd₁] at hops₂
  rw [he₁] at he₂
  have hrun : Run.runChecked (step twoCells) (fun _ _ => True) s₂ [.run 0 false] =
      some { s₂.goto 0 (.pushValue 7 0) with
        enqueuePos := s₂.enqueuePos + 1
        pushes := s₂.pushes ++ [7] } := by
    have hop : s₂.ops 0 = .pushExchange 7 0 := by
      rw [hops₂]
      rfl
    have hword : SameWord s₂.enqueuePos 0 := by
      rw [he₂]
      decide
    simp [Run.runChecked, step, run, hop, hword]
  refine ⟨_, _, (hx₁.append hx₂).append (Run.exec_of_runChecked hrun), 0, 2, 0, 2 ^ 64 - 2, by decide, rfl,
    ?_, by decide⟩
  show (update s₂.ops 0 (.pushValue 7 0) 2).accesses = some (2 ^ 64 - 2)
  rw [hops₂]
  rfl

end MpmcQueue

end Nhttp.Async
