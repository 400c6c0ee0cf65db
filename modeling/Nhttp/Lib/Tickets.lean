import Mathlib

/-!
# Tickets

Tickets are numbered in the order in which they are issued. A party holds at most one, and hands it in
when it is done.

* `Tickets n hand done`: `n` are issued, `hand` says who holds which, `done` has been handed in.
* `Tickets.issue`, `Tickets.finish`: both operations keep the tickets apart.
* `Tickets.exists_one`: every ticket is in exactly one place.
-/

variable {ι : Type}

/-- Every ticket below `n` is in one hand or has been handed in once. -/
structure Tickets (n : ℕ) (hand : ι → Option ℕ) (done : List ℕ) : Prop where
  lt : ∀ {i p}, hand i = some p → p < n
  done_lt : ∀ {p}, p ∈ done → p < n
  alone : ∀ {i j p}, hand i = some p → hand j = some p → i = j
  held : ∀ {i p}, hand i = some p → p ∉ done
  nodup : done.Nodup
  kept : ∀ {p}, p < n → p ∈ done ∨ ∃ i, hand i = some p

namespace Tickets

open Function

variable {n : ℕ} {hand : ι → Option ℕ} {done : List ℕ}

theorem start : Tickets 0 (fun _ : ι => none) [] where
  lt h := by cases h
  done_lt h := by cases h
  alone h := by cases h
  held h := by cases h
  nodup := List.nodup_nil
  kept h := absurd h (Nat.not_lt_zero _)

section Operations

variable [DecidableEq ι]

theorem issue (h : Tickets n hand done) {i : ι} (hi : hand i = none) :
    Tickets (n + 1) (update hand i (some n)) done := by
  have hcases : ∀ {j p}, update hand i (some n) j = some p →
      (j = i ∧ p = n) ∨ (j ≠ i ∧ hand j = some p) := by
    intro j p hj
    by_cases hji : j = i
    · subst hji
      rw [update_self] at hj
      exact .inl ⟨rfl, (Option.some.inj hj).symm⟩
    · rw [update_of_ne hji] at hj
      exact .inr ⟨hji, hj⟩
  refine ⟨fun hj => ?_, fun hp => Nat.lt_succ_of_lt (h.done_lt hp), fun hj hk => ?_, fun hj hp => ?_,
    h.nodup, fun {p} hp => ?_⟩
  · rcases hcases hj with ⟨_, rfl⟩ | ⟨_, hj⟩
    · exact Nat.lt_succ_self _
    · exact Nat.lt_succ_of_lt (h.lt hj)
  · rcases hcases hj with ⟨hji, hpn⟩ | ⟨_, hj'⟩ <;> rcases hcases hk with ⟨hki, hpn'⟩ | ⟨_, hk'⟩
    · rw [hji, hki]
    · exact absurd (hpn ▸ h.lt hk') (Nat.lt_irrefl _)
    · exact absurd (hpn' ▸ h.lt hj') (Nat.lt_irrefl _)
    · exact h.alone hj' hk'
  · rcases hcases hj with ⟨_, rfl⟩ | ⟨_, hj⟩
    · exact absurd (h.done_lt hp) (Nat.lt_irrefl _)
    · exact h.held hj hp
  · rcases Nat.lt_succ_iff_lt_or_eq.mp hp with hlt | rfl
    · refine (h.kept hlt).imp_right ?_
      rintro ⟨j, hj⟩
      refine ⟨j, ?_⟩
      rw [update_of_ne, hj]
      rintro rfl
      rw [hi] at hj
      cases hj
    · exact .inr ⟨i, update_self ..⟩

theorem finish (h : Tickets n hand done) {i : ι} {p : ℕ} (hi : hand i = some p) :
    Tickets n (update hand i none) (done ++ [p]) := by
  have hcases : ∀ {j q}, update hand i none j = some q → j ≠ i ∧ hand j = some q := by
    intro j q hj
    by_cases hji : j = i
    · subst hji
      rw [update_self] at hj
      cases hj
    · rw [update_of_ne hji] at hj
      exact ⟨hji, hj⟩
  refine ⟨fun hj => h.lt (hcases hj).2, fun {q} hq => ?_, fun hj hk => h.alone (hcases hj).2 (hcases hk).2,
    fun hj hq => ?_, ?_, fun {q} hq => ?_⟩
  · rcases List.mem_append.mp hq with hq | hq
    · exact h.done_lt hq
    · rw [List.mem_singleton.mp hq]
      exact h.lt hi
  · obtain ⟨hne, hj⟩ := hcases hj
    rcases List.mem_append.mp hq with hq | hq
    · exact h.held hj hq
    · rw [List.mem_singleton.mp hq] at hj
      exact hne (h.alone hj hi)
  · rw [List.nodup_append]
    refine ⟨h.nodup, List.nodup_singleton p, ?_⟩
    rintro a ha b hb rfl
    rw [List.mem_singleton.mp hb] at ha
    exact h.held hi ha
  · rcases h.kept hq with hd | ⟨j, hj⟩
    · exact .inl (List.mem_append_left _ hd)
    · by_cases hji : j = i
      · subst hji
        rw [hi] at hj
        cases hj
        exact .inl (List.mem_append_right _ (List.mem_singleton_self p))
      · exact .inr ⟨j, by rw [update_of_ne hji, hj]⟩

end Operations

/-- **A ticket is in one place**: it has been handed in, or one party holds it. -/
theorem exists_one (h : Tickets n hand done) {p : ℕ} (hp : p < n) :
    (p ∈ done ∧ ∀ i, hand i ≠ some p) ∨ (p ∉ done ∧ ∃! i, hand i = some p) := by
  rcases h.kept hp with hd | ⟨i, hi⟩
  · exact .inl ⟨hd, fun i hi => h.held hi hd⟩
  · exact .inr ⟨h.held hi, i, hi, fun j hj => h.alone hj hi⟩

end Tickets
