import Mathlib

/-!
# Writing with short counts

* `Writable`: something that takes some beginning of what it is offered, possibly nothing, or throws.
* `writeLoop`, `writeEach`: offer what is left until everything is taken, for one buffer or several.
* `Stalls`: the stream comes to take nothing, however often it is offered.
* **`ends_iff`**: the loop ends after finitely many calls exactly when the stream does not stall.
-/

namespace Writing

/-- A stream: `write` takes that many elements off the front of what it is offered, or throws (`none`). -/
class Writable (σ : Type) (α : outParam Type) where
  write : σ → List α → Option ℕ × σ
  write_le : ∀ s xs k, (write s xs).1 = some k → k ≤ xs.length

variable {σ α : Type} [Writable σ α]

/-- `while (written < n) written += write(p + written, n - written)`, with at most so many calls. -/
def writeLoop (data : List α) : ℕ → ℕ → σ → Option (Bool × σ)
  | 0, written, s => if written < data.length then none else some (true, s)
  | fuel + 1, written, s =>
    if written < data.length then
      match Writable.write s (data.drop written) with
      | (none, s') => some (false, s')
      | (some k, s') => writeLoop data fuel (written + k) s'
    else some (true, s)

/-- Several buffers in turn, the first of which is already written up to `written`. -/
def writeEach (fuel : ℕ) : List (List α) → ℕ → σ → Option (Bool × σ)
  | [], _, s => some (true, s)
  | xs :: bufs, written, s =>
    match writeLoop xs fuel written s with
    | none => none
    | some (false, s') => some (false, s')
    | some (true, s') => writeEach fuel bufs 0 s'

/-- Finitely many calls are enough. -/
def Ends {ρ : Type} (run : ℕ → Option ρ) : Prop := ∃ fuel, (run fuel).isSome

/-- Whenever `ys` is offered, nothing of it is taken. -/
def Refuses (s : σ) (ys : List α) : Prop :=
  ∀ j, (Writable.write ((fun s => (Writable.write s ys).2)^[j] s) ys).1 = some 0

/-- The buffers are offered in turn, and before everything is taken the stream refuses what is left. -/
inductive Stalls : List (List α) → ℕ → σ → Prop
  | refuses {xs : List α} {bufs : List (List α)} {written : ℕ} {s : σ} : written < xs.length →
      Refuses s (xs.drop written) → Stalls (xs :: bufs) written s
  | call {xs : List α} {bufs : List (List α)} {written k : ℕ} {s s' : σ} : written < xs.length →
      Writable.write s (xs.drop written) = (some k, s') → Stalls (xs :: bufs) (written + k) s' →
      Stalls (xs :: bufs) written s
  | next {xs : List α} {bufs : List (List α)} {written : ℕ} {s : σ} : xs.length ≤ written →
      Stalls bufs 0 s → Stalls (xs :: bufs) written s

/-! ## More calls -/

section loop

variable {xs : List α} {bufs : List (List α)} {fuel written k : ℕ} {s s' : σ} {r : Bool × σ}

theorem writeLoop_of_le (h : xs.length ≤ written) : writeLoop xs fuel written s = some (true, s) := by
  cases fuel <;> exact if_neg (Nat.not_lt.mpr h)

theorem writeLoop_call (h : written < xs.length) (hw : Writable.write s (xs.drop written) = (some k, s')) :
    writeLoop xs (fuel + 1) written s = writeLoop xs fuel (written + k) s' := by
  rw [writeLoop, if_pos h, hw]

theorem writeLoop_throw (h : written < xs.length) (hw : Writable.write s (xs.drop written) = (none, s')) :
    writeLoop xs (fuel + 1) written s = some (false, s') := by
  rw [writeLoop, if_pos h, hw]

theorem writeLoop_succ (h : writeLoop xs fuel written s = some r) :
    writeLoop xs (fuel + 1) written s = some r := by
  induction fuel generalizing written s with
  | zero =>
    rw [writeLoop] at h
    split_ifs at h with hw
    rw [writeLoop, if_neg hw, h]
  | succ fuel ih =>
    by_cases hw : written < xs.length
    · rcases hc : Writable.write s (xs.drop written) with ⟨k | k, s'⟩
      · rw [writeLoop_throw hw hc] at h ⊢
        exact h
      · rw [writeLoop_call hw hc] at h ⊢
        exact ih h
    · rw [writeLoop_of_le (Nat.not_lt.mp hw)] at h ⊢
      exact h

theorem writeLoop_mono {fuel' : ℕ} (hle : fuel ≤ fuel') (h : writeLoop xs fuel written s = some r) :
    writeLoop xs fuel' written s = some r := by
  induction hle with
  | refl => exact h
  | step _ ih => exact writeLoop_succ ih

theorem writeEach_mono {fuel' : ℕ} (hle : fuel ≤ fuel') (h : writeEach fuel bufs written s = some r) :
    writeEach fuel' bufs written s = some r := by
  induction bufs generalizing written s with
  | nil => exact h
  | cons xs bufs ih =>
    rw [writeEach] at h
    rcases hl : writeLoop xs fuel written s with _ | ⟨_ | _, s₁⟩ <;> rw [hl] at h
    · cases h
    · rw [writeEach, writeLoop_mono hle hl]
      exact h
    · rw [writeEach, writeLoop_mono hle hl]
      exact ih h

/-! ## One call of the loop -/

theorem ends_cons : Ends (writeEach · (xs :: bufs) written s) ↔
    ∃ fuel r, writeLoop xs fuel written s = some r ∧ (r.1 = true → Ends (writeEach · bufs 0 r.2)) := by
  constructor
  · rintro ⟨fuel, hf⟩
    simp only [writeEach] at hf
    rcases hl : writeLoop xs fuel written s with _ | ⟨_ | _, s₁⟩ <;> rw [hl] at hf
    · cases hf
    · exact ⟨fuel, _, hl, fun h => by cases h⟩
    · exact ⟨fuel, _, hl, fun _ => ⟨fuel, hf⟩⟩
  · rintro ⟨fuel, ⟨ok, s₁⟩, hl, hrest⟩
    cases ok with
    | false =>
      refine ⟨fuel, ?_⟩
      simp only [writeEach, hl]
      rfl
    | true =>
      obtain ⟨fuel', hf⟩ := hrest rfl
      obtain ⟨r, hr⟩ := Option.isSome_iff_exists.mp hf
      refine ⟨max fuel fuel', ?_⟩
      simp only [writeEach, writeLoop_mono (Nat.le_max_left fuel fuel') hl,
        writeEach_mono (Nat.le_max_right fuel fuel') hr]
      rfl

theorem ends_of_le (h : xs.length ≤ written) :
    Ends (writeEach · (xs :: bufs) written s) ↔ Ends (writeEach · bufs 0 s) := by
  rw [ends_cons]
  constructor
  · rintro ⟨fuel, r, hl, hrest⟩
    rw [writeLoop_of_le h] at hl
    cases hl
    exact hrest rfl
  · exact fun hrest => ⟨0, _, writeLoop_of_le h, fun _ => hrest⟩

theorem ends_of_throw (h : written < xs.length) (hw : Writable.write s (xs.drop written) = (none, s')) :
    Ends (writeEach · (xs :: bufs) written s) :=
  ends_cons.mpr ⟨1, _, writeLoop_throw h hw, fun h => by cases h⟩

theorem ends_call (h : written < xs.length) (hw : Writable.write s (xs.drop written) = (some k, s')) :
    Ends (writeEach · (xs :: bufs) written s) ↔ Ends (writeEach · (xs :: bufs) (written + k) s') := by
  rw [ends_cons, ends_cons]
  constructor
  · rintro ⟨fuel, r, hl, hrest⟩
    refine ⟨fuel, r, ?_, hrest⟩
    have hmore := writeLoop_succ hl
    rwa [writeLoop_call h hw] at hmore
  · rintro ⟨fuel, r, hl, hrest⟩
    exact ⟨fuel + 1, r, (writeLoop_call h hw).trans hl, hrest⟩

/-! ## Streams that refuse -/

theorem Refuses.write {ys : List α} (h : Refuses s ys) :
    ∃ s', Writable.write s ys = (some 0, s') ∧ Refuses s' ys :=
  ⟨_, Prod.ext (h 0) rfl, fun j => by
    have := h (j + 1)
    rwa [Function.iterate_succ_apply] at this⟩

theorem not_ends_of_refuses (hlt : written < xs.length) (h : Refuses s (xs.drop written)) :
    ¬Ends (writeEach · (xs :: bufs) written s) := by
  rw [ends_cons]
  rintro ⟨fuel, r, hl, -⟩
  induction fuel generalizing s with
  | zero =>
    rw [writeLoop, if_pos hlt] at hl
    cases hl
  | succ fuel ih =>
    obtain ⟨s', hw, h'⟩ := h.write
    rw [writeLoop_call hlt hw] at hl
    exact ih h' hl

/-- If it does not refuse, then it throws or takes something, after some calls for nothing. -/
theorem ends_of_not_refuses (hlt : written < xs.length) (h : ¬Refuses s (xs.drop written))
    (hrest : ∀ (k : ℕ) (s' : σ), 0 < k → (Stalls (xs :: bufs) (written + k) s' → Stalls (xs :: bufs) written s) →
      Ends (writeEach · (xs :: bufs) (written + k) s')) :
    Ends (writeEach · (xs :: bufs) written s) := by
  unfold Refuses at h
  push Not at h
  obtain ⟨j, hj⟩ := h
  induction j generalizing s with
  | zero =>
    rcases hw : Writable.write s (xs.drop written) with ⟨_ | k, s'⟩
    · exact ends_of_throw hlt hw
    · refine (ends_call hlt hw).mpr (hrest k s' ?_ (.call hlt hw))
      refine Nat.pos_of_ne_zero ?_
      rintro rfl
      exact hj (congrArg Prod.fst hw)
  | succ j ih =>
    rcases hw : Writable.write s (xs.drop written) with ⟨_ | k, s'⟩
    · exact ends_of_throw hlt hw
    · refine (ends_call hlt hw).mpr ?_
      obtain rfl | hk := Nat.eq_zero_or_pos k
      · refine ih (fun k s'' hk hst => hrest k s'' hk fun h => .call hlt hw (hst h)) ?_
        rwa [Function.iterate_succ_apply, hw] at hj
      · exact hrest k s' hk (.call hlt hw)

/-- **The loop ends exactly when the stream does not stall.** -/
theorem ends_iff : Ends (writeEach · bufs written s) ↔ ¬Stalls bufs written s := by
  constructor
  · intro he hs
    induction hs with
    | refuses hlt h => exact not_ends_of_refuses hlt h he
    | call hlt hw _ ih => exact ih ((ends_call hlt hw).mp he)
    | next hle _ ih => exact ih ((ends_of_le hle).mp he)
  · -- each buffer is done after finitely many calls that take something
    induction bufs generalizing written s with
    | nil => exact fun _ => ⟨0, rfl⟩
    | cons xs bufs ih =>
      induction hn : xs.length - written using Nat.strongRecOn generalizing written s with
      | ind n ihn =>
        intro hs
        by_cases hlt : written < xs.length
        · refine ends_of_not_refuses hlt (fun h => hs (.refuses hlt h)) fun k s' hk hst => ?_
          exact ihn _ (by omega) rfl fun h => hs (hst h)
        · rw [ends_of_le (Nat.not_lt.mp hlt)]
          exact ih fun h => hs (.next (Nat.not_lt.mp hlt) h)

theorem writeLoop_ends_iff : Ends (writeLoop xs · 0 s) ↔ ¬Stalls [xs] 0 s := by
  rw [← ends_iff, ends_cons]
  constructor
  · rintro ⟨fuel, hf⟩
    obtain ⟨r, hr⟩ := Option.isSome_iff_exists.mp hf
    exact ⟨fuel, r, hr, fun _ => ⟨0, rfl⟩⟩
  · rintro ⟨fuel, r, hr, -⟩
    exact ⟨fuel, Option.isSome_iff_exists.mpr ⟨r, hr⟩⟩

end loop

end Writing
