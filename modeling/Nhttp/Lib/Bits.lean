import Mathlib

/-!
# Bit strings, most significant bit first

* `msb n w`: the `w` low bits of `n`, most significant first; `msb_append`: shifting one number
  in under another concatenates their bit strings.
* `separated`: a decidable test for a list of words to be prefix-free, by splitting on the first
  bit (`prefixFree_of_separated`).
-/

namespace Bits

/-! ## The bits of a number -/

/-- The `w` low bits of `n`, most significant first. -/
def msb (n : ℕ) : ℕ → List Bool
  | 0 => []
  | w + 1 => n.testBit w :: msb n w

@[simp] theorem length_msb (n w : ℕ) : (msb n w).length = w := by
  induction w with
  | zero => rfl
  | succ w ih => simp [msb, ih]

theorem msb_congr {n m : ℕ} : ∀ {w : ℕ}, (∀ i < w, n.testBit i = m.testBit i) → msb n w = msb m w
  | 0, _ => rfl
  | w + 1, h => by
    rw [msb, msb, h w (Nat.lt_succ_self w), msb_congr fun i hi => h i (Nat.lt_succ_of_lt hi)]

theorem msb_add (n v w : ℕ) : msb n (v + w) = msb (n >>> w) v ++ msb n w := by
  induction v with
  | zero => simp [msb]
  | succ v ih =>
    rw [show v + 1 + w = (v + w) + 1 by omega, msb, ih, msb, List.cons_append,
      Nat.testBit_shiftRight, Nat.add_comm w v]

/-- **Shifting `c` in under `n` appends its bits.** -/
theorem msb_append (n c v w : ℕ) (hc : c < 2 ^ w) :
    msb (n <<< w ||| c) (v + w) = msb n v ++ msb c w := by
  rw [msb_add]
  congr 1
  · refine msb_congr fun i _ => ?_
    have : c.testBit (w + i) = false :=
      Nat.testBit_lt_two_pow (lt_of_lt_of_le hc (Nat.pow_le_pow_right (by norm_num) (by omega)))
    simp [Nat.testBit_shiftRight, Nat.testBit_or, Nat.testBit_shiftLeft, this]
  · refine msb_congr fun i hi => ?_
    simp [Nat.testBit_or, Nat.testBit_shiftLeft, Nat.not_le.mpr hi]

theorem msb_mod (n : ℕ) {k w : ℕ} (h : w ≤ k) : msb (n % 2 ^ k) w = msb n w :=
  msb_congr fun i hi => by rw [Nat.testBit_mod_two_pow]; simp [lt_of_lt_of_le hi h]

theorem msb_two_pow_sub_one (k : ℕ) {w : ℕ} (h : w ≤ k) :
    msb (2 ^ k - 1) w = List.replicate w true := by
  induction w with
  | zero => rfl
  | succ w ih =>
    rw [msb, ih (by omega), List.replicate_succ, Nat.testBit_two_pow_sub_one]
    simp [show w < k by omega]

theorem testBit_of_msb {n m : ℕ} : ∀ {w : ℕ}, msb n w = msb m w → ∀ i < w, n.testBit i = m.testBit i
  | 0, _, i, hi => absurd hi (Nat.not_lt_zero i)
  | w + 1, h, i, hi => by
    obtain ⟨hw, hrest⟩ := List.cons.inj h
    obtain rfl | hlt := Nat.eq_or_lt_of_le (Nat.lt_succ_iff.mp hi)
    · exact hw
    · exact testBit_of_msb hrest i hlt

/-! ## Prefix-free lists of words -/

/-- No word of the list is a prefix of a later one, nor a later one of it. -/
def PrefixFree {α : Type} (ws : List (List α)) : Prop :=
  ws.Pairwise fun u v => ¬ u <+: v ∧ ¬ v <+: u

/-- The tails of the words that start with `b`. -/
def tailsOf (b : Bool) (ws : List (List Bool)) : List (List Bool) :=
  ws.filterMap fun w => match w with
    | [] => none
    | c :: v => if c == b then some v else none

/-- Split on the first bit until at most one word is left. -/
def separated : ℕ → List (List Bool) → Bool
  | _, [] => true
  | _, [_] => true
  | 0, _ :: _ :: _ => false
  | k + 1, ws => !ws.contains [] && (separated k (tailsOf false ws) && separated k (tailsOf true ws))

theorem mem_tailsOf {b : Bool} {ws : List (List Bool)} {v : List Bool} (h : b :: v ∈ ws) :
    v ∈ tailsOf b ws :=
  List.mem_filterMap.mpr ⟨b :: v, h, by simp⟩

theorem prefixFree_tailsOf {ws : List (List Bool)} (h0 : ([] : List Bool) ∉ ws)
    (h : ∀ b, PrefixFree (tailsOf b ws)) : PrefixFree ws := by
  induction ws with
  | nil => exact List.Pairwise.nil
  | cons w ws ih =>
    have hws : ([] : List Bool) ∉ ws := fun hc => h0 (List.mem_cons_of_mem _ hc)
    obtain _ | ⟨b, v⟩ := w
    · exact absurd List.mem_cons_self h0
    refine List.Pairwise.cons (fun u hu => ?_) (ih hws fun c => ?_)
    · obtain _ | ⟨c, u⟩ := u
      · exact absurd hu hws
      have hb := h b
      simp only [PrefixFree, tailsOf, List.filterMap_cons, beq_self_eq_true, if_true,
        List.pairwise_cons] at hb
      by_cases hbc : c = b
      · subst hbc
        have := hb.1 u (mem_tailsOf hu)
        exact ⟨fun hp => this.1 (by simpa using hp), fun hp => this.2 (by simpa using hp)⟩
      · exact ⟨fun hp => hbc (by simpa using (List.cons_prefix_cons.mp hp).1.symm),
          fun hp => hbc (by simpa using (List.cons_prefix_cons.mp hp).1)⟩
    · have hc := h c
      unfold PrefixFree tailsOf at hc ⊢
      rw [List.filterMap_cons] at hc
      split at hc
      · exact hc
      · exact hc.of_cons

/-- **Splitting on the first bit decides prefix-freeness.** -/
theorem prefixFree_of_separated : ∀ (k : ℕ) (ws : List (List Bool)), separated k ws = true →
    PrefixFree ws
  | _, [], _ => List.Pairwise.nil
  | _, [_], _ => List.pairwise_singleton _ _
  | 0, _ :: _ :: _, h => by simp [separated] at h
  | k + 1, u :: v :: ws, h => by
    simp only [separated, Bool.and_eq_true, Bool.not_eq_true', List.contains_eq_mem,
      decide_eq_false_iff_not] at h
    refine prefixFree_tailsOf h.1 fun b => ?_
    cases b with
    | false => exact prefixFree_of_separated k _ h.2.1
    | true => exact prefixFree_of_separated k _ h.2.2

end Bits
