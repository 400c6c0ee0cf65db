import Nhttp.Http2.HpackRoundTrip

/-!
# Integers of a header block

* `integerTail`, `integerOf`: the integer of RFC 7541 §5.1 at the front of some octets, without a bound, and the
  number of its continuation octets.
* `readIntegerTail_eq`: the loop of `read_integer` computes it modulo `2 ^ 64`, and gives up after ten octets.
* **`readInteger_exact_iff`**: only the tenth octet can make it wrap.
-/

namespace Nhttp.Http2

open Octets Option

/-! ## The integers themselves -/

/-- The value of continuation octets, and how many there are. -/
def integerTail : Bytes → Option (ℕ × ℕ)
  | [] => none
  | b :: bs =>
    if b &&& 0x80 = 0 then some ((b &&& 0x7f).toNat, 1)
    else (integerTail bs).map fun t => ((b &&& 0x7f).toNat + 2 ^ 7 * t.1, t.2 + 1)

/-- The integer with a prefix of `k` bits. -/
def integerOf (k : ℕ) : Bytes → Option (ℕ × ℕ)
  | [] => none
  | b :: bs =>
    if b.toNat % 2 ^ k < 2 ^ k - 1 then some (b.toNat % 2 ^ k, 0)
    else (integerTail bs).map fun t => (2 ^ k - 1 + t.1, t.2)

def BitReader.integer (r : BitReader) (k : ℕ) : Option (ℕ × ℕ) :=
  match r.pos with
  | 0 => none
  | p + 1 => integerOf k (r.data.drop p)

theorem low_lt (b : UInt8) : (b &&& 0x7f).toNat < 2 ^ 7 := by
  revert b
  decide +kernel

theorem integerTail_bounds {bs : Bytes} {t n : ℕ} (h : integerTail bs = some (t, n)) : 0 < n ∧ t < 2 ^ (7 * n) := by
  induction bs generalizing t n with
  | nil => cases h
  | cons b bs ih =>
    have hlow := low_lt b
    unfold integerTail at h
    split_ifs at h
    · cases h
      exact ⟨Nat.one_pos, hlow⟩
    · obtain ⟨⟨t', n'⟩, ht, he⟩ := map_eq_some_iff.mp h
      cases he
      have hlt := (ih ht).2
      refine ⟨Nat.succ_pos n', ?_⟩
      rw [Nat.mul_succ, Nat.pow_add]
      dsimp only
      omega

/-! ## The loop -/

/-- **The loop** adds up the groups modulo `2 ^ 64`, and gives up where a shift would pass 63. -/
theorem readIntegerTail_eq (bs : Bytes) : ∀ {r : BitReader} {value m : ℕ}, r.rest = bs → m ≤ 63 →
    readIntegerTail r value m =
      match integerTail bs with
      | none => .error .reject
      | some (t, n) =>
        if m + 7 * n ≤ 70 then .ok ((value + t * 2 ^ m) % 2 ^ 64, r.advance n) else .error .reject := by
  induction bs with
  | nil =>
    intro r value m hr _
    rw [readIntegerTail, BitReader.atEnd_of_rest_nil hr]
    rfl
  | cons b bs ih =>
    intro r value m hr hm
    have hadd : (value + (b &&& 0x7f).toNat <<< m % 2 ^ 64) % 2 ^ 64 =
        (value + (b &&& 0x7f).toNat * 2 ^ m) % 2 ^ 64 := by
      rw [Nat.shiftLeft_eq, Nat.add_mod_mod]
    rw [readIntegerTail_of_rest hr, hadd, integerTail]
    by_cases hb : b &&& 0x80 = 0
    · rw [if_pos hb, if_pos hb]
      dsimp only
      rw [if_pos (show m + 7 * 1 ≤ 70 by omega)]
    · rw [if_neg hb, if_neg hb]
      cases ht : integerTail bs with
      | none =>
        rw [map_none]
        split_ifs with hmore
        · rfl
        · rw [ih (show (r.advance 1).rest = bs by simp [hr]) (by omega), ht]
      | some t =>
        rw [map_some]
        dsimp only
        have hpos := (integerTail_bounds ht).1
        split_ifs with hmore hfits
        · omega
        · rfl
        · rw [ih (show (r.advance 1).rest = bs by simp [hr]) (by omega), ht]
          dsimp only
          rw [if_pos (by omega), Nat.mod_add_mod, BitReader.advance_advance, Nat.add_comm 1]
          congr 3
          ring
        · rw [ih (show (r.advance 1).rest = bs by simp [hr]) (by omega), ht]
          exact if_neg (by omega)

/-- **What `read_integer` returns**: the integer modulo `2 ^ 64`, if it has at most ten continuation octets. -/
theorem readInteger_advance (r : BitReader) {k : ℕ} (hk : k ≤ 7) :
    match integerOf k r.rest with
    | none => ∃ e, readInteger (r.advance 1) k = .error e
    | some (v, n) => readInteger (r.advance 1) k =
        if n ≤ 10 then .ok (v % 2 ^ 64, (r.advance 1).advance n) else .error .reject := by
  have hpow : 2 ^ k ≤ 2 ^ 7 := Nat.pow_le_pow_right (by decide) hk
  cases hr : r.rest with
  | nil =>
    have hnone : r.data[r.pos]? = none := by
      have hlen := r.length_rest
      rw [hr, List.length_nil] at hlen
      exact List.getElem?_eq_none (by omega)
    refine ⟨.fault, ?_⟩
    simp only [readInteger, BitReader.last, BitReader.advance, BitReader.byteAt, hnone]
    rfl
  | cons b bs =>
    have hmask : b.toNat &&& (2 ^ k - 1) = b.toNat % 2 ^ k := Nat.and_two_pow_sub_one_eq_mod _ _
    have hlow := Nat.mod_lt b.toNat (Nat.two_pow_pos k)
    rw [readInteger_of_rest hr, hmask, integerOf]
    by_cases hv : b.toNat % 2 ^ k < 2 ^ k - 1
    · rw [if_pos hv, if_pos hv]
      dsimp only
      rw [if_pos (Nat.zero_le _), Nat.mod_eq_of_lt (show b.toNat % 2 ^ k < 2 ^ 64 by omega)]
      rfl
    · rw [if_neg hv, if_neg hv, readIntegerTail_eq bs (by simp [hr]) (Nat.zero_le _),
        show b.toNat % 2 ^ k = 2 ^ k - 1 by omega]
      cases integerTail bs with
      | none => exact ⟨.reject, rfl⟩
      | some t =>
        dsimp only [map_some]
        rw [Nat.pow_zero, Nat.mul_one]
        exact if_congr (by omega) rfl rfl

/-- Up to nine continuation octets there is room. -/
theorem integerOf_lt {k v n : ℕ} {bs : Bytes} (hk : k ≤ 7) (h : integerOf k bs = some (v, n)) (hn : n ≤ 9) :
    v < 2 ^ 64 := by
  have hpow : 2 ^ k ≤ 2 ^ 7 := Nat.pow_le_pow_right (by decide) hk
  cases bs with
  | nil => cases h
  | cons b bs =>
    rw [integerOf] at h
    split_ifs at h with hv
    · cases h
      omega
    · obtain ⟨⟨t, n'⟩, ht, he⟩ := map_eq_some_iff.mp h
      cases he
      have hlt := (integerTail_bounds ht).2
      have hle : 2 ^ (7 * n') ≤ 2 ^ 63 := Nat.pow_le_pow_right (by decide) (by omega)
      omega

/-- **`read_integer` is exact** on every reader, unless the integer has ten continuation octets and needs more than
64 bits. -/
theorem readInteger_exact_iff (r : BitReader) {k : ℕ} (h7 : k ≤ 7) :
    ((∀ v r', readInteger r k = .ok (v, r') → ∃ n, r.integer k = some (v, n) ∧ r' = r.advance n) ∧
      ∀ v n, r.integer k = some (v, n) → 2 ^ 64 ≤ v → readInteger r k = .error .reject) ↔
    ∀ v, r.integer k = some (v, 10) → v < 2 ^ 64 := by
  obtain ⟨data, _ | p⟩ := r
  · refine ⟨fun _ v h => ?_, fun _ => ⟨fun v r' h => ?_, fun v n h => ?_⟩⟩
    · cases h
    · cases h
    · cases h
  · have hspec := readInteger_advance ⟨data, p⟩ h7
    change ((∀ v r', readInteger (BitReader.advance ⟨data, p⟩ 1) k = .ok (v, r') →
      ∃ n, integerOf k (BitReader.rest ⟨data, p⟩) = some (v, n) ∧ r' = (BitReader.advance ⟨data, p⟩ 1).advance n) ∧
      ∀ v n, integerOf k (BitReader.rest ⟨data, p⟩) = some (v, n) → 2 ^ 64 ≤ v →
        readInteger (BitReader.advance ⟨data, p⟩ 1) k = .error .reject) ↔
      ∀ v, integerOf k (BitReader.rest ⟨data, p⟩) = some (v, 10) → v < 2 ^ 64
    generalize BitReader.advance ⟨data, p⟩ 1 = r at hspec ⊢
    cases hi : integerOf k (BitReader.rest ⟨data, p⟩) with
    | none =>
      rw [hi] at hspec
      obtain ⟨e, he⟩ := hspec
      refine ⟨fun _ v h => ?_, fun _ => ⟨fun v r' h => ?_, fun v n h => ?_⟩⟩
      · cases h
      · rw [he] at h
        cases h
      · cases h
    | some t =>
      obtain ⟨w, m⟩ := t
      rw [hi] at hspec
      dsimp only at hspec
      constructor
      · rintro ⟨-, hbig⟩ v h
        cases h
        by_contra hge
        have hrej := hbig w 10 rfl (Nat.le_of_not_lt hge)
        rw [hspec, if_pos (Nat.le_refl 10)] at hrej
        cases hrej
      · intro hten
        -- an integer that is returned has at most nine octets, or ten with room
        have hroom : m ≤ 10 → w < 2 ^ 64 := by
          intro hm
          by_cases h10 : m = 10
          · exact hten w (by rw [h10])
          · exact integerOf_lt h7 hi (by omega)
        refine ⟨fun v r' h => ?_, fun v n h hv => ?_⟩
        · rw [hspec] at h
          split_ifs at h with hm
          rw [Nat.mod_eq_of_lt (hroom hm)] at h
          cases h
          exact ⟨m, rfl, rfl⟩
        · cases h
          rw [hspec, if_neg fun hm => absurd (hroom hm) (Nat.not_lt.mpr hv)]

/-- The number 1337 with a prefix of five bits (RFC 7541 §C.1.2). -/
theorem readInteger_exact_1337 :
    ∃ n, BitReader.integer ⟨[0x1f, 0x9a, 0x0a], 1⟩ 5 = some (1337, n) ∧
      (⟨[0x1f, 0x9a, 0x0a], 3⟩ : BitReader) = BitReader.advance ⟨[0x1f, 0x9a, 0x0a], 1⟩ n := by
  have hi : integerOf 5 (BitReader.rest ⟨[0x1f, 0x9a, 0x0a], 0⟩) = some (1337, 2) := by decide +kernel
  have h := readInteger_advance ⟨[0x1f, 0x9a, 0x0a], 0⟩ (show 5 ≤ 7 by decide)
  rw [hi] at h
  refine ((readInteger_exact_iff _ (by decide)).mpr fun v hv => ?_).1 1337 _ h
  cases hi.symm.trans hv

/-- A string length of `2 ^ 64 + 127`, read as 127. -/
theorem readInteger_wraps :
    BitReader.integer ⟨0x7f :: List.replicate 9 0x80 ++ [0x02], 1⟩ 7 = some (2 ^ 64 + 127, 10) ∧
      readInteger ⟨0x7f :: List.replicate 9 0x80 ++ [0x02], 1⟩ 7 =
        .ok (127, ⟨0x7f :: List.replicate 9 0x80 ++ [0x02], 11⟩) := by
  have hi : integerOf 7 (BitReader.rest ⟨0x7f :: List.replicate 9 0x80 ++ [0x02], 0⟩) = some (2 ^ 64 + 127, 10) := by
    decide +kernel
  have h := readInteger_advance ⟨0x7f :: List.replicate 9 0x80 ++ [0x02], 0⟩ (show 7 ≤ 7 by decide)
  rw [hi] at h
  exact ⟨hi, h⟩

end Nhttp.Http2
