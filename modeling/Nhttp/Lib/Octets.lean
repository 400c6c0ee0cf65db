import Nhttp.Lib.Bits

/-!
# Octet strings

* `Bytes`, `ascii`: octet strings and the octets of an ASCII text.
* `byteBits`, `bitsOf`: the bits of an octet and of an octet string, most significant first.
* `bigEndian`, `ofBigEndian`: numbers in a fixed count of octets, most significant first.
* `TextMap`: a map from texts to texts, as the list of its entries in order.
-/

namespace Octets

/-- Octet strings. -/
abbrev Bytes := List UInt8

def ascii (s : String) : Bytes := s.toList.map fun c => UInt8.ofNat c.toNat

theorem Bytes.lt_of_not_lt_of_ne {xs ys : Bytes} (h : ¬xs < ys) (hne : xs ≠ ys) : ys < xs := by
  by_contra hlt
  exact hne (List.le_antisymm (List.not_lt.mp hlt) (List.not_lt.mp h))

theorem forall_octet {p : UInt8 → Prop} (h : ∀ n < 256, p (UInt8.ofNat n)) (b : UInt8) : p b := by
  have := h b.toNat b.toNat_lt
  rwa [UInt8.ofNat_toNat] at this

def byteBits (b : UInt8) : List Bool := Bits.msb b.toNat 8

def bitsOf (bs : Bytes) : List Bool := bs.flatMap byteBits

@[simp] theorem length_byteBits (b : UInt8) : (byteBits b).length = 8 := by simp [byteBits]

@[simp] theorem bitsOf_nil : bitsOf [] = [] := rfl

@[simp] theorem bitsOf_append (a b : Bytes) : bitsOf (a ++ b) = bitsOf a ++ bitsOf b := by
  simp [bitsOf]

@[simp] theorem bitsOf_singleton (b : UInt8) : bitsOf [b] = byteBits b := by simp [bitsOf]

theorem byteBits_ofNat (n : ℕ) : byteBits (UInt8.ofNat n) = Bits.msb n 8 := by
  exact Bits.msb_mod n le_rfl

theorem length_bitsOf (bs : Bytes) : (bitsOf bs).length = 8 * bs.length := by
  induction bs with
  | nil => rfl
  | cons b bs ih =>
    rw [← List.singleton_append, bitsOf_append, List.length_append, ih]
    simp
    omega

theorem byteBits_injective : Function.Injective byteBits := by
  intro a b h
  apply UInt8.toNat_inj.mp
  apply Nat.eq_of_testBit_eq
  intro i
  by_cases hi : i < 8
  · exact Bits.testBit_of_msb h i hi
  · have hpow : 2 ^ 8 ≤ 2 ^ i := Nat.pow_le_pow_right (by norm_num) (by omega)
    rw [Nat.testBit_lt_two_pow (lt_of_lt_of_le a.toNat_lt hpow), Nat.testBit_lt_two_pow (lt_of_lt_of_le b.toNat_lt hpow)]

theorem bitsOf_injective : Function.Injective bitsOf := by
  intro xs
  induction xs with
  | nil =>
    intro ys h
    have hlen := congrArg List.length h
    rw [length_bitsOf, length_bitsOf, List.length_nil] at hlen
    exact (List.length_eq_zero_iff.mp (by omega)).symm
  | cons x xs ih =>
    intro ys h
    cases ys with
    | nil =>
      have hlen := congrArg List.length h
      rw [length_bitsOf, length_bitsOf, List.length_nil, List.length_cons] at hlen
      omega
    | cons y ys =>
      have h' : byteBits x ++ bitsOf xs = byteBits y ++ bitsOf ys := by simpa [bitsOf] using h
      obtain ⟨hx, hxs⟩ := List.append_inj h' (by simp)
      rw [byteBits_injective hx, ih hxs]

/-! ## Big-endian numbers -/

/-- The lowest `k` octets of a number. -/
def bigEndian (n : ℕ) : ℕ → Bytes
  | 0 => []
  | k + 1 => UInt8.ofNat (n >>> (8 * k)) :: bigEndian n k

/-- The number in octets. -/
def ofBigEndian (bs : Bytes) : ℕ := bs.foldl (fun acc b => acc <<< 8 ||| b.toNat) 0

@[simp] theorem length_bigEndian (n k : ℕ) : (bigEndian n k).length = k := by
  induction k with
  | zero => rfl
  | succ k ih => rw [bigEndian, List.length_cons, ih]

theorem foldl_bigEndian (n k acc : ℕ) :
    (bigEndian n k).foldl (fun acc b => acc <<< 8 ||| b.toNat) acc = acc * 256 ^ k + n % 256 ^ k := by
  induction k generalizing acc with
  | zero => simp [bigEndian, Nat.mod_one]
  | succ k ih =>
    have hlow : (UInt8.ofNat (n >>> (8 * k))).toNat = n / 256 ^ k % 256 := by
      rw [UInt8.toNat_ofNat', Nat.shiftRight_eq_div_pow, Nat.pow_mul]
    rw [bigEndian, List.foldl_cons, ih, ← Nat.shiftLeft_add_eq_or_of_lt (UInt8.toNat_lt _), hlow,
      Nat.shiftLeft_eq, Nat.mod_pow_succ]
    ring

theorem ofBigEndian_bigEndian {n k : ℕ} (h : n < 256 ^ k) : ofBigEndian (bigEndian n k) = n := by
  rw [ofBigEndian, foldl_bigEndian, Nat.zero_mul, Nat.zero_add, Nat.mod_eq_of_lt h]

/-! ## Maps -/

abbrev TextMap := List (Bytes × Bytes)

namespace TextMap

def Ordered (q : TextMap) : Prop := q.Pairwise fun a b => a.1 < b.1

instance (q : TextMap) : Decidable q.Ordered := inferInstanceAs (Decidable (List.Pairwise _ _))

/-- An entry for the key; one that is there keeps its value or gets the new one. -/
def put (keep : Bool) (key value : Bytes) : TextMap → TextMap
  | [] => [(key, value)]
  | (k, v) :: m =>
    if key = k then (k, if keep then v else value) :: m
    else if key < k then (key, value) :: (k, v) :: m
    else (k, v) :: put keep key value m

variable {q : TextMap} {keep : Bool} {key value : Bytes} {p : Bytes × Bytes}

theorem mem_of_mem_put (h : p ∈ put keep key value q) : p = (key, value) ∨ p ∈ q := by
  fun_induction put keep key value q with
  | case1 => exact .inl (List.mem_singleton.mp h)
  | case2 v m =>
    obtain rfl | h := List.mem_cons.mp h
    · cases keep with
      | false => exact .inl rfl
      | true => exact .inr List.mem_cons_self
    · exact .inr (List.mem_cons_of_mem _ h)
  | case3 => exact List.mem_cons.mp h
  | case4 k v m _ _ ih =>
    obtain rfl | h := List.mem_cons.mp h
    · exact .inr List.mem_cons_self
    · exact (ih h).imp_right (List.mem_cons_of_mem _)

theorem Ordered.put (h : q.Ordered) (keep : Bool) (key value : Bytes) : (put keep key value q).Ordered := by
  fun_induction TextMap.put keep key value q with
  | case1 => exact List.pairwise_singleton _ _
  | case2 => exact List.pairwise_cons.mpr (List.pairwise_cons.mp h)
  | case3 k v m _ hlt =>
    refine List.pairwise_cons.mpr ⟨fun p hp => ?_, h⟩
    obtain rfl | hp := List.mem_cons.mp hp
    · exact hlt
    · exact List.lt_trans hlt ((List.pairwise_cons.mp h).1 p hp)
  | case4 k v m hne hlt ih =>
    obtain ⟨hhead, htail⟩ := List.pairwise_cons.mp h
    refine List.pairwise_cons.mpr ⟨fun p hp => ?_, ih htail⟩
    obtain rfl | hp := mem_of_mem_put hp
    · exact Bytes.lt_of_not_lt_of_ne hlt hne
    · exact hhead p hp

end TextMap

end Octets
