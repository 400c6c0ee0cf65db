import Nhttp.Protocol.Resource

/-!
# Percent-encoding and query strings

* `urlEncode`: unreserved octets as they are, a blank as `+`, others as `%XX`.
* `urlDecode_urlEncode`: what is encoded is decoded again.
* `QueryString.write`: a map as `key=value` pairs; `QueryString.parse_write` reads it back, and
  `QueryString.ordered_parse` says that every parsed map is in order.
-/

namespace Nhttp.Protocol

open Octets List

def isUnreserved (c : UInt8) : Bool :=
  (0x41 ≤ c && c ≤ 0x5a) || (0x61 ≤ c && c ≤ 0x7a) || (0x30 ≤ c && c ≤ 0x39) ||
    c == 0x2d || c == 0x5f || c == 0x2e || c == 0x7e

def toHexDigit (v : ℕ) : UInt8 := UInt8.ofNat (if v < 10 then 0x30 + v else 0x41 + (v - 10))

def encodeOctet (c : UInt8) : Bytes :=
  if isUnreserved c then [c]
  else if c = 0x20 then [0x2b]
  else [0x25, toHexDigit (c.toNat >>> 4 &&& 0x0f), toHexDigit (c.toNat &&& 0x0f)]

def urlEncode (input : Bytes) : Bytes := input.flatMap encodeOctet

/-! ## Decoding -/

theorem urlDecode_cons {c : UInt8} (h : c ≠ 0x25) (bs : Bytes) :
    urlDecode (c :: bs) = (if c = 0x2b then 0x20 else c) :: urlDecode bs := by
  match bs with
  | [] => simp [urlDecode]
  | [_] => simp [urlDecode]
  | _ :: _ :: _ =>
    by_cases hc : c = 0x2b
    · simp [urlDecode, hc]
    · simp [urlDecode, hc, h]

theorem urlDecode_escape {h l : UInt8} {hi lo : ℕ} (hh : hexValue h = some hi)
    (hl : hexValue l = some lo) (bs : Bytes) :
    urlDecode (0x25 :: h :: l :: bs) = UInt8.ofNat (hi <<< 4 ||| lo) :: urlDecode bs := by
  simp [urlDecode, hh, hl]

theorem hexValue_toHexDigit {v : ℕ} (h : v < 16) : hexValue (toHexDigit v) = some v := by
  interval_cases v <;> rfl

theorem ofNat_digits (c : UInt8) :
    UInt8.ofNat ((c.toNat >>> 4 &&& 0x0f) <<< 4 ||| (c.toNat &&& 0x0f)) = c := by
  have h : ∀ n < 256, (n >>> 4 &&& 0x0f) <<< 4 ||| (n &&& 0x0f) = n := by decide +kernel
  rw [h c.toNat c.toNat_lt, UInt8.ofNat_toNat]

theorem urlDecode_encodeOctet (c : UInt8) (bs : Bytes) :
    urlDecode (encodeOctet c ++ bs) = c :: urlDecode bs := by
  unfold encodeOctet
  split_ifs with h1 h2
  · have h : c ≠ 0x25 ∧ c ≠ 0x2b := by
      constructor <;> rintro rfl <;> cases h1
    rw [singleton_append, urlDecode_cons h.1, if_neg h.2]
  · rw [singleton_append, urlDecode_cons (by decide), if_pos rfl, h2]
  · have hlt : ∀ n, n &&& 0x0f < 16 := fun n => Nat.lt_of_le_of_lt Nat.and_le_right (by omega)
    rw [cons_append, cons_append, singleton_append,
      urlDecode_escape (hexValue_toHexDigit (hlt _)) (hexValue_toHexDigit (hlt _)), ofNat_digits]

theorem urlDecode_urlEncode (input : Bytes) : urlDecode (urlEncode input) = input := by
  induction input with
  | nil => rfl
  | cons c input ih =>
    rw [urlEncode, flatMap_cons, urlDecode_encodeOctet]
    exact congrArg _ ih

variable {x : UInt8}

theorem mem_urlEncode {input : Bytes} (h : x ∈ urlEncode input) :
    isUnreserved x = true ∨ x = 0x2b ∨ x = 0x25 := by
  obtain ⟨c, -, hx⟩ := mem_flatMap.mp h
  have hdigit : ∀ v < 16, isUnreserved (toHexDigit v) = true := by decide
  unfold encodeOctet at hx
  split_ifs at hx with h1 h2
  · obtain rfl := mem_singleton.mp hx
    exact .inl h1
  · exact .inr (.inl (mem_singleton.mp hx))
  · have hlt : ∀ n, n &&& 0x0f < 16 := fun n => Nat.lt_of_le_of_lt Nat.and_le_right (by omega)
    simp only [mem_cons, not_mem_nil, or_false] at hx
    obtain rfl | rfl | rfl := hx
    · exact .inr (.inr rfl)
    · exact .inl (hdigit _ (hlt _))
    · exact .inl (hdigit _ (hlt _))

theorem not_mem_urlEncode (h : isUnreserved x = false) (hp : x ≠ 0x2b) (he : x ≠ 0x25)
    (input : Bytes) : x ∉ urlEncode input := by
  intro hx
  obtain h' | h' | h' := mem_urlEncode hx
  · rw [h] at h'
    cases h'
  · exact hp h'
  · exact he h'

/-! ## Texts that decode to themselves -/

theorem length_urlDecode_le (bs : Bytes) : (urlDecode bs).length ≤ bs.length := by
  fun_induction urlDecode bs with
  | case1 => exact le_rfl
  | case2 h l rest ih => simpa using ih
  | case3 h l rest hi lo _ _ _ ih =>
    simp only [length_cons]
    omega
  | case4 h l rest _ _ ih => simpa using ih
  | case5 c h l rest _ _ ih => simpa using ih
  | case6 c rest _ ih => simpa using ih

/-- No `+` and no `%XX`. -/
def IsLiteral : Bytes → Prop
  | [] => True
  | c :: h :: l :: rest => c ≠ 0x2b ∧ ¬(c = 0x25 ∧ (hexValue h).isSome ∧ (hexValue l).isSome) ∧
      IsLiteral (h :: l :: rest)
  | c :: rest => c ≠ 0x2b ∧ IsLiteral rest

instance decidableIsLiteral : ∀ bs : Bytes, Decidable (IsLiteral bs)
  | [] => isTrue trivial
  | _ :: h :: l :: rest =>
    have := decidableIsLiteral (h :: l :: rest)
    inferInstanceAs (Decidable (_ ∧ _ ∧ _))
  | [_] => inferInstanceAs (Decidable (_ ∧ True))
  | [_, _] => inferInstanceAs (Decidable (_ ∧ _ ∧ True))

/-- **Decoding changes every other text.** -/
theorem urlDecode_eq_self_iff (bs : Bytes) : urlDecode bs = bs ↔ IsLiteral bs := by
  fun_induction urlDecode bs with
  | case1 => simp [IsLiteral]
  | case2 h l rest ih => simp [IsLiteral]
  | case3 h l rest hi lo hl hh _ ih =>
    refine iff_of_false ?_ (by simp [IsLiteral, hh, hl])
    intro he
    have := congrArg List.length he
    have := length_urlDecode_le rest
    simp only [length_cons] at *
    omega
  | case4 h l rest hn hp ih =>
    have hesc : ¬((hexValue h).isSome ∧ (hexValue l).isSome) := by
      rintro ⟨h1, h2⟩
      obtain ⟨hi, hh⟩ := Option.isSome_iff_exists.mp h1
      obtain ⟨lo, hl⟩ := Option.isSome_iff_exists.mp h2
      exact hn hi lo hh hl
    rw [IsLiteral, List.cons.injEq, ih]
    tauto
  | case5 c h l rest hp hc ih =>
    rw [IsLiteral, List.cons.injEq, ih]
    tauto
  | case6 c rest hn ih =>
    have hlit : IsLiteral (c :: rest) ↔ c ≠ 0x2b ∧ IsLiteral rest := by
      match rest, hn with
      | [], _ | [_], _ => exact Iff.rfl
      | _ :: _ :: _, hn => exact absurd rfl (hn _ _ _)
    rw [hlit, List.cons.injEq, ih]
    split_ifs with hc
    · simp [hc]
    · simp [hc]

/-! ## Query strings -/

namespace QueryString

/-- The pairs of a map, each behind a separator: `sep` in front of the first, `&` of the others. -/
def write (sep : UInt8) : QueryString → Bytes
  | [] => []
  | (k, v) :: q => sep :: (urlEncode k ++ 0x3d :: urlEncode v) ++ write 0x26 q

variable {q out : QueryString} {key value : Bytes}

/-- The octets of a written map: those of encoded texts and the separators. -/
theorem mem_write {sep x : UInt8} (h : x ∈ write sep q) :
    isUnreserved x = true ∨ x = 0x2b ∨ x = 0x25 ∨ x = sep ∨ x = 0x3d ∨ x = 0x26 := by
  induction q generalizing sep with
  | nil => cases h
  | cons e q ih =>
    obtain ⟨k, v⟩ := e
    simp only [write, cons_append, mem_cons, mem_append, or_assoc] at h
    obtain h | h | h | h | h := h
    · tauto
    · have := mem_urlEncode h
      tauto
    · tauto
    · have := mem_urlEncode h
      tauto
    · have := ih h
      tauto

theorem ordered_parseFrom (raw : Bytes) (h : out.Ordered) :
    (parseFrom raw out).Ordered := by
  fun_induction parseFrom raw out with
  | case1 => exact h
  | case2 _ _ _ _ _ _ ih => exact ih h
  | case3 _ _ _ _ _ _ _ ih => exact ih (h.put _ _ _)
  | case4 _ _ _ _ _ _ _ _ _ ih => exact ih (h.put _ _ _)

theorem ordered_parse (raw : Bytes) : (parse raw).Ordered :=
  ordered_parseFrom raw List.Pairwise.nil

theorem assign_of_lt (h : ∀ p ∈ q, p.1 < key) :
    assign key value q = q ++ [(key, value)] := by
  induction q with
  | nil => rfl
  | cons e q ih =>
    obtain ⟨k, v⟩ := e
    have hk : k < key := h (k, v) mem_cons_self
    have hne : key ≠ k := by
      rintro rfl
      exact List.lt_irrefl _ hk
    rw [assign, TextMap.put, if_neg hne, if_neg (List.lt_asymm hk), ← assign,
      ih fun p hp => h p (mem_cons_of_mem _ hp)]
    rfl

theorem parseFrom_pair (k v : Bytes) (q out : QueryString) :
    parseFrom (urlEncode k ++ 0x3d :: urlEncode v ++ write 0x26 q) out =
      parseFrom ((write 0x26 q).drop 1) (assign k v out) := by
  have hamp : ∀ x ∈ urlEncode k ++ 0x3d :: urlEncode v, decide (x ≠ 0x26) = true := by
    intro x hx
    rw [mem_append, mem_cons] at hx
    refine decide_eq_true ?_
    rintro rfl
    obtain hx | hx | hx := hx
    · exact not_mem_urlEncode rfl (by decide) (by decide) k hx
    · exact absurd hx (by decide)
    · exact not_mem_urlEncode rfl (by decide) (by decide) v hx
  have hpair : (urlEncode k ++ 0x3d :: urlEncode v ++ write 0x26 q).takeWhile (· ≠ 0x26) =
      urlEncode k ++ 0x3d :: urlEncode v := by
    rw [takeWhile_append_of_pos hamp]
    cases q with
    | nil => simp [write]
    | cons e q => simp [write]
  have hcut : cutAt 0x3d (urlEncode k ++ 0x3d :: urlEncode v) = some (urlEncode k, urlEncode v) :=
    cutAt_append_cons (not_mem_urlEncode rfl (by decide) (by decide) k) _
  have hrest : (urlEncode k ++ 0x3d :: urlEncode v ++ write 0x26 q).drop
      ((urlEncode k ++ 0x3d :: urlEncode v).length + 1) = (write 0x26 q).drop 1 := by
    rw [← drop_drop, drop_left]
  rw [parseFrom, if_neg (by simp)]
  rw [hpair, if_neg (by simp), hcut, hrest]
  dsimp only
  rw [urlDecode_urlEncode, urlDecode_urlEncode]

theorem parseFrom_write (h : (out ++ q).Ordered) :
    parseFrom ((write 0x26 q).drop 1) out = out ++ q := by
  induction q generalizing out with
  | nil =>
    rw [write, drop_nil, parseFrom, if_pos rfl, append_nil]
  | cons e q ih =>
    obtain ⟨k, v⟩ := e
    have hlt : ∀ p ∈ out, p.1 < k := fun p hp =>
      (pairwise_append.mp h).2.2 p hp (k, v) mem_cons_self
    have happ : (out ++ [(k, v)] ++ q).Ordered := by simpa using h
    rw [write, cons_append, drop_succ_cons, drop_zero, parseFrom_pair,
      assign_of_lt hlt, ih happ, append_assoc]
    rfl

/-- **A written map is read back.** -/
theorem parse_write (h : q.Ordered) (sep : UInt8) :
    parse ((write sep q).drop 1) = q := by
  have hsep : (write sep q).drop 1 = (write 0x26 q).drop 1 := by
    cases q <;> rfl
  rw [hsep]
  exact parseFrom_write h

end QueryString

end Nhttp.Protocol
