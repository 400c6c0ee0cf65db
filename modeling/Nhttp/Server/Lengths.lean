import Nhttp.Protocol.ChunkedBody
import Nhttp.Server.Extensions.StaticContent
import Nhttp.Server.Framing
import Nhttp.Server.Proxy.Response

/-!
# Lengths out of digits

Six loops of the source turn digits into a length, and none of them looks for an overflow.

* `chunkSize_digits`: the size of a chunk is the number modulo `2 ^ 64`.
* **`lengths_exact_iff`**: for which numbers each loop is exact or rejects the digits.
-/

open Option

namespace Nhttp.Protocol

open Octets

theorem chunkSizeFrom_digits {digits : Bytes} (hd : IsHex digits) (size : ℕ) :
    chunkSizeFrom (size % 2 ^ 64) true digits = some (hexNumber size digits % 2 ^ 64) := by
  induction digits generalizing size with
  | nil => rfl
  | cons c digits ih =>
    obtain ⟨v, hv⟩ := isSome_iff_exists.mp (hd c List.mem_cons_self)
    have hmod : (size % 2 ^ 64 * 16 + v) % 2 ^ 64 = (size * 16 + v) % 2 ^ 64 := by omega
    rw [chunkSizeFrom, hv, hexNumber_cons, hv, getD_some]
    dsimp only
    rw [hmod]
    exact ih (fun x hx => hd x (List.mem_cons_of_mem _ hx)) _

theorem chunkSize_digits {digits : Bytes} (hd : IsHex digits) (hne : digits ≠ []) :
    chunkSize digits = some (hexNumber 0 digits % 2 ^ 64) := by
  cases digits with
  | nil => exact absurd rfl hne
  | cons c digits =>
    obtain ⟨v, hv⟩ := isSome_iff_exists.mp (hd c List.mem_cons_self)
    rw [chunkSize, chunkSizeFrom, hv, hexNumber_cons, hv]
    exact chunkSizeFrom_digits (fun x hx => hd x (List.mem_cons_of_mem _ hx)) _

theorem chunkSize_exact_iff {digits : Bytes} (hd : IsHex digits) :
    (chunkSize digits = none ∨ chunkSize digits = some (hexNumber 0 digits)) ↔
      hexNumber 0 digits < 2 ^ 64 := by
  by_cases hne : digits = []
  · subst hne
    decide
  · rw [chunkSize_digits hd hne, some_inj]
    constructor
    · rintro (h | h)
      · cases h
      · omega
    · intro h
      exact .inr (Nat.mod_eq_of_lt h)

end Nhttp.Protocol

namespace Nhttp.Server

open Octets Reading Protocol Io

section contentLength

variable {ω : Type} [Source ω UInt8] {digits : Bytes} {headers : HttpHeaders}

theorem makeBodyStream_exact_iff (hd : ∀ c ∈ digits, isDigit c = true) (b : BufferedWire ω)
    (hte : ¬IsChunked headers) (hcl : headers.get (ascii "Content-Length") = some digits) :
    (makeBodyStream b headers = none ∨
      makeBodyStream b headers = some (.range (RangeStream.new b 0 (decimalNumber 0 digits : ℕ)))) ↔
      decimalNumber 0 digits < 2 ^ 63 := by
  have he : makeBodyStream b headers =
      some (.range (RangeStream.new b 0 (toInt64 (decimalNumber 0 digits : ℕ)))) := by
    refine (if_neg hte).trans ?_
    rw [hcl]
    dsimp only
    rw [parseContentLength_zero hd, map_some]
  rw [he, some_inj, BodyStream.range.injEq, rangeStream_new_eq_iff, toInt64_natCast_eq_iff]
  exact or_iff_right (some_ne_none _)

theorem outContentLength_digits (hd : ∀ c ∈ digits, isDigit c = true)
    (hcl : headers.get (ascii "Content-Length") = some digits) :
    outContentLength headers = toInt64 (decimalNumber 0 digits : ℕ) := by
  rw [outContentLength, hcl]
  dsimp only
  rw [parseContentLength_zero hd, getD_some]

theorem relayedContentLength_digits (hd : ∀ c ∈ digits, isDigit c = true)
    (hcl : headers.get (ascii "Content-Length") = some digits) :
    relayedContentLength headers = toInt64 (decimalNumber 0 digits : ℕ) := by
  rw [relayedContentLength, hcl]
  dsimp only
  rw [parseContentLength_zero hd, getD_some]

theorem parseDigits_exact_iff (hd : ∀ c ∈ digits, isDigit c = true) :
    (parseDigits digits = none ∨ parseDigits digits = some ((decimalNumber 0 digits : ℕ) : ℤ)) ↔
      decimalNumber 0 digits < 2 ^ 63 := by
  rw [parseDigits, parseContentLength_zero hd, some_inj, toInt64_natCast_eq_iff]
  exact or_iff_right (some_ne_none _)

end contentLength

/-- **Exact or rejected.** A loop for decimal digits gives their number, or refuses them, exactly if it has at most 63
bits (the loops of the proxy refuse no digits); that for the size of a chunk exactly if it has at most 64 bits. -/
theorem lengths_exact_iff (digits : Bytes) :
    ((∀ c ∈ digits, isDigit c = true) →
      (∀ {ω : Type} [Source ω UInt8] (b : BufferedWire ω) (headers : HttpHeaders), ¬IsChunked headers →
        headers.get (ascii "Content-Length") = some digits →
        ((makeBodyStream b headers = none ∨
          makeBodyStream b headers = some (.range (RangeStream.new b 0 (decimalNumber 0 digits : ℕ)))) ↔
            decimalNumber 0 digits < 2 ^ 63) ∧
        ((makeOwnedBodyStream b.leftover b.wire headers = none ∨
          makeOwnedBodyStream b.leftover b.wire headers =
            some (.range (RangeStream.new b 0 (decimalNumber 0 digits : ℕ)))) ↔
            decimalNumber 0 digits < 2 ^ 63)) ∧
      (∀ headers : HttpHeaders, headers.get (ascii "Content-Length") = some digits →
        (outContentLength headers = decimalNumber 0 digits ↔ decimalNumber 0 digits < 2 ^ 63) ∧
        (relayedContentLength headers = decimalNumber 0 digits ↔ decimalNumber 0 digits < 2 ^ 63)) ∧
      ((parseDigits digits = none ∨ parseDigits digits = some ((decimalNumber 0 digits : ℕ) : ℤ)) ↔
        decimalNumber 0 digits < 2 ^ 63)) ∧
    (IsHex digits → ((chunkSize digits = none ∨ chunkSize digits = some (hexNumber 0 digits)) ↔
      hexNumber 0 digits < 2 ^ 64)) := by
  refine ⟨fun hd => ⟨?_, ?_, parseDigits_exact_iff hd⟩, chunkSize_exact_iff⟩
  · intro ω _ b headers hte hcl
    exact ⟨makeBodyStream_exact_iff hd b hte hcl, makeBodyStream_exact_iff hd b hte hcl⟩
  · intro headers hcl
    rw [outContentLength_digits hd hcl, relayedContentLength_digits hd hcl]
    exact ⟨toInt64_natCast_eq_iff _, toInt64_natCast_eq_iff _⟩

theorem lengths_exact_ten :
    (parseDigits (ascii "10") = none ∨ parseDigits (ascii "10") = some ((decimalNumber 0 (ascii "10") : ℕ) : ℤ)) ∧
      (chunkSize (ascii "10") = none ∨ chunkSize (ascii "10") = some (hexNumber 0 (ascii "10"))) :=
  ⟨((lengths_exact_iff (ascii "10")).1 (by decide +kernel)).2.2.mpr (by decide +kernel),
    ((lengths_exact_iff (ascii "10")).2 (by decide +kernel)).mpr (by decide +kernel)⟩

/-- A length of `2 ^ 64 + 1` is taken for one, and in the proxy `2 ^ 63` for `-2 ^ 63`. -/
theorem lengths_wrap :
    makeBodyStream (⟨[], ⟨[], by decide⟩⟩ : BufferedWire (Segments UInt8))
        [⟨ascii "Content-Length", ascii "18446744073709551617"⟩] =
      some (.range (RangeStream.new ⟨[], ⟨[], by decide⟩⟩ 0 1)) ∧
    outContentLength [⟨ascii "Content-Length", ascii "18446744073709551617"⟩] = 1 ∧
    relayedContentLength [⟨ascii "Content-Length", ascii "9223372036854775808"⟩] = -2 ^ 63 ∧
    parseDigits (ascii "18446744073709551617") = some 1 ∧
    chunkSize (ascii "10000000000000001") = some 1 := by
  refine ⟨?_, by decide +kernel, by decide +kernel, by decide +kernel, by decide +kernel⟩
  have hte : ¬IsChunked [⟨ascii "Content-Length", ascii "18446744073709551617"⟩] := by decide +kernel
  have hcl : HttpHeaders.get [⟨ascii "Content-Length", ascii "18446744073709551617"⟩] (ascii "Content-Length") =
      some (ascii "18446744073709551617") := by decide +kernel
  have hp : parseContentLength 0 (ascii "18446744073709551617") = some 1 := by decide +kernel
  refine (if_neg hte).trans ?_
  rw [hcl]
  dsimp only
  rw [hp, map_some]

end Nhttp.Server
