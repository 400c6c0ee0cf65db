import Nhttp.Lib.Lines

/-!
# Request lines

* `urlDecode`: percent-decoding, `+` read as a blank.
* `QueryString`: the ordered map of `http_query_string`; `parse` splits at `&` and `=`.
* `HttpResource`: method, path, query and version of a request line; `HttpResource.tryParse`
  reads one from the start of a buffer.
-/

namespace Nhttp.Protocol

open Octets

/-- What the `try_parse` functions return: a positive count with the value, `0` or `-1`. -/
inductive Parse (α : Type) where
  | more
  | malformed
  | done (consumed : ℕ) (out : α)
deriving DecidableEq, Repr

def isDigit (c : UInt8) : Bool := 0x30 ≤ c && c ≤ 0x39

def hexValue (c : UInt8) : Option ℕ :=
  if 0x30 ≤ c && c ≤ 0x39 then some (c.toNat - 0x30)
  else if 0x61 ≤ c && c ≤ 0x66 then some (c.toNat - 0x61 + 10)
  else if 0x41 ≤ c && c ≤ 0x46 then some (c.toNat - 0x41 + 10)
  else none

def urlDecode : Bytes → Bytes
  | [] => []
  | c :: h :: l :: rest =>
    if c = 0x2b then 0x20 :: urlDecode (h :: l :: rest)
    else if c = 0x25 then
      match hexValue h, hexValue l with
      | some hi, some lo => UInt8.ofNat (hi <<< 4 ||| lo) :: urlDecode rest
      | _, _ => c :: urlDecode (h :: l :: rest)
    else c :: urlDecode (h :: l :: rest)
  | c :: rest => (if c = 0x2b then 0x20 else c) :: urlDecode rest

/-! ## Query strings -/

/-- `http_query_string`: a map from keys to values, in the order of the keys. -/
abbrev QueryString := TextMap

namespace QueryString

/-- `values_[key] = value`. -/
def assign (key value : Bytes) : QueryString → QueryString := TextMap.put false key value

/-- The loop of `http_query_string::parse`. -/
def parseFrom (raw : Bytes) (out : QueryString) : QueryString :=
  if raw = [] then out
  else
    let pair := raw.takeWhile (· ≠ 0x26)
    let rest := raw.drop (pair.length + 1)
    if pair = [] then parseFrom rest out
    else match cutAt 0x3d pair with
      | none => parseFrom rest (assign (urlDecode pair) [] out)
      | some (k, v) => parseFrom rest (assign (urlDecode k) (urlDecode v) out)
termination_by raw.length
decreasing_by
  all_goals
    have := List.length_pos_iff.mpr ‹¬raw = []›
    simp only [List.length_drop]
    omega

def parse (raw : Bytes) : QueryString := parseFrom raw []

end QueryString

/-! ## Request lines -/

/-- `http_method`; its flags and its id are functions of the name. -/
structure HttpMethod where
  name : Bytes := []
deriving DecidableEq, Repr

structure HttpResource where
  method : HttpMethod := {}
  path : Bytes := []
  rawPath : Bytes := []
  query : QueryString := []
  httpMajor : ℕ := 1
  httpMinor : ℕ := 1
deriving DecidableEq, Repr

namespace HttpResource

def setTarget (r : HttpResource) (target : Bytes) : HttpResource :=
  match cutAt 0x3f target with
  | none => { r with rawPath := target, query := QueryString.parse [], path := urlDecode target }
  | some (p, q) => { r with rawPath := p, query := QueryString.parse q, path := urlDecode p }

/-- The digits of `HTTP/x.y`. -/
def parseVersion : Bytes → Option (ℕ × ℕ)
  | [h, t₁, t₂, p, s, major, dot, minor] =>
    if [h, t₁, t₂, p, s] = ascii "HTTP/" ∧ dot = 0x2e ∧ isDigit major ∧ isDigit minor then
      some (major.toNat - 0x30, minor.toNat - 0x30)
    else none
  | _ => none

def tryParse (data : Bytes) : Parse HttpResource :=
  match lineAt data with
  | none => .more
  | some (line, consumed) =>
    match cutAt 0x20 line with
    | none => .malformed
    | some (method, line) =>
      match cutAt 0x20 line with
      | none => .malformed
      | some (target, version) =>
        match parseVersion version with
        | none => .malformed
        | some (major, minor) => .done consumed
            (setTarget { method := ⟨method⟩, httpMajor := major, httpMinor := minor } target)

end HttpResource

end Nhttp.Protocol
