import Nhttp.Protocol.Header

/-!
# Status lines and written heads

* `decimalDigits`: `std::to_string` of a natural number.
* `reasonPhrase`, `writeStatusLine`, `StatusLine.tryParse`: `http_status.cpp`.
* `HttpHeaders.writeTo`: the lines of a header list.
-/

namespace Nhttp.Protocol

open Octets

/-- `std::to_string` of a natural number. -/
def decimalDigits (n : ℕ) : Bytes :=
  if n < 10 then [UInt8.ofNat (0x30 + n)]
  else decimalDigits (n / 10) ++ [UInt8.ofNat (0x30 + n % 10)]

theorem isDigit_ofNat {d : ℕ} (h : d < 10) : isDigit (UInt8.ofNat (0x30 + d)) = true := by
  interval_cases d <;> rfl

theorem toNat_ofNat_digit {d : ℕ} (h : d < 10) : (UInt8.ofNat (0x30 + d)).toNat - 0x30 = d := by
  interval_cases d <;> rfl

theorem decimalDigits_ne_nil (n : ℕ) : decimalDigits n ≠ [] := by
  rw [decimalDigits]
  split_ifs <;> simp

theorem isDigit_decimalDigits (n : ℕ) : ∀ c ∈ decimalDigits n, isDigit c = true := by
  induction n using decimalDigits.induct with
  | case1 n h =>
    rw [decimalDigits, if_pos h]
    simpa using isDigit_ofNat h
  | case2 n h ih =>
    rw [decimalDigits, if_neg h]
    intro c hc
    obtain hc | hc := List.mem_append.mp hc
    · exact ih c hc
    · obtain rfl := List.mem_singleton.mp hc
      exact isDigit_ofNat (Nat.mod_lt n (by omega))

/-! ## Status lines -/

def reasonPhrase : ℕ → String
  | 100 => "Continue"
  | 101 => "Switching Protocols"
  | 200 => "OK"
  | 201 => "Created"
  | 202 => "Accepted"
  | 204 => "No Content"
  | 206 => "Partial Content"
  | 301 => "Moved Permanently"
  | 302 => "Found"
  | 303 => "See Other"
  | 304 => "Not Modified"
  | 307 => "Temporary Redirect"
  | 308 => "Permanent Redirect"
  | 400 => "Bad Request"
  | 401 => "Unauthorized"
  | 403 => "Forbidden"
  | 404 => "Not Found"
  | 405 => "Method Not Allowed"
  | 406 => "Not Acceptable"
  | 408 => "Request Timeout"
  | 409 => "Conflict"
  | 410 => "Gone"
  | 411 => "Length Required"
  | 412 => "Precondition Failed"
  | 413 => "Payload Too Large"
  | 414 => "URI Too Long"
  | 415 => "Unsupported Media Type"
  | 416 => "Range Not Satisfiable"
  | 417 => "Expectation Failed"
  | 426 => "Upgrade Required"
  | 429 => "Too Many Requests"
  | 431 => "Request Header Fields Too Large"
  | 500 => "Internal Server Error"
  | 501 => "Not Implemented"
  | 502 => "Bad Gateway"
  | 503 => "Service Unavailable"
  | 504 => "Gateway Timeout"
  | 505 => "HTTP Version Not Supported"
  | _ => "Unknown"

def writeStatusLine (code httpMinorVersion : ℕ) : Bytes :=
  ascii "HTTP/1." ++ decimalDigits httpMinorVersion ++ [0x20] ++ decimalDigits code ++ [0x20] ++
    ascii (reasonPhrase code) ++ [CR, LF]

/-- What `http_status::try_parse` fills in. -/
structure StatusLine where
  code : ℕ
  httpMajor : ℕ
  httpMinor : ℕ
deriving DecidableEq, Repr

def StatusLine.tryParse (data : Bytes) : Parse StatusLine :=
  match lineAt data with
  | none => .more
  | some (line, consumed) =>
    if line.length < 12 ∨ line.take 5 ≠ ascii "HTTP/" ∨ line.getD 6 0 ≠ 0x2e ∨ line.getD 8 0 ≠ 0x20 then
      .malformed
    else
      let major := line.getD 5 0
      let minor := line.getD 7 0
      match (line.drop 9).takeWhile (· ≠ 0x20) with
      | [a, b, c] =>
        if [major, minor, a, b, c].all isDigit then
          .done consumed ⟨(a.toNat - 0x30) * 100 + (b.toNat - 0x30) * 10 + (c.toNat - 0x30),
            major.toNat - 0x30, minor.toNat - 0x30⟩
        else .malformed
      | _ => .malformed

/-! ## Header lists -/

namespace HttpHeaders

def writeTo (hs : HttpHeaders) : Bytes :=
  hs.flatMap fun h => h.name ++ ascii ": " ++ h.value ++ [CR, LF]

end HttpHeaders

def writeHead (status : ℕ) (headers : HttpHeaders) : Bytes :=
  writeStatusLine status 1 ++ headers.writeTo ++ [CR, LF]

end Nhttp.Protocol
