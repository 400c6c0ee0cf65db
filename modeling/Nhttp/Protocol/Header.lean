import Nhttp.Protocol.Resource

/-!
# Header fields

* `headerNameEquals`, `headerValueContainsToken`: the comparisons of `http_header.cpp`.
* `HttpHeader.tryParse`: one `Name: value` line from the start of a buffer.
* `HttpHeaders`: the ordered list of fields with its lookups and updates.
-/

namespace Nhttp.Protocol

open Octets

/-- `tolower` in the C locale. -/
def toLower (c : UInt8) : UInt8 := if 0x41 ≤ c && c ≤ 0x5a then c + 0x20 else c

/-- `strncasecmp(a, b, n) == 0` on strings of `n` octets: the comparison ends at a NUL. -/
def strncasecmp : Bytes → Bytes → Bool
  | a :: as, b :: bs => toLower a == toLower b && (a == 0 || strncasecmp as bs)
  | _, _ => true

def headerNameEquals (a b : Bytes) : Bool := a.length == b.length && strncasecmp a b

theorem strncasecmp_self (a : Bytes) : strncasecmp a a = true := by
  induction a with
  | nil => rfl
  | cons c a ih => simp [strncasecmp, ih]

theorem headerNameEquals_self (a : Bytes) : headerNameEquals a a = true := by
  simp [headerNameEquals, strncasecmp_self]

theorem length_eq_of_headerNameEquals {a b : Bytes} (h : headerNameEquals a b = true) :
    a.length = b.length := by
  simp only [headerNameEquals, Bool.and_eq_true, beq_iff_eq] at h
  exact h.1

theorem headerNameEquals_of_length_ne {a b : Bytes} (h : a.length ≠ b.length) :
    headerNameEquals a b = false :=
  Bool.eq_false_iff.mpr fun he => h (length_eq_of_headerNameEquals he)

/-- A search for a substring, letter case apart. -/
def headerValueContainsToken (value token : Bytes) : Bool :=
  decide (token.map toLower <:+: value.map toLower)

structure HttpHeader where
  name : Bytes
  value : Bytes
deriving DecidableEq, Repr

def isBlank (c : UInt8) : Bool := c == 0x20 || c == 0x09

def trim (value : Bytes) : Bytes := (value.dropWhile isBlank).rdropWhile isBlank

theorem trim_blank_cons (v : Bytes) : trim (0x20 :: v) = trim v := by
  simp [trim, isBlank]

/-- A value that neither starts nor ends with a blank is its own trimmed value. -/
theorem trim_eq_self {v : Bytes} (h1 : ∀ c ∈ v.head?, isBlank c = false)
    (h2 : ∀ c ∈ v.getLast?, isBlank c = false) : trim v = v := by
  have hdrop : v.dropWhile isBlank = v := by
    cases v with
    | nil => rfl
    | cons c v =>
      refine List.dropWhile_cons_of_neg ?_
      rw [h1 c rfl]
      exact Bool.false_ne_true
  rw [trim, hdrop, List.rdropWhile_eq_self_iff]
  intro hne
  rw [h2 _ (List.getLast?_eq_some_getLast hne)]
  exact Bool.false_ne_true

theorem trim_sublist (v : Bytes) : (trim v).Sublist v := by
  have h : trim v <+: v.dropWhile isBlank := List.rdropWhile_prefix _ _
  exact h.sublist.trans (List.dropWhile_sublist _)

namespace HttpHeader

def tryParse (data : Bytes) : Parse HttpHeader :=
  match lineAt data with
  | none => .more
  | some (line, consumed) =>
    match cutAt 0x3a line with
    | none => .malformed
    | some (name, value) =>
      if name = [] then .malformed else .done consumed ⟨name, trim value⟩

theorem tryParse_done {data : Bytes} {k : ℕ} {h : HttpHeader} (hd : tryParse data = .done k h) :
    0 < k ∧ k ≤ data.length := by
  unfold tryParse at hd
  split at hd
  · cases hd
  · next hl =>
    split at hd
    · cases hd
    · split_ifs at hd
      cases hd
      exact lineAt_length hl

end HttpHeader

abbrev HttpHeaders := List HttpHeader

namespace HttpHeaders

def add (hs : HttpHeaders) (name value : Bytes) : HttpHeaders := hs ++ [⟨name, value⟩]

/-- The first field of that name is given the value, or one is added at the end. -/
def set (hs : HttpHeaders) (name value : Bytes) : HttpHeaders :=
  match hs with
  | [] => [⟨name, value⟩]
  | h :: hs => if headerNameEquals h.name name then { h with value := value } :: hs
      else h :: set hs name value

def isset (hs : HttpHeaders) (name : Bytes) : Bool := hs.any fun h => headerNameEquals h.name name

def get (hs : HttpHeaders) (name : Bytes) : Option Bytes :=
  (hs.find? fun h => headerNameEquals h.name name).map HttpHeader.value

def getAll (hs : HttpHeaders) (name : Bytes) : List Bytes :=
  (hs.filter fun h => headerNameEquals h.name name).map HttpHeader.value

theorem get_eq_head_getAll (hs : HttpHeaders) (name : Bytes) :
    hs.get name = (hs.getAll name).head? := by
  simp [get, getAll]

section lookup

variable (hs : HttpHeaders) (name value : Bytes)

theorem getAll_set_self : (hs.set name value).getAll name = value :: (hs.getAll name).tail := by
  induction hs with
  | nil => simp [set, getAll, headerNameEquals_self]
  | cons h hs ih =>
    unfold set
    by_cases hn : headerNameEquals h.name name = true
    · simp [getAll, hn]
    · rw [if_neg hn]
      simpa [getAll, hn] using ih

theorem getAll_set_of_length_ne {name' : Bytes} (hl : name.length ≠ name'.length) :
    (hs.set name value).getAll name' = hs.getAll name' := by
  induction hs with
  | nil => simp [set, getAll, headerNameEquals_of_length_ne hl]
  | cons h hs ih =>
    unfold set
    by_cases hn : headerNameEquals h.name name = true
    · have hn' : headerNameEquals h.name name' = false :=
        headerNameEquals_of_length_ne fun he => hl ((length_eq_of_headerNameEquals hn).symm.trans he)
      simp [getAll, hn, hn']
    · rw [if_neg hn]
      simp only [getAll, List.filter_cons] at ih ⊢
      split_ifs <;> simp [ih]

end lookup

variable {hs : HttpHeaders} {name : Bytes}

theorem set_of_not_isset (h : hs.isset name = false) (value : Bytes) :
    hs.set name value = hs.add name value := by
  induction hs with
  | nil => rfl
  | cons x hs ih =>
    simp only [isset, List.any_cons, Bool.or_eq_false_iff] at h
    rw [set, if_neg (by simp [h.1]), ih h.2]
    rfl

theorem set_append (h : hs.isset name = true) (value : Bytes)
    (hs' : HttpHeaders) : HttpHeaders.set (hs ++ hs') name value = hs.set name value ++ hs' := by
  induction hs with
  | nil => cases h
  | cons x hs ih =>
    rw [List.cons_append, set, set]
    split_ifs with hx
    · rfl
    · simp only [isset, List.any_cons, Bool.eq_false_iff.mpr hx, Bool.false_or] at h
      rw [ih h]
      rfl

theorem isset_eq_true_iff : hs.isset name = true ↔ hs.getAll name ≠ [] := by
  simp [isset, getAll]

theorem getAll_eq_nil_iff : hs.getAll name = [] ↔ hs.isset name = false := by
  rw [Bool.eq_false_iff, ne_eq, isset_eq_true_iff, not_not]

theorem getAll_append (hs hs' : HttpHeaders) (name : Bytes) :
    HttpHeaders.getAll (hs ++ hs') name = hs.getAll name ++ hs'.getAll name := by
  simp [getAll]

theorem isset_set_of_length_ne {name' : Bytes} (value : Bytes)
    (h : name.length ≠ name'.length) : (hs.set name value).isset name' = hs.isset name' := by
  rw [Bool.eq_iff_iff, isset_eq_true_iff, isset_eq_true_iff, getAll_set_of_length_ne _ _ _ h]

end HttpHeaders

end Nhttp.Protocol
