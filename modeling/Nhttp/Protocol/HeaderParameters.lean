import Nhttp.Protocol.Header

/-!
# Parameters of a header value

`parse_header_parameters`, which `mime_type` and the parts of a multipart body share. The text is cut at every
semicolon before anything else is looked at.

* `parseHeaderParameters`: the source; `writeParameters`: entries with quoted values.
* **`parameters_read_back_iff`**: written entries are read back exactly if no value contains a semicolon.
-/

namespace Nhttp.Protocol

open Octets List

/-! ## Maps -/

abbrev Parameters := TextMap

namespace Parameters

/-- A key that is there keeps its value. -/
def emplace (key value : Bytes) : Parameters → Parameters := TextMap.put true key value

def emplaceAll (entries : List (Bytes × Bytes)) (q : Parameters) : Parameters :=
  entries.foldl (fun q e => q.emplace e.1 e.2) q

variable {q : Parameters} {key value : Bytes} {p : Bytes × Bytes}

theorem mem_emplace_of_mem (h : p ∈ q) : p ∈ q.emplace key value := by
  unfold emplace
  fun_induction TextMap.put true key value q with
  | case1 => cases h
  | case2 => exact h
  | case3 => exact mem_cons_of_mem _ h
  | case4 k v m _ _ ih =>
    obtain rfl | h := mem_cons.mp h
    · exact mem_cons_self
    · exact mem_cons_of_mem _ (ih h)

theorem mem_emplace_self (h : ∀ p ∈ q, p.1 ≠ key) : (key, value) ∈ q.emplace key value := by
  unfold emplace
  fun_induction TextMap.put true key value q with
  | case1 => exact mem_singleton_self _
  | case2 v m => exact absurd rfl (h _ mem_cons_self)
  | case3 => exact mem_cons_self
  | case4 k v m _ _ ih => exact mem_cons_of_mem _ (ih fun p hp => h p (mem_cons_of_mem _ hp))

theorem ordered_emplace (h : q.Ordered) (key value : Bytes) : (q.emplace key value).Ordered := h.put true key value

theorem nodup_of_ordered (h : q.Ordered) : q.Nodup := by
  refine h.imp ?_
  rintro a _ hlt rfl
  exact List.lt_irrefl _ hlt

theorem ext_of_ordered {q' : Parameters} (h : q.Ordered) (h' : q'.Ordered) (hmem : ∀ p, p ∈ q ↔ p ∈ q') : q = q' := by
  have hperm := (perm_ext_iff_of_nodup (nodup_of_ordered h) (nodup_of_ordered h')).mpr hmem
  exact hperm.eq_of_pairwise (fun a b _ _ hab hba => absurd hba (List.lt_asymm hab)) h h'

/-- Every entry has a key of its own. -/
def Distinct (entries : List (Bytes × Bytes)) : Prop := entries.Pairwise fun a b => a.1 ≠ b.1

theorem distinct_of_perm (h : q.Ordered) {entries : List (Bytes × Bytes)} (hperm : entries.Perm q) :
    Distinct entries := by
  refine (hperm.pairwise_iff fun hne => hne.symm).mpr (h.imp ?_)
  intro a b hlt heq
  rw [heq] at hlt
  exact List.lt_irrefl _ hlt

/-- **New entries** are added, and the map stays in order. -/
theorem emplaceAll_spec {entries : List (Bytes × Bytes)} (hd : Distinct entries) (hq : q.Ordered)
    (hnew : ∀ p ∈ q, ∀ e ∈ entries, p.1 ≠ e.1) :
    (q.emplaceAll entries).Ordered ∧ ∀ p, p ∈ q.emplaceAll entries ↔ p ∈ q ∨ p ∈ entries := by
  induction entries generalizing q with
  | nil => exact ⟨hq, fun p => by simp [emplaceAll]⟩
  | cons e entries ih =>
    obtain ⟨hhead, htail⟩ := pairwise_cons.mp hd
    have hfresh : ∀ p ∈ q, p.1 ≠ e.1 := fun p hp => hnew p hp e mem_cons_self
    have hstep : ∀ p ∈ q.emplace e.1 e.2, ∀ e' ∈ entries, p.1 ≠ e'.1 := by
      intro p hp e' he'
      obtain rfl | hp := TextMap.mem_of_mem_put hp
      · exact hhead e' he'
      · exact hnew p hp e' (mem_cons_of_mem _ he')
    obtain ⟨hord, hmem⟩ := ih htail (ordered_emplace hq e.1 e.2) hstep
    refine ⟨hord, fun p => (hmem p).trans ?_⟩
    have hiff : p ∈ q.emplace e.1 e.2 ↔ p = e ∨ p ∈ q := by
      refine ⟨TextMap.mem_of_mem_put, ?_⟩
      rintro (rfl | hp)
      · exact mem_emplace_self hfresh
      · exact mem_emplace_of_mem hp
    rw [hiff, mem_cons]
    tauto

theorem emplaceAll_of_perm (hq : q.Ordered) {entries : List (Bytes × Bytes)} (hperm : entries.Perm q) :
    emplaceAll entries [] = q := by
  obtain ⟨hord, hmem⟩ := emplaceAll_spec (q := []) (distinct_of_perm hq hperm) List.Pairwise.nil
    fun p hp => absurd hp not_mem_nil
  refine ext_of_ordered hord hq fun p => (hmem p).trans ?_
  rw [hperm.mem_iff]
  exact or_iff_right not_mem_nil

end Parameters

/-! ## The parser -/

/-- The quotes around a value are taken off. -/
def unquote (val : Bytes) : Bytes :=
  if 2 ≤ val.length ∧ val.head? = some 0x22 ∧ val.getLast? = some 0x22 then (val.drop 1).take (val.length - 2) else val

def addSegment (segment : Bytes) (out : Parameters) : Parameters :=
  if segment = [] then out
  else match cutAt 0x3d segment with
    | none => out
    | some (key, val) => if trim key = [] then out else out.emplace (trim key) (unquote (trim val))

/-- The loop of `parse_header_parameters`. -/
def parseParametersFrom (value : Bytes) (out : Parameters) : Parameters :=
  if value = [] then out
  else
    let segment := value.takeWhile (· ≠ 0x3b)
    parseParametersFrom (value.drop (segment.length + 1)) (addSegment (trim segment) out)
termination_by value.length
decreasing_by
  have := length_pos_iff.mpr ‹¬value = []›
  rw [length_drop]
  omega

def parseHeaderParameters (value : Bytes) : Parameters := parseParametersFrom value []

/-- A part of a multipart body; its body is read through the reader. -/
structure MultipartPart where
  headers : HttpHeaders

namespace MultipartPart

def dispositionParameter (part : MultipartPart) (key : Bytes) : Option Bytes :=
  match part.headers.get (ascii "Content-Disposition") with
  | none => none
  | some disposition => (parseHeaderParameters disposition).lookup key

def name (part : MultipartPart) : Option Bytes := part.dispositionParameter (ascii "name")

def filename (part : MultipartPart) : Option Bytes := part.dispositionParameter (ascii "filename")

end MultipartPart

/-! ## Segments -/

theorem addSegment_trim_nil (out : Parameters) : addSegment (trim []) out = out := if_pos rfl

variable {segment name u : Bytes} {out : Parameters}

theorem addSegment_of_not_mem (h : 0x3d ∉ segment) (out : Parameters) :
    addSegment (trim segment) out = out := by
  have hcut : cutAt 0x3d (trim segment) = none := by
    exact cutAt_eq_none.mpr fun hmem => h ((trim_sublist segment).subset hmem)
  rw [addSegment, hcut]
  exact ite_self _

theorem mem_addSegment {p : Bytes × Bytes} (h : p ∈ out) (segment : Bytes) :
    p ∈ addSegment segment out := by
  unfold addSegment
  split_ifs
  · exact h
  · cases cutAt 0x3d segment with
    | none => exact h
    | some kv =>
      dsimp only
      split_ifs
      · exact h
      · exact Parameters.mem_emplace_of_mem h

theorem parseParametersFrom_segment (h : 0x3b ∉ segment) (rest : Bytes) (out : Parameters) :
    parseParametersFrom (segment ++ 0x3b :: rest) out = parseParametersFrom rest (addSegment (trim segment) out) := by
  have htake : (segment ++ 0x3b :: rest).takeWhile (· ≠ 0x3b) = segment := by
    have hpos : ∀ c ∈ segment, decide (c ≠ 0x3b) = true := fun c hc => decide_eq_true fun he => h (he ▸ hc)
    rw [takeWhile_append_of_pos hpos]
    simp
  have hdrop : (segment ++ 0x3b :: rest).drop (segment.length + 1) = rest := by
    rw [← drop_drop, drop_left]
    rfl
  rw [parseParametersFrom, if_neg (by simp)]
  dsimp only
  rw [htake, hdrop]

theorem parseParametersFrom_last (h : 0x3b ∉ segment) (out : Parameters) :
    parseParametersFrom segment out = addSegment (trim segment) out := by
  rw [parseParametersFrom]
  split_ifs with hnil
  · rw [hnil, addSegment_trim_nil]
  · have htake : segment.takeWhile (· ≠ 0x3b) = segment :=
      takeWhile_eq_self_iff.mpr fun c hc => decide_eq_true fun he => h (he ▸ hc)
    dsimp only
    rw [htake, drop_eq_nil_of_le (Nat.le_succ _), parseParametersFrom, if_pos rfl]

theorem mem_parseParametersFrom {p : Bytes × Bytes} (value : Bytes) (h : p ∈ out) :
    p ∈ parseParametersFrom value out := by
  fun_induction parseParametersFrom value out with
  | case1 => exact h
  | case2 value out _ segment ih => exact ih (mem_addSegment h _)

/-! ## Quoted values -/

/-- A name that survives the cuts; every token is one. -/
structure IsParameterName (name : Bytes) : Prop where
  ne_nil : name ≠ []
  semicolon : 0x3b ∉ name
  equals : 0x3d ∉ name
  blank : ∀ c ∈ name, isBlank c = false

theorem IsParameterName.trim (h : IsParameterName name) : Protocol.trim name = name :=
  trim_eq_self (fun c hc => h.blank c (mem_of_mem_head? hc)) fun c hc => h.blank c (mem_of_mem_getLast? hc)

/-- An entry as it is written after a semicolon. -/
def parameterText (e : Bytes × Bytes) : Bytes := 0x20 :: (e.1 ++ 0x3d :: 0x22 :: (e.2 ++ [0x22]))

def writeParameters (entries : List (Bytes × Bytes)) : Bytes := entries.flatMap fun e => 0x3b :: parameterText e

theorem unquote_quoted (v : Bytes) : unquote (0x22 :: (v ++ [0x22])) = v := by
  have hlast : (0x22 :: (v ++ [0x22])).getLast? = some (0x22 : UInt8) := by
    rw [← cons_append, getLast?_concat]
  rw [unquote, if_pos ⟨by simp, rfl, hlast⟩]
  simp

theorem unquote_open {v : Bytes} (h : 0x22 ∉ v) : unquote (0x22 :: v) = 0x22 :: v := by
  refine if_neg ?_
  rintro ⟨hlen, -, hlast⟩
  cases v with
  | nil => simp at hlen
  | cons c v =>
    exact h (mem_of_getLast? hlast)

theorem trim_append_cons {xs : Bytes} {c : UInt8} (hx : ∀ b ∈ xs.head?, isBlank b = false)
    (hc : isBlank c = false) : trim (xs ++ c :: u) = xs ++ c :: u.rdropWhile isBlank := by
  have hfront : (xs ++ c :: u).dropWhile isBlank = xs ++ c :: u := by
    cases xs with
    | nil => exact dropWhile_cons_of_neg (by rw [hc]; exact Bool.false_ne_true)
    | cons b xs => exact dropWhile_cons_of_neg (by rw [hx b rfl]; exact Bool.false_ne_true)
  rw [trim, hfront, List.rdropWhile, List.rdropWhile, reverse_append, reverse_cons, append_assoc,
    dropWhile_append]
  split_ifs with hu
  · rw [List.isEmpty_iff] at hu
    rw [hu, singleton_append, dropWhile_cons_of_neg (by rw [hc]; exact Bool.false_ne_true)]
    simp
  · simp

theorem addSegment_of_name (hname : IsParameterName name) (v : Bytes) (out : Parameters) :
    addSegment (name ++ 0x3d :: v) out = out.emplace name (unquote (trim v)) := by
  rw [addSegment, if_neg (by simp), cutAt_append_cons hname.equals]
  dsimp only
  rw [hname.trim, if_neg hname.ne_nil]

/-- **A whole entry** is added as it was written. -/
theorem addSegment_parameterText {e : Bytes × Bytes} (hname : IsParameterName e.1) (out : Parameters) :
    addSegment (trim (parameterText e)) out = out.emplace e.1 e.2 := by
  have hhead : ∀ b ∈ (e.1 ++ 0x3d :: 0x22 :: e.2).head?, isBlank b = false := by
    rw [head?_append_of_ne_nil _ hname.ne_nil]
    exact fun b hb => hname.blank b (mem_of_mem_head? hb)
  have htrim : trim (parameterText e) = e.1 ++ 0x3d :: (0x22 :: (e.2 ++ [0x22])) := by
    have := trim_append_cons (c := 0x22) (u := []) hhead rfl
    rw [parameterText, trim_blank_cons]
    simpa using this
  have hval : trim (0x22 :: (e.2 ++ [0x22])) = 0x22 :: (e.2 ++ [0x22]) := by
    refine trim_eq_self (fun c hc => ?_) fun c hc => ?_
    · cases hc
      rfl
    · rw [← cons_append, getLast?_concat] at hc
      cases hc
      rfl
  rw [htrim, addSegment_of_name hname, hval, unquote_quoted]

/-- **An entry cut off** at a semicolon leaves its opening quote in the map. -/
theorem mem_addSegment_cut (hname : IsParameterName name) (hu : 0x22 ∉ u) (hnew : ∀ p ∈ out, p.1 ≠ name) :
    ∃ v, (name, 0x22 :: v) ∈ addSegment (trim (0x20 :: (name ++ 0x3d :: 0x22 :: u))) out := by
  have hhead : ∀ b ∈ (name ++ [0x3d]).head?, isBlank b = false := by
    rw [head?_append_of_ne_nil _ hname.ne_nil]
    exact fun b hb => hname.blank b (mem_of_mem_head? hb)
  have htrim : trim (0x20 :: (name ++ 0x3d :: 0x22 :: u)) = name ++ 0x3d :: (0x22 :: u.rdropWhile isBlank) := by
    have := trim_append_cons (c := 0x22) (u := u) hhead rfl
    rw [trim_blank_cons]
    simpa using this
  have hval : trim (0x22 :: u.rdropWhile isBlank) = 0x22 :: (u.rdropWhile isBlank).rdropWhile isBlank :=
    trim_append_cons (show ∀ b ∈ ([] : Bytes).head?, isBlank b = false from fun b hb => by cases hb) rfl
  have hsub : ∀ w : Bytes, w.rdropWhile isBlank ⊆ w := by
    intro w
    have hpre := rdropWhile_prefix isBlank w
    exact hpre.subset
  have hopen : 0x22 ∉ (u.rdropWhile isBlank).rdropWhile isBlank := fun hmem => hu (hsub u (hsub _ hmem))
  refine ⟨(u.rdropWhile isBlank).rdropWhile isBlank, ?_⟩
  rw [htrim, addSegment_of_name hname, hval, unquote_open hopen]
  exact Parameters.mem_emplace_self hnew

/-! ## Written entries -/

variable {entries : List (Bytes × Bytes)}

theorem parseParametersFrom_write (hnames : ∀ e ∈ entries, IsParameterName e.1)
    (hsemi : ∀ e ∈ entries, 0x3b ∉ e.2) (h : 0x3b ∉ segment) (out : Parameters) :
    parseParametersFrom (segment ++ writeParameters entries) out =
      (addSegment (trim segment) out).emplaceAll entries := by
  induction entries generalizing segment out with
  | nil =>
    rw [writeParameters, flatMap_nil, append_nil, parseParametersFrom_last h]
    rfl
  | cons e entries ih =>
    obtain ⟨hname, hnames⟩ := forall_mem_cons.mp hnames
    obtain ⟨hvalue, hsemi⟩ := forall_mem_cons.mp hsemi
    have htext : 0x3b ∉ parameterText e := by
      simp [parameterText, hname.semicolon, hvalue]
    rw [writeParameters, flatMap_cons, cons_append, parseParametersFrom_segment h]
    refine (ih hnames hsemi htext _).trans ?_
    rw [addSegment_parameterText hname]
    rfl

/-- The first entry with a semicolon in its value leaves an opening quote. -/
theorem exists_quote_of_semicolon (hnames : ∀ e ∈ entries, IsParameterName e.1)
    (hquotes : ∀ e ∈ entries, 0x22 ∉ e.2) (hd : Parameters.Distinct entries)
    (hsemi : ∃ e ∈ entries, 0x3b ∈ e.2) (h : 0x3b ∉ segment)
    (hnew : ∀ p ∈ addSegment (trim segment) out, ∀ e ∈ entries, p.1 ≠ e.1) :
    ∃ p ∈ parseParametersFrom (segment ++ writeParameters entries) out, 0x22 ∈ p.2 := by
  induction entries generalizing segment out with
  | nil =>
    obtain ⟨e, he, -⟩ := hsemi
    cases he
  | cons e entries ih =>
    obtain ⟨hname, hnames⟩ := forall_mem_cons.mp hnames
    obtain ⟨hquote, hquotes⟩ := forall_mem_cons.mp hquotes
    obtain ⟨hhead, htail⟩ := pairwise_cons.mp hd
    rw [writeParameters, flatMap_cons, cons_append, parseParametersFrom_segment h]
    by_cases hvalue : 0x3b ∈ e.2
    · obtain ⟨u, w, huw, hu⟩ := eq_append_cons_of_mem hvalue
      have hcut : 0x3b ∉ 0x20 :: (e.1 ++ 0x3d :: 0x22 :: u) := by
        simp [hname.semicolon, hu]
      have huq : 0x22 ∉ u := fun hmem => hquote (by rw [huw]; exact mem_append_left _ hmem)
      obtain ⟨v, hv⟩ := mem_addSegment_cut hname huq fun p hp => hnew p hp e mem_cons_self
      refine ⟨(e.1, 0x22 :: v), ?_, mem_cons_self⟩
      have htext : parameterText e ++ writeParameters entries =
          (0x20 :: (e.1 ++ 0x3d :: 0x22 :: u)) ++ 0x3b :: (w ++ [0x22] ++ writeParameters entries) := by
        simp [parameterText, huw]
      rw [← writeParameters, htext, parseParametersFrom_segment hcut]
      exact mem_parseParametersFrom _ hv
    · have htext : 0x3b ∉ parameterText e := by
        simp [parameterText, hname.semicolon, hvalue]
      refine ih hnames hquotes htail ?_ htext fun p hp e' he' => ?_
      · obtain ⟨e', he', hmem⟩ := hsemi
        obtain rfl | he' := mem_cons.mp he'
        · exact absurd hmem hvalue
        · exact ⟨e', he', hmem⟩
      · rw [addSegment_parameterText hname] at hp
        obtain rfl | hp := TextMap.mem_of_mem_put hp
        · exact hhead e' he'
        · exact hnew p hp e' (mem_cons_of_mem _ he')

/-- **Written entries are read back** exactly if no value contains a semicolon. -/
theorem parameters_read_back_iff {q : Parameters} (hq : q.Ordered) (hnames : ∀ e ∈ q, IsParameterName e.1)
    (hquotes : ∀ e ∈ q, 0x22 ∉ e.2) (hentries : entries.Perm q) {lead : Bytes} (heq : 0x3d ∉ lead)
    (hsemi : 0x3b ∉ lead) :
    (parseHeaderParameters (lead ++ writeParameters entries) = q ∧
      ∀ part : MultipartPart,
        part.headers.get (ascii "Content-Disposition") = some (lead ++ writeParameters entries) →
          part.name = q.lookup (ascii "name") ∧ part.filename = q.lookup (ascii "filename")) ↔
      ∀ e ∈ q, 0x3b ∉ e.2 := by
  have hnames' : ∀ e ∈ entries, IsParameterName e.1 := fun e he => hnames e (hentries.mem_iff.mp he)
  have hlead : addSegment (trim lead) [] = [] := addSegment_of_not_mem heq []
  constructor
  · rintro ⟨hparse, -⟩
    by_contra hbad
    push Not at hbad
    obtain ⟨e, he, hmem⟩ := hbad
    have hnew : ∀ p ∈ addSegment (trim lead) [], ∀ e ∈ entries, p.1 ≠ e.1 := by
      rw [hlead]
      exact fun p hp => absurd hp not_mem_nil
    obtain ⟨p, hp, hquote⟩ := exists_quote_of_semicolon hnames'
      (fun e he => hquotes e (hentries.mem_iff.mp he)) (Parameters.distinct_of_perm hq hentries)
      ⟨e, hentries.mem_iff.mpr he, hmem⟩ hsemi hnew
    rw [← parseHeaderParameters, hparse] at hp
    exact hquotes p hp hquote
  · intro hvalues
    have hparse : parseHeaderParameters (lead ++ writeParameters entries) = q := by
      rw [parseHeaderParameters, parseParametersFrom_write hnames'
        (fun e he => hvalues e (hentries.mem_iff.mp he)) hsemi, hlead, Parameters.emplaceAll_of_perm hq hentries]
    refine ⟨hparse, fun part hpart => ?_⟩
    rw [MultipartPart.name, MultipartPart.filename, MultipartPart.dispositionParameter,
      MultipartPart.dispositionParameter, hpart]
    dsimp only
    rw [hparse]
    exact ⟨rfl, rfl⟩

def reportEntries : Parameters := [(ascii "filename", ascii " a = b.txt"), (ascii "name", ascii "report")]

theorem parameters_read_back_report :
    parseHeaderParameters (ascii "form-data; name=\"report\"; filename=\" a = b.txt\"") = reportEntries := by
  have hnames : ∀ e ∈ reportEntries, IsParameterName e.1 := by
    simp only [reportEntries, forall_mem_cons]
    exact ⟨⟨by decide, by decide, by decide, by decide +kernel⟩,
      ⟨by decide, by decide, by decide, by decide +kernel⟩, by simp⟩
  have hread := parameters_read_back_iff (q := reportEntries)
    (by decide) hnames (by decide) (reverse_perm reportEntries)
    (show 0x3d ∉ ascii "form-data" by decide) (by decide)
  exact (hread.mpr (by decide)).1

/-- A client may choose a file name with a semicolon. -/
theorem parameters_cut_at_semicolon :
    parseHeaderParameters (ascii "form-data; filename=\"a;b\"") = [(ascii "filename", ascii "\"a")] ∧
      (MultipartPart.mk [⟨ascii "Content-Disposition", ascii "form-data; filename=\"a;b\""⟩]).filename =
        some (ascii "\"a") := by
  decide +kernel

end Nhttp.Protocol
