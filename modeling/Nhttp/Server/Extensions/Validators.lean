import Nhttp.Protocol.ChunkedBody
import Nhttp.Server.Extensions.Ranges

/-!
# Validators

A client sends the `ETag` and the `Last-Modified` date of a response back with later requests.

* `makeEtag_injective`: tags of different files differ.
* `serveFile`: the engine with the tag that the extensions compute.
* **`copied_validators`**: copied validators are recognised while the file is the same, and its tag is not
  after it has changed.
-/

namespace Nhttp.Server

open Octets Reading Protocol Io Option

/-! ## Tags -/

theorem isHex_hexNumeral (n : ℕ) : IsHex (hexNumeral n) := by
  unfold hexNumeral
  split_ifs
  · decide +kernel
  · exact isHex_hexDigits n

theorem hexNumber_hexNumeral (n : ℕ) : hexNumber 0 (hexNumeral n) = n := by
  unfold hexNumeral
  split_ifs with h
  · rw [h]
    rfl
  · exact hexNumber_hexDigits n

theorem hexNumeral_injective : Function.Injective hexNumeral := fun a b h => by
  rw [← hexNumber_hexNumeral a, h, hexNumber_hexNumeral]

theorem not_mem_hexNumeral {c : UInt8} (h : hexValue c = none) (n : ℕ) : c ∉ hexNumeral n := fun hc => by
  have := isHex_hexNumeral n c hc
  rw [h] at this
  exact Bool.false_ne_true this

variable (mtime size : ℤ)

theorem makeEtag_eq :
    makeEtag mtime size = 0x22 :: 0x6e :: 0x68 :: 0x2d :: (hexNumeral (mtime % 2 ^ 64).toNat ++
      0x2d :: (hexNumeral (size % 2 ^ 64).toNat ++ [0x22])) := by
  unfold makeEtag
  rw [show ascii "\"nh-" = [0x22, 0x6e, 0x68, 0x2d] from rfl, show ascii "-" = [0x2d] from rfl,
    show ascii "\"" = [0x22] from rfl]
  simp only [List.cons_append, List.nil_append, List.append_assoc]

/-- **Tags of different files differ.** -/
theorem makeEtag_injective {mtime size mtime' size' : ℤ} (hm : -2 ^ 63 ≤ mtime ∧ mtime < 2 ^ 63)
    (hs : -2 ^ 63 ≤ size ∧ size < 2 ^ 63) (hm' : -2 ^ 63 ≤ mtime' ∧ mtime' < 2 ^ 63)
    (hs' : -2 ^ 63 ≤ size' ∧ size' < 2 ^ 63) (h : makeEtag mtime size = makeEtag mtime' size') :
    mtime = mtime' ∧ size = size' := by
  simp only [makeEtag_eq, List.cons.injEq, true_and] at h
  -- the second dash is the first one behind the head
  have hcut := cutAt_append_cons (not_mem_hexNumeral (c := 0x2d) rfl (mtime % 2 ^ 64).toNat)
    (hexNumeral (size % 2 ^ 64).toNat ++ [0x22])
  rw [h, cutAt_append_cons (not_mem_hexNumeral rfl _)] at hcut
  obtain ⟨h1, h2⟩ := Prod.mk.inj (Option.some.inj hcut)
  have e₁ := hexNumeral_injective h1
  have e₂ := hexNumeral_injective (List.append_cancel_right h2)
  omega

theorem not_mem_makeEtag {c : UInt8} (h : hexValue c = none) (hc : c ∉ ascii "\"nh-") :
    c ∉ makeEtag mtime size := by
  have hc' : c ≠ 0x22 ∧ c ≠ 0x6e ∧ c ≠ 0x68 ∧ c ≠ 0x2d := by
    simpa [show ascii "\"nh-" = [0x22, 0x6e, 0x68, 0x2d] from rfl] using hc
  rw [makeEtag_eq]
  simp [hc', not_mem_hexNumeral h]

theorem trimSpaces_of_not_mem {tok : Bytes} (h : 0x20 ∉ tok) : trimSpaces tok = tok := by
  have h1 : tok.dropWhile (· = 0x20) = tok := by
    cases tok with
    | nil => rfl
    | cons c tok =>
      refine List.dropWhile_cons_of_neg ?_
      simp only [decide_eq_true_eq]
      rintro rfl
      exact h List.mem_cons_self
  unfold trimSpaces
  rw [h1, List.rdropWhile_eq_self_iff]
  intro hne
  simp only [decide_eq_true_eq]
  intro hl
  exact h (hl ▸ List.getLast_mem hne)

theorem etagListContains_makeEtag (etag : Bytes) :
    etagListContains (makeEtag mtime size) etag = decide (makeEtag mtime size = etag) := by
  have hne : makeEtag mtime size ≠ [] := by
    exact List.cons_ne_nil _ _
  have hcut : cutAt 0x2c (makeEtag mtime size) = none :=
    cutAt_eq_none.mpr (not_mem_makeEtag mtime size rfl (by decide))
  rw [etagListContains, if_neg hne]
  split
  · rw [trimSpaces_of_not_mem (not_mem_makeEtag mtime size rfl (by decide))]
  · next h => exact absurd (hcut.symm.trans h) (some_ne_none _).symm

theorem head_makeEtag : (makeEtag mtime size).head? = some 0x22 := by
  rfl

theorem makeEtag_ne_star : makeEtag mtime size ≠ ascii "*" := by
  intro h
  cases h

theorem head_formatHttpDate (t : ℤ) : (formatHttpDate t).head? ≠ some 0x22 := by
  obtain ⟨-, -, -, -, -, hwday⟩ := Calendar.momentOf_bounds t
  unfold formatHttpDate
  dsimp only
  generalize (Calendar.momentOf t).weekday = wday at hwday ⊢
  interval_cases wday <;> exact fun h => absurd (Option.some.inj h) (by decide)

/-! ## Files -/

section serve

variable {σ : Type} [IoStream σ]

/-- How `overlay` and `single_file` call the engine. -/
def serveFile (req : Request) (content : σ) (size mtime : ℤ) (mime : Bytes) : Served σ :=
  serveStreamConditionally req content size mtime mime (makeEtag mtime size)

/-- The conditions of the request are values of the fields of `r`. -/
structure CopiedValidators (req : Request) (r : Served σ) : Prop where
  ifMatch : ∀ v ∈ req.headers.get (ascii "If-Match"), r.headers.get (ascii "ETag") = some v
  ifNoneMatch : ∀ v ∈ req.headers.get (ascii "If-None-Match"), r.headers.get (ascii "ETag") = some v
  ifModifiedSince : ∀ v ∈ req.headers.get (ascii "If-Modified-Since"), r.headers.get (ascii "Last-Modified") = some v
  ifRange : ∀ v ∈ req.headers.get (ascii "If-Range"),
    r.headers.get (ascii "ETag") = some v ∨ r.headers.get (ascii "Last-Modified") = some v

theorem validators_of_status {req : Request} {content : σ} {size mtime : ℤ} {mime etag : Bytes}
    (h : (serveStreamConditionally req content size mtime mime etag).status = 200) :
    (serveStreamConditionally req content size mtime mime etag).headers.get (ascii "ETag") = some etag ∧
      (serveStreamConditionally req content size mtime mime etag).headers.get (ascii "Last-Modified") =
        some (formatHttpDate mtime) := by
  by_cases hpre : Preconditions req mtime etag
  · by_cases hr : req.headers.get (ascii "Range") = none ∨ ¬IfRangeHolds req mtime etag
    · rw [serve_of_no_range hpre hr]
      unfold finalize
      cases req.isHead with
      | false => exact ⟨rfl, rfl⟩
      | true => exact ⟨rfl, rfl⟩
    · obtain ⟨hv, hr⟩ := not_or.mp hr
      obtain ⟨v, hv⟩ := ne_none_iff_exists'.mp hv
      rw [serve_of_range hpre hv (not_not.mp hr), status_finalize] at h
      unfold rangeResponse at h
      split_ifs at h
      · exact absurd h (show (416 : ℕ) ≠ 200 by decide)
      · exact absurd h (show (206 : ℕ) ≠ 200 by decide)
  · obtain ⟨status, hstatus, -, hserve⟩ := serve_of_not_preconditions hpre content size mime
    rw [hserve, status_finalize] at h
    change status = 200 at h
    omega

variable {req : Request} {mtime size : ℤ}

theorem ifRangeOk_copied (h0 : 0 ≤ mtime) (h : mtime ≤ 253402300799) {v : Bytes}
    (hv : makeEtag mtime size = v ∨ formatHttpDate mtime = v) : ifRangeOk v mtime (makeEtag mtime size) = true := by
  unfold ifRangeOk
  obtain rfl | rfl := hv
  · rw [if_pos (head_makeEtag mtime size)]
    exact decide_eq_true rfl
  · rw [if_neg (head_formatHttpDate mtime), parseHttpDate_formatHttpDate h0 h]
    exact decide_eq_true ⟨by omega, le_rfl⟩

theorem ifRangeOk_other {etag : Bytes} (h : makeEtag mtime size ≠ etag) (mtime' : ℤ) :
    ifRangeOk (makeEtag mtime size) mtime' etag = false := by
  unfold ifRangeOk
  exact decide_eq_false h

theorem CopiedValidators.values {σ : Type} {r : Served σ} (h : CopiedValidators req r)
    (hetag : r.headers.get (ascii "ETag") = some (makeEtag mtime size))
    (hdate : r.headers.get (ascii "Last-Modified") = some (formatHttpDate mtime)) :
    (∀ v ∈ req.headers.get (ascii "If-Match"), v = makeEtag mtime size) ∧
      (∀ v ∈ req.headers.get (ascii "If-None-Match"), v = makeEtag mtime size) ∧
      (∀ v ∈ req.headers.get (ascii "If-Modified-Since"), v = formatHttpDate mtime) ∧
      ∀ v ∈ req.headers.get (ascii "If-Range"), makeEtag mtime size = v ∨ formatHttpDate mtime = v := by
  refine ⟨fun v hv => ?_, fun v hv => ?_, fun v hv => ?_, fun v hv => ?_⟩
  · exact Option.some.inj ((h.ifMatch v hv).symm.trans hetag)
  · exact Option.some.inj ((h.ifNoneMatch v hv).symm.trans hetag)
  · exact Option.some.inj ((h.ifModifiedSince v hv).symm.trans hdate)
  · exact (h.ifRange v hv).imp (fun e => Option.some.inj (hetag.symm.trans e))
      fun e => Option.some.inj (hdate.symm.trans e)

theorem etagListContains_self (mtime size : ℤ) :
    etagListContains (makeEtag mtime size) (makeEtag mtime size) = true := by
  rw [etagListContains_makeEtag]
  exact decide_eq_true rfl

/-- **Validators.** While the file is the same, a request whose conditions are copied from an earlier response is
answered with 304 if it asks whether the file has changed, and with the range it asks for otherwise. After a change
the old tag neither leads to a 304 nor allows a range. -/
theorem copied_validators (req₀ : Request) (content₀ : σ) (size mtime : ℤ) (mime₀ : Bytes) (h₀ : 0 ≤ mtime)
    (h : mtime ≤ 253402300799) (hok : (serveFile req₀ content₀ size mtime mime₀).status = 200) :
    (∀ (req : Request) (content : σ) (mime : Bytes), req.isGet = true ∨ req.isHead = true →
      CopiedValidators req (serveFile req₀ content₀ size mtime mime₀) →
      (req.headers.get (ascii "If-None-Match") ≠ none → (serveFile req content size mtime mime).status = 304) ∧
      (req.headers.get (ascii "If-Modified-Since") ≠ none → (serveFile req content size mtime mime).status = 304) ∧
      (serveFile req content size mtime mime).status ≠ 412 ∧
      (req.headers.get (ascii "If-None-Match") = none → req.headers.get (ascii "If-Modified-Since") = none →
        ∀ v, req.headers.get (ascii "Range") = some v → Recognised v size →
        (parseRangeHeader (some v) size).satisfiable = true →
        (serveFile req content size mtime mime).status = 206 ∧
          (serveFile req content size mtime mime).headers.get (ascii "Content-Range") =
            some (contentRange (parseRangeHeader (some v) size).begin (parseRangeHeader (some v) size).last size))) ∧
    (∀ size' mtime' : ℤ, -2 ^ 63 ≤ size ∧ size < 2 ^ 63 → -2 ^ 63 ≤ size' ∧ size' < 2 ^ 63 →
      -2 ^ 63 ≤ mtime' ∧ mtime' < 2 ^ 63 → size' ≠ size ∨ mtime' ≠ mtime →
      ∀ (req : Request) (content : σ) (mime : Bytes),
        (req.headers.get (ascii "If-None-Match") = (serveFile req₀ content₀ size mtime mime₀).headers.get (ascii "ETag") →
          (serveFile req content size' mtime' mime).status ≠ 304) ∧
        (req.headers.get (ascii "If-Range") = (serveFile req₀ content₀ size mtime mime₀).headers.get (ascii "ETag") →
          serveFile req content size' mtime' mime = serveFile (withoutRange req) content size' mtime' mime ∧
          (serveFile req content size' mtime' mime).status ≠ 206)) := by
  obtain ⟨hetag, hdate⟩ := validators_of_status hok
  change (serveFile req₀ content₀ size mtime mime₀).headers.get _ = _ at hetag hdate
  constructor
  · intro req content mime hget hcopied
    obtain ⟨hmatch, hnone, hsince, hrange⟩ := hcopied.values hetag hdate
    have hpass : ∀ v ∈ req.headers.get (ascii "If-Match"),
        v = ascii "*" ∨ etagListContains v (makeEtag mtime size) = true := by
      intro v hv
      rw [hmatch v hv]
      exact .inr (etagListContains_self mtime size)
    have hfail : ¬Preconditions req mtime (makeEtag mtime size) → (serveFile req content size mtime mime).status = 304 := by
      intro hpre
      obtain ⟨status, -, hs, hserve⟩ := serve_of_not_preconditions hpre content size mime
      rw [serveFile, hserve, status_finalize]
      exact preconditionStatus_of_isGet hget hpass hs
    have hinm : req.headers.get (ascii "If-None-Match") ≠ none → ¬Preconditions req mtime (makeEtag mtime size) := by
      intro hne hpre
      obtain ⟨v, hv⟩ := ne_none_iff_exists'.mp hne
      have hno := (hpre.ifNoneMatch v hv).2
      rw [hnone v hv, etagListContains_self] at hno
      exact Bool.false_ne_true hno.symm
    refine ⟨fun hne => hfail (hinm hne), fun hne => hfail fun hpre => ?_, ?_, fun hinm' hims v hv _ hs => ?_⟩
    · by_cases hn : req.headers.get (ascii "If-None-Match") = none
      · obtain ⟨v, hv⟩ := ne_none_iff_exists'.mp hne
        have hold := hpre.ifModifiedSince hn v hv
        rw [hsince v hv, parseHttpDate_formatHttpDate h₀ h] at hold
        omega
      · exact hinm hn hpre
    · by_cases hpre : Preconditions req mtime (makeEtag mtime size)
      · have := status_of_preconditions hpre content size mime
        rw [serveFile]
        omega
      · rw [hfail hpre]
        decide
    · have hpre : Preconditions req mtime (makeEtag mtime size) := by
        refine ⟨hpass, fun w hw => ?_, fun _ w hw => ?_⟩
        · rw [hinm'] at hw
          cases hw
        · rw [hims] at hw
          cases hw
      have hserve := serve_of_range hpre hv (fun w hw => ifRangeOk_copied h₀ h (hrange w hw)) content size mime
      obtain ⟨hstatus, hcontent, -, -⟩ := finalize_rangeResponse req mtime (makeEtag mtime size) content size mime hs
      rw [serveFile, hserve]
      exact ⟨hstatus, hcontent⟩
  · intro size' mtime' hsize hsize' hmtime' hne req content mime
    have hother : makeEtag mtime size ≠ makeEtag mtime' size' := by
      intro he
      obtain ⟨hm, hs⟩ := makeEtag_injective ⟨by omega, by omega⟩ hsize hmtime' hsize' he
      omega
    rw [hetag]
    constructor
    · intro hinm hstatus
      by_cases hpre : Preconditions req mtime' (makeEtag mtime' size')
      · have := status_of_preconditions hpre content size' mime
        rw [serveFile] at hstatus
        omega
      · obtain ⟨status, -, hs, hserve⟩ := serve_of_not_preconditions hpre content size' mime
        rw [serveFile, hserve, status_finalize] at hstatus
        obtain rfl : status = 304 := hstatus
        refine preconditionStatus_ne_of_ifNoneMatch hinm (makeEtag_ne_star mtime size) ?_ hs
        rw [etagListContains_makeEtag]
        exact decide_eq_false hother
    · intro hif
      have hno : ¬(Preconditions req mtime' (makeEtag mtime' size') ∧ IfRangeHolds req mtime' (makeEtag mtime' size')) := by
        rintro ⟨-, hr⟩
        have := hr _ hif
        rw [ifRangeOk_other hother] at this
        exact Bool.false_ne_true this
      have hsame := (serve_withoutRange hno content size' mime).symm
      refine ⟨hsame, ?_⟩
      rw [serveFile, hsame]
      exact status_withoutRange_ne req content size' mtime' mime _

end serve

/-- A file of five octets, and the same file with one more. -/
theorem copied_validators_hello :
    (serveFile (getWith [⟨ascii "If-None-Match", makeEtag 0 5⟩]) helloStream 5 0
        (ascii "text/plain")).status = 304 ∧
      (serveFile (getWith [⟨ascii "If-None-Match", makeEtag 0 5⟩]) ({ data := ascii "hello!" } : MemoryStream) 6 0
        (ascii "text/plain")).status ≠ 304 := by
  obtain ⟨hsame, hchanged⟩ := copied_validators (getWith []) helloStream 5 0
    (ascii "text/plain") (by decide) (by decide) rfl
  constructor
  · refine (hsame _ _ _ (.inl rfl) ⟨fun v hv => ?_, fun v hv => ?_, fun v hv => ?_, fun v hv => ?_⟩).1 ?_
    · cases hv
    · exact hv
    · cases hv
    · cases hv
    · exact some_ne_none _
  · exact (hchanged 6 0 (by decide) (by decide) (by decide) (by decide) _ _ _).1 rfl

end Nhttp.Server
