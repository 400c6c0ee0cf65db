import Nhttp.Server.Extensions.StaticContent
import Nhttp.Server.Extensions.Vpath

/-!
# Files below a directory

* `Overlay`: the extension, over a file system given by `Files`; `resolvePath`: `resolve` without its cache.
* `acceptor_congr`: scopes and overlays only look at the subpath, and overlays only at its normal form.
* **`path_spellings_iff`**: which spellings of a path get into the scopes mounted on its normal form.
-/

namespace Nhttp.Server

open Octets List

/-- The file system, and what is served from it. -/
structure Files where
  stat : Bytes → FileInfo
  /-- `file_stream::open` and `serve_stream_conditionally`; `none` if the file cannot be opened. -/
  serve : Request → Bytes → FileInfo → Option Response

/-- `overlay`; `address` stands for the identity of the object. -/
structure Overlay where
  address : ℕ
  baseDir : Bytes
  indexFile : Bytes
  priority : ℕ := 0xE0000000

namespace Overlay

variable {τ : Type}

/-- `base_dir_`: the constructor removes one slash at the end, as that of `vpath` does. -/
def directory (o : Overlay) : Bytes := mountedAt o.baseDir

def locate (o : Overlay) (fs : Files) (qualified : Bytes) : Bytes × FileInfo :=
  let fsPath := if qualified ≠ [] then o.directory ++ [0x2f] ++ qualified else o.directory
  let info := fs.stat fsPath
  if info.kind = .directory then
    let indexPath := (if fsPath ≠ [] ∧ fsPath.getLast? ≠ some 0x2f then fsPath ++ [0x2f] else fsPath) ++ o.indexFile
    (indexPath, fs.stat indexPath)
  else (fsPath, info)

def resolvePath (o : Overlay) (fs : Files) (subpath : Bytes) : Option (Bytes × FileInfo) :=
  match qualifyRelativePath subpath with
  | none => none
  | some qualified =>
    let (fsPath, info) := o.locate fs qualified
    if info.kind ≠ .regularFile then none else some (fsPath, info)

/-- `resolve`, with the cache of the request. -/
def resolve (o : Overlay) (fs : Files) (x : Exchange τ) : Option (Bytes × FileInfo) × Exchange τ :=
  match x.resolveCache with
  | some cache =>
    if cache.owner = o.address then (cache.value, x)
    else
      let value := o.resolvePath fs x.subpathOf
      (value, { x with resolveCache := some ⟨o.address, value⟩ })
  | none =>
    let value := o.resolvePath fs x.subpathOf
    (value, { x with resolveCache := some ⟨o.address, value⟩ })

def extension (o : Overlay) (fs : Files) : Extension τ where
  priority := o.priority
  wants x :=
    if x.request.resource.method.name ≠ ascii "GET" ∧ x.request.resource.method.name ≠ ascii "HEAD" then (false, x)
    -- a path that leaves the directory is claimed, for a definitive answer
    else if qualifyRelativePath x.subpathOf = none then (true, x)
    else
      let (value, x) := o.resolve fs x
      (value.isSome, x)
  handle x :=
    if qualifyRelativePath x.subpathOf = none then (makeResponse 403, x)
    else
      match o.resolve fs x with
      | (none, x) => (makeResponse 404, x)
      | (some (fsPath, info), x) => ((fs.serve x.request fsPath info).getD (makeResponse 404), x)

end Overlay

variable {τ : Type} {fs : Files}

/-! ## Scopes -/

variable {b p p' : Bytes} {x : Exchange τ}

theorem vpath_wants_root (h : mountedAt b = [0x2f]) (prio : ℕ) (nested : List (Extension τ))
    (x : Exchange τ) : ((vpath b prio nested).wants x).1 = true :=
  (pathHasPrefix_iff _ _).mpr (.inr (.inl h))

theorem vpath_wants_iff (hb : b.head? = some 0x2f) (hroot : mountedAt b ≠ [0x2f]) (prio : ℕ)
    (nested : List (Extension τ)) (x : Exchange τ) :
    ((vpath b prio nested).wants x).1 = true ↔ Below 0x2f (comparedPrefix (mountedAt b)) x.subpathOf := by
  obtain h | ⟨hne, -⟩ := base_cases hb
  · exact absurd h hroot
  · refine (pathHasPrefix_iff _ _).trans ?_
    rw [or_iff_right hne, or_iff_right hroot]

theorem below_comparedPrefix (m : Bytes) : Below 0x2f (comparedPrefix m) m := by
  by_cases hl : m.getLast? = some 0x2f
  · obtain ⟨v, rfl⟩ := getLast?_eq_some_iff.mp hl
    rw [comparedPrefix_concat]
    exact .inr prefix_rfl
  · rw [comparedPrefix_of_last hl]
    exact .refl m

theorem head_mountedAt (hb : b.head? = some 0x2f) : (mountedAt b).head? = some 0x2f := by
  obtain h | ⟨-, -, hk, -⟩ := base_cases hb
  · rw [h]
    rfl
  · obtain ⟨t, ht, -⟩ := Below.below_iff.mp (below_comparedPrefix (mountedAt b))
    rw [ht, head?_append, hk]
    rfl

/-! ## Spellings of one path -/

/-- Whenever an overlay resolves the path to a file below a base, the scope mounted there takes the request. -/
def Guarded (p : Bytes) : Prop :=
  ∀ (τ : Type) (fs : Files) (o : Overlay) (b : Bytes) (prio : ℕ) (nested : List (Extension τ)) (x : Exchange τ)
    (q : Bytes), b.head? = some 0x2f → x.subpathOf = p → x.resolveCache = none →
    (o.resolve fs x).1.isSome → qualifyRelativePath p = some q → Below 0x2f (mountedAt b).tail q →
    ((vpath b prio nested).wants x).1 = true

inductive IsMount (fs : Files) : Extension τ → Prop
  | vpath (b : Bytes) (prio : ℕ) (nested : List (Extension τ)) : b.head? = some 0x2f →
      IsMount fs (vpath b prio nested)
  | overlay (o : Overlay) : IsMount fs (o.extension fs)

/-- Every registry of scopes and overlays hands requests for the two paths to the same extension. -/
def DispatchedAlike (p p' : Bytes) : Prop :=
  ∀ (τ : Type) (fs : Files) (extensions : List (Extension τ)) (x x' : Exchange τ),
    (∀ e ∈ extensions, IsMount fs e) → x.subpathOf = p → x'.subpathOf = p' →
    x.request.resource.method = x'.request.resource.method → x.resolveCache = x'.resolveCache →
    acceptor extensions x = acceptor extensions x'

def allFiles : Files where
  stat _ := { kind := .regularFile }
  serve _ _ _ := some {}

theorem resolve_allFiles (o : Overlay) {q : Bytes} (hq : qualifyRelativePath x.subpathOf = some q)
    (hc : x.resolveCache = none) : (o.resolve allFiles x).1.isSome := by
  simp only [Overlay.resolve, hc, Overlay.resolvePath, hq]
  rfl

theorem guarded_iff (p : Bytes) :
    Guarded p ↔ ∀ q, qualifyRelativePath p = some q → q = [] ∨ Below 0x2f (0x2f :: q) p := by
  constructor
  · -- the scope at the whole normal form
    intro h q hq
    by_cases hne : q = []
    · exact .inl hne
    have hlast : (0x2f :: q).getLast? ≠ some 0x2f := by
      have : (0x2f :: q).getLast? = q.getLast? := getLast?_append_of_ne_nil [0x2f] hne
      rw [this]
      exact getLast_of_qualifyRelativePath hq
    have hm := mountedAt_of_last hlast
    have hroot : mountedAt (0x2f :: q) ≠ [0x2f] := by
      rw [hm]
      simpa using hne
    have hw := h Unit allFiles ⟨0, [], [], 0⟩ (0x2f :: q) 0 [] (requestFor p ()) q rfl rfl rfl
      (resolve_allFiles _ hq rfl) hq (by rw [hm]; exact .refl q)
    rw [vpath_wants_iff rfl hroot, hm, comparedPrefix_of_last hlast] at hw
    exact .inr hw
  · intro h τ fs o b prio nested x q hb hx _ _ hq hbelow
    by_cases hroot : mountedAt b = [0x2f]
    · exact vpath_wants_root hroot prio nested x
    rw [vpath_wants_iff hb hroot, hx]
    have hhead : mountedAt b = 0x2f :: (mountedAt b).tail := (cons_head?_tail (head_mountedAt hb)).symm
    obtain rfl | hp := h q hq
    · have hle := hbelow.length_le
      rw [length_nil, Nat.le_zero, length_eq_zero_iff] at hle
      rw [hle] at hhead
      exact absurd hhead hroot
    · refine (below_comparedPrefix _).trans (Below.trans ?_ hp)
      rw [hhead]
      exact hbelow.append_left [0x2f]

/-! ## Dispatching -/

theorem Overlay.resolve_congr (o : Overlay) (fs : Files) {x' : Exchange τ}
    (hq : qualifyRelativePath x.subpathOf = qualifyRelativePath x'.subpathOf)
    (hc : x.resolveCache = x'.resolveCache) :
    ∃ value cache, o.resolve fs x = (value, { x with resolveCache := cache }) ∧
      o.resolve fs x' = (value, { x' with resolveCache := cache }) := by
  have hpath : o.resolvePath fs x.subpathOf = o.resolvePath fs x'.subpathOf := by
    unfold resolvePath
    rw [hq]
  unfold resolve
  rw [hpath, ← hc]
  cases hcache : x.resolveCache with
  | none => exact ⟨_, _, rfl, rfl⟩
  | some cache =>
    dsimp only
    split_ifs
    · refine ⟨cache.value, some cache, ?_, ?_⟩
      · rw [← hcache]
      · rw [← hcache, hc]
    · exact ⟨_, _, rfl, rfl⟩

/-- Scopes and overlays look at the subpath, the method and the cache only. -/
theorem acceptor_congr (hq : qualifyRelativePath p = qualifyRelativePath p')
    (hpre : ∀ b : Bytes, b.head? = some 0x2f → pathHasPrefix p (mountedAt b) = pathHasPrefix p' (mountedAt b)) :
    DispatchedAlike p p' := by
  intro τ fs extensions x x' hmount hx hx' hmethod hcache
  induction extensions generalizing x x' with
  | nil => rfl
  | cons e extensions ih =>
    have hrest := fun e he => hmount e (mem_cons_of_mem _ he)
    cases hmount e mem_cons_self with
    | vpath b prio nested hb =>
      have hw : (vpath b prio nested).wants x = (pathHasPrefix p (mountedAt b), x) := by rw [← hx]; rfl
      have hw' : (vpath b prio nested).wants x' = (pathHasPrefix p (mountedAt b), x') := by
        rw [hpre b hb, ← hx']
        rfl
      rw [acceptor, acceptor, hw, hw']
      cases pathHasPrefix p (mountedAt b) with
      | true => rfl
      | false => exact congrArg (Option.map (· + 1)) (ih x x' hrest hx hx' hmethod hcache)
    | overlay o =>
      rw [acceptor, acceptor]
      obtain ⟨value, cache, hr, hr'⟩ := o.resolve_congr fs (by rw [hx, hx', hq]) hcache
      simp only [Overlay.extension, ← hmethod, hx, hx', ← hq, hr, hr']
      split_ifs
      · exact congrArg (Option.map (· + 1)) (ih x x' hrest hx hx' hmethod hcache)
      · rfl
      · cases value.isSome with
        | true => rfl
        | false =>
          exact congrArg (Option.map (· + 1))
            (ih { x with resolveCache := cache } { x' with resolveCache := cache } hrest hx hx' hmethod rfl)

theorem DispatchedAlike.symm (h : DispatchedAlike p p') : DispatchedAlike p' p :=
  fun τ fs extensions x x' hm hx hx' hmethod hcache =>
    (h τ fs extensions x' x hm hx' hx hmethod.symm hcache.symm).symm

theorem not_dispatchedAlike (hp : p.head? = some 0x2f) (hne : ¬Below 0x2f p p') :
    ¬DispatchedAlike p p' := by
  intro h
  have hm : mountedAt (p ++ [0x2f, 0x2f]) = p ++ [0x2f] := by
    have := mountedAt_concat (show p ++ [0x2f] ≠ [] by simp)
    rwa [append_assoc] at this
  have hne' : p ≠ [] := by
    rintro rfl
    cases hp
  have hb : (p ++ [0x2f, 0x2f]).head? = some 0x2f := by rwa [head?_append_of_ne_nil _ hne']
  have hroot : mountedAt (p ++ [0x2f, 0x2f]) ≠ [0x2f] := by
    rw [hm]
    simpa using hne'
  have hiff : ∀ path, ((vpath (p ++ [0x2f, 0x2f]) 0 []).wants (requestFor path ())).1 = true ↔ Below 0x2f p path := by
    intro path
    rw [vpath_wants_iff hb hroot, hm, comparedPrefix_concat]
    rfl
  have hw := (hiff p).mpr (.refl p)
  have hw' : ((vpath (p ++ [0x2f, 0x2f]) 0 []).wants (requestFor p' ())).1 = false :=
    Bool.eq_false_iff.mpr fun h => hne ((hiff p').mp h)
  have halike := h Unit allFiles [vpath (p ++ [0x2f, 0x2f]) 0 []] (requestFor p ()) (requestFor p' ())
    (fun e he => by rw [mem_singleton.mp he]; exact .vpath _ _ _ hb) rfl rfl rfl rfl
  rw [acceptor, acceptor, ← Prod.eta ((vpath _ 0 []).wants (requestFor p ())), hw,
    ← Prod.eta ((vpath _ 0 []).wants (requestFor p' ())), hw'] at halike
  cases halike

theorem dispatchedAlike_iff (h : qualifyRelativePath p = qualifyRelativePath p') :
    DispatchedAlike p p' ↔ p = p' ∨ (p.head? ≠ some 0x2f ∧ p'.head? ≠ some 0x2f) := by
  constructor
  · intro halike
    have key : ∀ {p p' : Bytes}, DispatchedAlike p p' → p ≠ p' → p.head? ≠ some 0x2f := by
      intro p p' halike hne hp
      have hbelow : Below 0x2f p p' := not_not.mp fun hb => not_dispatchedAlike hp hb halike
      have hp' : p'.head? = some 0x2f := by
        obtain ⟨t, rfl, -⟩ := Below.below_iff.mp hbelow
        rw [head?_append, hp]
        rfl
      exact not_dispatchedAlike hp' (fun hb => hne (hbelow.antisymm hb)) halike.symm
    by_cases hne : p = p'
    · exact .inl hne
    · exact .inr ⟨key halike hne, key halike.symm (Ne.symm hne)⟩
  · rintro (rfl | ⟨hp, hp'⟩)
    · exact acceptor_congr h fun _ _ => rfl
    · refine acceptor_congr h fun b hb => ?_
      have hrel : ∀ {path : Bytes}, path.head? ≠ some 0x2f →
          (pathHasPrefix path (mountedAt b) = true ↔ mountedAt b = [0x2f]) := by
        intro path hpath
        obtain hroot | ⟨hne, hroot, hk, -⟩ := base_cases hb
        · exact iff_of_true ((pathHasPrefix_iff _ _).mpr (.inr (.inl hroot))) hroot
        · rw [pathHasPrefix_iff, or_iff_right hne]
          refine or_iff_left fun hbelow => hpath ?_
          obtain ⟨t, rfl, -⟩ := Below.below_iff.mp hbelow
          rw [head?_append, hk]
          rfl
      rw [Bool.eq_iff_iff, hrel hp, hrel hp']

/-- **Spellings of a path.** A path is caught by the scopes below which its file lies exactly if it begins with the
normal form; two spellings are always dispatched alike exactly if they are equal, or only the root can take them. -/
theorem path_spellings_iff {p p' : Bytes} (h : qualifyRelativePath p = qualifyRelativePath p') :
    (Guarded p ↔ ∀ q, qualifyRelativePath p = some q → q = [] ∨ Below 0x2f (0x2f :: q) p) ∧
      (DispatchedAlike p p' ↔ p = p' ∨ (p.head? ≠ some 0x2f ∧ p'.head? ≠ some 0x2f)) :=
  ⟨guarded_iff p, dispatchedAlike_iff h⟩

theorem path_spellings_admin :
    qualifyRelativePath (ascii "/admin/y/") = qualifyRelativePath (ascii "/admin/y") ∧
      Guarded (ascii "/admin/y/") ∧ ¬DispatchedAlike (ascii "/admin/y/") (ascii "/admin/y") := by
  have hq : qualifyRelativePath (ascii "/admin/y/") = some (ascii "admin/y") := by decide
  have hsame : qualifyRelativePath (ascii "/admin/y/") = qualifyRelativePath (ascii "/admin/y") := by decide
  obtain ⟨hguard, halike⟩ := path_spellings_iff hsame
  refine ⟨hsame, hguard.mpr fun q h => ?_, fun h => ?_⟩
  · rw [hq] at h
    cases h
    exact .inr (by decide)
  · exact absurd (halike.mp h) (by decide)

/-- Files below `/srv`, and a scope on `/admin` with a better priority. -/
def srvOverlay : Overlay := ⟨0, ascii "/srv", ascii "index.html", 1⟩

def adminRegistry : List (Extension Unit) :=
  registryAdd (registryAdd [] (srvOverlay.extension allFiles)) (vpath (ascii "/admin") 0 [])

theorem doubled_slash_bypasses :
    (srvOverlay.resolve allFiles (requestFor (ascii "//admin/x") ())).1 =
      some (ascii "/srv/admin/x", { kind := .regularFile }) ∧
    qualifyRelativePath (ascii "//admin/x") = qualifyRelativePath (ascii "/admin/x") ∧
    qualifyRelativePath (ascii "//admin/x") = some (ascii "admin/x") ∧
    acceptor adminRegistry (requestFor (ascii "/admin/x") ()) = some 0 ∧
    acceptor adminRegistry (requestFor (ascii "//admin/x") ()) = some 1 := by
  decide

end Nhttp.Server
