import Nhttp.Server.Extensions.Qualified
import Nhttp.Server.Registry

/-!
# The cache of a resolved path

* `OverlayOp`: calls of overlays for one request, and the scopes it goes into and out of between them.
* `Faithful`: every call answers as it would without the cache.
* `Coherent`: an overlay that also resolved the last path is asked for the same one again.
* **`overlay_cache_iff`**: the sequences of calls that are faithful on every file system.
-/

namespace Nhttp.Server

open Octets Option Overlay

variable {τ : Type}

/-- What happens to a request between and in the overlays; these are given by their addresses. -/
inductive OverlayOp where
  | push (subpath : Bytes)
  | pop
  | wants (address : ℕ)
  | handle (address : ℕ)
deriving DecidableEq, Repr

/-- The request without what earlier calls have resolved. -/
def Exchange.uncached (x : Exchange τ) : Exchange τ := { x with resolveCache := none }

section

variable (objects : ℕ → Overlay)

def overlayAt (address : ℕ) : Overlay := { objects address with address := address }

namespace OverlayOp

/-- The answer, if the step is a call, and the request behind it. -/
def run (fs : Files) (x : Exchange τ) : OverlayOp → Option (Bool ⊕ Response) × Exchange τ
  | .push subpath => (none, x.push subpath)
  | .pop => (none, x.pop)
  | .wants a =>
    let (wanted, y) := ((overlayAt objects a).extension fs).wants x
    (some (.inl wanted), y)
  | .handle a =>
    let (r, y) := ((overlayAt objects a).extension fs).handle x
    (some (.inr r), y)

end OverlayOp

/-- Every call answers as it does on the request without the cache. -/
def Faithful (fs : Files) : List OverlayOp → Exchange τ → Prop
  | [], _ => True
  | op :: ops, x =>
    (op.run objects fs x).1 = (op.run objects fs x.uncached).1 ∧ Faithful fs ops (op.run objects fs x).2

end

namespace OverlayOp

/-- The overlay that a step makes look for a path, and the normal form of the path. -/
def resolves (x : Exchange τ) : OverlayOp → Option (ℕ × Bytes)
  | .push _ => none
  | .pop => none
  | .wants a =>
    if x.request.resource.method.name ≠ ascii "GET" ∧ x.request.resource.method.name ≠ ascii "HEAD" then none
    else (qualifyRelativePath x.subpathOf).map (a, ·)
  | .handle a => (qualifyRelativePath x.subpathOf).map (a, ·)

/-- Where a step takes the request. -/
def moves (x : Exchange τ) : OverlayOp → Exchange τ
  | .push subpath => x.push subpath
  | .pop => x.pop
  | .wants _ => x
  | .handle _ => x

end OverlayOp

/-- Where the overlay that is to look for a path has also been the last one to do so, it was the same path. -/
def Coherent (last : Option (ℕ × Bytes)) : List OverlayOp → Exchange τ → Prop
  | [], _ => True
  | op :: ops, x =>
    (∀ now ∈ op.resolves x, ∀ before ∈ last, before.1 = now.1 → before.2 = now.2) ∧
      Coherent ((op.resolves x).or last) ops (op.moves x)

/-! ## One call -/

namespace Overlay

def find (o : Overlay) (fs : Files) (q : Bytes) : Option (Bytes × FileInfo) :=
  if (o.locate fs q).2.kind ≠ .regularFile then none else some (o.locate fs q)

theorem resolvePath_eq {o : Overlay} {fs : Files} {p q : Bytes} (h : qualifyRelativePath p = some q) :
    o.resolvePath fs p = o.find fs q := by
  rw [resolvePath, h]
  rfl

/-- The answer of `handle` for what was found. -/
def served (fs : Files) (request : Request) : Option (Bytes × FileInfo) → Response
  | none => makeResponse 404
  | some (fsPath, info) => (fs.serve request fsPath info).getD (makeResponse 404)

section

variable (o : Overlay) (fs : Files) (x : Exchange τ)

theorem wants_of_method (h : x.request.resource.method.name ≠ ascii "GET" ∧
    x.request.resource.method.name ≠ ascii "HEAD") : (o.extension fs).wants x = (false, x) := if_pos h

theorem wants_of_leaves (hm : ¬(x.request.resource.method.name ≠ ascii "GET" ∧
    x.request.resource.method.name ≠ ascii "HEAD")) (h : qualifyRelativePath x.subpathOf = none) :
    (o.extension fs).wants x = (true, x) := (if_neg hm).trans (if_pos h)

theorem wants_of_qualified {q : Bytes} (hm : ¬(x.request.resource.method.name ≠ ascii "GET" ∧
    x.request.resource.method.name ≠ ascii "HEAD")) (h : qualifyRelativePath x.subpathOf = some q) :
    (o.extension fs).wants x = ((o.resolve fs x).1.isSome, (o.resolve fs x).2) :=
  (if_neg hm).trans (if_neg (by rw [h]; exact some_ne_none q))

theorem handle_of_leaves (h : qualifyRelativePath x.subpathOf = none) :
    (o.extension fs).handle x = (makeResponse 403, x) := if_pos h

theorem handle_of_qualified {q : Bytes} (h : qualifyRelativePath x.subpathOf = some q) :
    (o.extension fs).handle x = (served fs (o.resolve fs x).2.request (o.resolve fs x).1, (o.resolve fs x).2) := by
  refine (if_neg (by rw [h]; exact some_ne_none q)).trans ?_
  obtain ⟨_ | found, y⟩ := o.resolve fs x
  · rfl
  · rfl

end

theorem pathFor_injective (o : Overlay) : Function.Injective o.pathFor := by
  intro q q' h
  unfold pathFor at h
  split_ifs at h with h1 h2 h2
  · simpa using h
  · simp at h
  · simp at h
  · rw [not_not.mp h1, not_not.mp h2]

end Overlay

def oneFile (f : Bytes) : Files where
  stat g := if g = f then { kind := .regularFile } else {}
  serve _ _ _ := some {}

theorem find_oneFile (o : Overlay) (q q' : Bytes) : (o.find (oneFile (o.pathFor q)) q').isSome = true ↔ q' = q := by
  have hloc : o.locate (oneFile (o.pathFor q)) q' = (o.pathFor q', (oneFile (o.pathFor q)).stat (o.pathFor q')) := by
    refine if_neg fun h => ?_
    change (if o.pathFor q' = o.pathFor q then ({ kind := .regularFile } : FileInfo) else {}).kind = _ at h
    split_ifs at h
  rw [find, hloc]
  by_cases h : q' = q
  · rw [h]
    simp [oneFile]
  · have hne : o.pathFor q' ≠ o.pathFor q := fun he => h (o.pathFor_injective he)
    simp [oneFile, h, hne]

section

variable (objects : ℕ → Overlay) (fs : Files)

def caching (last : Option (ℕ × Bytes)) (x : Exchange τ) : Exchange τ :=
  { x with resolveCache := last.map fun r => ⟨r.1, (overlayAt objects r.1).find fs r.2⟩ }

variable {objects fs} {last : Option (ℕ × Bytes)} {x : Exchange τ} {a : ℕ} {q : Bytes}

theorem uncached_caching : (caching objects fs last x).uncached = caching objects fs none x := rfl

theorem resolve_caching_same {q' : Bytes} : (overlayAt objects a).resolve fs (caching objects fs (some (a, q')) x) =
    ((overlayAt objects a).find fs q', caching objects fs (some (a, q')) x) := if_pos rfl

theorem resolve_caching_other (hq : qualifyRelativePath x.subpathOf = some q) (h : ∀ r ∈ last, r.1 ≠ a) :
    (overlayAt objects a).resolve fs (caching objects fs last x) =
      ((overlayAt objects a).find fs q, caching objects fs (some (a, q)) x) := by
  have hpath : (overlayAt objects a).resolvePath fs (caching objects fs last x).subpathOf =
      (overlayAt objects a).find fs q := resolvePath_eq hq
  unfold resolve
  cases last with
  | none =>
    dsimp only [caching, Option.map]
    rw [← hpath]
    rfl
  | some r =>
    refine (if_neg (h r rfl)).trans ?_
    rw [hpath]
    rfl

theorem resolve_caching (hq : qualifyRelativePath x.subpathOf = some q) (h : ∀ r ∈ last, r.1 = a → r.2 = q) :
    (overlayAt objects a).resolve fs (caching objects fs last x) =
      ((overlayAt objects a).find fs q, caching objects fs (some (a, q)) x) := by
  by_cases hsame : ∃ r ∈ last, r.1 = a
  · obtain ⟨⟨_, q'⟩, hr, rfl⟩ := hsame
    obtain rfl : q' = q := h _ hr rfl
    cases last with
    | none => cases hr
    | some r =>
      cases hr
      exact resolve_caching_same
  · exact resolve_caching_other hq fun r hr he => hsame ⟨r, hr, he⟩

variable (objects fs x) in
def OverlayOp.answer : OverlayOp → Option (Bool ⊕ Response)
  | .push _ => none
  | .pop => none
  | .wants a =>
    if x.request.resource.method.name ≠ ascii "GET" ∧ x.request.resource.method.name ≠ ascii "HEAD" then
      some (.inl false)
    else match qualifyRelativePath x.subpathOf with
      | none => some (.inl true)
      | some q => some (.inl ((overlayAt objects a).find fs q).isSome)
  | .handle a =>
    match qualifyRelativePath x.subpathOf with
    | none => some (.inr (makeResponse 403))
    | some q => some (.inr (Overlay.served fs x.request ((overlayAt objects a).find fs q)))

/-- **A call with a cache** of another overlay or of the same path answers as without it. -/
theorem run_caching (op : OverlayOp) (h : ∀ now ∈ op.resolves x, ∀ before ∈ last, before.1 = now.1 → before.2 = now.2) :
    op.run objects fs (caching objects fs last x) =
      (op.answer objects fs x, caching objects fs ((op.resolves x).or last) (op.moves x)) := by
  cases op with
  | push subpath => rfl
  | pop => rfl
  | wants a =>
    by_cases hm : x.request.resource.method.name ≠ ascii "GET" ∧ x.request.resource.method.name ≠ ascii "HEAD"
    · rw [OverlayOp.run, wants_of_method _ _ (caching _ _ _ x) hm, OverlayOp.answer, if_pos hm, OverlayOp.resolves, if_pos hm]
      rfl
    · cases hq : qualifyRelativePath x.subpathOf with
      | none =>
        rw [OverlayOp.run, wants_of_leaves _ _ (caching _ _ _ x) hm hq, OverlayOp.answer, if_neg hm, hq, OverlayOp.resolves,
          if_neg hm, hq]
        rfl
      | some q =>
        rw [OverlayOp.resolves, if_neg hm, hq] at h
        rw [OverlayOp.run, wants_of_qualified _ _ (caching _ _ _ x) hm hq, resolve_caching hq (h (a, q) rfl), OverlayOp.answer,
          if_neg hm, hq, OverlayOp.resolves, if_neg hm, hq]
        rfl
  | handle a =>
    cases hq : qualifyRelativePath x.subpathOf with
    | none =>
      rw [OverlayOp.run, handle_of_leaves _ _ (caching _ _ _ x) hq, OverlayOp.answer, hq, OverlayOp.resolves, hq]
      rfl
    | some q =>
      rw [OverlayOp.resolves, hq] at h
      rw [OverlayOp.run, handle_of_qualified _ _ (caching _ _ _ x) hq, resolve_caching hq (h (a, q) rfl), OverlayOp.answer, hq,
        OverlayOp.resolves, hq]
      rfl

theorem run_uncached (op : OverlayOp) :
    (op.run objects fs (caching objects fs last x).uncached).1 = op.answer objects fs x := by
  rw [uncached_caching, run_caching op fun _ _ _ h => by cases h]

end

theorem exists_unfaithful (objects : ℕ → Overlay) {op : OverlayOp} {x : Exchange τ} {a : ℕ} {q q' : Bytes}
    (hop : op.resolves x = some (a, q)) (hne : q' ≠ q) :
    ∃ fs, (op.run objects fs (caching objects fs (some (a, q')) x)).1 ≠ op.answer objects fs x := by
  refine ⟨oneFile ((overlayAt objects a).pathFor q), ?_⟩
  have hold : ((overlayAt objects a).find (oneFile ((overlayAt objects a).pathFor q)) q') = none := by
    rw [← not_isSome_iff_eq_none, find_oneFile]
    exact hne
  obtain ⟨found, hnew⟩ := isSome_iff_exists.mp ((find_oneFile (overlayAt objects a) q q).mpr rfl)
  cases op with
  | push subpath => cases hop
  | pop => cases hop
  | wants b =>
    rw [OverlayOp.resolves] at hop
    split_ifs at hop with hm
    obtain ⟨_, hq, he⟩ := map_eq_some_iff.mp hop
    cases he
    rw [OverlayOp.run, wants_of_qualified _ _ (caching _ _ _ x) hm hq, resolve_caching_same, OverlayOp.answer, if_neg hm, hq,
      hold]
    dsimp only
    rw [hnew]
    simp
  | handle b =>
    obtain ⟨_, hq, he⟩ := map_eq_some_iff.mp hop
    cases he
    rw [OverlayOp.run, handle_of_qualified _ _ (caching _ _ _ x) hq, resolve_caching_same, OverlayOp.answer, hq, hold]
    dsimp only
    rw [hnew]
    intro h
    cases h

/-! ## Sequences of calls -/

theorem faithful_iff (objects : ℕ → Overlay) (ops : List OverlayOp) (last : Option (ℕ × Bytes)) (x : Exchange τ) :
    (∀ fs, Faithful objects fs ops (caching objects fs last x)) ↔ Coherent last ops x := by
  induction ops generalizing last x with
  | nil => exact iff_of_true (fun _ => trivial) trivial
  | cons op ops ih =>
    constructor
    · intro h
      have hhead : ∀ now ∈ op.resolves x, ∀ before ∈ last, before.1 = now.1 → before.2 = now.2 := by
        rintro ⟨a, q⟩ hnow ⟨_, q'⟩ hbefore rfl
        by_contra hne
        obtain ⟨fs, hfs⟩ := exists_unfaithful objects hnow hne
        have hcall := (h fs).1
        rw [run_uncached, hbefore] at hcall
        exact hfs hcall
      refine ⟨hhead, (ih _ _).mp fun fs => ?_⟩
      have htail := (h fs).2
      rwa [run_caching op hhead] at htail
    · rintro ⟨hhead, htail⟩ fs
      refine ⟨?_, ?_⟩
      · rw [run_uncached, run_caching op hhead]
      · rw [run_caching op hhead]
        exact (ih _ _).mpr htail fs

/-- **Which calls the cache does not disturb.** The calls answer on every file system as without the cache exactly if no
overlay looks for a path while the cache holds its result for another one. -/
theorem overlay_cache_iff (objects : ℕ → Overlay) (ops : List OverlayOp) (request : Request) (tags : τ) :
    (∀ fs, Faithful objects fs ops { request, tags }) ↔ Coherent none ops ({ request, tags } : Exchange τ) :=
  faithful_iff objects ops none { request, tags }

/-- The directory `docs`, as an overlay with a better priority than a scope has by default. -/
def docs : Overlay := { address := 0, baseDir := ascii "docs", indexFile := ascii "index.html", priority := 0x40000000 }

/-- The registry with `docs` for all paths, and another overlay inside of `/a`. -/
def docsRegistry (inner : Overlay) : List (Extension Unit) :=
  ExtensionRegistry.afterAdds [vpath (ascii "/a") 0x80000000
    (ExtensionRegistry.afterAdds [inner.extension (oneFile (ascii "docs/x"))]), docs.extension (oneFile (ascii "docs/x"))]

/-- Where `docs` is registered twice, the inner call gets the result of the outer one, so that `docs/x` is not found under
`/a/x`. -/
theorem shared_overlay_misses :
    ¬Faithful (fun _ => docs) (oneFile (ascii "docs/x")) [.wants 0, .push (ascii "/x"), .wants 0]
      (requestFor (ascii "/a/x") ()) ∧
    (dispatch (docsRegistry docs) (requestFor (ascii "/a/x") ())).1 = some (makeResponse 404) ∧
    (dispatch (docsRegistry { docs with address := 1 }) (requestFor (ascii "/a/x") ())).1 = some {} := by
  refine ⟨fun h => ?_, by decide +kernel, by decide +kernel⟩
  exact absurd h.2.2.1 (by decide)

end Nhttp.Server
