import Nhttp.Server.Extensions.Overlay

/-!
# What a qualified path is

* `Leaves`: some front of a list of segments goes up more often than down.
* `Reduces`: one step of resolving `.`, `..` and empty segments; `qualifySegments_of_reduces`: the stack
  machine does not see such a step.
* **`qualifyRelativePath_spec`**: when `qualify_relative_path` refuses a path, and what it returns
  otherwise.
-/

namespace Nhttp.Server

open Octets Relation List

/-! ## Refused paths -/

/-- Some front has more `..` than segments other than `..`, `.` and the empty one. -/
def Leaves (segs : List Bytes) : Prop :=
  ∃ front, front <+: segs ∧
    front.countP (fun s => s ≠ [] ∧ s ≠ ascii "." ∧ s ≠ ascii "..") < front.count (ascii "..")

theorem qualifySegments_eq_none_iff (stack segs : List Bytes) :
    qualifySegments stack segs = none ↔ ∃ front, front <+: segs ∧
      stack.length + front.countP (fun s => s ≠ [] ∧ s ≠ ascii "." ∧ s ≠ ascii "..") < front.count (ascii "..") := by
  induction segs generalizing stack with
  | nil => simp [qualifySegments]
  | cons seg segs ih =>
    rw [qualifySegments]
    simp only [prefix_cons_iff]
    split_ifs with hup hempty hkeep
    · -- a `..` on the empty stack: the front is this segment
      refine ⟨fun _ => ⟨[seg], .inr ⟨[], rfl, nil_prefix⟩, ?_⟩, fun _ => rfl⟩
      simp [hempty, hup]
    · have hpos := length_pos_iff.mpr hempty
      rw [ih]
      constructor
      · rintro ⟨front, hfront, hlt⟩
        refine ⟨seg :: front, .inr ⟨front, rfl, hfront⟩, ?_⟩
        simp [hup, length_dropLast] at hlt ⊢
        omega
      · rintro ⟨_, rfl | ⟨front, rfl, hfront⟩, hlt⟩
        · simp at hlt
        · refine ⟨front, hfront, ?_⟩
          simp [hup, length_dropLast] at hlt ⊢
          omega
    · rw [ih]
      constructor
      · rintro ⟨front, hfront, hlt⟩
        refine ⟨seg :: front, .inr ⟨front, rfl, hfront⟩, ?_⟩
        simp [hup, hkeep] at hlt ⊢
        omega
      · rintro ⟨_, rfl | ⟨front, rfl, hfront⟩, hlt⟩
        · simp at hlt
        · refine ⟨front, hfront, ?_⟩
          simp [hup, hkeep] at hlt ⊢
          omega
    · have hskip : ¬(seg ≠ [] ∧ seg ≠ ascii "." ∧ seg ≠ ascii "..") := fun h => hkeep ⟨h.1, h.2.1⟩
      rw [ih]
      constructor
      · rintro ⟨front, hfront, hlt⟩
        refine ⟨seg :: front, .inr ⟨front, rfl, hfront⟩, ?_⟩
        rw [countP_cons_of_neg (by simpa using hskip), count_cons_of_ne hup]
        exact hlt
      · rintro ⟨_, rfl | ⟨front, rfl, hfront⟩, hlt⟩
        · simp at hlt
        · refine ⟨front, hfront, ?_⟩
          rwa [countP_cons_of_neg (by simpa using hskip), count_cons_of_ne hup] at hlt

theorem qualifyRelativePath_eq_none_iff (path : Bytes) :
    qualifyRelativePath path = none ↔ Leaves (path.splitOn 0x2f) := by
  rw [qualifyRelativePath, Option.map_eq_none_iff, qualifySegments_eq_none_iff]
  simp [Leaves]

/-! ## What is left of a path -/

/-- An empty segment or a `.` is dropped, or an ordinary segment together with the `..` behind it. -/
inductive Reduces : List Bytes → List Bytes → Prop
  | skip (front back : List Bytes) (s : Bytes) : s = [] ∨ s = ascii "." → Reduces (front ++ s :: back) (front ++ back)
  | cancel (front back : List Bytes) (s : Bytes) : Ordinary s →
      Reduces (front ++ s :: ascii ".." :: back) (front ++ back)

theorem qualifySegments_append (stack front back : List Bytes) :
    qualifySegments stack (front ++ back) = (qualifySegments stack front).bind (qualifySegments · back) := by
  induction front generalizing stack with
  | nil => rfl
  | cons s front ih =>
    rw [cons_append, qualifySegments, qualifySegments]
    split_ifs
    · rfl
    · exact ih _
    · exact ih _
    · exact ih _

variable {s : Bytes} {stack segs out : List Bytes}

theorem qualifySegments_cons_of_ordinary (h : Ordinary s) (stack segs : List Bytes) :
    qualifySegments stack (s :: segs) = qualifySegments (stack ++ [s]) segs := by
  rw [qualifySegments, if_neg h.2.2.1, if_pos ⟨h.1, h.2.1⟩]

theorem qualifySegments_cons_of_skip (h : s = [] ∨ s = ascii ".") (stack segs : List Bytes) :
    qualifySegments stack (s :: segs) = qualifySegments stack segs := by
  have hup : s ≠ ascii ".." := by
    obtain rfl | rfl := h
    · decide
    · decide
  rw [qualifySegments, if_neg hup, if_neg]
  rintro ⟨h1, h2⟩
  exact h.elim h1 h2

theorem qualifySegments_cons_up (h : stack ≠ []) (segs : List Bytes) :
    qualifySegments stack (ascii ".." :: segs) = qualifySegments stack.dropLast segs := by
  rw [qualifySegments, if_pos rfl, if_neg h]

theorem qualifySegments_of_reduces {segs' : List Bytes} (h : Reduces segs segs') (stack : List Bytes) :
    qualifySegments stack segs = qualifySegments stack segs' := by
  cases h with
  | skip front back s hs =>
    rw [qualifySegments_append, qualifySegments_append]
    exact congrArg _ (funext fun stack => qualifySegments_cons_of_skip hs stack back)
  | cancel front back s hs =>
    rw [qualifySegments_append, qualifySegments_append]
    refine congrArg _ (funext fun stack => ?_)
    rw [qualifySegments_cons_of_ordinary hs, qualifySegments_cons_up (by simp), dropLast_concat]

theorem qualifySegments_of_ordinary (h : ∀ s ∈ segs, Ordinary s) (stack : List Bytes) :
    qualifySegments stack segs = some (stack ++ segs) := by
  induction segs generalizing stack with
  | nil => rw [qualifySegments, append_nil]
  | cons s segs ih =>
    rw [qualifySegments_cons_of_ordinary (h s mem_cons_self), ih fun t ht => h t (mem_cons_of_mem _ ht),
      append_assoc, singleton_append]

theorem reduces_of_qualifySegments (hstack : ∀ s ∈ stack, Ordinary s)
    (hsegs : ∀ s ∈ segs, 0x2f ∉ s) (h : qualifySegments stack segs = some out) :
    ReflTransGen Reduces (stack ++ segs) out := by
  induction segs generalizing stack with
  | nil =>
    cases h
    rw [append_nil]
  | cons s segs ih =>
    have hsegs' := fun t ht => hsegs t (mem_cons_of_mem _ ht)
    rw [qualifySegments] at h
    split_ifs at h with hup hempty hkeep
    · -- the top of the stack and the `..` go
      obtain ⟨front, top, rfl⟩ := (eq_nil_or_concat stack).resolve_left hempty
      rw [concat_eq_append, dropLast_concat] at h
      rw [concat_eq_append, hup, append_assoc]
      refine .head (.cancel front segs top (hstack top (by simp))) (ih (fun t ht => hstack t (by simp [ht])) hsegs' h)
    · have hs : Ordinary s := ⟨hkeep.1, hkeep.2, hup, hsegs s mem_cons_self⟩
      rw [← singleton_append, ← append_assoc]
      refine ih (fun t ht => ?_) hsegs' h
      obtain ht | ht := mem_append.mp ht
      · exact hstack t ht
      · rwa [mem_singleton.mp ht]
    · have hs : s = [] ∨ s = ascii "." := by
        by_contra hne
        exact hkeep ⟨fun he => hne (.inl he), fun he => hne (.inr he)⟩
      exact .head (.skip stack segs s hs) (ih hstack hsegs' h)

theorem foldl_join {out : Bytes} (hout : out ≠ []) :
    segs.foldl (fun out s => (if out ≠ [] then out ++ [0x2f] else out) ++ s) out =
      [0x2f].intercalate (out :: segs) := by
  induction segs generalizing out with
  | nil => simp
  | cons s segs ih =>
    rw [foldl_cons, if_pos hout, ih (by simp)]
    cases segs with
    | nil => simp
    | cons t segs => simp

theorem joinSegments_eq (h : ∀ s ∈ segs, s ≠ []) : joinSegments segs = [0x2f].intercalate segs := by
  cases segs with
  | nil => rfl
  | cons s segs =>
    rw [joinSegments, foldl_cons, if_neg (by simp), nil_append, foldl_join (h s mem_cons_self)]

theorem qualifySegments_of_reducesTo (h : ReflTransGen Reduces segs out)
    (hord : ∀ s ∈ out, Ordinary s) : qualifySegments [] segs = some out := by
  induction h using ReflTransGen.head_induction_on with
  | refl => exact qualifySegments_of_ordinary hord []
  | head hstep _ ih => rw [qualifySegments_of_reduces hstep, ih]

theorem segments_of_qualifyRelativePath {path q : Bytes} (h : qualifyRelativePath path = some q) :
    ∃ segs, (∀ s ∈ segs, Ordinary s) ∧ ReflTransGen Reduces (path.splitOn 0x2f) segs ∧
      q = [0x2f].intercalate segs := by
  obtain ⟨segs, hsegs, rfl⟩ := Option.map_eq_some_iff.mp h
  have hnil : ∀ s ∈ ([] : List Bytes), Ordinary s := fun s hs => absurd hs not_mem_nil
  have hslash : ∀ s ∈ path.splitOn 0x2f, 0x2f ∉ s := fun s hs => not_mem_of_mem_splitOn hs
  have hord := ordinary_of_qualifySegments hnil hslash hsegs
  exact ⟨segs, hord, reduces_of_qualifySegments hnil hslash hsegs, joinSegments_eq fun s hs => (hord s hs).1⟩

/-- Joined ordinary segments come apart again, but for the path without any. -/
theorem splitOn_join (h : ∀ s ∈ segs, Ordinary s) (hne : segs ≠ []) :
    ([0x2f].intercalate segs).splitOn 0x2f = segs :=
  splitOn_intercalate _ (fun s hs => (h s hs).2.2.2) hne

theorem qualifyRelativePath_join (h : ∀ s ∈ segs, Ordinary s) :
    qualifyRelativePath ([0x2f].intercalate segs) = some ([0x2f].intercalate segs) := by
  by_cases hne : segs = []
  · rw [hne]
    rfl
  · rw [qualifyRelativePath, splitOn_join h hne, qualifySegments_of_ordinary h, Option.map_some, nil_append,
      joinSegments_eq fun s hs => (h s hs).1]

theorem not_leaves_of_ordinary (h : ∀ s ∈ segs, Ordinary s ∨ s = []) : ¬Leaves segs := by
  rintro ⟨front, hfront, hlt⟩
  have hup : front.count (ascii "..") = 0 := by
    refine count_eq_zero.mpr fun hmem => ?_
    obtain hs | hs := h _ (hfront.subset hmem)
    · exact hs.2.2.1 rfl
    · exact absurd hs (by decide)
  omega

/-! ## Below the directory of an overlay -/

namespace Overlay

/-- What `resolve` asks the file system for first. -/
def pathFor (o : Overlay) (qualified : Bytes) : Bytes :=
  if qualified ≠ [] then o.directory ++ [0x2f] ++ qualified else o.directory

def indexIn (o : Overlay) (fsPath : Bytes) : Bytes :=
  (if fsPath ≠ [] ∧ fsPath.getLast? ≠ some 0x2f then fsPath ++ [0x2f] else fsPath) ++ o.indexFile

theorem locate_path (o : Overlay) (fs : Files) (q : Bytes) :
    (o.locate fs q).1 = o.pathFor q ∨ (o.locate fs q).1 = o.indexIn (o.pathFor q) := by
  have hloc : o.locate fs q = if (fs.stat (o.pathFor q)).kind = .directory
      then (o.indexIn (o.pathFor q), fs.stat (o.indexIn (o.pathFor q)))
      else (o.pathFor q, fs.stat (o.pathFor q)) := rfl
  rw [hloc]
  split_ifs
  · exact .inr rfl
  · exact .inl rfl

theorem pathFor_join (o : Overlay) {segs : List Bytes} (h : ∀ s ∈ segs, Ordinary s) :
    ∃ rest, o.pathFor ([0x2f].intercalate segs) = o.directory ++ rest ∧
      Below 0x2f o.directory (o.pathFor ([0x2f].intercalate segs)) ∧ ¬Leaves (rest.splitOn 0x2f) := by
  by_cases hne : segs = []
  · subst hne
    exact ⟨[], (append_nil _).symm, .refl _, not_leaves_of_ordinary fun s hs => .inr (mem_singleton.mp hs)⟩
  · have hjoin : [0x2f].intercalate segs ≠ [] := fun he => by
      have hsplit := splitOn_join h hne
      rw [he, splitOn_nil] at hsplit
      exact (h [] (by rw [← hsplit]; exact mem_cons_self)).1 rfl
    have hpath : o.pathFor ([0x2f].intercalate segs) = o.directory ++ 0x2f :: [0x2f].intercalate segs := by
      rw [pathFor, if_pos hjoin, append_assoc, singleton_append]
    refine ⟨_, hpath, Below.below_iff.mpr ⟨_, hpath, .inr rfl⟩, ?_⟩
    rw [splitOn_cons_eq_if_modifyHead, if_pos (by rfl), splitOn_join h hne]
    refine not_leaves_of_ordinary fun s hs => ?_
    obtain rfl | hs := mem_cons.mp hs
    · exact .inr rfl
    · exact .inl (h s hs)

theorem resolvePath_path {o : Overlay} {fs : Files} {p f : Bytes} {info : FileInfo}
    (h : o.resolvePath fs p = some (f, info)) :
    ∃ q, qualifyRelativePath p = some q ∧ (f = o.pathFor q ∨ f = o.indexIn (o.pathFor q)) := by
  rw [resolvePath] at h
  cases hq : qualifyRelativePath p with
  | none =>
    rw [hq] at h
    cases h
  | some q =>
    rw [hq] at h
    have hloc := o.locate_path fs q
    refine ⟨q, rfl, ?_⟩
    dsimp only at h
    split_ifs at h
    obtain rfl : (o.locate fs q).1 = f := congrArg Prod.fst (Option.some.inj h)
    exact hloc

end Overlay

/-- **Qualified paths.** A path is refused exactly if it leaves its root on the way. Otherwise the result is the join
of what resolving its segments leads to; it has ordinary segments only and is its own result. -/
theorem qualifyRelativePath_spec (path : Bytes) :
    (qualifyRelativePath path = none ↔ Leaves (path.splitOn 0x2f)) ∧
    ∀ q, qualifyRelativePath path = some q →
      (∃ segs, (∀ s ∈ segs, Ordinary s) ∧ ReflTransGen Reduces (path.splitOn 0x2f) segs ∧
        (∀ segs', (∀ s ∈ segs', Ordinary s) → ReflTransGen Reduces (path.splitOn 0x2f) segs' → segs' = segs) ∧
        q = [0x2f].intercalate segs) ∧
      (q = [] ∨ ∀ s ∈ q.splitOn 0x2f, Ordinary s) ∧ qualifyRelativePath q = some q ∧
      ∀ o : Overlay,
        (∃ rest, o.pathFor q = o.directory ++ rest ∧ Below 0x2f o.directory (o.pathFor q) ∧
          ¬Leaves (rest.splitOn 0x2f)) ∧
        ∀ (fs : Files) (f : Bytes) (info : FileInfo), o.resolvePath fs path = some (f, info) →
          f = o.pathFor q ∨ f = o.indexIn (o.pathFor q) := by
  refine ⟨qualifyRelativePath_eq_none_iff path, fun q hq => ?_⟩
  obtain ⟨segs, hord, hred, rfl⟩ := segments_of_qualifyRelativePath hq
  have hmachine := qualifySegments_of_reducesTo hred hord
  refine ⟨⟨segs, hord, hred, fun segs' hord' hred' => ?_, rfl⟩, ?_, qualifyRelativePath_join hord,
    fun o => ⟨o.pathFor_join hord, fun fs f info hres => ?_⟩⟩
  · rw [qualifySegments_of_reducesTo hred' hord'] at hmachine
    exact Option.some.inj hmachine
  · by_cases hne : segs = []
    · exact .inl (by rw [hne]; rfl)
    · exact .inr (by rwa [splitOn_join hord hne])
  · obtain ⟨q', hq', hf⟩ := Overlay.resolvePath_path hres
    obtain rfl := Option.some.inj (hq.symm.trans hq')
    exact hf

theorem qualifyRelativePath_dots :
    qualifyRelativePath (ascii "/a/../b/./c/") = some (ascii "b/c") ∧
      qualifyRelativePath (ascii "b/c") = some (ascii "b/c") := by
  have h : qualifyRelativePath (ascii "/a/../b/./c/") = some (ascii "b/c") := by decide
  exact ⟨h, ((qualifyRelativePath_spec _).2 _ h).2.2.1⟩

end Nhttp.Server
