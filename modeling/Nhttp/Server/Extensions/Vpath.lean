import Nhttp.Lib.Below
import Nhttp.Server.Extension

/-!
# Scopes on a path prefix

* `pathHasPrefix`, `remainderOf`, `vpath`: `path_has_prefix`, the remainder pushed by `handle`, the extension.
* `pathHasPrefix_iff`: prefixes match at segment boundaries.
* `observed`: an extension that records the subpath it is asked about.
* **`vpath_composes_iff`**: for which bases two nested scopes are one at the concatenated base.
-/

namespace Nhttp.Server

open Octets List

def pathHasPrefix (path pre : Bytes) : Bool :=
  if pre = [] ∨ pre = [0x2f] then true
  else
    let pre := if pre.getLast? = some 0x2f then pre.dropLast else pre
    if path.length < pre.length ∨ path.take pre.length ≠ pre then false
    else path.length = pre.length || path[pre.length]? = some 0x2f

/-- The constructor of `vpath` removes one slash at the end. -/
def mountedAt (basePath : Bytes) : Bytes :=
  if 1 < basePath.length ∧ basePath.getLast? = some 0x2f then basePath.dropLast else basePath

/-- What `vpath::handle` pushes. -/
def remainderOf (base current : Bytes) : Bytes :=
  let remainder := current.drop (min current.length base.length)
  if remainder = [] then [0x2f] else remainder

variable {τ : Type}

/-- `vpath`; the router overrides `on_handle`. -/
def vpath (basePath : Bytes) (prio : ℕ) (registry : List (Extension τ))
    (onHandle : Exchange τ → Option Response × Exchange τ := fun x => (none, x)) : Extension τ where
  priority := prio
  wants x := (pathHasPrefix x.subpathOf (mountedAt basePath), x)
  handle x :=
    match dispatch registry (x.push (remainderOf (mountedAt basePath) x.subpathOf)) with
    | (some r, x) => (r, x.pop)
    | (none, x) =>
      let (own, x) := onHandle x
      (own.getD (makeResponse 404), x.pop)

/-! ## Prefixes -/

/-- The prefix `path_has_prefix` compares with. -/
def comparedPrefix (pre : Bytes) : Bytes := if pre.getLast? = some 0x2f then pre.dropLast else pre

/-- **Prefixes match at segment boundaries.** -/
theorem pathHasPrefix_iff (path pre : Bytes) :
    pathHasPrefix path pre = true ↔ pre = [] ∨ pre = [0x2f] ∨ Below 0x2f (comparedPrefix pre) path := by
  unfold pathHasPrefix
  by_cases hroot : pre = [] ∨ pre = [0x2f]
  · rw [if_pos hroot]
    exact iff_of_true rfl (by tauto)
  · rw [if_neg hroot, ← or_assoc, or_iff_right hroot]
    obtain ⟨k, hk⟩ : ∃ k, k = comparedPrefix pre := ⟨_, rfl⟩
    have hk' : (if pre.getLast? = some 0x2f then pre.dropLast else pre) = k := hk.symm
    simp only [hk', ← hk]
    by_cases hpre : k <+: path
    · obtain ⟨t, rfl⟩ := hpre
      have hnot : ¬((k ++ t).length < k.length ∨ (k ++ t).take k.length ≠ k) := by simp
      rw [if_neg hnot, Below.below_iff]
      simp only [Bool.or_eq_true, decide_eq_true_eq, length_append, Nat.add_eq_left,
        length_eq_zero_iff, getElem?_append_right (Nat.le_refl _), Nat.sub_self,
        ← head?_eq_getElem?]
      constructor
      · exact fun h => ⟨t, rfl, h⟩
      · rintro ⟨t', he, h⟩
        rwa [append_cancel_left he]
    · have hcut : path.length < k.length ∨ path.take k.length ≠ k :=
        .inr fun h => hpre (h ▸ take_prefix _ _)
      rw [if_pos hcut]
      exact iff_of_false Bool.false_ne_true fun h => hpre h.isPrefix

variable {w b n base current a : Bytes}

theorem mountedAt_of_last (h : w.getLast? ≠ some 0x2f) : mountedAt w = w :=
  if_neg fun hw => h hw.2

theorem mountedAt_concat (h : w ≠ []) : mountedAt (w ++ [0x2f]) = w := by
  unfold mountedAt
  rw [if_pos ⟨by simpa using length_pos_iff.mpr h, by simp⟩, dropLast_concat]

theorem mountedAt_append (a : Bytes) (h : 1 < b.length) : mountedAt (a ++ b) = a ++ mountedAt b := by
  have hne : b ≠ [] := by
    rintro rfl
    cases h
  unfold mountedAt
  rw [getLast?_append_of_ne_nil _ hne, dropLast_append_of_ne_nil hne]
  have hlen : 1 < (a ++ b).length := by
    rw [length_append]
    omega
  by_cases hl : b.getLast? = some 0x2f
  · rw [if_pos ⟨hlen, hl⟩, if_pos ⟨h, hl⟩]
  · rw [if_neg fun hh => hl hh.2, if_neg fun hh => hl hh.2]

theorem comparedPrefix_of_last (h : w.getLast? ≠ some 0x2f) : comparedPrefix w = w := if_neg h

theorem comparedPrefix_concat (w : Bytes) : comparedPrefix (w ++ [0x2f]) = w := by
  unfold comparedPrefix
  rw [if_pos (by simp), dropLast_concat]

theorem comparedPrefix_append (a : Bytes) (h : n ≠ []) :
    comparedPrefix (a ++ n) = a ++ comparedPrefix n := by
  unfold comparedPrefix
  rw [getLast?_append_of_ne_nil _ h, dropLast_append_of_ne_nil h]
  split_ifs <;> rfl

theorem one_lt_length (h : w.head? = some 0x2f) (hne : w ≠ [0x2f]) : 1 < w.length := by
  match w with
  | [] => cases h
  | [c] =>
    cases h
    exact absurd rfl hne
  | _ :: _ :: _ => simp

theorem base_cases (hb : b.head? = some 0x2f) : mountedAt b = [0x2f] ∨
    mountedAt b ≠ [] ∧ mountedAt b ≠ [0x2f] ∧ (comparedPrefix (mountedAt b)).head? = some 0x2f ∧
      (b ≠ [0x2f, 0x2f, 0x2f] → comparedPrefix (mountedAt b) ≠ [0x2f]) := by
  by_cases hl : b.getLast? = some 0x2f
  · obtain ⟨w, rfl⟩ := getLast?_eq_some_iff.mp hl
    by_cases hw : w = []
    · subst hw
      exact .inl rfl
    rw [mountedAt_concat hw]
    rw [head?_append_of_ne_nil _ hw] at hb
    by_cases hl' : w.getLast? = some 0x2f
    · obtain ⟨v, rfl⟩ := getLast?_eq_some_iff.mp hl'
      by_cases hv : v = []
      · subst hv
        exact .inl rfl
      rw [head?_append_of_ne_nil _ hv] at hb
      rw [comparedPrefix_concat]
      refine .inr ⟨hw, fun h => hv ?_, hb, fun h hv' => h (by rw [hv']; rfl)⟩
      simpa using h
    · rw [comparedPrefix_of_last hl']
      have hroot : w ≠ [0x2f] := by
        rintro rfl
        exact hl' rfl
      exact .inr ⟨hw, hroot, hb, fun _ => hroot⟩
  · rw [mountedAt_of_last hl, comparedPrefix_of_last hl]
    have hroot : b ≠ [0x2f] := by
      rintro rfl
      exact hl rfl
    have hne : b ≠ [] := by
      rintro rfl
      cases hb
    exact .inr ⟨hne, hroot, hb, fun _ => hroot⟩

/-! ## Subpaths -/

theorem remainderOf_eq (base current : Bytes) : remainderOf base current =
    if current.drop base.length = [] then [0x2f] else current.drop base.length := by
  have hmin : current.drop (min current.length base.length) = current.drop base.length := by
    obtain h | h := Nat.le_total current.length base.length
    · rw [Nat.min_eq_left h, drop_length, drop_eq_nil_of_le h]
    · rw [Nat.min_eq_right h]
  unfold remainderOf
  rw [hmin]

/-- The subpath inside a scope, if the scope takes the request. -/
def descend (base current : Bytes) : Option Bytes :=
  if pathHasPrefix current base then some (remainderOf base current) else none

theorem descend_root (current : Bytes) : descend [0x2f] current = some (remainderOf [0x2f] current) := rfl

theorem descend_of_below (h : Below 0x2f (comparedPrefix base) current) :
    descend base current = some (remainderOf base current) :=
  if_pos ((pathHasPrefix_iff current base).mpr (.inr (.inr h)))

theorem descend_of_not_below (hne : base ≠ []) (hroot : base ≠ [0x2f])
    (h : ¬Below 0x2f (comparedPrefix base) current) : descend base current = none :=
  if_neg fun hp => by
    obtain hp | hp | hp := (pathHasPrefix_iff current base).mp hp
    · exact hne hp
    · exact hroot hp
    · exact h hp

theorem remainderOf_append (a n t : Bytes) : remainderOf (a ++ n) (a ++ t) = remainderOf n t := by
  rw [remainderOf_eq, remainderOf_eq, length_append, ← drop_drop, drop_left]

theorem remainderOf_self (a t : Bytes) : remainderOf a (a ++ t) = if t = [] then [0x2f] else t := by
  rw [remainderOf_eq, drop_left]

theorem append_ne_root (ha : a ≠ []) (hn : n ≠ []) : a ++ n ≠ [] ∧ a ++ n ≠ [0x2f] := by
  have hlen : 1 < (a ++ n).length := by
    have := length_pos_iff.mpr ha
    have := length_pos_iff.mpr hn
    rw [length_append]
    omega
  constructor <;> intro h <;> rw [h] at hlen <;> simp at hlen

/-- **Below a base without a slash at its end, prefixes and remainders compose.** -/
theorem descend_append (ha : a.getLast? ≠ some 0x2f) (hne : a ≠ []) (hb : b.head? = some 0x2f)
    (hodd : b ≠ [0x2f, 0x2f, 0x2f]) (current : Bytes) :
    descend (a ++ mountedAt b) current = (descend a current).bind (descend (mountedAt b)) := by
  have hroot : a ≠ [0x2f] := by
    rintro rfl
    exact ha rfl
  have hca : comparedPrefix a = a := comparedPrefix_of_last ha
  have hn : mountedAt b ≠ [] := by
    obtain hn | ⟨hn, -⟩ := base_cases hb
    · rw [hn]
      exact cons_ne_nil _ _
    · exact hn
  have hcn : comparedPrefix (a ++ mountedAt b) = a ++ comparedPrefix (mountedAt b) :=
    comparedPrefix_append a hn
  have hnr := append_ne_root hne hn
  by_cases h : Below 0x2f a current
  · obtain ⟨t, rfl, ht⟩ := Below.below_iff.mp h
    have hd : descend a (a ++ t) = some (if t = [] then [0x2f] else t) := by
      rw [descend_of_below (by rwa [hca]), remainderOf_self]
    rw [hd, Option.bind_some]
    obtain hroot' | ⟨-, hroot', hk, hlong⟩ := base_cases hb
    · rw [hroot', descend_of_below (by rwa [comparedPrefix_concat]), remainderOf_append]
      split_ifs with ht'
      · rw [ht']
        rfl
      · rfl
    · -- the inner prefix is not the root, so that it is not found in an empty rest
      have hlt := one_lt_length hk (hlong hodd)
      by_cases hbelow : Below 0x2f (comparedPrefix (mountedAt b)) t
      · have ht' : t ≠ [] := by
          rintro rfl
          exact absurd hbelow.length_le (by simp only [length_nil]; omega)
        rw [if_neg ht', descend_of_below hbelow, descend_of_below (by rw [hcn]; exact hbelow.append_left a),
          remainderOf_append]
      · rw [descend_of_not_below hnr.1 hnr.2 (by rw [hcn]; exact fun hb => hbelow hb.of_append)]
        refine (descend_of_not_below hn hroot' fun hb => ?_).symm
        split_ifs at hb with ht'
        · have hle := hb.length_le
          simp only [length_singleton] at hle
          omega
        · exact hbelow hb
  · rw [descend_of_not_below hne hroot (by rwa [hca]), Option.bind_none]
    refine descend_of_not_below hnr.1 hnr.2 fun hb => h ?_
    rw [hcn] at hb
    refine Below.trans (Below.below_iff.mpr ⟨_, rfl, ?_⟩) hb
    obtain hroot' | ⟨-, -, hk, -⟩ := base_cases ‹b.head? = some 0x2f›
    · rw [hroot']
      exact .inl rfl
    · exact .inr hk

/-! ## What an extension sees -/

def observed (e : Extension τ) : Extension (List Bytes × τ) where
  priority := e.priority
  wants x :=
    let (w, y) := e.wants { x with tags := x.tags.2 }
    (w, { y with tags := (x.tags.1 ++ [x.subpathOf], y.tags) })
  handle x :=
    let (r, y) := e.handle { x with tags := x.tags.2 }
    (r, { y with tags := (x.tags.1, y.tags) })

/-- What is recorded while a registry dispatches a request. -/
def sights (extensions : List (Extension (List Bytes × τ))) (x : Exchange (List Bytes × τ)) : List Bytes :=
  (dispatch extensions x).2.tags.1

theorem sights_observed (e : Extension τ) (x : Exchange (List Bytes × τ)) :
    sights [observed e] x = x.tags.1 ++ [x.subpathOf] := by
  unfold sights dispatch observed
  dsimp only
  cases (e.wants { x with tags := x.tags.2 }).1 <;> rfl

theorem sights_vpath (a : Bytes) (prio : ℕ) (registry : List (Extension (List Bytes × τ)))
    (x : Exchange (List Bytes × τ)) : sights [vpath a prio registry] x =
      match descend (mountedAt a) x.subpathOf with
      | none => x.tags.1
      | some subpath => sights registry (x.push subpath) := by
  unfold sights descend
  simp only [dispatch, vpath]
  cases pathHasPrefix x.subpathOf (mountedAt a) with
  | false => rfl
  | true =>
    rw [if_pos rfl]
    dsimp only
    rcases dispatch registry (x.push (remainderOf (mountedAt a) x.subpathOf)) with ⟨_ | r, y⟩ <;> rfl

/-- The base of one scope for two, the root being neutral. -/
def joinBases (a b : Bytes) : Bytes := if a = [0x2f] then b else if b = [0x2f] then a else a ++ b

/-- Equal, or one has a slash more in front. -/
def SameSubpath (s t : Bytes) : Prop := s = t ∨ s = 0x2f :: t ∨ t = 0x2f :: s

instance (s t : Bytes) : Decidable (SameSubpath s t) := inferInstanceAs (Decidable (_ ∨ _ ∨ _))

/-- Whatever stands in the inner scope sees what it would see in one scope at the joined base. -/
def Composes (a b : Bytes) : Prop :=
  ∀ (τ : Type) (e : Extension τ) (prio prio' prio'' : ℕ) (x : Exchange (List Bytes × τ)), x.tags.1 = [] →
    List.Forall₂ SameSubpath (sights [vpath a prio [vpath b prio' [observed e]]] x)
      (sights [vpath (joinBases a b) prio'' [observed e]] x)

def declining : Extension Unit where
  wants x := (false, x)
  handle x := (makeResponse 404, x)

def requestFor (path : Bytes) (tags : τ) : Exchange τ where
  request := { resource := { method := ⟨ascii "GET"⟩, path := path }, headers := [], hostname := [] }
  tags := tags

theorem composes_iff_descend (a b : Bytes) : Composes a b ↔ ∀ current,
    List.Forall₂ SameSubpath ((descend (mountedAt a) current).bind (descend (mountedAt b))).toList
      (descend (mountedAt (joinBases a b)) current).toList := by
  have hone : ∀ {τ : Type} (e : Extension τ) (c : Bytes) (prio : ℕ) {x : Exchange (List Bytes × τ)},
      x.tags.1 = [] → sights [vpath c prio [observed e]] x =
        (descend (mountedAt c) x.subpathOf).toList := by
    intro τ e c prio x hx
    rw [sights_vpath]
    cases descend (mountedAt c) x.subpathOf with
    | none => exact hx
    | some s =>
      dsimp only
      rw [sights_observed, Exchange.tags_push, Exchange.subpathOf_push, hx]
      rfl
  have htwo : ∀ {τ : Type} (e : Extension τ) (prio prio' : ℕ) {x : Exchange (List Bytes × τ)},
      x.tags.1 = [] → sights [vpath a prio [vpath b prio' [observed e]]] x =
        ((descend (mountedAt a) x.subpathOf).bind (descend (mountedAt b))).toList := by
    intro τ e prio prio' x hx
    rw [sights_vpath]
    cases descend (mountedAt a) x.subpathOf with
    | none => exact hx
    | some s =>
      dsimp only
      rw [hone e b prio' (by rwa [Exchange.tags_push]), Exchange.subpathOf_push]
      rfl
  constructor
  · intro h current
    have hx := h Unit declining 0 0 0 (requestFor current ([], ())) rfl
    rwa [htwo _ _ _ rfl, hone _ _ _ rfl] at hx
  · intro h τ e prio prio' prio'' x hx
    rw [htwo e prio prio' hx, hone e _ prio'' hx]
    exact h x.subpathOf

/-! ## Nested scopes -/

theorem descend_slash (v t : Bytes) :
    descend (v ++ [0x2f]) (v ++ 0x2f :: t) = some (if t = [] then [0x2f] else t) := by
  have hbelow : Below 0x2f v (v ++ 0x2f :: t) := Below.below_iff.mpr ⟨_, rfl, .inr rfl⟩
  rw [descend_of_below (by rwa [comparedPrefix_concat]), remainderOf_append, remainderOf_eq]
  rfl

theorem descend_inner (hb : b.head? = some 0x2f) :
    ∃ s, descend (mountedAt b) (if comparedPrefix (mountedAt b) = [] then [0x2f]
      else comparedPrefix (mountedAt b)) = some s := by
  obtain hroot | ⟨-, -, hk, -⟩ := base_cases hb
  · rw [hroot]
    exact ⟨_, rfl⟩
  · rw [if_neg fun h => by rw [h] at hk; cases hk]
    exact ⟨_, descend_of_below (.refl _)⟩

theorem descend_joined (ha : a ≠ []) (hb : b.head? = some 0x2f) (hne : b ≠ [0x2f])
    (hlt : current.length < a.length + (comparedPrefix (mountedAt b)).length) :
    descend (mountedAt (a ++ b)) current = none := by
  have hn : mountedAt b ≠ [] := by
    obtain hn | ⟨hn, -⟩ := base_cases hb
    · rw [hn]
      exact cons_ne_nil _ _
    · exact hn
  rw [mountedAt_append a (one_lt_length hb hne)]
  refine descend_of_not_below (append_ne_root ha hn).1 (append_ne_root ha hn).2 fun h => ?_
  rw [comparedPrefix_append a hn] at h
  have hle := h.length_le
  rw [length_append] at hle
  omega

theorem sameSubpath_root (hw : w.getLast? ≠ some 0x2f) (hne : w ≠ []) (current : Bytes) :
    List.Forall₂ SameSubpath ((descend w current).bind (descend [0x2f])).toList (descend w current).toList := by
  have hroot : w ≠ [0x2f] := by
    rintro rfl
    exact hw rfl
  have hcw := comparedPrefix_of_last hw
  by_cases h : Below 0x2f w current
  · obtain ⟨t, rfl, ht⟩ := Below.below_iff.mp h
    rw [descend_of_below (by rwa [hcw]), remainderOf_self, Option.bind_some, descend_root, remainderOf_eq]
    refine .cons ?_ .nil
    match t, ht with
    | [], _ => exact .inl rfl
    | [c], ht =>
      obtain ht | ht := ht <;> cases ht
      exact .inl rfl
    | c :: d :: t, ht =>
      obtain ht | ht := ht <;> cases ht
      exact .inr (.inr rfl)
  · rw [descend_of_not_below hne hroot (by rwa [hcw])]
    exact .nil

theorem composes_of_last (ha : a.getLast? ≠ some 0x2f) (hne : a ≠ []) (hb : b.head? = some 0x2f)
    (hodd : b ≠ [0x2f, 0x2f, 0x2f]) : Composes a b := by
  rw [composes_iff_descend]
  intro current
  have hroot : a ≠ [0x2f] := by
    rintro rfl
    exact ha rfl
  rw [mountedAt_of_last ha, joinBases, if_neg hroot]
  by_cases hb' : b = [0x2f]
  · subst hb'
    rw [if_pos rfl, mountedAt_of_last ha]
    exact sameSubpath_root ha hne current
  · rw [if_neg hb', mountedAt_append a (one_lt_length hb hb'), descend_append ha hne hb hodd]
    exact forall₂_same.mpr fun _ _ => .inl rfl

theorem composes_of_concat (hw : w.getLast? ≠ some 0x2f) (hne : w ≠ []) :
    Composes (w ++ [0x2f]) [0x2f] := by
  rw [composes_iff_descend]
  intro current
  have hroot : w ++ [0x2f] ≠ [0x2f] := by simpa using hne
  rw [joinBases, if_neg hroot, if_pos rfl, mountedAt_concat hne]
  exact sameSubpath_root hw hne current

theorem not_composes {s : Bytes} (current : Bytes)
    (hin : (descend (mountedAt a) current).bind (descend (mountedAt b)) = some s)
    (hout : descend (mountedAt (joinBases a b)) current = none) : ¬Composes a b := by
  rw [composes_iff_descend]
  intro h
  have hc := h current
  rw [hin, hout] at hc
  cases hc

theorem not_composes_odd (ha : a.getLast? ≠ some 0x2f) (hne : a ≠ []) :
    ¬Composes a [0x2f, 0x2f, 0x2f] := by
  have hroot : a ≠ [0x2f] := by
    rintro rfl
    exact ha rfl
  have hd : descend a a = some [0x2f] := by
    rw [descend_of_below (by rw [comparedPrefix_of_last ha]; exact .refl a)]
    simp [remainderOf]
  have hin : (descend (mountedAt a) a).bind (descend (mountedAt [0x2f, 0x2f, 0x2f])) = some [0x2f] := by
    rw [mountedAt_of_last ha, hd]
    decide
  refine not_composes a hin ?_
  rw [joinBases, if_neg hroot]
  refine descend_joined hne rfl (by decide) ?_
  have : (comparedPrefix (mountedAt [0x2f, 0x2f, 0x2f])).length = 1 := by decide
  omega

/-- Two octets below the outer base; the inner scope takes one of them away. -/
theorem not_composes_inner_root {v : Bytes} (ha : mountedAt a = v ++ [0x2f]) (hb : mountedAt b = [0x2f])
    (hj : mountedAt (joinBases a b) = v ++ [0x2f]) : ¬Composes a b := by
  rw [composes_iff_descend]
  intro h
  have hc := h (v ++ [0x2f, 0x61, 0x62])
  rw [ha, hb, hj, descend_slash] at hc
  cases hc with
  | cons hs _ => exact absurd hs (by decide)

/-- Nothing composes with the root outside: the slash is taken off the subpath. -/
theorem not_composes_root (hb : b.head? = some 0x2f) : ¬Composes [0x2f] b := by
  have hj : joinBases [0x2f] b = b := if_pos rfl
  obtain hroot | ⟨hn, hn', hk, hlong⟩ := base_cases hb
  · have hm : mountedAt [0x2f] = [] ++ [0x2f] := rfl
    exact not_composes_inner_root hm hroot (by rw [hj, hroot]; rfl)
  rw [composes_iff_descend, hj]
  intro h
  by_cases hodd : b = [0x2f, 0x2f, 0x2f]
  · subst hodd
    have hc := h [0x2f, 0x2f, 0x78]
    cases hc
  · -- the path is the prefix of the inner scope; inside the outer one it is shorter
    obtain ⟨k, hkeq⟩ : ∃ k, k = comparedPrefix (mountedAt b) := ⟨_, rfl⟩
    have hout : descend (mountedAt b) k = some (remainderOf (mountedAt b) k) :=
      descend_of_below (by rw [← hkeq]; exact .refl k)
    have hlt : 1 < k.length := one_lt_length (by rwa [hkeq]) (by rw [hkeq]; exact hlong hodd)
    have hin : (descend (mountedAt [0x2f]) k).bind (descend (mountedAt b)) = none := by
      have hm : mountedAt [0x2f] = [0x2f] := rfl
      rw [hm, descend_root, remainderOf_eq]
      refine descend_of_not_below hn hn' fun hbelow => ?_
      have hle := hbelow.length_le
      rw [← hkeq] at hle
      split_ifs at hle with hnil
      · simp only [length_singleton] at hle
        omega
      · simp only [length_drop, length_singleton] at hle
        omega
    have hc := h k
    rw [hin, hout] at hc
    cases hc

/-- Nothing composes with a base that ends with two slashes, of which only one is removed. -/
theorem not_composes_slashes (v : Bytes) (hb : b.head? = some 0x2f) :
    ¬Composes (v ++ [0x2f, 0x2f]) b := by
  have hm : mountedAt (v ++ [0x2f, 0x2f]) = v ++ [0x2f] := by
    have := mountedAt_concat (show v ++ [0x2f] ≠ [] by simp)
    rwa [append_assoc] at this
  have hroot : v ++ [0x2f, 0x2f] ≠ [0x2f] := by
    intro h
    have := congrArg List.length h
    simp at this
  by_cases hb' : b = [0x2f]
  · subst hb'
    refine not_composes_inner_root hm rfl ?_
    rw [joinBases, if_neg hroot, if_pos rfl, hm]
  · obtain ⟨s, hs⟩ := descend_inner hb
    have hin : (descend (mountedAt (v ++ [0x2f, 0x2f])) (v ++ 0x2f :: comparedPrefix (mountedAt b))).bind
        (descend (mountedAt b)) = some s := by
      rw [hm, descend_slash]
      exact hs
    refine not_composes _ hin ?_
    rw [joinBases, if_neg hroot, if_neg hb']
    refine descend_joined (by simp) hb hb' ?_
    simp only [length_append, length_cons, length_nil]
    omega

theorem not_composes_concat (hw : w.getLast? ≠ some 0x2f) (hne : w ≠ [])
    (hb : b.head? = some 0x2f) (hb' : b ≠ [0x2f]) : ¬Composes (w ++ [0x2f]) b := by
  have hroot : w ++ [0x2f] ≠ [0x2f] := by simpa using hne
  obtain ⟨s, hs⟩ := descend_inner hb
  have hbelow : Below 0x2f w (w ++ comparedPrefix (mountedAt b)) := by
    refine Below.below_iff.mpr ⟨_, rfl, ?_⟩
    obtain hr | ⟨-, -, hk, -⟩ := base_cases hb
    · rw [hr]
      exact .inl rfl
    · exact .inr hk
  have hin : (descend (mountedAt (w ++ [0x2f])) (w ++ comparedPrefix (mountedAt b))).bind
      (descend (mountedAt b)) = some s := by
    rw [mountedAt_concat hne, descend_of_below (by rwa [comparedPrefix_of_last hw]), remainderOf_self]
    exact hs
  refine not_composes _ hin ?_
  rw [joinBases, if_neg hroot, if_neg hb']
  refine descend_joined (by simp) hb hb' ?_
  simp only [length_append, length_cons, length_nil]
  omega

/-- **Nested scopes.** Prefixes match at segment boundaries only, and two nested scopes are one at the joined base
exactly in these cases. -/
theorem vpath_composes_iff {a b : Bytes} (ha : a.head? = some 0x2f) (hb : b.head? = some 0x2f) :
    (∀ path, pathHasPrefix path (mountedAt a) = true ↔
      mountedAt a = [0x2f] ∨ Below 0x2f (comparedPrefix (mountedAt a)) path) ∧
    (Composes a b ↔ (a.getLast? ≠ some 0x2f ∧ b ≠ [0x2f, 0x2f, 0x2f]) ∨
      (b = [0x2f] ∧ ∃ w, a = w ++ [0x2f] ∧ w ≠ [] ∧ w.getLast? ≠ some 0x2f)) := by
  have hne : a ≠ [] := by
    rintro rfl
    cases ha
  refine ⟨fun path => ?_, fun h => ?_, ?_⟩
  · rw [pathHasPrefix_iff, or_iff_right]
    obtain hr | ⟨hr, -⟩ := base_cases ha
    · rw [hr]
      exact cons_ne_nil _ _
    · exact hr
  · by_cases hl : a.getLast? = some 0x2f
    · -- how many slashes are at the end
      obtain ⟨w, rfl⟩ := getLast?_eq_some_iff.mp hl
      by_cases hw : w = []
      · subst hw
        exact absurd h (not_composes_root hb)
      by_cases hl' : w.getLast? = some 0x2f
      · obtain ⟨v, rfl⟩ := getLast?_eq_some_iff.mp hl'
        rw [append_assoc] at h
        exact absurd h (not_composes_slashes v hb)
      · refine .inr ⟨?_, w, rfl, hw, hl'⟩
        by_contra hb'
        exact not_composes_concat hl' hw hb hb' h
    · refine .inl ⟨hl, ?_⟩
      rintro rfl
      exact not_composes_odd hl hne h
  · rintro (⟨hl, hodd⟩ | ⟨rfl, w, rfl, hw, hl⟩)
    · exact composes_of_last hl hne hb hodd
    · exact composes_of_concat hl hw

theorem vpath_composes_plain : Composes (ascii "/x") (ascii "/y/") :=
  ((vpath_composes_iff (by decide) (by decide)).2).mpr (.inl ⟨by decide, by decide⟩)

/-- `vpath("/foo")` inside `vpath("/")` is not asked about `/foo/bar`. -/
theorem vpath_root_hides :
    sights [vpath (ascii "/") 0 [vpath (ascii "/foo") 0 [observed declining]]]
      (requestFor (ascii "/foo/bar") ([], ())) = [] ∧
    sights [vpath (joinBases (ascii "/") (ascii "/foo")) 0 [observed declining]]
      (requestFor (ascii "/foo/bar") ([], ())) = [ascii "/bar"] ∧ ¬Composes (ascii "/") (ascii "/foo") := by
  refine ⟨by decide, by decide, ?_⟩
  exact not_composes_root (by decide)

end Nhttp.Server
