import Nhttp.Router.Route

/-!
# Tries made by registrations

* `Route.Ok`: static children in the order of their names, parameters with names of their own, one
  wildcard, in every node; `ok_build`.
* `Route.at`: the node at an address.
* `registered_iff`: a node has a target for a method exactly if one was registered at its address.
-/

namespace Nhttp.Router

open Octets Protocol List Option Route

variable {μ τ : Type}

/-! ## Names -/

structure IsStaticName (name : Bytes) : Prop where
  ne_nil : name ≠ []
  slash : 0x2f ∉ name
  colon : name.head? ≠ some 0x3a
  star : name ≠ ascii "*"

structure IsParamName (name : Bytes) : Prop where
  colon : name.head? = some 0x3a
  slash : 0x2f ∉ name

/-- The names `route::child` gives. -/
def Edge.Ok : Edge → Prop
  | .static name => IsStaticName name
  | .param name => IsParamName name
  | .wildcard => True

theorem not_mem_segment (path : Bytes) : 0x2f ∉ segment path := by
  intro h
  simpa using mem_takeWhile_imp h

theorem ok_splitEdges (path : Bytes) : ∀ e ∈ splitEdges path, e.Ok := by
  fun_induction splitEdges path with
  | case1 => simp
  | case2 => simp [Edge.Ok]
  | case3 path hne seg hseg ih =>
    intro e he
    obtain rfl | he := mem_cons.mp he
    · obtain ⟨h1, h2⟩ := not_or.mp hseg
      by_cases hc : seg.head? = some 0x3a
      · rw [if_pos hc]
        exact ⟨hc, not_mem_segment path⟩
      · rw [if_neg hc]
        exact ⟨h1, not_mem_segment path, hc, h2⟩
    · exact ih e he

theorem Registration.ok_address (g : Registration μ τ) : ∀ e ∈ g.address, e.Ok := by
  intro e he
  obtain ⟨path, -, he⟩ := mem_flatMap.mp he
  exact ok_splitEdges _ e he

/-! ## The invariant -/

namespace Route

structure NodeOk (r : Route μ τ) : Prop where
  sorted : r.staticChildren.Pairwise fun a b => a.name < b.name
  staticNames : ∀ c ∈ r.staticChildren, IsStaticName c.name
  distinct : r.paramChildren.Pairwise fun a b => a.name ≠ b.name
  paramNames : ∀ p ∈ r.paramChildren, IsParamName p.name
  wildcardName : ∀ w, r.wildcardChild = some w → w.name = ascii "*"

/-- All nodes of the trie are in order. -/
inductive Ok : Route μ τ → Prop
  | intro {r : Route μ τ} (node : r.NodeOk) (statics : ∀ c ∈ r.staticChildren, Ok c)
      (params : ∀ p ∈ r.paramChildren, Ok p) (wildcard : ∀ w, r.wildcardChild = some w → Ok w) : Ok r

variable {r c : Route μ τ} {es : List Edge}

theorem Ok.node (h : r.Ok) : r.NodeOk := by
  cases h with
  | intro node => exact node

theorem Ok.static (h : r.Ok) (hc : c ∈ r.staticChildren) : c.Ok := by
  cases h with
  | intro _ statics => exact statics c hc

theorem Ok.param {p : Route μ τ} (h : r.Ok) (hp : p ∈ r.paramChildren) : p.Ok := by
  cases h with
  | intro _ _ params => exact params p hp

theorem Ok.wildcard {w : Route μ τ} (h : r.Ok) (hw : r.wildcardChild = some w) : w.Ok := by
  cases h with
  | intro _ _ _ wildcard => exact wildcard w hw

theorem ok_fresh (kind : RouteKind) (name : Bytes) : Ok ({ kind := kind, name := name } : Route μ τ) := by
  refine .intro ⟨.nil, ?_, .nil, ?_, ?_⟩ ?_ ?_ ?_ <;> intro x hx <;> cases hx

/-! ## Children -/

section children

variable {f : Route μ τ → Route μ τ} {name : Bytes}

variable {cs ps : List (Route μ τ)} {x : Route μ τ}

theorem mem_modifyStatic (h : x ∈ modifyStatic name f cs) :
    x ∈ cs ∨ ∃ y, x = f y ∧ y.name = name ∧ (y ∈ cs ∨ y = { kind := .staticSegment, name := name }) := by
  induction cs with
  | nil => exact .inr ⟨_, mem_singleton.mp h, rfl, .inr rfl⟩
  | cons c cs ih =>
    unfold modifyStatic at h
    split_ifs at h with h1 h2
    · obtain rfl | h := mem_cons.mp h
      · exact .inl mem_cons_self
      · obtain h | ⟨y, hy, hn, hm⟩ := ih h
        · exact .inl (mem_cons_of_mem _ h)
        · exact .inr ⟨y, hy, hn, hm.imp_left (mem_cons_of_mem _)⟩
    · obtain rfl | h := mem_cons.mp h
      · exact .inr ⟨c, rfl, h2, .inl mem_cons_self⟩
      · exact .inl (mem_cons_of_mem _ h)
    · obtain rfl | h := mem_cons.mp h
      · exact .inr ⟨_, rfl, rfl, .inr rfl⟩
      · exact .inl h

theorem mem_modifyParam (h : x ∈ modifyParam name f ps) :
    x ∈ ps ∨ ∃ y, x = f y ∧ y.name = name ∧ (y ∈ ps ∨ y = { kind := .param, name := name }) := by
  induction ps with
  | nil => exact .inr ⟨_, mem_singleton.mp h, rfl, .inr rfl⟩
  | cons p ps ih =>
    unfold modifyParam at h
    split_ifs at h with h1
    · obtain rfl | h := mem_cons.mp h
      · exact .inr ⟨p, rfl, h1, .inl mem_cons_self⟩
      · exact .inl (mem_cons_of_mem _ h)
    · obtain rfl | h := mem_cons.mp h
      · exact .inl mem_cons_self
      · obtain h | ⟨y, hy, hn, hm⟩ := ih h
        · exact .inl (mem_cons_of_mem _ h)
        · exact .inr ⟨y, hy, hn, hm.imp_left (mem_cons_of_mem _)⟩

variable (hname : ∀ r, (f r).name = r.name)

include hname

theorem name_of_mem_modifyStatic (h : x ∈ modifyStatic name f cs) : x.name = name ∨ x ∈ cs := by
  obtain h | ⟨y, rfl, hn, -⟩ := mem_modifyStatic h
  · exact .inr h
  · exact .inl ((hname y).trans hn)

theorem sorted_modifyStatic (h : cs.Pairwise fun a b => a.name < b.name) :
    (modifyStatic name f cs).Pairwise fun a b => a.name < b.name := by
  induction cs with
  | nil => exact pairwise_singleton _ _
  | cons c cs ih =>
    obtain ⟨hc, hcs⟩ := pairwise_cons.mp h
    unfold modifyStatic
    split_ifs with h1 h2
    · refine pairwise_cons.mpr ⟨fun x hx => ?_, ih hcs⟩
      obtain hx | hx := name_of_mem_modifyStatic hname hx
      · rw [hx]
        exact h1
      · exact hc x hx
    · refine pairwise_cons.mpr ⟨fun x hx => ?_, hcs⟩
      rw [hname]
      exact hc x hx
    · have hlt : name < c.name := Bytes.lt_of_not_lt_of_ne h1 h2
      refine pairwise_cons.mpr ⟨fun x hx => ?_, h⟩
      rw [hname]
      obtain rfl | hx := mem_cons.mp hx
      · exact hlt
      · exact List.lt_trans hlt (hc x hx)

theorem distinct_modifyParam (h : ps.Pairwise fun a b => a.name ≠ b.name) :
    (modifyParam name f ps).Pairwise fun a b => a.name ≠ b.name := by
  induction ps with
  | nil => exact pairwise_singleton _ _
  | cons p ps ih =>
    obtain ⟨hp, hps⟩ := pairwise_cons.mp h
    unfold modifyParam
    split_ifs with h1
    · refine pairwise_cons.mpr ⟨fun x hx => ?_, hps⟩
      rw [hname]
      exact hp x hx
    · refine pairwise_cons.mpr ⟨fun x hx => ?_, ih hps⟩
      obtain hx | ⟨y, rfl, hn, -⟩ := mem_modifyParam hx
      · exact hp x hx
      · rw [hname, hn]
        exact h1

end children

/-! ## Preservation -/

variable {f : Route μ τ → Route μ τ}

theorem name_modifyAt (hname : ∀ r, (f r).name = r.name) (es : List Edge)
    (r : Route μ τ) : (modifyAt f es r).name = r.name := by
  match es with
  | [] => exact hname r
  | .static _ :: _ | .param _ :: _ | .wildcard :: _ => rfl

/-- **A modification keeps the trie in order** if it does so at the node it is made at. -/
theorem Ok.modifyAt (hname : ∀ r, (f r).name = r.name)
    (hok : ∀ r : Route μ τ, r.Ok → (f r).Ok) (hes : ∀ e ∈ es, e.Ok)
    (h : r.Ok) : (modifyAt f es r).Ok := by
  induction es generalizing r with
  | nil => exact hok r h
  | cons e es ih =>
    have he := hes e mem_cons_self
    replace ih : ∀ {r : Route μ τ}, r.Ok → (modifyAt f es r).Ok :=
      ih fun e he => hes e (mem_cons_of_mem _ he)
    have hname' := name_modifyAt hname es
    obtain ⟨⟨hsort, hsn, hd, hpn, hw⟩, hs, hp, hwc⟩ := h
    cases e with
    | static name =>
      refine .intro ⟨sorted_modifyStatic hname' hsort, fun c hc => ?_, hd, hpn, hw⟩ (fun c hc => ?_) hp hwc
      · obtain hc | hc := name_of_mem_modifyStatic hname' hc
        · rw [hc]
          exact he
        · exact hsn c hc
      · obtain hc | ⟨y, rfl, -, hy | rfl⟩ := mem_modifyStatic hc
        · exact hs c hc
        · exact ih (hs y hy)
        · exact ih (ok_fresh _ _)
    | param name =>
      refine .intro ⟨hsort, hsn, distinct_modifyParam hname' hd, fun p hp' => ?_, hw⟩ hs
        (fun p hp' => ?_) hwc
      · obtain hp' | ⟨y, rfl, hn, -⟩ := mem_modifyParam hp'
        · exact hpn p hp'
        · rw [hname', hn]
          exact he
      · obtain hp' | ⟨y, rfl, -, hy | rfl⟩ := mem_modifyParam hp'
        · exact hp p hp'
        · exact ih (hp y hy)
        · exact ih (ok_fresh _ _)
    | wildcard =>
      refine .intro ⟨hsort, hsn, hd, hpn, ?_⟩ hs hp ?_
      · rintro w ⟨⟩
        rw [hname']
        cases hw' : r.wildcardChild with
        | none => rfl
        | some w => exact hw w hw'
      · rintro w ⟨⟩
        cases hw' : r.wildcardChild with
        | none => exact ih (ok_fresh _ _)
        | some w => exact ih (hwc w hw')

/-! ## Lookups -/

theorem findStaticChild_eq_some {name : Bytes} (h : r.NodeOk) :
    r.findStaticChild name = some c ↔ c ∈ r.staticChildren ∧ c.name = name := by
  unfold findStaticChild
  have hsort := h.sorted
  generalize r.staticChildren = cs at hsort ⊢
  induction cs with
  | nil => simp
  | cons x cs ih =>
    obtain ⟨hx, hcs⟩ := pairwise_cons.mp hsort
    by_cases hlt : x.name < name
    · have hne : x.name ≠ name := fun he => List.lt_irrefl _ (he ▸ hlt)
      rw [dropWhile_cons_of_pos (by simpa using hlt), mem_cons]
      refine (ih hcs).trans ?_
      constructor
      · rintro ⟨hm, hn⟩
        exact ⟨.inr hm, hn⟩
      · rintro ⟨rfl | hm, hn⟩
        · exact absurd hn hne
        · exact ⟨hm, hn⟩
    · rw [dropWhile_cons_of_neg (by simpa using hlt)]
      dsimp only
      constructor
      · intro he
        split_ifs at he with hn
        cases he
        exact ⟨mem_cons_self, hn⟩
      · rintro ⟨hm, hn⟩
        obtain rfl | hm := mem_cons.mp hm
        · rw [if_pos hn]
        · exact absurd (hn ▸ hx c hm) hlt

def nodeAt : List Edge → Route μ τ → Option (Route μ τ)
  | [], r => some r
  | .static name :: es, r => (r.staticChildren.find? fun c => c.name = name).bind (nodeAt es)
  | .param name :: es, r => (r.paramChildren.find? fun p => p.name = name).bind (nodeAt es)
  | .wildcard :: es, r => r.wildcardChild.bind (nodeAt es)

def childAt (r : Route μ τ) : Edge → Option (Route μ τ)
  | .static name => r.staticChildren.find? fun c => c.name = name
  | .param name => r.paramChildren.find? fun p => p.name = name
  | .wildcard => r.wildcardChild

/-- The node made where the child along an edge is missing. -/
def fresh : Edge → Route μ τ
  | .static name => { kind := .staticSegment, name := name }
  | .param name => { kind := .param, name := name }
  | .wildcard => { kind := .wildcard, name := ascii "*" }

theorem nodeAt_cons (e : Edge) (r : Route μ τ) : nodeAt (e :: es) r = (r.childAt e).bind (nodeAt es) := by
  cases e <;> rfl

theorem Ok.childAt {e : Edge} (h : r.Ok) (hc : r.childAt e = some c) : c.Ok := by
  cases e with
  | static name => exact h.static (mem_of_find?_eq_some hc)
  | param name => exact h.param (mem_of_find?_eq_some hc)
  | wildcard => exact h.wildcard hc

theorem Ok.getD_childAt (h : r.Ok) (e : Edge) : ((r.childAt e).getD (fresh e)).Ok := by
  cases hc : r.childAt e with
  | none => cases e <;> exact ok_fresh _ _
  | some c => exact h.childAt hc

theorem Ok.nodeAt {v : Route μ τ} (h : r.Ok) (hv : r.nodeAt es = some v) : v.Ok := by
  induction es generalizing r with
  | nil =>
    cases hv
    exact h
  | cons e es ih =>
    rw [nodeAt_cons] at hv
    obtain ⟨c, hc, hv⟩ := bind_eq_some_iff.mp hv
    exact ih (h.childAt hc) hv

section find

variable {f : Route μ τ → Route μ τ} (hname : ∀ r, (f r).name = r.name) (name name' : Bytes)

include hname

theorem find_modifyStatic {cs : List (Route μ τ)} (h : cs.Pairwise fun a b => a.name < b.name) :
    (modifyStatic name f cs).find? (fun c => c.name = name') =
      if name' = name then
        some (f ((cs.find? fun c => c.name = name).getD { kind := .staticSegment, name := name }))
      else cs.find? fun c => c.name = name' := by
  induction cs with
  | nil =>
    by_cases hn : name' = name
    · simp [modifyStatic, hname, hn]
    · simp [modifyStatic, hname, hn, Ne.symm hn]
  | cons c cs ih =>
    obtain ⟨hc, hcs⟩ := pairwise_cons.mp h
    unfold modifyStatic
    split_ifs with h1 h2 h3 h4 h5
    · have hne : c.name ≠ name := fun he => List.lt_irrefl _ (he ▸ h1)
      rw [find?_cons_of_neg (by simpa [h2] using hne), ih hcs, if_pos h2,
        find?_cons_of_neg (by simpa using hne)]
    · by_cases hc' : c.name = name'
      · rw [find?_cons_of_pos (by simpa using hc'), find?_cons_of_pos (by simpa using hc')]
      · rw [find?_cons_of_neg (by simpa using hc'), find?_cons_of_neg (by simpa using hc'),
          ih hcs, if_neg h2]
    · rw [find?_cons_of_pos (by simpa [hname, h4] using h3),
        find?_cons_of_pos (by simpa using h3), getD_some]
    · have hne : c.name ≠ name' := fun he => h4 (he.symm.trans h3)
      rw [find?_cons_of_neg (by simpa [hname] using hne), find?_cons_of_neg (by simpa using hne)]
    · have hlt : name < c.name := Bytes.lt_of_not_lt_of_ne h1 h3
      have hnone : (c :: cs).find? (fun x => x.name = name) = none := by
        rw [find?_eq_none]
        intro x hx
        have hlt' : name < x.name := by
          obtain rfl | hx := mem_cons.mp hx
          · exact hlt
          · exact List.lt_trans hlt (hc x hx)
        simpa using fun he => List.lt_irrefl _ (he ▸ hlt')
      rw [find?_cons_of_pos (by simpa [hname] using h5.symm), hnone, getD_none]
    · rw [find?_cons_of_neg (by simpa [hname] using Ne.symm h5)]

theorem find_modifyParam (ps : List (Route μ τ)) :
    (modifyParam name f ps).find? (fun p => p.name = name') =
      if name' = name then
        some (f ((ps.find? fun p => p.name = name).getD { kind := .param, name := name }))
      else ps.find? fun p => p.name = name' := by
  induction ps with
  | nil =>
    by_cases hn : name' = name
    · simp [modifyParam, hname, hn]
    · simp [modifyParam, hname, hn, Ne.symm hn]
  | cons p ps ih =>
    unfold modifyParam
    split_ifs with h1 h2 h3
    · rw [find?_cons_of_pos (by simpa [hname, h2] using h1),
        find?_cons_of_pos (by simpa using h1), getD_some]
    · have hne : p.name ≠ name' := fun he => h2 (he.symm.trans h1)
      rw [find?_cons_of_neg (by simpa [hname] using hne), find?_cons_of_neg (by simpa using hne)]
    · rw [find?_cons_of_neg (by simpa [h3] using h1), ih, if_pos h3,
        find?_cons_of_neg (by simpa using h1)]
    · by_cases hp : p.name = name'
      · rw [find?_cons_of_pos (by simpa using hp), find?_cons_of_pos (by simpa using hp)]
      · rw [find?_cons_of_neg (by simpa using hp), find?_cons_of_neg (by simpa using hp), ih,
          if_neg h3]

theorem childAt_modifyAt (h : r.Ok) (e e' : Edge) :
    (modifyAt f (e :: es) r).childAt e' =
      if e' = e then some (modifyAt f es ((r.childAt e).getD (fresh e))) else r.childAt e' := by
  replace hname := name_modifyAt hname es
  cases e with
  | static name =>
    cases e' with
    | static name' => simpa [childAt, modifyAt, fresh] using find_modifyStatic hname name name' h.node.sorted
    | param | wildcard => simp [childAt, modifyAt]
  | param name =>
    cases e' with
    | param name' => simpa [childAt, modifyAt, fresh] using find_modifyParam hname name name' r.paramChildren
    | static | wildcard => simp [childAt, modifyAt]
  | wildcard =>
    cases e' with
    | wildcard => simp [childAt, modifyAt, modifyWildcard, fresh]
    | static | param => simp [childAt, modifyAt]

end find

/-! ## Modifications -/

/-- Only the node's own data is changed. -/
def Local (f : Route μ τ → Route μ τ) : Prop :=
  ∀ r, ∃ p ts ms, f r = { r with predicate := p, methodTargets := ts, middlewares := ms }

theorem Local.name (h : Local f) (r : Route μ τ) : (f r).name = r.name := by
  obtain ⟨p, ts, ms, he⟩ := h r
  rw [he]

theorem Local.ok (h : Local f) (r : Route μ τ) (hr : r.Ok) : (f r).Ok := by
  obtain ⟨p, ts, ms, he⟩ := h r
  obtain ⟨⟨h1, h2, h3, h4, h5⟩, hs, hp, hw⟩ := hr
  rw [he]
  exact .intro ⟨h1, h2, h3, h4, h5⟩ hs hp hw

section view

variable {β : Type} (view : Route μ τ → β) (unseen : β)

def viewAt (r : Route μ τ) (es : List Edge) : β := ((r.nodeAt es).map view).getD unseen

/-- The view shows the node's own data only, and nothing for a fresh one. -/
structure OwnView : Prop where
  fresh (kind : RouteKind) (name : Bytes) : view { kind := kind, name := name } = unseen
  own (r : Route μ τ) (cs ps : List (Route μ τ)) (w : Option (Route μ τ)) :
    view { r with staticChildren := cs, paramChildren := ps, wildcardChild := w } = view r

variable {view unseen} (hv : OwnView view unseen)

include hv

theorem viewAt_fresh (kind : RouteKind) (name : Bytes) (es : List Edge) :
    viewAt view unseen ({ kind := kind, name := name } : Route μ τ) es = unseen := by
  match es with
  | [] => exact hv.fresh kind name
  | .static _ :: _ | .param _ :: _ | .wildcard :: _ => rfl

theorem viewAt_cons (r : Route μ τ) (e : Edge) (es : List Edge) :
    viewAt view unseen r (e :: es) = viewAt view unseen ((r.childAt e).getD (fresh e)) es := by
  rw [viewAt, nodeAt_cons]
  cases r.childAt e with
  | none => cases e <;> exact (viewAt_fresh hv _ _ _).symm
  | some c => rfl

/-- **Where a modification shows**: at the address of the node, and at no other. -/
theorem viewAt_modifyAt {f : Route μ τ → Route μ τ} (hf : Local f) {g : β → β} (hg : ∀ r, view (f r) = g (view r))
    {es : List Edge} (hes : ∀ e ∈ es, e.Ok) {r : Route μ τ} (h : r.Ok) (es' : List Edge) :
    viewAt view unseen (modifyAt f es r) es' =
      if es' = es then g (viewAt view unseen r es) else viewAt view unseen r es' := by
  induction es generalizing r es' with
  | nil =>
    cases es' with
    | nil => exact hg r
    | cons e es' =>
      obtain ⟨p, ts, ms, he⟩ := hf r
      rw [modifyAt, he]
      cases e <;> rfl
  | cons e es ih =>
    cases es' with
    | nil => cases e <;> exact hv.own r _ _ _
    | cons e' es' =>
      rw [viewAt_cons hv, viewAt_cons hv, viewAt_cons hv, childAt_modifyAt hf.name h]
      by_cases he : e' = e
      · rw [if_pos he, getD_some, ih (fun e he => hes e (mem_cons_of_mem _ he)) (h.getD_childAt e), he]
        simp
      · rw [if_neg he, if_neg (by simp [he])]

end view

/-! ## Targets -/

def targetAt (r : Route μ τ) (es : List Edge) (m : HttpMethod) : Option τ :=
  (r.nodeAt es).bind fun v => v.getTarget m

theorem ownView_getTarget (m : HttpMethod) : OwnView (fun v : Route μ τ => v.getTarget m) none where
  fresh _ _ := rfl
  own _ _ _ _ := rfl

theorem targetAt_eq_viewAt (r : Route μ τ) (es : List Edge) (m : HttpMethod) :
    r.targetAt es m = viewAt (fun v => v.getTarget m) none r es := by
  rw [targetAt, viewAt]
  cases r.nodeAt es with
  | none => rfl
  | some v => rfl

theorem targetAt_modifyAt (hf : Local f) {m : HttpMethod}
    {g : Option τ → Option τ} (hg : ∀ r, (f r).getTarget m = g (r.getTarget m))
    (hes : ∀ e ∈ es, e.Ok) (h : r.Ok) (es' : List Edge) :
    (modifyAt f es r).targetAt es' m = if es' = es then g (r.targetAt es m) else r.targetAt es' m := by
  simp only [targetAt_eq_viewAt]
  exact viewAt_modifyAt (ownView_getTarget m) hf hg hes h es'

/-! ## Operations -/

theorem getTarget_setTarget (r : Route μ τ) (m m' : HttpMethod) (t : τ) :
    (r.setTarget m t).getTarget m' = if m = m' then some t else r.getTarget m' := by
  unfold getTarget setTarget
  induction r.methodTargets with
  | nil =>
    by_cases hm : m = m'
    · simp [setEntry, hm]
    · simp [setEntry, hm]
  | cons e es ih =>
    unfold setEntry
    by_cases he : e.method = m
    · rw [if_pos he]
      by_cases hm : m = m'
      · simp [he, hm]
      · simp [he, hm]
    · rw [if_neg he]
      by_cases hm : e.method = m'
      · have hne : m ≠ m' := fun h => he (hm.trans h.symm)
        simp [hm, hne]
      · simpa [hm] using ih

theorem local_setTarget (m : HttpMethod) (t : τ) : Local (setTarget m t : Route μ τ → Route μ τ) :=
  fun r => ⟨r.predicate, _, r.middlewares, rfl⟩

theorem Local.comp {f' : Route μ τ → Route μ τ} (h : Local f) (h' : Local f') :
    Local fun r => f' (f r) := by
  intro r
  obtain ⟨p, ts, ms, he⟩ := h r
  obtain ⟨p', ts', ms', he'⟩ := h' (f r)
  exact ⟨p', ts', ms', he'.trans (by rw [he])⟩

theorem local_id : Local (id : Route μ τ → Route μ τ) := by
  intro r
  refine ⟨r.predicate, r.methodTargets, r.middlewares, ?_⟩
  cases r
  rfl

end Route

namespace RegOp

def target (m : HttpMethod) : RegOp μ τ → Option τ
  | .method m' t => if m' = m then some t else none
  | .any t => if m ∈ Route.allMethods then some t else none
  | _ => none

theorem local_apply (op : RegOp μ τ) : Route.Local op.apply := by
  have hany : ∀ (t : τ) (ms : List HttpMethod),
      Route.Local fun r : Route μ τ => ms.foldl (fun r m => r.setTarget m t) r := by
    intro t ms
    induction ms with
    | nil => exact local_id
    | cons m ms ih => exact (local_setTarget m t).comp ih
  intro r
  cases op with
  | touch => exact local_id r
  | method m t => exact local_setTarget m t r
  | any t => exact hany t _ r
  | predicate p => exact ⟨some p, r.methodTargets, r.middlewares, rfl⟩
  | prepend m => exact ⟨r.predicate, r.methodTargets, m :: r.middlewares, rfl⟩
  | append m => exact ⟨r.predicate, r.methodTargets, r.middlewares ++ [m], rfl⟩

theorem getTarget_apply (op : RegOp μ τ) (m : HttpMethod) (r : Route μ τ) :
    (op.apply r).getTarget m = (op.target m).or (r.getTarget m) := by
  have hany : ∀ (t : τ) (ms : List HttpMethod) (r : Route μ τ),
      (ms.foldl (fun r m => r.setTarget m t) r).getTarget m =
        (if m ∈ ms then some t else none).or (r.getTarget m) := by
    intro t ms
    induction ms with
    | nil => simp
    | cons m' ms ih =>
      intro r
      rw [foldl_cons, ih, getTarget_setTarget]
      by_cases hm : m' = m
      · by_cases hms : m ∈ ms <;> simp [hm, hms]
      · by_cases hms : m ∈ ms <;> simp [hm, Ne.symm hm, hms]
  cases op with
  | method m' t =>
    rw [apply, getTarget_setTarget, target]
    split_ifs <;> rfl
  | any t => exact hany t _ r
  | touch | predicate | prepend | append => rfl

end RegOp

/-! ## Sequences of registrations -/

theorem ok_register {r : Route μ τ} (h : r.Ok) (g : Registration μ τ) : (register r g).Ok :=
  h.modifyAt g.op.local_apply.name g.op.local_apply.ok g.ok_address

variable (regs : List (Registration μ τ))

theorem build_append (g : Registration μ τ) : build (regs ++ [g]) = register (build regs) g := by
  rw [build, foldl_append]
  rfl

/-- **Every trie is in order.** -/
theorem ok_build : (build regs).Ok := by
  induction regs using List.reverseRecOn with
  | nil => exact ok_fresh _ _
  | append_singleton regs g ih =>
    rw [build_append]
    exact ok_register ih g

def lastTarget (regs : List (Registration μ τ)) (es : List Edge) (m : HttpMethod) : Option τ :=
  regs.foldl (fun t g => if es = g.address then (g.op.target m).or t else t) none

theorem targetAt_build (es : List Edge) (m : HttpMethod) :
    (build regs).targetAt es m = lastTarget regs es m := by
  induction regs using List.reverseRecOn with
  | nil =>
    rw [targetAt_eq_viewAt]
    exact viewAt_fresh (ownView_getTarget m) _ _ _
  | append_singleton regs g ih =>
    rw [build_append, register, targetAt_modifyAt g.op.local_apply (g.op.getTarget_apply m)
      g.ok_address (ok_build regs), lastTarget, foldl_append]
    by_cases he : es = g.address
    · subst he
      rw [ih]
      simp [lastTarget]
    · rw [ih]
      simp [lastTarget, he]

def Registered (regs : List (Registration μ τ)) (es : List Edge) (m : HttpMethod) : Prop :=
  ∃ g ∈ regs, g.address = es ∧ (g.op.target m).isSome

theorem registered_iff (es : List Edge) (m : HttpMethod) :
    Registered regs es m ↔ ((build regs).targetAt es m).isSome := by
  rw [targetAt_build]
  induction regs using List.reverseRecOn with
  | nil => simp [Registered, lastTarget]
  | append_singleton regs g ih =>
    have hlast : lastTarget (regs ++ [g]) es m =
        if es = g.address then (g.op.target m).or (lastTarget regs es m) else lastTarget regs es m := by
      rw [lastTarget, foldl_append]
      rfl
    have hreg : Registered (regs ++ [g]) es m ↔
        Registered regs es m ∨ g.address = es ∧ (g.op.target m).isSome := by
      simp [Registered, or_and_right, exists_or]
    rw [hreg, hlast, ih]
    by_cases he : es = g.address
    · rw [if_pos he]
      simp [he, or_comm]
    · rw [if_neg he]
      simp [Ne.symm he]

end Nhttp.Router
