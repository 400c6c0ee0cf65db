import Nhttp.Router.Match

/-!
# Which route is preferred

* `Route.Preferred`: the priority rule as a relation: a static child first, then the first of the
  parameters with the longest preferred match, a wildcard last; `Route.Ok.follows`: it is followed.
* **`onHandle_runs`**: when a router runs a target because some registered pattern matches.
* **`chosenParam_matchesFully`**: when a parameter that matches without a wildcard is chosen before one
  that does not.
-/

namespace Nhttp.Router

open Octets Protocol FirstMax Option

variable {μ τ : Type}

namespace Route

/-! ## The priority rule -/

/-- `p` is the first of the nodes `ps` whose preferred trie paths, given by `pref`, are the longest. -/
def FirstDeepest (pref : Route μ τ → List Edge → Route μ τ → Prop) (ps : List (Route μ τ)) (p : Route μ τ)
    (es : List Edge) (v : Route μ τ) : Prop :=
  ∃ l₁ l₂, ps = l₁ ++ p :: l₂ ∧ pref p es v ∧ (∀ q ∈ l₁, ∀ fs w, pref q fs w → fs.length < es.length) ∧
    ∀ q ∈ l₂, ∀ fs w, pref q fs w → fs.length ≤ es.length

/-- The trie path `es` to `v` is the preferred one of those that match `path`. -/
def Preferred (path : Bytes) (r : Route μ τ) (es : List Edge) (v : Route μ τ) : Prop :=
  if stripSlash path = [] then es = [] ∧ v = r
  else
    let seg := segment (stripSlash path)
    let rest := afterSegment (stripSlash path)
    (∃ c ∈ r.staticChildren, c.name = seg ∧ ∃ es', es = .static c.name :: es' ∧ Preferred rest c es' v) ∨
    (∀ c ∈ r.staticChildren, c.name = seg → ∀ es' caps w, ¬Matches c rest es' caps w) ∧
      ((∃ p es', es = .param p.name :: es' ∧
        FirstDeepest (fun q fs w => q.accepts seg = true ∧ Preferred rest q fs w) r.paramChildren p es' v) ∨
      (∀ p ∈ r.paramChildren, p.accepts seg = true → ∀ es' caps w, ¬Matches p rest es' caps w) ∧
        es = [.wildcard] ∧ r.wildcardChild = some v)
termination_by path.length
decreasing_by all_goals exact length_rest_lt ‹_›

variable {es : List Edge} {r v p : Route μ τ} {path : Bytes}

theorem Preferred.matches {path : Bytes} {r v : Route μ τ} {es : List Edge} (h : Preferred path r es v) :
    ∃ caps, Matches r path es caps v := by
  rw [Preferred] at h
  by_cases hp : stripSlash path = []
  · rw [if_pos hp] at h
    obtain ⟨rfl, rfl⟩ := h
    exact ⟨[], .here hp⟩
  · rw [if_neg hp] at h
    have := length_rest_lt hp
    obtain ⟨c, hc, hn, es, rfl, h⟩ | ⟨-, ⟨p, es, rfl, l₁, l₂, hl, ⟨ha, h⟩, -⟩ | ⟨-, rfl, hw⟩⟩ := h
    · obtain ⟨caps, hm⟩ := Preferred.matches h
      exact ⟨caps, .static hp hc hn hm⟩
    · obtain ⟨caps, hm⟩ := Preferred.matches h
      exact ⟨_, .param hp (by rw [hl]; simp) ha hm⟩
    · exact ⟨_, .wildcard hp hw⟩
termination_by path.length

theorem routeMatch_eq_none_iff (h : r.Ok) (state : RouteState) (path : Bytes) :
    (r.routeMatch state path).1 = none ↔ ∀ es caps v, ¬Matches r path es caps v := by
  obtain ⟨hsome, hnone⟩ := routeMatch_spec h state path
  refine ⟨hnone, fun hno => ?_⟩
  cases hres : r.routeMatch state path with
  | mk o st =>
    cases o with
    | none => rfl
    | some v =>
      obtain ⟨es, caps, hm, -⟩ := hsome v st hres
      exact absurd hm (hno es caps v)

theorem staticFails_iff (h : r.Ok) (state : RouteState) (path : Bytes) :
    r.StaticFails state path ↔ ∀ c ∈ r.staticChildren, c.name = segment path →
      ∀ es caps w, ¬Matches c (afterSegment path) es caps w := by
  constructor
  · intro hs c hc hn
    exact (routeMatch_eq_none_iff (h.static hc) _ _).mp (hs c ((findStaticChild_eq_some h.node).mpr ⟨hc, hn⟩))
  · intro hno c hc
    obtain ⟨hc, hn⟩ := (findStaticChild_eq_some h.node).mp hc
    exact (routeMatch_eq_none_iff (h.static hc) _ _).mpr (hno c hc hn)

theorem trial_eq_none_iff (h : p.Ok) (state : RouteState) (path : Bytes) :
    trial state path p = none ↔ (p.accepts (segment path) = true →
      ∀ es caps w, ¬Matches p (afterSegment path) es caps w) := by
  rw [trial_eq_none]
  exact imp_congr_right fun _ => routeMatch_eq_none_iff h _ _

/-! ## `route_match` follows the rule -/

/-- `route_match` returns the preferred node of `r` for `path`, in every state. -/
structure Follows (path : Bytes) (r : Route μ τ) : Prop where
  preferred : ∀ (state : RouteState) (v : Route μ τ) (st : RouteState),
    r.routeMatch state path = (some v, st) →
      ∃ es, Preferred path r es v ∧ st.depth = state.depth + es.length
  routeMatch : ∀ (state : RouteState) (es : List Edge) (v : Route μ τ), Preferred path r es v →
    ∃ st, r.routeMatch state path = (some v, st) ∧ st.depth = state.depth + es.length

def accepted (path : Bytes) (q : Route μ τ) (fs : List Edge) (w : Route μ τ) : Prop :=
  q.accepts (segment path) = true ∧ Preferred (afterSegment path) q fs w

section trials

variable {path : Bytes} {ps : List (Route μ τ)} (h : ∀ q ∈ ps, Follows (afterSegment path) q)
  (state : RouteState)

include h

variable {q w p v : Route μ τ} {st : RouteState}

theorem accepted_of_trial (hq : q ∈ ps) (ht : trial state path q = some (w, st)) :
    ∃ fs, accepted path q fs w ∧ st.depth = state.depth + fs.length := by
  obtain ⟨ha, hm⟩ := trial_eq_some.mp ht
  obtain ⟨fs, hp, hd⟩ := (h q hq).preferred _ _ _ hm
  exact ⟨fs, ⟨ha, hp⟩, hd⟩

theorem trial_of_accepted (hq : q ∈ ps) {fs : List Edge} (ha : accepted path q fs w) :
    ∃ st, trial state path q = some (w, st) ∧ st.depth = state.depth + fs.length := by
  obtain ⟨st, hm, hd⟩ := (h q hq).routeMatch (captured state q.name (segment path)) fs w ha.2
  exact ⟨st, trial_eq_some.mpr ⟨ha.1, hm⟩, hd⟩

theorem firstDeepest_of_isFirstMax (hmax : IsFirstMax (trial state path) (fun m => m.2.depth) ps p (v, st)) :
    ∃ es, FirstDeepest (accepted path) ps p es v ∧ st.depth = state.depth + es.length := by
  obtain ⟨l₁, l₂, rfl, ht, h1, h2⟩ := hmax
  obtain ⟨es, ha, hd⟩ := accepted_of_trial h state (by simp) ht
  refine ⟨es, ⟨l₁, l₂, rfl, ha, fun q hq fs w hw => ?_, fun q hq fs w hw => ?_⟩, hd⟩
  · obtain ⟨st', ht', hd'⟩ := trial_of_accepted h state (by simp [hq]) hw
    have := h1 q hq _ ht'
    dsimp only at this
    omega
  · obtain ⟨st', ht', hd'⟩ := trial_of_accepted h state (by simp [hq]) hw
    have := h2 q hq _ ht'
    dsimp only at this
    omega

theorem isFirstMax_of_firstDeepest {es : List Edge} (hmax : FirstDeepest (accepted path) ps p es v) :
    ∃ st, IsFirstMax (trial state path) (fun m => m.2.depth) ps p (v, st) ∧
      st.depth = state.depth + es.length := by
  obtain ⟨l₁, l₂, rfl, ha, h1, h2⟩ := hmax
  obtain ⟨st, ht, hd⟩ := trial_of_accepted h state (by simp) ha
  refine ⟨st, ⟨l₁, l₂, rfl, ht, fun q hq m hm => ?_, fun q hq m hm => ?_⟩, hd⟩
  · obtain ⟨fs, hw, hd'⟩ := accepted_of_trial h state (by simp [hq]) hm
    have := h1 q hq fs _ hw
    dsimp only
    omega
  · obtain ⟨fs, hw, hd'⟩ := accepted_of_trial h state (by simp [hq]) hm
    have := h2 q hq fs _ hw
    dsimp only
    omega

end trials

theorem preferred_of_ne_nil (hp : stripSlash path ≠ []) (r : Route μ τ) (es : List Edge)
    (v : Route μ τ) : Preferred path r es v ↔
      (∃ c ∈ r.staticChildren, c.name = segment (stripSlash path) ∧ ∃ es', es = .static c.name :: es' ∧
        Preferred (afterSegment (stripSlash path)) c es' v) ∨
      (∀ c ∈ r.staticChildren, c.name = segment (stripSlash path) →
        ∀ es' caps w, ¬Matches c (afterSegment (stripSlash path)) es' caps w) ∧
        ((∃ p es', es = .param p.name :: es' ∧
          FirstDeepest (accepted (stripSlash path)) r.paramChildren p es' v) ∨
        (∀ p ∈ r.paramChildren, p.accepts (segment (stripSlash path)) = true →
          ∀ es' caps w, ¬Matches p (afterSegment (stripSlash path)) es' caps w) ∧
          es = [.wildcard] ∧ r.wildcardChild = some v) := by
  rw [Preferred]
  exact iff_of_eq (if_neg hp)

/-- **`route_match` follows the priority rule** in every trie that is in order. -/
theorem Ok.follows {r : Route μ τ} (h : r.Ok) (path : Bytes) : Follows path r := by
  by_cases hp : stripSlash path = []
  · refine ⟨fun state v st he => ?_, fun state es v hw => ?_⟩
    · rw [routeMatch, if_pos hp] at he
      cases he
      exact ⟨[], by rw [Preferred, if_pos hp]; exact ⟨rfl, rfl⟩, rfl⟩
    · rw [Preferred, if_pos hp] at hw
      obtain ⟨rfl, rfl⟩ := hw
      exact ⟨state, by rw [Route.routeMatch]; exact if_pos hp, rfl⟩
  · have hlt := length_rest_lt hp
    have ihs : ∀ c ∈ r.staticChildren, Follows (afterSegment (stripSlash path)) c :=
      fun c hc => Ok.follows (h.static hc) _
    have ihp : ∀ p ∈ r.paramChildren, Follows (afterSegment (stripSlash path)) p :=
      fun p hm => Ok.follows (h.param hm) _
    refine ⟨fun state v st he => ?_, fun state es v hw => ?_⟩
    · have hstep := routeMatch_step r state path
      rw [he] at hstep
      cases hstep with
      | here h' => exact absurd h' hp
      | @static c _ _ _ hc hm =>
        obtain ⟨hc, hn⟩ := (findStaticChild_eq_some h.node).mp hc
        obtain ⟨es, hw, hd⟩ := (ihs c hc).preferred _ _ _ hm
        exact ⟨.static c.name :: es, (preferred_of_ne_nil hp ..).mpr (.inl ⟨c, hc, hn, es, rfl, hw⟩),
          hd.trans (depth_deeper_add _ _)⟩
      | @param p _ _ _ hs hmax =>
        obtain ⟨es, hw, hd⟩ := firstDeepest_of_isFirstMax ihp _ hmax
        exact ⟨.param p.name :: es, (preferred_of_ne_nil hp ..).mpr
          (.inr ⟨(staticFails_iff h _ _).mp hs, .inl ⟨p, es, rfl, hw⟩⟩),
          hd.trans (depth_deeper_add _ _)⟩
      | wildcard _ hs ht hwc =>
        refine ⟨[.wildcard], (preferred_of_ne_nil hp ..).mpr (.inr ⟨(staticFails_iff h _ _).mp hs,
          .inr ⟨fun p hm => (trial_eq_none_iff (h.param hm) _ _).mp (ht p hm), rfl, hwc⟩⟩), rfl⟩
    · rw [routeMatch_of_ne_nil r state hp]
      obtain ⟨c, hc, hn, es, rfl, hc'⟩ | ⟨hs, hrest⟩ := (preferred_of_ne_nil hp ..).mp hw
      · obtain ⟨st, hm, hd⟩ := (ihs c hc).routeMatch (deeper state) es v hc'
        rw [staticTrial, (findStaticChild_eq_some h.node).mpr ⟨hc, hn⟩, bind_some, hm]
        exact ⟨st, rfl, hd.trans (depth_deeper_add _ _)⟩
      · rw [staticTrial_eq_none.mpr ((staticFails_iff h _ _).mpr hs)]
        obtain ⟨p, es, rfl, hmax⟩ | ⟨hno, rfl, hwc⟩ := hrest
        · obtain ⟨st, hmax, hd⟩ := isFirstMax_of_firstDeepest ihp (deeper state) hmax
          rw [firstMax_eq_some_iff.mpr hmax]
          exact ⟨st, rfl, hd.trans (depth_deeper_add _ _)⟩
        · rw [firstMax_eq_none_iff.mpr fun p hm => (trial_eq_none_iff (h.param hm) _ _).mpr (hno p hm), hwc]
          exact ⟨_, rfl, rfl⟩
termination_by path.length

/-! ## The chosen parameter -/

/-- The parameter child whose match a call of `route_match` returns. -/
def chosenParam (r : Route μ τ) (state : RouteState) (path : Bytes) : Option (Route μ τ) :=
  if stripSlash path = [] then none
  else match r.staticTrial (deeper state) (stripSlash path) with
    | some _ => none
    | none => (firstMax (trial (deeper state) (stripSlash path)) (fun m => m.2.depth) r.paramChildren).map
        Prod.fst

theorem routeMatch_of_chosenParam {state : RouteState} (h : r.chosenParam state path = some p) :
    ∃ m, trial (deeper state) (stripSlash path) p = some m ∧ r.routeMatch state path = (some m.1, m.2) := by
  unfold chosenParam at h
  split_ifs at h with hp
  rw [routeMatch_of_ne_nil r state hp]
  cases hs : r.staticTrial (deeper state) (stripSlash path) with
  | some m =>
    rw [hs] at h
    cases h
  | none =>
    rw [hs] at h
    obtain ⟨⟨q, m⟩, hm, rfl⟩ := map_eq_some_iff.mp h
    obtain ⟨-, -, -, htrial, -⟩ := isFirstMax_of_firstMax hm
    refine ⟨m, htrial, ?_⟩
    rw [hm]

def MatchesFully (r : Route μ τ) (path : Bytes) : Prop :=
  ∃ es caps v, Matches r path es caps v ∧ .wildcard ∉ es

def StaticMatches (r : Route μ τ) (path : Bytes) : Prop :=
  ∃ c ∈ r.staticChildren, c.name = segment path ∧ ∃ es caps v, Matches c (afterSegment path) es caps v

theorem chosenParam_eq_some_iff (h : r.Ok) (state : RouteState) (hp : stripSlash path ≠ []) (p : Route μ τ) :
    r.chosenParam state path = some p ↔ ¬r.StaticMatches (stripSlash path) ∧
      ∃ es v, FirstDeepest (accepted (stripSlash path)) r.paramChildren p es v := by
  have ihp : ∀ q ∈ r.paramChildren, Follows (afterSegment (stripSlash path)) q :=
    fun q hm => Ok.follows (h.param hm) _
  have hstatic : r.StaticFails state (stripSlash path) ↔ ¬r.StaticMatches (stripSlash path) := by
    rw [staticFails_iff h, StaticMatches]
    push Not
    rfl
  rw [chosenParam, if_neg hp, ← hstatic, ← staticTrial_eq_none]
  cases r.staticTrial (deeper state) (stripSlash path) with
  | some m => simp
  | none =>
    rw [map_eq_some_iff, eq_self, true_and]
    constructor
    · rintro ⟨⟨q, v, st⟩, hm, rfl⟩
      obtain ⟨es, hf, -⟩ := firstDeepest_of_isFirstMax ihp _ (isFirstMax_of_firstMax hm)
      exact ⟨es, v, hf⟩
    · rintro ⟨es, v, hf⟩
      obtain ⟨st, hm, -⟩ := isFirstMax_of_firstDeepest ihp (deeper state) hf
      exact ⟨(p, v, st), firstMax_eq_some_iff.mpr hm, rfl⟩

theorem exists_firstDeepest (h : r.Ok) {q : Route μ τ}
    (hq : q ∈ r.paramChildren) (ha : q.accepts (segment path) = true)
    {caps : List (Bytes × Bytes)} (hm : Matches q (afterSegment path) es caps v) :
    ∃ p fs w, FirstDeepest (accepted path) r.paramChildren p fs w := by
  obtain ⟨-, hnone⟩ | ⟨p, ⟨w, st⟩, -, hmax⟩ :=
    firstMax_spec (trial {} path) (fun m => m.2.depth) r.paramChildren
  · exact absurd hm ((trial_eq_none_iff (h.param hq) _ _).mp (hnone q hq) ha es caps v)
  · obtain ⟨fs, hf, -⟩ := firstDeepest_of_isFirstMax (fun q hq => (h.param hq).follows _) {} hmax
    exact ⟨p, fs, w, hf⟩

def SomeParamFull (r : Route μ τ) (path : Bytes) : Prop :=
  ∃ q ∈ r.paramChildren, q.accepts (segment path) = true ∧ MatchesFully q (afterSegment path)

/-- Some such parameter is ahead of all siblings that match through a wildcard only. -/
def FullAhead (r : Route μ τ) (path : Bytes) : Prop :=
  ∃ l₁ q l₂ es v, r.paramChildren = l₁ ++ q :: l₂ ∧ MatchesFully q (afterSegment path) ∧
    accepted path q es v ∧
    (∀ p ∈ l₁, ¬MatchesFully p (afterSegment path) → ∀ fs w, accepted path p fs w → fs.length < es.length) ∧
    ∀ p ∈ l₂, ¬MatchesFully p (afterSegment path) → ∀ fs w, accepted path p fs w → fs.length ≤ es.length

theorem FirstDeepest.fullAhead
    (h : FirstDeepest (accepted path) r.paramChildren p es v) (hf : MatchesFully p (afterSegment path)) :
    r.FullAhead path := by
  obtain ⟨l₁, l₂, hl, ha, h1, h2⟩ := h
  exact ⟨l₁, p, l₂, es, v, hl, hf, ha, fun q hq _ => h1 q hq, fun q hq _ => h2 q hq⟩

theorem FullAhead.matchesFully
    (h : r.FullAhead path) (hp : FirstDeepest (accepted path) r.paramChildren p es v) :
    MatchesFully p (afterSegment path) := by
  by_contra hno
  obtain ⟨l₁, q, l₂, fs, w, hl, hf, hq, h1, h2⟩ := h
  obtain ⟨m₁, m₂, hm, hp, h1', h2'⟩ := hp
  obtain rfl | ⟨hqm, hpl⟩ | ⟨hpl, hqm⟩ := places_eq_or_before (hl.symm.trans hm)
  · exact hno hf
  · exact absurd (h1' q hqm fs w hq) (not_lt.mpr (h2 p hpl hno es v hp))
  · exact absurd (h1 p hpl hno es v hp) (not_lt.mpr (h2' q hqm fs w hq))

end Route

/-! ## Main results -/

/-- **Which parameter is chosen.** A parameter that matches through a wildcard only is never chosen beside one that
matches without, exactly if a static child matches, or none matches without a wildcard, or one that does is ahead. -/
theorem chosenParam_matchesFully (regs : List (Registration μ τ)) (es : List Edge) (r : Route μ τ)
    (hr : (build regs).nodeAt es = some r) (path : Bytes) :
    (∀ state p, r.chosenParam state path = some p → r.SomeParamFull (stripSlash path) →
      p.MatchesFully (afterSegment (stripSlash path))) ↔
    stripSlash path = [] ∨ r.StaticMatches (stripSlash path) ∨ ¬r.SomeParamFull (stripSlash path) ∨
      r.FullAhead (stripSlash path) := by
  have hok : r.Ok := (ok_build regs).nodeAt hr
  by_cases hp : stripSlash path = []
  · refine iff_of_true (fun state p hc => ?_) (.inl hp)
    rw [Route.chosenParam, if_pos hp] at hc
    cases hc
  · rw [or_iff_right hp]
    constructor
    · intro h
      by_cases hs : r.StaticMatches (stripSlash path)
      · exact .inl hs
      by_cases hq : r.SomeParamFull (stripSlash path)
      · obtain ⟨q, hmem, ha, fs, caps, w, hm, -⟩ := id hq
        obtain ⟨p, fs, w, hf⟩ := Route.exists_firstDeepest hok hmem ha hm
        have hc := (Route.chosenParam_eq_some_iff hok {} hp p).mpr ⟨hs, fs, w, hf⟩
        exact .inr (.inr (hf.fullAhead (h {} p hc hq)))
      · exact .inr (.inl hq)
    · intro h state p hc hq
      obtain ⟨hs, fs, w, hf⟩ := (Route.chosenParam_eq_some_iff hok state hp p).mp hc
      obtain h | h | h := h
      · exact absurd h hs
      · exact absurd hq h
      · exact h.matchesFully hf

def tiedRoutes : List (Registration ℕ ℕ) :=
  [⟨[ascii ":a/*"], .method ⟨ascii "GET"⟩ 0⟩, ⟨[ascii ":b/x"], .method ⟨ascii "GET"⟩ 1⟩]

/-- The theorem at the root of a trie. -/
theorem chosenParam_matchesFully_root :
    (build tiedRoutes).nodeAt [] = some (build tiedRoutes) ∧
      ((∀ state p, (build tiedRoutes).chosenParam state (ascii "1/x") = some p →
        (build tiedRoutes).SomeParamFull (stripSlash (ascii "1/x")) →
        p.MatchesFully (afterSegment (stripSlash (ascii "1/x")))) ↔
      stripSlash (ascii "1/x") = [] ∨ (build tiedRoutes).StaticMatches (stripSlash (ascii "1/x")) ∨
        ¬(build tiedRoutes).SomeParamFull (stripSlash (ascii "1/x")) ∨
        (build tiedRoutes).FullAhead (stripSlash (ascii "1/x"))) :=
  ⟨rfl, chosenParam_matchesFully tiedRoutes [] (build tiedRoutes) rfl (ascii "1/x")⟩

/-- The parameter registered first is chosen, although it matches through its wildcard only. -/
theorem chosenParam_tied :
    ∃ p, (build tiedRoutes).chosenParam {} (ascii "1/x") = some p ∧
      (build tiedRoutes).SomeParamFull (stripSlash (ascii "1/x")) ∧
      ¬p.MatchesFully (afterSegment (stripSlash (ascii "1/x"))) := by
  refine ⟨((build tiedRoutes).chosenParam {} (ascii "1/x")).get (by decide +kernel),
    (some_get _).symm, ?_, ?_⟩
  · refine ⟨_, List.getElem_mem (show 1 < (build tiedRoutes).paramChildren.length by decide +kernel),
      by decide +kernel, _, _, _, .static (by decide +kernel)
        (List.getElem_mem (by decide +kernel : 0 < _)) (by decide +kernel) (.here (by decide +kernel)), ?_⟩
    decide +kernel
  · rintro ⟨es, caps, v, hm, hno⟩
    cases hm with
    | here h => exact absurd h (by decide +kernel)
    | static _ hc => exact absurd (List.isEmpty_eq_false_iff_exists_mem.mpr ⟨_, hc⟩) (by decide +kernel)
    | param _ hp => exact absurd (List.isEmpty_eq_false_iff_exists_mem.mpr ⟨_, hp⟩) (by decide +kernel)
    | wildcard => simp at hno

theorem onHandle_eq_run_iff (regs : List (Registration μ τ)) (m : HttpMethod) (path : Bytes) :
    (∃ ms t, onHandle (build regs) m path = .run ms t) ↔
      ∃ es v, (build regs).Preferred path es v ∧ Registered regs es m := by
  have hok := ok_build regs
  have hfollows := hok.follows path
  have htarget : ∀ es v, (build regs).Preferred path es v →
      (Registered regs es m ↔ (v.getTarget m).isSome) := by
    intro es v hp
    obtain ⟨caps, hm⟩ := hp.matches
    rw [registered_iff, Route.targetAt, hm.nodeAt_eq hok, bind_some]
  constructor
  · rintro ⟨ms, t, hrun⟩
    unfold onHandle at hrun
    cases hres : (build regs).routeMatch {} path with
    | mk o st =>
      rw [hres] at hrun
      cases o with
      | none => cases hrun
      | some v =>
        obtain ⟨es, hp, -⟩ := hfollows.preferred _ _ _ hres
        refine ⟨es, v, hp, (htarget es v hp).mpr ?_⟩
        cases ht : v.getTarget m with
        | some t => rfl
        | none =>
          dsimp only at hrun
          rw [ht] at hrun
          split_ifs at hrun
  · rintro ⟨es, v, hp, hreg⟩
    obtain ⟨st, hres, -⟩ := hfollows.routeMatch {} es v hp
    obtain ⟨t, ht⟩ := isSome_iff_exists.mp ((htarget es v hp).mp hreg)
    refine ⟨v.middlewares, t, ?_⟩
    rw [onHandle, hres]
    dsimp only
    rw [ht]

/-- **Running a target.** A router runs a target whenever some pattern registered for the method matches, exactly if
there is none, or the preferred one of all trie paths that match is registered for the method. -/
theorem onHandle_runs (regs : List (Registration μ τ)) (m : HttpMethod) (path : Bytes) :
    ((∃ es caps v, Registered regs es m ∧ (build regs).Matches path es caps v) →
      ∃ ms t, onHandle (build regs) m path = .run ms t) ↔
    (∀ es caps v, (build regs).Matches path es caps v → ¬Registered regs es m) ∨
      ∃ es v, (build regs).Preferred path es v ∧ Registered regs es m := by
  rw [onHandle_eq_run_iff, imp_iff_not_or]
  refine or_congr_left ⟨fun h es caps v hm hr => h ⟨es, caps, v, hr, hm⟩, ?_⟩
  rintro h ⟨es, caps, v, hr, hm⟩
  exact h es caps v hm hr

def shadowingRoutes : List (Registration ℕ ℕ) :=
  [⟨[ascii "/me"], .method ⟨ascii "POST"⟩ 0⟩, ⟨[ascii "/:id"], .method ⟨ascii "GET"⟩ 1⟩]

/-- The static node is matched and answers 405. -/
theorem onHandle_shadowed :
    (∃ es caps v, Registered shadowingRoutes es ⟨ascii "GET"⟩ ∧
      (build shadowingRoutes).Matches (ascii "/me") es caps v) ∧
    onHandle (build shadowingRoutes) ⟨ascii "GET"⟩ (ascii "/me") = .methodNotAllowed := by
  refine ⟨?_, by decide +kernel⟩
  refine ⟨_, _, _, ?_, .param (by decide +kernel)
    (List.getElem_mem (show 0 < (build shadowingRoutes).paramChildren.length by decide +kernel))
    (by decide +kernel) (.here (by decide +kernel))⟩
  exact ⟨_, List.mem_cons_of_mem _ (List.mem_singleton_self _), by decide +kernel, by decide +kernel⟩

end Nhttp.Router
