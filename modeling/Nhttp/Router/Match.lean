import Nhttp.Router.Trie

/-!
# What a route matches

* `Route.Matches`: a path from a node down the trie that matches a request path, with its captures.
* `Route.routeMatch_step`: what one call of `route_match` does.
* **`routeMatch_matches`**: `route_match` finds a node exactly if some trie path matches.
* **`routeMatch_keeps_iff`**: a call that fails does not leave the state as it was.
-/

namespace Nhttp.Router

open Octets Protocol FirstMax List Option CaptureMap

variable {μ τ : Type}

namespace Route

/-! ## Matching trie paths -/

/-- The segments of `path` lead from `r` along `es` to `v`, with the captures on the way. -/
inductive Matches : Route μ τ → Bytes → List Edge → List (Bytes × Bytes) → Route μ τ → Prop
  | here {r : Route μ τ} {path : Bytes} (h : stripSlash path = []) : Matches r path [] [] r
  | static {r c v : Route μ τ} {path : Bytes} {es : List Edge} {caps : List (Bytes × Bytes)}
      (h : stripSlash path ≠ []) (hc : c ∈ r.staticChildren) (hn : c.name = segment (stripSlash path))
      (hm : Matches c (afterSegment (stripSlash path)) es caps v) :
      Matches r path (.static c.name :: es) caps v
  | param {r p v : Route μ τ} {path : Bytes} {es : List Edge} {caps : List (Bytes × Bytes)}
      (h : stripSlash path ≠ []) (hp : p ∈ r.paramChildren)
      (ha : p.accepts (segment (stripSlash path)) = true)
      (hm : Matches p (afterSegment (stripSlash path)) es caps v) :
      Matches r path (.param p.name :: es) ((p.name, segment (stripSlash path)) :: caps) v
  | wildcard {r w : Route μ τ} {path : Bytes} (h : stripSlash path ≠ []) (hw : r.wildcardChild = some w) :
      Matches r path [.wildcard] [(ascii "*", stripSlash path)] w

theorem find_name_of_mem {cs : List (Route μ τ)} {c : Route μ τ}
    (h : cs.Pairwise fun a b => a.name ≠ b.name) (hc : c ∈ cs) :
    cs.find? (fun x => x.name = c.name) = some c := by
  induction cs with
  | nil => cases hc
  | cons x cs ih =>
    obtain ⟨hx, hcs⟩ := pairwise_cons.mp h
    obtain rfl | hc := mem_cons.mp hc
    · simp
    · rw [find?_cons_of_neg (by simpa using hx c hc), ih hcs hc]

variable {r v p : Route μ τ} {caps : List (Bytes × Bytes)} {es : List Edge} {path k key : Bytes}
  {state : RouteState} {m : CaptureMap}

theorem NodeOk.static_distinct (h : r.NodeOk) :
    r.staticChildren.Pairwise fun a b => a.name ≠ b.name := by
  refine h.sorted.imp ?_
  intro a b hlt he
  rw [he] at hlt
  exact List.lt_irrefl _ hlt

theorem Matches.nodeAt_eq (hm : Matches r path es caps v) (h : r.Ok) : r.nodeAt es = some v := by
  induction hm with
  | here => rfl
  | @static r c v path es caps _ hc _ _ ih =>
    rw [nodeAt, find_name_of_mem h.node.static_distinct hc]
    exact ih (h.static hc)
  | @param r p v path es caps _ hp _ _ ih =>
    rw [nodeAt, find_name_of_mem h.node.distinct hp]
    exact ih (h.param hp)
  | wildcard _ hw => rw [nodeAt, hw]; rfl

/-- Captures are made under the names of parameters, and of the wildcard. -/
theorem Matches.key_eq (hm : Matches r path es caps v) (h : r.Ok) :
    ∀ kv ∈ caps, kv.1.head? = some 0x3a ∨ kv.1 = ascii "*" := by
  induction hm with
  | here => simp
  | static _ hc _ _ ih => exact ih (h.static hc)
  | param _ hp _ _ ih =>
    intro kv hkv
    obtain rfl | hkv := mem_cons.mp hkv
    · exact .inl (h.node.paramNames _ hp).colon
    · exact ih (h.param hp) kv hkv
  | wildcard => simp

/-! ## One call of `route_match` -/

def deeper (state : RouteState) : RouteState := { state with depth := state.depth + 1 }

theorem depth_deeper_add (state : RouteState) (n : ℕ) :
    (deeper state).depth + n = state.depth + (n + 1) := by
  rw [deeper, Nat.add_right_comm, Nat.add_assoc]

def captured (state : RouteState) (key value : Bytes) : RouteState :=
  { state with captures := CaptureMap.assign key value state.captures }

/-- What a parameter child makes of the rest of the path. -/
def trial (state : RouteState) (path : Bytes) (p : Route μ τ) : Option (Route μ τ × RouteState) :=
  if p.accepts (segment path) then
    let m := p.routeMatch (captured state p.name (segment path)) (afterSegment path)
    m.1.map fun v => (v, m.2)
  else none

theorem trial_eq_some {st : RouteState} :
    trial state path p = some (v, st) ↔ p.accepts (segment path) = true ∧
      p.routeMatch (captured state p.name (segment path)) (afterSegment path) = (some v, st) := by
  unfold trial
  split_ifs with ha
  · rw [map_eq_some_iff]
    constructor
    · rintro ⟨x, hx, he⟩
      cases he
      exact ⟨ha, Prod.ext hx rfl⟩
    · rintro ⟨-, he⟩
      rw [he]
      exact ⟨v, rfl, rfl⟩
  · simp [ha]

theorem trial_eq_none :
    trial state path p = none ↔ (p.accepts (segment path) = true →
      (p.routeMatch (captured state p.name (segment path)) (afterSegment path)).1 = none) := by
  unfold trial
  split_ifs with ha
  · rw [map_eq_none_iff]
    exact (true_implies _).symm.to_iff.trans (by rw [eq_true ha])
  · simp [ha]

def StaticFails (r : Route μ τ) (state : RouteState) (path : Bytes) : Prop :=
  ∀ c, r.findStaticChild (segment path) = some c →
    (c.routeMatch (deeper state) (afterSegment path)).1 = none

/-- The ways a call of `route_match` ends. -/
inductive Step (r : Route μ τ) (state : RouteState) (path : Bytes) : Option (Route μ τ) × RouteState → Prop
  | here (h : stripSlash path = []) : Step r state path (some r, state)
  | static {c v : Route μ τ} {st : RouteState} (h : stripSlash path ≠ [])
      (hc : r.findStaticChild (segment (stripSlash path)) = some c)
      (hm : c.routeMatch (deeper state) (afterSegment (stripSlash path)) = (some v, st)) :
      Step r state path (some v, st)
  | param {p v : Route μ τ} {st : RouteState} (h : stripSlash path ≠ [])
      (hs : r.StaticFails state (stripSlash path))
      (hp : IsFirstMax (trial (deeper state) (stripSlash path)) (fun m => m.2.depth) r.paramChildren p
        (v, st)) : Step r state path (some v, st)
  | wildcard {w : Route μ τ} (h : stripSlash path ≠ []) (hs : r.StaticFails state (stripSlash path))
      (hp : ∀ p ∈ r.paramChildren, trial (deeper state) (stripSlash path) p = none)
      (hw : r.wildcardChild = some w) :
      Step r state path (some w, captured (deeper state) w.name (stripSlash path))
  | fail (h : stripSlash path ≠ []) (hs : r.StaticFails state (stripSlash path))
      (hp : ∀ p ∈ r.paramChildren, trial (deeper state) (stripSlash path) p = none)
      (hw : r.wildcardChild = none) : Step r state path (none, deeper state)

def staticTrial (r : Route μ τ) (state : RouteState) (path : Bytes) : Option (Route μ τ × RouteState) :=
  (r.findStaticChild (segment path)).bind fun c =>
    let m := c.routeMatch state (afterSegment path)
    m.1.map fun v => (v, m.2)

theorem staticTrial_eq_none :
    r.staticTrial (deeper state) path = none ↔ r.StaticFails state path := by
  unfold staticTrial StaticFails
  cases r.findStaticChild (segment path) with
  | none => simp
  | some c => simp

theorem routeMatch_of_ne_nil (r : Route μ τ) (state : RouteState) (h : stripSlash path ≠ []) :
    r.routeMatch state path =
      match r.staticTrial (deeper state) (stripSlash path) with
      | some (v, st) => (some v, st)
      | none =>
        match firstMax (trial (deeper state) (stripSlash path)) (fun m => m.2.depth) r.paramChildren with
        | some (_, v, st) => (some v, st)
        | none =>
          match r.wildcardChild with
          | some w => (some w, captured (deeper state) w.name (stripSlash path))
          | none => (none, deeper state) := by
  rw [routeMatch]
  exact if_neg h

/-- **What a call does.** -/
theorem routeMatch_step (r : Route μ τ) (state : RouteState) (path : Bytes) :
    Step r state path (r.routeMatch state path) := by
  by_cases h : stripSlash path = []
  · rw [routeMatch]
    exact (if_pos h).symm ▸ .here h
  · rw [routeMatch_of_ne_nil r state h]
    cases hs : r.staticTrial (deeper state) (stripSlash path) with
    | some m =>
      obtain ⟨c, hc, hm⟩ := bind_eq_some_iff.mp hs
      obtain ⟨v, hv, rfl⟩ := map_eq_some_iff.mp hm
      exact .static h hc (Prod.ext hv rfl)
    | none =>
      have hfails := staticTrial_eq_none.mp hs
      cases hp : firstMax (trial (deeper state) (stripSlash path)) (fun m => m.2.depth) r.paramChildren with
      | some m => exact .param h hfails (isFirstMax_of_firstMax hp)
      | none =>
        have hnone := firstMax_eq_none_iff.mp hp
        cases hw : r.wildcardChild with
        | some w => exact .wildcard h hfails hnone hw
        | none => exact .fail h hfails hnone hw

/-! ## Captures -/

def applyCaps (m : CaptureMap) (caps : List (Bytes × Bytes)) : CaptureMap :=
  caps.foldl (fun m kv => CaptureMap.assign kv.1 kv.2 m) m

theorem lookup_cons_of_ne (h : key ≠ k) (v : Bytes) (m : CaptureMap) :
    List.lookup key ((k, v) :: m) = List.lookup key m := by
  rw [lookup_cons, beq_false_of_ne h]

theorem lookup_assign (key key' value : Bytes) (m : CaptureMap) :
    List.lookup key' (assign key value m) =
      if key' = key then some value else List.lookup key' m := by
  induction m with
  | nil =>
    by_cases h : key' = key
    · simp [assign, h]
    · rw [if_neg h, assign, lookup_cons_of_ne h]
  | cons kv m ih =>
    obtain ⟨k, v⟩ := kv
    unfold assign
    by_cases hk : k = key
    · subst hk
      rw [if_pos rfl]
      by_cases h : key' = k
      · simp [h]
      · rw [if_neg h, lookup_cons_of_ne h, lookup_cons_of_ne h]
    · rw [if_neg hk]
      by_cases h : key' = k
      · subst h
        rw [if_neg hk, lookup_cons_self, lookup_cons_self]
      · rw [lookup_cons_of_ne h, lookup_cons_of_ne h, ih]

/-- **The last assignment counts.** -/
theorem lookup_applyCaps (key : Bytes) (m : CaptureMap) (caps : List (Bytes × Bytes)) :
    List.lookup key (applyCaps m caps) = (List.lookup key caps.reverse).or (List.lookup key m) := by
  induction caps using List.reverseRecOn with
  | nil => rfl
  | append_singleton caps kv ih =>
    obtain ⟨k, v⟩ := kv
    have happ : applyCaps m (caps ++ [(k, v)]) = assign k v (applyCaps m caps) := by
      rw [applyCaps, foldl_append]
      rfl
    rw [happ, lookup_assign, reverse_append, reverse_singleton, singleton_append]
    by_cases h : key = k
    · subst h
      rw [if_pos rfl, lookup_cons_self, some_or]
    · rw [if_neg h, lookup_cons_of_ne h, ih]

theorem mem_keys_assign {value : Bytes}
    (h : k ∈ (assign key value m).map Prod.fst) : k = key ∨ k ∈ m.map Prod.fst := by
  induction m with
  | nil => exact .inl (by simpa [assign] using h)
  | cons kv m ih =>
    unfold assign at h
    split_ifs at h with hk
    · exact .inr (by simpa using h)
    · rw [map_cons, mem_cons] at h
      obtain h | h := h
      · exact .inr (by simp [h])
      · exact (ih h).imp_right fun h => mem_cons_of_mem _ h

theorem nodup_applyCaps (h : (m.map Prod.fst).Nodup) (caps : List (Bytes × Bytes)) :
    ((applyCaps m caps).map Prod.fst).Nodup := by
  induction caps using List.reverseRecOn with
  | nil => exact h
  | append_singleton caps kv ih =>
    rw [applyCaps, foldl_append]
    change ((assign kv.1 kv.2 (applyCaps m caps)).map Prod.fst).Nodup
    generalize applyCaps m caps = m' at ih
    induction m' with
    | nil => simp [assign]
    | cons e m' ihm =>
      obtain ⟨he, hm'⟩ := nodup_cons.mp ih
      unfold assign
      split_ifs with hk
      · exact ih
      · refine nodup_cons.mpr ⟨fun hmem => ?_, ihm hm'⟩
        obtain hmem | hmem := mem_keys_assign hmem
        · exact hk hmem
        · exact he hmem

/-! ## Soundness and completeness -/

theorem length_rest_lt (h : stripSlash path ≠ []) :
    (afterSegment (stripSlash path)).length < path.length :=
  lt_of_lt_of_le (length_afterSegment h) (length_stripSlash_le path)

/-- **A call of `route_match`** returns the end of a matching trie path, or there is none. -/
theorem routeMatch_spec {r : Route μ τ} (h : r.Ok) (state : RouteState) (path : Bytes) :
    (∀ v st, r.routeMatch state path = (some v, st) → ∃ es caps, Matches r path es caps v ∧
      st = ⟨applyCaps state.captures caps, state.depth + es.length⟩) ∧
    ((r.routeMatch state path).1 = none → ∀ es caps v, ¬Matches r path es caps v) := by
  have hstep := routeMatch_step r state path
  constructor
  · intro v st he
    rw [he] at hstep
    cases hstep with
    | here hp => exact ⟨[], [], .here hp, rfl⟩
    | @static c _ _ hp hc hm =>
      obtain ⟨hmem, hn⟩ := (findStaticChild_eq_some h.node).mp hc
      have := length_rest_lt hp
      obtain ⟨es, caps, hmat, rfl⟩ := (routeMatch_spec (h.static hmem) _ _).1 v st hm
      refine ⟨_, caps, .static hp hmem hn hmat, ?_⟩
      rw [length_cons, deeper, Nat.add_right_comm, Nat.add_assoc]
    | @param p _ _ hp _ hmax =>
      obtain ⟨l₁, l₂, hl, ht, -, -⟩ := hmax
      obtain ⟨ha, hm⟩ := trial_eq_some.mp ht
      have hmem : p ∈ r.paramChildren := by
        rw [hl]
        simp
      have := length_rest_lt hp
      obtain ⟨es, caps, hmat, rfl⟩ := (routeMatch_spec (h.param hmem) _ _).1 v st hm
      refine ⟨_, _, .param hp hmem ha hmat, ?_⟩
      rw [length_cons, captured, deeper, Nat.add_right_comm, Nat.add_assoc]
      rfl
    | wildcard hp _ _ hw =>
      refine ⟨_, _, .wildcard hp hw, ?_⟩
      rw [captured, deeper, h.node.wildcardName v hw]
      rfl
  · intro hnone es caps v hm
    cases hres : r.routeMatch state path with
    | mk o st =>
      rw [hres] at hstep hnone
      obtain rfl : o = none := hnone
      cases hstep with
      | fail hp hs ht hw =>
        have := length_rest_lt hp
        cases hm with
        | here h' => exact hp h'
        | static _ hc hn hmat =>
          exact (routeMatch_spec (h.static hc) _ _).2
            (hs _ ((findStaticChild_eq_some h.node).mpr ⟨hc, hn⟩)) _ _ _ hmat
        | param _ hmem ha hmat =>
          exact (routeMatch_spec (h.param hmem) _ _).2 (trial_eq_none.mp (ht _ hmem) ha) _ _ _ hmat
        | wildcard _ hw' =>
          rw [hw] at hw'
          cases hw'
termination_by path.length

end Route

/-- **Matching.** In every trie that registrations make, `route_match` returns a node exactly if some trie path
matches: the end of one, with the captures on it, each key bound to the deepest of its segments. -/
theorem routeMatch_matches (regs : List (Registration μ τ)) (path : Bytes) :
    (((build regs).routeMatch {} path).1.isSome ↔ ∃ es caps v, (build regs).Matches path es caps v) ∧
      ∀ v, ((build regs).routeMatch {} path).1 = some v →
        ∃ es caps, (build regs).Matches path es caps v ∧ (build regs).nodeAt es = some v ∧
          ((build regs).routeMatch {} path).2.depth = es.length ∧
          (∀ kv ∈ caps, kv.1.head? = some 0x3a ∨ kv.1 = ascii "*") ∧
          (((build regs).routeMatch {} path).2.captures.map Prod.fst).Nodup ∧
          ∀ key, List.lookup key ((build regs).routeMatch {} path).2.captures =
            List.lookup key caps.reverse := by
  have hok := ok_build regs
  obtain ⟨hsome, hnone⟩ := Route.routeMatch_spec hok {} path
  cases hres : (build regs).routeMatch {} path with
  | mk o st =>
    rw [hres] at hsome hnone
    cases o with
    | none => exact ⟨iff_of_false (by simp) fun ⟨es, caps, v, hm⟩ => hnone rfl es caps v hm, by simp⟩
    | some v =>
      obtain ⟨es, caps, hm, rfl⟩ := hsome v st rfl
      refine ⟨iff_of_true rfl ⟨es, caps, v, hm⟩, ?_⟩
      rintro _ ⟨⟩
      refine ⟨es, caps, hm, hm.nodeAt_eq hok, Nat.zero_add _, hm.key_eq hok,
        Route.nodup_applyCaps (m := []) nodup_nil caps, fun key => ?_⟩
      exact (Route.lookup_applyCaps key [] caps).trans (or_none)

/-- **A failed call is left one level deeper**: the state is that of before the call only if some trie path matches,
and so the call does not fail. -/
theorem routeMatch_keeps_iff {regs : List (Registration μ τ)} {es₀ : List Edge} {r : Route μ τ}
    (hr : (build regs).nodeAt es₀ = some r) (state : RouteState) (path : Bytes) :
    (((r.routeMatch state path).1 = none → (r.routeMatch state path).2 = state) ↔
      ∃ es caps v, r.Matches path es caps v) ∧
    ((r.routeMatch state path).1 = none → (r.routeMatch state path).2 = { state with depth := state.depth + 1 }) := by
  obtain ⟨hsome, hnone⟩ := Route.routeMatch_spec ((ok_build regs).nodeAt hr) state path
  have hfail : (r.routeMatch state path).1 = none →
      (r.routeMatch state path).2 = { state with depth := state.depth + 1 } := by
    intro h
    have hstep := Route.routeMatch_step r state path
    cases hres : r.routeMatch state path with
    | mk o st =>
      rw [hres] at h hstep
      obtain rfl : o = none := h
      cases hstep
      rfl
  refine ⟨⟨fun hkeep => ?_, fun hm h => ?_⟩, hfail⟩
  · cases hres : r.routeMatch state path with
    | mk o st =>
      cases o with
      | some v =>
        obtain ⟨es, caps, hm, -⟩ := hsome v st hres
        exact ⟨es, caps, v, hm⟩
      | none =>
        have h : (r.routeMatch state path).1 = none := by rw [hres]
        have hd := congrArg RouteState.depth ((hfail h).symm.trans (hkeep h))
        exact absurd hd (Nat.succ_ne_self state.depth)
  · obtain ⟨es, caps, v, hm⟩ := hm
    exact absurd hm (hnone h es caps v)

/-- A route for everything under the root. -/
theorem routeMatch_keeps_wildcard :
    Route.nodeAt [] (build [⟨[ascii "*"], .touch⟩] : Route Unit Unit) = some (build [⟨[ascii "*"], .touch⟩]) ∧
    (((build [⟨[ascii "*"], .touch⟩] : Route Unit Unit).routeMatch {} (ascii "a")).1 = none →
      ((build [⟨[ascii "*"], .touch⟩] : Route Unit Unit).routeMatch {} (ascii "a")).2 = {}) := by
  have hw : (build [⟨[ascii "*"], .touch⟩] : Route Unit Unit).wildcardChild.isSome = true := by decide +kernel
  obtain ⟨w, hw⟩ := isSome_iff_exists.mp hw
  have hroot : Route.nodeAt [] (build [⟨[ascii "*"], .touch⟩] : Route Unit Unit) = some (build [⟨[ascii "*"], .touch⟩]) := rfl
  exact ⟨hroot, (routeMatch_keeps_iff hroot {} (ascii "a")).1.mpr ⟨_, _, w, .wildcard (by decide) hw⟩⟩

/-- A root without routes: the match of `a` fails and leaves the depth 1. -/
theorem routeMatch_state_changed :
    ((build [] : Route Unit Unit).routeMatch {} (ascii "a")).1.isNone = true ∧
      ((build [] : Route Unit Unit).routeMatch {} (ascii "a")).2 = { depth := 1 } := by
  decide +kernel

end Nhttp.Router
