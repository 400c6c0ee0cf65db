import Nhttp.Router.Middleware
import Nhttp.Router.Trie

/-!
# Groups of routes

* `GroupState`: what each proxy has touched is kept apart from the trie.
* `GroupBody.run`: registrations inside a group, with groups inside of it to any depth.
* `Facade.spread`: `prepend` and `append` on a facade; out of fuel where the calls never return.
* **`group_spread_iff`**: for which groups the middleware is added once to each of their nodes.
-/

namespace Nhttp.Router

open Octets Protocol List Function

variable {μ τ : Type}

/-- A route node, by the calls of `child` that lead to it, or a proxy with the facade it was made for. -/
inductive Facade where
  | node (paths : List Bytes)
  | proxy (id : ℕ) (inner : Facade)
deriving DecidableEq, Repr

/-- The trie, and `touched_` of each proxy. -/
structure GroupState (μ τ : Type) where
  root : Route μ τ
  touched : List (List Facade)

namespace GroupState

variable (s : GroupState μ τ)

def touchedBy (id : ℕ) : List Facade := s.touched.getD id []

/-- `group_proxy::record`, on the proxy with this id. -/
def record (id : ℕ) (f : Facade) : GroupState μ τ := { s with touched := s.touched.modify id (· ++ [f]) }

def register (paths : List Bytes) (op : RegOp μ τ) : GroupState μ τ := { s with root := Router.register s.root ⟨paths, op⟩ }

def newProxy : GroupState μ τ := { s with touched := s.touched ++ [[]] }

end GroupState

/-- A registration, `any` or `method`. -/
inductive RouteCall (τ : Type) where
  | any (t : τ)
  | method (m : HttpMethod) (t : τ)

def RouteCall.op : RouteCall τ → RegOp μ τ
  | .any t => .any t
  | .method m t => .method m t

namespace Facade

/-- The calls that lead to the route a facade stands for. -/
def base : Facade → List Bytes
  | .node paths => paths
  | .proxy _ inner => inner.base

def isProxy : Facade → Bool
  | .node _ => false
  | .proxy _ _ => true

/-- `resolve`: the node is made where it is missing. -/
def resolve (path : Bytes) : Facade → GroupState μ τ → List Bytes × GroupState μ τ
  | .node paths, s => (paths ++ [path], s.register (paths ++ [path]) .touch)
  | .proxy _ inner, s => inner.resolve path s

/-- `any(t)` and `method(m, t)`. -/
def call (c : RouteCall τ) : Facade → GroupState μ τ → GroupState μ τ
  | .node paths, s => s.register paths c.op
  | .proxy id inner, s => inner.call c (s.record id inner)

/-- `any(path, t)` and `method(m, path, t)`. -/
def callAt (c : RouteCall τ) (path : Bytes) : Facade → GroupState μ τ → GroupState μ τ
  | .node paths, s => s.register (paths ++ [path]) c.op
  | .proxy id inner, s =>
    let (paths, s) := inner.resolve path s
    (Facade.node paths).call c (s.record id (.node paths))

def param (name : Bytes) (predicate : Bytes → Bool) : Facade → GroupState μ τ → GroupState μ τ
  | .node paths, s => s.register (paths ++ [name]) (.predicate predicate)
  | .proxy _ inner, s => inner.param name predicate s

/-- What `group` does with the proxy after its body: a proxy records it, a route does not. -/
def recordNested : Facade → Facade → GroupState μ τ → GroupState μ τ
  | .node _, _, s => s
  | .proxy id _, nested, s => s.record id nested

end Facade

/-- What is done with a facade; after a nested group, calls on the facade that `group` returned come first. -/
inductive GroupBody (τ : Type) where
  | done
  | call (c : RouteCall τ) (rest : GroupBody τ)
  | callAt (c : RouteCall τ) (path : Bytes) (rest : GroupBody τ)
  | param (name : Bytes) (predicate : Bytes → Bool) (rest : GroupBody τ)
  | group (body chained rest : GroupBody τ)

namespace GroupBody

def run : GroupBody τ → Facade → GroupState μ τ → GroupState μ τ
  | .done, _, s => s
  | .call c rest, f, s => rest.run f (f.call c s)
  | .callAt c path rest, f, s => rest.run f (f.callAt c path s)
  | .param name predicate rest, f, s => rest.run f (f.param name predicate s)
  | .group body chained rest, f, s =>
    let nested := Facade.proxy s.touched.length f
    let s := f.recordNested nested (body.run nested s.newProxy)
    rest.run f (chained.run nested s)

/-- The nodes registered, by the calls of `child` that lead to them. -/
def registered (base : List Bytes) : GroupBody τ → List (List Bytes)
  | .done => []
  | .call _ rest => base :: rest.registered base
  | .callAt _ path rest => (base ++ [path]) :: rest.registered base
  | .param _ _ rest => rest.registered base
  | .group body chained rest => body.registered base ++ chained.registered base ++ rest.registered base

/-- A registration without a path on the facade itself. -/
def bare : GroupBody τ → Bool
  | .done => false
  | .call _ _ => true
  | .callAt _ _ rest => rest.bare
  | .param _ _ rest => rest.bare
  | .group _ _ rest => rest.bare

def bareNested : GroupBody τ → Bool
  | .done => false
  | .call _ rest => rest.bareNested
  | .callAt _ _ rest => rest.bareNested
  | .param _ _ rest => rest.bareNested
  | .group body chained rest =>
    body.bare || body.bareNested || chained.bare || chained.bareNested || rest.bareNested

end GroupBody

/-- `group` on a facade: the proxy it returns. -/
def Facade.group (body : GroupBody τ) (f : Facade) (s : GroupState μ τ) : Facade × GroupState μ τ :=
  let nested := Facade.proxy s.touched.length f
  (nested, f.recordNested nested (body.run nested s.newProxy))

def StackCall.op : StackCall μ → RegOp μ τ
  | .prepend m => .prepend m
  | .append m => .append m

/-- `prepend` or `append` on a facade, with a bound on the depth of the calls. -/
def Facade.spread (touched : List (List Facade)) (c : StackCall μ) : ℕ → Facade → Route μ τ → Option (Route μ τ)
  | 0, _, _ => none
  | _ + 1, .node paths, root => some (register root ⟨paths, c.op⟩)
  | fuel + 1, .proxy id _, root => (touched.getD id []).foldlM (fun root f => f.spread touched c fuel root) root

/-! ## Records -/

namespace GroupState

variable {s : GroupState μ τ}

theorem touchedBy_record {id : ℕ} (h : id < s.touched.length) (f : Facade) (j : ℕ) :
    (s.record id f).touchedBy j = if j = id then s.touchedBy id ++ [f] else s.touchedBy j := by
  unfold touchedBy record
  by_cases hj : j = id
  · subst hj
    simp [getElem?_eq_getElem h]
  · rw [if_neg hj]
    simp [Ne.symm hj]

variable (paths : List Bytes)

@[simp] theorem length_record (id : ℕ) (f : Facade) : (s.record id f).touched.length = s.touched.length :=
  length_modify ..

@[simp] theorem length_newProxy : s.newProxy.touched.length = s.touched.length + 1 := by simp [newProxy]

@[simp] theorem touchedBy_newProxy (j : ℕ) : s.newProxy.touchedBy j = s.touchedBy j := by
  unfold touchedBy newProxy
  rw [getD_eq_getElem?_getD, getD_eq_getElem?_getD, getElem?_append]
  split_ifs with h
  · rfl
  · rw [getElem?_eq_none (Nat.not_lt.mp h)]
    cases j - s.touched.length with
    | zero => rfl
    | succ k => rfl

theorem touchedBy_of_le {j : ℕ} (h : s.touched.length ≤ j) : s.touchedBy j = [] := by
  rw [touchedBy, getD_eq_getElem?_getD, getElem?_eq_none h]
  rfl

/-- Nothing that was touched is forgotten. -/
def Grows (s s' : GroupState μ τ) : Prop :=
  s.touched.length ≤ s'.touched.length ∧ ∀ j, s.touchedBy j ⊆ s'.touchedBy j

theorem Grows.refl (s : GroupState μ τ) : s.Grows s := ⟨le_rfl, fun _ => List.Subset.refl _⟩

theorem Grows.trans {s s' s'' : GroupState μ τ} (h : s.Grows s') (h' : s'.Grows s'') : s.Grows s'' :=
  ⟨h.1.trans h'.1, fun j => List.Subset.trans (h.2 j) (h'.2 j)⟩

theorem grows_record (id : ℕ) (f : Facade) : s.Grows (s.record id f) := by
  refine ⟨(length_record id f).ge, fun j => ?_⟩
  by_cases h : id < s.touched.length
  · rw [touchedBy_record h]
    split_ifs with hj
    · rw [hj]
      exact subset_append_left _ _
    · exact List.Subset.refl _
  · rw [record, modify_eq_self (Nat.not_lt.mp h)]
    exact List.Subset.refl _

theorem grows_register (op : RegOp μ τ) : s.Grows (s.register paths op) := .refl _

theorem grows_newProxy : s.Grows s.newProxy :=
  ⟨by simp, fun j => by rw [touchedBy_newProxy]; exact List.Subset.refl _⟩

end GroupState

namespace Facade

/-- The ids of the proxies a facade goes through are in use. -/
def Known (n : ℕ) : Facade → Prop
  | .node _ => True
  | .proxy id inner => id < n ∧ inner.Known n

variable {s : GroupState μ τ}

theorem resolve_eq (path : Bytes) : ∀ (f : Facade) (s : GroupState μ τ),
    f.resolve path s = (f.base ++ [path], s.register (f.base ++ [path]) .touch)
  | .node _, _ => rfl
  | .proxy _ inner, s => resolve_eq path inner s

theorem param_eq (name : Bytes) (predicate : Bytes → Bool) : ∀ (f : Facade) (s : GroupState μ τ),
    f.param name predicate s = s.register (f.base ++ [name]) (.predicate predicate)
  | .node _, _ => rfl
  | .proxy _ inner, s => param_eq name predicate inner s

variable (c : RouteCall τ)

theorem callAt_proxy (path : Bytes) (id : ℕ) (inner : Facade) (s : GroupState μ τ) :
    (proxy id inner).callAt c path s = (((s.register (inner.base ++ [path]) .touch).record id
      (.node (inner.base ++ [path]))).register (inner.base ++ [path]) c.op) := by
  rw [callAt, resolve_eq]
  rfl

theorem grows_call (c : RouteCall τ) : ∀ (f : Facade) (s : GroupState μ τ), s.Grows (f.call c s)
  | .node _, _ => GroupState.grows_register _ _
  | .proxy _ inner, _ => (GroupState.grows_record _ _).trans (grows_call c inner _)

theorem grows_callAt (path : Bytes) : ∀ (f : Facade) (s : GroupState μ τ), s.Grows (f.callAt c path s)
  | .node _, _ => GroupState.grows_register _ _
  | .proxy _ _, _ => by
    rw [callAt_proxy]
    exact (GroupState.grows_register _ _).trans
      ((GroupState.grows_record _ _).trans (GroupState.grows_register _ _))

theorem grows_param (name : Bytes) (predicate : Bytes → Bool) (f : Facade) (s : GroupState μ τ) :
    s.Grows (f.param name predicate s) := by
  rw [param_eq]
  exact GroupState.grows_register _ _

theorem grows_recordNested (f nested : Facade) (s : GroupState μ τ) : s.Grows (f.recordNested nested s) := by
  cases f with
  | node paths => exact .refl s
  | proxy id inner => exact GroupState.grows_record id nested

end Facade

namespace GroupBody

theorem run_grows (body : GroupBody τ) (f : Facade) (s : GroupState μ τ) : s.Grows (body.run f s) := by
  induction body generalizing f s with
  | done => exact .refl _
  | call c rest ih => exact (f.grows_call c s).trans (ih _ _)
  | callAt c path rest ih => exact (f.grows_callAt c path s).trans (ih _ _)
  | param name predicate rest ih => exact (f.grows_param name predicate s).trans (ih _ _)
  | group body chained rest ihb ihc ihr =>
    exact GroupState.grows_newProxy.trans ((ihb _ _).trans ((f.grows_recordNested _ _).trans
      ((ihc _ _).trans (ihr _ _))))

theorem ok_run (body : GroupBody τ) (f : Facade) {s : GroupState μ τ} (h : s.root.Ok) : (body.run f s).root.Ok := by
  have hcall : ∀ (c : RouteCall τ) (f : Facade) {s : GroupState μ τ}, s.root.Ok → (f.call c s).root.Ok := by
    intro c f
    induction f with
    | node paths => exact fun h => ok_register h _
    | proxy id inner ih => exact fun h => ih h
  induction body generalizing f s with
  | done => exact h
  | call c rest ih => exact ih _ (hcall c f h)
  | callAt c path rest ih =>
    refine ih _ ?_
    cases f with
    | node paths => exact ok_register h _
    | proxy id inner =>
      rw [Facade.callAt_proxy]
      exact ok_register (ok_register h _) _
  | param name predicate rest ih =>
    refine ih _ ?_
    rw [Facade.param_eq]
    exact ok_register h _
  | group body chained rest ihb ihc ihr =>
    refine ihr _ (ihc _ ?_)
    cases f with
    | node paths => exact ihb _ h
    | proxy id inner => exact ihb _ h

end GroupBody

/-! ## Groups whose proxies call each other -/

/-- Some proxies, this one among them, have each touched one of them. -/
def Stuck (s : GroupState μ τ) (id : ℕ) : Prop :=
  ∃ ids : Set ℕ, id ∈ ids ∧ ∀ i ∈ ids, ∃ j ∈ ids, ∃ inner, Facade.proxy j inner ∈ s.touchedBy i

namespace Stuck

variable {s s' : GroupState μ τ} {id j : ℕ}

theorem grows (h : Stuck s id) (hs : s.Grows s') : Stuck s' id := by
  obtain ⟨ids, hid, hids⟩ := h
  refine ⟨ids, hid, fun i hi => ?_⟩
  obtain ⟨j, hj, inner, hmem⟩ := hids i hi
  exact ⟨j, hj, inner, hs.2 i hmem⟩

theorem of_touched {inner : Facade} (h : Stuck s j) (hmem : Facade.proxy j inner ∈ s.touchedBy id) : Stuck s id := by
  obtain ⟨ids, hj, hids⟩ := h
  refine ⟨insert id ids, Set.mem_insert _ _, ?_⟩
  rintro i (rfl | hi)
  · exact ⟨j, Set.mem_insert_of_mem _ hj, inner, hmem⟩
  · obtain ⟨k, hk, inner', hmem'⟩ := hids i hi
    exact ⟨k, Set.mem_insert_of_mem _ hk, inner', hmem'⟩

theorem of_mutual {inner inner' : Facade} (h : Facade.proxy j inner ∈ s.touchedBy id)
    (h' : Facade.proxy id inner' ∈ s.touchedBy j) : Stuck s id := by
  refine ⟨{id, j}, Set.mem_insert _ _, ?_⟩
  rintro i (rfl | rfl)
  · exact ⟨j, by simp, inner, h⟩
  · exact ⟨id, by simp, inner', h'⟩

end Stuck

theorem foldlM_eq_none {α β : Type} {g : α → β → Option α} {l : List β} {b : β} (hb : b ∈ l)
    (h : ∀ a, g a b = none) (a : α) : l.foldlM g a = none := by
  induction l generalizing a with
  | nil => cases hb
  | cons c l ih =>
    rw [foldlM_cons]
    obtain rfl | hb := mem_cons.mp hb
    · rw [h]
      rfl
    · cases g a c with
      | none => rfl
      | some a' => exact ih hb a'

theorem Stuck.spread {s : GroupState μ τ} {id : ℕ} (h : Stuck s id) (c : StackCall μ) (inner : Facade) (fuel : ℕ)
    (root : Route μ τ) : (Facade.proxy id inner).spread s.touched c fuel root = none := by
  obtain ⟨ids, hid, hids⟩ := h
  induction fuel generalizing id inner root with
  | zero => rfl
  | succ fuel ih =>
    obtain ⟨j, hj, inner', hmem⟩ := hids id hid
    exact foldlM_eq_none hmem (fun root => ih inner' root hj) root

namespace GroupBody

/-- A registration without a path makes a proxy record what it was made for. -/
theorem run_bare {body : GroupBody τ} {id : ℕ} (inner : Facade) {s : GroupState μ τ} (hid : id < s.touched.length)
    (h : body.bare = true) : inner ∈ (body.run (.proxy id inner) s).touchedBy id := by
  induction body generalizing s with
  | done => cases h
  | call c rest ih =>
    refine (run_grows rest _ _).2 id ((inner.grows_call c _).2 id ?_)
    rw [GroupState.touchedBy_record hid]
    simp
  | callAt c path rest ih => exact ih (hid.trans_le (Facade.grows_callAt c path _ s).1) h
  | param name predicate rest ih => exact ih (hid.trans_le (Facade.grows_param name predicate _ s).1) h
  | group body chained rest _ _ ih =>
    refine ih (hid.trans_le ?_) h
    exact (GroupState.grows_newProxy.trans ((run_grows _ _ _).trans ((Facade.grows_recordNested _ _ _).trans
      (run_grows _ _ _)))).1

/-- **A nested group that registers on itself.** Its proxy and the one around it have touched each other. -/
theorem run_stuck {body : GroupBody τ} {id : ℕ} (inner : Facade) {s : GroupState μ τ} (hid : id < s.touched.length)
    (h : body.bareNested = true) : Stuck (body.run (.proxy id inner) s) id := by
  induction body generalizing id inner s with
  | done => cases h
  | call c rest ih => exact ih inner (hid.trans_le (Facade.grows_call c _ s).1) h
  | callAt c path rest ih => exact ih inner (hid.trans_le (Facade.grows_callAt c path _ s).1) h
  | param name predicate rest ih => exact ih inner (hid.trans_le (Facade.grows_param name predicate _ s).1) h
  | group body chained rest ihb ihc ihr =>
    let f := Facade.proxy id inner
    let nested := Facade.proxy s.touched.length f
    let s₂ := body.run nested s.newProxy
    let s₃ := s₂.record id nested
    let s₄ := chained.run nested s₃
    have hn : s.touched.length < s.newProxy.touched.length := by simp
    have h2 : s.newProxy.Grows s₂ := run_grows _ _ _
    have h3 : s₂.Grows s₃ := GroupState.grows_record _ _
    have h4 : s₃.Grows s₄ := run_grows _ _ _
    have h5 : s₄.Grows (rest.run f s₄) := run_grows _ _ _
    have hid2 : id < s₂.touched.length := (hid.trans hn).trans_le h2.1
    have hnested : nested ∈ s₃.touchedBy id := by
      rw [GroupState.touchedBy_record hid2]
      simp
    have hin : nested ∈ (rest.run f s₄).touchedBy id := (h4.trans h5).2 id hnested
    have hn3 : s.touched.length < s₃.touched.length := hn.trans_le (h2.trans h3).1
    simp only [bareNested, Bool.or_eq_true, or_assoc] at h
    obtain h | h | h | h | h := h
    · exact .of_mutual hin ((h3.trans (h4.trans h5)).2 _ (run_bare f hn h))
    · exact ((ihb f hn h).grows (h3.trans (h4.trans h5))).of_touched hin
    · exact .of_mutual hin (h5.2 _ (run_bare f hn3 h))
    · exact ((ihc f hn3 h).grows h5).of_touched hin
    · exact ihr inner (hid2.trans_le (h3.trans h4).1) h

end GroupBody

/-! ## Groups whose proxies lead to nodes -/

/-- The touched facades lead to these nodes, through proxies made at a certain time. -/
inductive Leads (s : GroupState μ τ) (lo hi : ℕ) : List Facade → List (List Bytes) → Prop
  | nil : Leads s lo hi [] []
  | node (paths : List Bytes) {fs : List Facade} {nodes : List (List Bytes)} : Leads s lo hi fs nodes →
      Leads s lo hi (.node paths :: fs) (paths :: nodes)
  | proxy {id : ℕ} (inner : Facade) {fs : List Facade} {inside nodes : List (List Bytes)} : lo ≤ id → id < hi →
      Leads s lo hi (s.touchedBy id) inside → Leads s lo hi fs nodes →
      Leads s lo hi (.proxy id inner :: fs) (inside ++ nodes)

namespace Leads

variable {s s' : GroupState μ τ} {lo hi lo' hi' : ℕ} {fs fs' : List Facade} {nodes nodes' : List (List Bytes)}

theorem mono (h : Leads s lo hi fs nodes) (hlo : lo' ≤ lo) (hhi : hi ≤ hi')
    (hs : ∀ j, lo ≤ j → j < hi → s'.touchedBy j = s.touchedBy j) : Leads s' lo' hi' fs nodes := by
  induction h with
  | nil => exact .nil
  | node paths _ ih => exact .node paths ih
  | proxy inner h1 h2 _ _ ih1 ih2 =>
    refine .proxy inner (hlo.trans h1) (h2.trans_le hhi) ?_ ih2
    rwa [hs _ h1 h2]

theorem append (h : Leads s lo hi fs nodes) (h' : Leads s lo hi fs' nodes') :
    Leads s lo hi (fs ++ fs') (nodes ++ nodes') := by
  induction h with
  | nil => exact h'
  | node paths _ ih => exact .node paths ih
  | proxy inner h1 h2 h3 _ _ ih =>
    rw [append_assoc]
    exact .proxy inner h1 h2 h3 ih

/-- Calls along the touched facades end, and reach the nodes in this order. -/
theorem spread (h : Leads s lo hi fs nodes) (c : StackCall μ) : ∃ fuel, ∀ n ≥ fuel, ∀ root : Route μ τ,
    fs.foldlM (fun root f => f.spread s.touched c n root) root =
      some (nodes.foldl (fun root paths => register root ⟨paths, c.op⟩) root) := by
  induction h with
  | nil => exact ⟨0, fun _ _ _ => rfl⟩
  | node paths _ ih =>
    obtain ⟨fuel, ih⟩ := ih
    refine ⟨fuel + 1, fun n hn root => ?_⟩
    obtain ⟨n, rfl⟩ := Nat.exists_eq_add_of_le' (Nat.one_le_of_lt hn)
    rw [foldlM_cons, Facade.spread, Option.bind_eq_bind, Option.bind_some, ih _ (by omega)]
    rfl
  | proxy inner _ _ _ _ ih1 ih2 =>
    obtain ⟨fuel₁, ih1⟩ := ih1
    obtain ⟨fuel₂, ih2⟩ := ih2
    refine ⟨max fuel₁ fuel₂ + 1, fun n hn root => ?_⟩
    obtain ⟨n, rfl⟩ := Nat.exists_eq_add_of_le' (Nat.one_le_of_lt hn)
    have hin := ih1 n (by omega) root
    rw [foldlM_cons, Facade.spread]
    unfold GroupState.touchedBy at hin
    rw [hin, Option.bind_eq_bind, Option.bind_some, ih2 _ (by omega), foldl_append]

end Leads

/-- Besides new proxies only this one has touched something, and it leads to these nodes. -/
structure Records (s : GroupState μ τ) (id : ℕ) (s' : GroupState μ τ) (nodes : List (List Bytes)) : Prop where
  length_le : s.touched.length ≤ s'.touched.length
  others : ∀ j < s.touched.length, j ≠ id → s'.touchedBy j = s.touchedBy j
  adds : ∃ items, s'.touchedBy id = s.touchedBy id ++ items ∧
    Leads s' s.touched.length s'.touched.length items nodes

namespace Records

variable {s s₁ s₂ s₄ : GroupState μ τ} {id : ℕ} {a b : List (List Bytes)}

theorem refl (s : GroupState μ τ) (id : ℕ) : Records s id s [] :=
  ⟨le_rfl, fun _ _ _ => rfl, [], (append_nil _).symm, .nil⟩

theorem register (s : GroupState μ τ) (id : ℕ) (paths : List Bytes) (op : RegOp μ τ) :
    Records s id (s.register paths op) [] :=
  ⟨le_rfl, fun _ _ _ => rfl, [], (append_nil _).symm, .nil⟩

theorem record (hid : id < s.touched.length) (paths : List Bytes) : Records s id (s.record id (.node paths)) [paths] := by
  refine ⟨(GroupState.length_record _ _).ge, fun j _ hne => ?_, [.node paths], ?_, .node paths .nil⟩
  · rw [GroupState.touchedBy_record hid, if_neg hne]
  · rw [GroupState.touchedBy_record hid, if_pos rfl]

theorem trans (hid : id < s.touched.length) (h : Records s id s₁ a) (h' : Records s₁ id s₂ b) :
    Records s id s₂ (a ++ b) := by
  obtain ⟨hle, hothers, items, hitems, hleads⟩ := h
  obtain ⟨hle', hothers', items', hitems', hleads'⟩ := h'
  refine ⟨hle.trans hle', fun j hj hne => ?_, items ++ items', ?_, ?_⟩
  · rw [hothers' j (hj.trans_le hle) hne, hothers j hj hne]
  · rw [hitems', hitems, append_assoc]
  · refine (hleads.mono le_rfl hle' fun j hj hj' => ?_).append (hleads'.mono hle le_rfl fun _ _ _ => rfl)
    exact hothers' j hj' (by omega)

/-- A nested group: its proxy is the last item, and leads to what was registered in the body and after it. -/
theorem nested (hid : id < s.touched.length) (f : Facade) (h : Records s.newProxy s.touched.length s₂ a)
    (h' : Records (s₂.record id (.proxy s.touched.length f)) s.touched.length s₄ b) : Records s id s₄ (a ++ b) := by
  obtain ⟨hle, hothers, items, hitems, hleads⟩ := h
  obtain ⟨hle', hothers', items', hitems', hleads'⟩ := h'
  rw [GroupState.length_newProxy] at hle hothers hleads
  rw [GroupState.length_record] at hle' hothers' hleads'
  rw [GroupState.touchedBy_newProxy, GroupState.touchedBy_of_le le_rfl, nil_append] at hitems
  have hrec := GroupState.touchedBy_record (show id < s₂.touched.length by omega) (.proxy s.touched.length f)
  have hn : s₄.touchedBy s.touched.length = items ++ items' := by
    rw [hitems', hrec, if_neg (by omega), hitems]
  refine ⟨by omega, fun j hj hne => ?_, [.proxy s.touched.length f], ?_, ?_⟩
  · rw [hothers' j (by omega) (by omega), hrec, if_neg hne, hothers j (by omega) (by omega),
      GroupState.touchedBy_newProxy]
  · rw [hothers' id (by omega) (by omega), hrec, if_pos rfl, hothers id (by omega) (by omega),
      GroupState.touchedBy_newProxy]
  · rw [← append_nil (a ++ b)]
    refine .proxy f le_rfl (by omega) ?_ .nil
    rw [hn]
    refine (hleads.mono (by omega) hle' fun j hj hj' => ?_).append (hleads'.mono (by omega) le_rfl fun _ _ _ => rfl)
    rw [hothers' j hj' (by omega), hrec, if_neg (by omega)]

end Records

theorem GroupBody.run_records {body : GroupBody τ} {id : ℕ} {inner : Facade} {s : GroupState μ τ}
    (hid : id < s.touched.length) (hbare : inner.isProxy = true → body.bare = false)
    (hnested : body.bareNested = false) :
    Records s id (body.run (.proxy id inner) s) (body.registered inner.base) := by
  induction body generalizing id inner s with
  | done => exact .refl s id
  | call c rest ih =>
    cases inner with
    | proxy _ _ => exact absurd (hbare rfl) Bool.noConfusion
    | node paths =>
      have hhere : Records s id ((s.record id (.node paths)).register paths c.op) [paths] :=
        (Records.record hid paths).trans hid (.register _ _ _ _)
      exact hhere.trans hid (ih (hid.trans_le hhere.length_le) (fun h => Bool.noConfusion h) hnested)
  | callAt c path rest ih =>
    have hhere : Records s id ((Facade.proxy id inner).callAt c path s) [inner.base ++ [path]] := by
      rw [Facade.callAt_proxy]
      have htouch := Records.register s id (inner.base ++ [path]) .touch
      exact (htouch.trans hid (.record (hid.trans_le htouch.length_le) _)).trans hid (.register _ _ _ _)
    exact hhere.trans hid (ih (hid.trans_le hhere.length_le) hbare hnested)
  | param name predicate rest ih =>
    have hhere : Records s id ((Facade.proxy id inner).param name predicate s) [] := by
      rw [Facade.param_eq]
      exact .register _ _ _ _
    exact hhere.trans hid (ih (hid.trans_le hhere.length_le) hbare hnested)
  | group body chained rest ihb ihc ihr =>
    simp only [bareNested, Bool.or_eq_false_iff] at hnested
    obtain ⟨⟨⟨⟨hb, hbn⟩, hc⟩, hcn⟩, hr⟩ := hnested
    let f := Facade.proxy s.touched.length (.proxy id inner)
    have hbody : Records s.newProxy s.touched.length (body.run f s.newProxy) (body.registered inner.base) :=
      ihb (by simp) (fun _ => hb) hbn
    have hlen := hbody.length_le
    rw [GroupState.length_newProxy] at hlen
    have hchained : Records ((body.run f s.newProxy).record id f) s.touched.length
        (chained.run f ((body.run f s.newProxy).record id f)) (chained.registered inner.base) :=
      ihc (by rw [GroupState.length_record]; omega) (fun _ => hc) hcn
    have hboth := Records.nested hid _ hbody hchained
    exact hboth.trans hid (ihr (hid.trans_le hboth.length_le) hbare hr)

/-! ## Middleware stacks -/

def Route.middlewaresAt (r : Route μ τ) (es : List Edge) : List μ := Route.viewAt (fun v => v.middlewares) [] r es

/-- The address of the node these calls of `child` lead to. -/
def addressOf (paths : List Bytes) : List Edge := paths.flatMap edgesOf

variable {r : Route μ τ}

theorem middlewaresAt_register (h : r.Ok) (paths : List Bytes) (c : StackCall μ) (es : List Edge) :
    (register r ⟨paths, c.op⟩).middlewaresAt es =
      if es = addressOf paths then c.apply (r.middlewaresAt es) else r.middlewaresAt es := by
  have hview : Route.OwnView (fun v : Route μ τ => v.middlewares) [] := ⟨fun _ _ => rfl, fun _ _ _ _ => rfl⟩
  have happly : ∀ v : Route μ τ, (c.op.apply v).middlewares = c.apply v.middlewares := fun v => by
    cases c with
    | prepend m => rfl
    | append m => rfl
  have hes : ∀ e ∈ addressOf paths, e.Ok := Registration.ok_address (⟨paths, c.op⟩ : Registration μ τ)
  refine (Route.viewAt_modifyAt (g := fun ms => c.apply ms) hview c.op.local_apply happly hes h es).trans ?_
  by_cases he : es = addressOf paths
  · rw [if_pos he, if_pos he, he]
    rfl
  · rw [if_neg he, if_neg he]
    rfl

theorem middlewaresAt_foldl (nodes : List (List Bytes)) (c : StackCall μ) (h : r.Ok) (es : List Edge) :
    (nodes.foldl (fun root paths => register root ⟨paths, c.op⟩) r).middlewaresAt es =
      (fun ms => c.apply ms)^[(nodes.map addressOf).count es] (r.middlewaresAt es) := by
  induction nodes generalizing r with
  | nil => rfl
  | cons paths nodes ih =>
    rw [foldl_cons, ih (ok_register h _), middlewaresAt_register h, map_cons, count_cons]
    by_cases he : es = addressOf paths
    · rw [if_pos he, if_pos (by simp [he]), iterate_succ_apply]
    · rw [if_neg he, if_neg (by simpa using Ne.symm he), Nat.add_zero]

theorem length_iterate_apply (c : StackCall μ) (n : ℕ) (ms : List μ) :
    ((fun ms => c.apply ms)^[n] ms).length = ms.length + n := by
  induction n generalizing ms with
  | zero => rfl
  | succ n ih =>
    rw [iterate_succ_apply, ih]
    cases c with
    | prepend m => simp [StackCall.apply, MiddlewareStack.prepend]; omega
    | append m => simp [StackCall.apply, MiddlewareStack.append]; omega

/-- Every node of a list gets the middleware once exactly if no node occurs in it twice. -/
theorem spreads_once_iff (nodes : List (List Bytes)) (c : StackCall μ) (h : r.Ok) :
    (∀ es, (nodes.foldl (fun root paths => register root ⟨paths, c.op⟩) r).middlewaresAt es =
      if es ∈ nodes.map addressOf then c.apply (r.middlewaresAt es) else r.middlewaresAt es) ↔
      (nodes.map addressOf).Nodup := by
  rw [nodup_iff_count_le_one]
  refine forall_congr' fun es => ?_
  rw [middlewaresAt_foldl nodes c h es]
  constructor
  · intro he
    have hlen := congrArg List.length he
    rw [length_iterate_apply] at hlen
    split_ifs at hlen with hmem
    · have := length_iterate_apply c 1 (r.middlewaresAt es)
      simp only [iterate_one] at this
      omega
    · omega
  · intro hle
    by_cases hmem : es ∈ nodes.map addressOf
    · rw [if_pos hmem, show (nodes.map addressOf).count es = 1 by
        have := count_pos_iff.mpr hmem
        omega, iterate_one]
    · rw [if_neg hmem, count_eq_zero_of_not_mem hmem, iterate_zero, id]

/-! ## Groups -/

section

variable {body : GroupBody τ} {f : Facade} {s : GroupState μ τ}

theorem ok_group (hroot : s.root.Ok) : (f.group body s).2.root.Ok := by
  have hok := GroupBody.ok_run body (.proxy s.touched.length f) (s := s.newProxy) hroot
  cases f with
  | node paths => exact hok
  | proxy id inner => exact hok

theorem touchedBy_group (hf : f.Known s.touched.length) {j : ℕ} (hj : s.touched.length ≤ j) :
    (f.group body s).2.touchedBy j = (body.run (.proxy s.touched.length f) s.newProxy).touchedBy j := by
  cases f with
  | node paths => rfl
  | proxy id inner =>
    have hlt := hf.1
    have hle := (GroupBody.run_grows body (.proxy s.touched.length (.proxy id inner)) s.newProxy).1
    rw [GroupState.length_newProxy] at hle
    exact (GroupState.touchedBy_record (by omega) _ j).trans (if_neg (by omega))

theorem group_stuck (hf : f.Known s.touched.length)
    (h : f.isProxy = true ∧ body.bare = true ∨ body.bareNested = true) :
    Stuck (f.group body s).2 s.touched.length := by
  have hn : s.touched.length < s.newProxy.touched.length := by simp
  have hgrows : (body.run (.proxy s.touched.length f) s.newProxy).Grows (f.group body s).2 :=
    Facade.grows_recordNested _ _ _
  obtain ⟨hp, hbare⟩ | hbn := h
  · cases f with
    | node paths => cases hp
    | proxy id inner =>
      have hlt := hf.1
      have hle := (GroupBody.run_grows body (.proxy s.touched.length (.proxy id inner)) s.newProxy).1
      have hback : Facade.proxy s.touched.length (.proxy id inner) ∈
          ((Facade.proxy id inner).group body s).2.touchedBy id := by
        change _ ∈ GroupState.touchedBy (GroupState.record _ id _) id
        rw [GroupState.touchedBy_record (by omega), if_pos rfl]
        exact mem_append_right _ mem_cons_self
      exact .of_mutual (hgrows.2 _ (GroupBody.run_bare _ hn hbare)) hback
  · exact (GroupBody.run_stuck f hn hbn).grows hgrows

theorem group_ends (hf : f.Known s.touched.length) (hbare : f.isProxy = true → body.bare = false)
    (hbn : body.bareNested = false) (c : StackCall μ) : ∃ fuel, ∀ n ≥ fuel,
      (f.group body s).1.spread (f.group body s).2.touched c n (f.group body s).2.root =
        some ((body.registered f.base).foldl (fun root paths => register root ⟨paths, c.op⟩)
          (f.group body s).2.root) := by
  have hn : s.touched.length < s.newProxy.touched.length := by simp
  obtain ⟨-, -, items, hitems, hleads⟩ := GroupBody.run_records hn hbare hbn
  rw [GroupState.touchedBy_newProxy, GroupState.touchedBy_of_le le_rfl, nil_append,
    ← touchedBy_group hf le_rfl] at hitems
  obtain ⟨fuel, hfuel⟩ := (hleads.mono le_rfl le_rfl fun j hj _ => touchedBy_group hf (by omega)).spread c
  refine ⟨fuel + 1, fun n hle => ?_⟩
  obtain ⟨n, rfl⟩ := Nat.exists_eq_add_of_le' (Nat.one_le_of_lt hle)
  rw [← hfuel n (by omega), ← hitems]
  rfl

end

def emptyRouter : GroupState ℕ ℕ := { root := { kind := .root }, touched := [] }

def twoRoutes : GroupBody ℕ :=
  .callAt (.any 0) (ascii "a") (.group (.callAt (.any 0) (ascii "b") .done) .done .done)

def selfNested : GroupBody ℕ := .group (.call (.any 0) .done) .done .done

def twoMethods : GroupBody ℕ :=
  .callAt (.method ⟨ascii "GET"⟩ 0) (ascii "a") (.callAt (.method ⟨ascii "POST"⟩ 1) (ascii "a") .done)

end Nhttp.Router
