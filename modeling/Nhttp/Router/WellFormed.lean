import Nhttp.Router.Group
import Nhttp.Router.Match

/-!
# What registrations make

* `RouterCall`: a call on a route or on the proxy of a group.
* `Route.At`: the nodes of a trie with their addresses.
* **`registrations_wellFormed`**: the order of the children, the names, the targets and `child`, at every node.
-/

namespace Nhttp.Router

open Octets Protocol MethodTarget

variable {μ τ : Type}

/-! ## Calls -/

inductive RouterCall (τ : Type) where
  | resolve (path : Bytes)
  | call (c : RouteCall τ)
  | callAt (c : RouteCall τ) (path : Bytes)
  | param (name : Bytes) (predicate : Bytes → Bool)
  /-- `group` makes its proxy and calls the body. -/
  | group
  | grouped (nested : Facade)

namespace RouterCall

def on : RouterCall τ → Facade → GroupState μ τ → GroupState μ τ
  | .resolve path, f, s => (f.resolve path s).2
  | .call c, f, s => f.call c s
  | .callAt c path, f, s => f.callAt c path s
  | .param name predicate, f, s => f.param name predicate s
  | .group, _, s => s.newProxy
  | .grouped nested, f, s => f.recordNested nested s

/-- The registrations on the root. -/
def registrations : RouterCall τ → Facade → List (Registration μ τ)
  | .resolve path, f => [⟨f.base ++ [path], .touch⟩]
  | .call c, f => [⟨f.base, c.op⟩]
  | .callAt c path, .node paths => [⟨paths ++ [path], c.op⟩]
  | .callAt c path, .proxy _ inner => [⟨inner.base ++ [path], .touch⟩, ⟨inner.base ++ [path], c.op⟩]
  | .param name predicate, f => [⟨f.base ++ [name], .predicate predicate⟩]
  | .group, _ => []
  | .grouped _, _ => []

theorem root_call (c : RouteCall τ) (f : Facade) (s : GroupState μ τ) :
    (f.call c s).root = register s.root ⟨f.base, c.op⟩ := by
  induction f generalizing s with
  | node paths => rfl
  | proxy id inner ih => exact ih _

theorem root_on (c : RouterCall τ) (f : Facade) (s : GroupState μ τ) :
    (c.on f s).root = (c.registrations f).foldl register s.root := by
  cases c with
  | resolve path =>
    rw [on, Facade.resolve_eq]
    rfl
  | call c => exact root_call c f s
  | callAt c path =>
    cases f with
    | node paths => rfl
    | proxy id inner =>
      rw [on, Facade.callAt_proxy]
      rfl
  | param name predicate =>
    rw [on, Facade.param_eq]
    rfl
  | group => rfl
  | grouped nested => cases f <;> rfl

end RouterCall

def afterCalls (calls : List (RouterCall τ × Facade)) : GroupState μ τ :=
  calls.foldl (fun s c => c.1.on c.2 s) { root := { kind := .root }, touched := [] }

def callRegistrations (calls : List (RouterCall τ × Facade)) : List (Registration μ τ) :=
  calls.flatMap fun c => c.1.registrations c.2

theorem root_afterCalls (calls : List (RouterCall τ × Facade)) :
    (afterCalls calls : GroupState μ τ).root = build (callRegistrations calls) := by
  induction calls using List.reverseRecOn with
  | nil => rfl
  | append_singleton calls c ih =>
    have hregs : (callRegistrations (calls ++ [c]) : List (Registration μ τ)) =
        callRegistrations calls ++ c.1.registrations c.2 := by
      simp [callRegistrations]
    rw [hregs, build, List.foldl_append, ← build, ← ih, ← c.1.root_on, afterCalls, List.foldl_append]
    rfl

namespace Route

/-! ## The nodes of a trie -/

/-- The node `v` of a trie, with its address. -/
inductive At : Route μ τ → List Edge → Route μ τ → Prop
  | here {r : Route μ τ} : At r [] r
  | static {r c v : Route μ τ} {es : List Edge} (hc : c ∈ r.staticChildren) (h : At c es v) :
      At r (.static c.name :: es) v
  | param {r p v : Route μ τ} {es : List Edge} (hp : p ∈ r.paramChildren) (h : At p es v) :
      At r (.param p.name :: es) v
  | wildcard {r w v : Route μ τ} {es : List Edge} (hw : r.wildcardChild = some w) (h : At w es v) :
      At r (.wildcard :: es) v

theorem At.nodeAt_eq {r v : Route μ τ} {es : List Edge} (hv : At r es v) (h : r.Ok) : r.nodeAt es = some v := by
  induction hv with
  | here => rfl
  | static hc _ ih =>
    rw [nodeAt, find_name_of_mem h.node.static_distinct hc]
    exact ih (h.static hc)
  | param hp _ ih =>
    rw [nodeAt, find_name_of_mem h.node.distinct hp]
    exact ih (h.param hp)
  | wildcard hw _ ih =>
    rw [nodeAt, hw]
    exact ih (h.wildcard hw)

/-! ## `child` -/

/-- `child` on a node: the node it returns, and what the node it is called on becomes. -/
def child (r : Route μ τ) (path : Bytes) : Option (Route μ τ) × Route μ τ :=
  ((r.modifyAt id (edgesOf path)).nodeAt (edgesOf path), r.modifyAt id (edgesOf path))

section twice

variable {f g : Route μ τ → Route μ τ} (hname : ∀ r, (f r).name = r.name)

include hname

theorem modifyStatic_modifyStatic (name : Bytes) (cs : List (Route μ τ)) :
    modifyStatic name g (modifyStatic name f cs) = modifyStatic name (g ∘ f) cs := by
  induction cs with
  | nil => simp [modifyStatic, hname, List.lt_irrefl]
  | cons c cs ih =>
    rw [modifyStatic, modifyStatic]
    split_ifs with h1 h2
    · rw [modifyStatic, if_pos h1, ih]
    · rw [modifyStatic, hname, if_neg h1, if_pos h2]
      rfl
    · rw [modifyStatic, hname, if_neg (List.lt_irrefl _), if_pos rfl]
      rfl

theorem modifyParam_modifyParam (name : Bytes) (ps : List (Route μ τ)) :
    modifyParam name g (modifyParam name f ps) = modifyParam name (g ∘ f) ps := by
  induction ps with
  | nil => simp [modifyParam, hname]
  | cons p ps ih =>
    rw [modifyParam, modifyParam]
    split_ifs with h
    · rw [modifyParam, hname, if_pos h]
      rfl
    · rw [modifyParam, if_neg h, ih]

theorem modifyAt_modifyAt (es : List Edge) (r : Route μ τ) :
    modifyAt g es (modifyAt f es r) = modifyAt (g ∘ f) es r := by
  induction es generalizing r with
  | nil => rfl
  | cons e es ih =>
    have hcomp : modifyAt g es ∘ modifyAt f es = modifyAt (g ∘ f) es := funext ih
    cases e with
    | static name =>
      simp only [modifyAt, modifyStatic_modifyStatic (name_modifyAt hname es), hcomp]
    | param name =>
      simp only [modifyAt, modifyParam_modifyParam (name_modifyAt hname es), hcomp]
    | wildcard => simp only [modifyAt, modifyWildcard, Option.getD_some, ih]

theorem isSome_nodeAt_modifyAt (es : List Edge) {r : Route μ τ} (h : r.Ok) : ((modifyAt f es r).nodeAt es).isSome := by
  induction es generalizing r with
  | nil => rfl
  | cons e es ih =>
    rw [nodeAt_cons, childAt_modifyAt hname h, if_pos rfl]
    exact ih (h.getD_childAt e)

end twice

theorem child_child {r : Route μ τ} (h : r.Ok) (path : Bytes) :
    (r.child path).2.child path = r.child path ∧ (r.child path).1.isSome := by
  have htwice := modifyAt_modifyAt (f := id) (g := id) (fun _ => rfl) (edgesOf path) r
  refine ⟨?_, isSome_nodeAt_modifyAt (fun _ => rfl) _ h⟩
  rw [child, child, htwice]
  rfl

/-! ## Targets -/

theorem methods_setEntry (m : HttpMethod) (t : τ) (es : List (MethodTarget τ)) :
    (setEntry m t es).map method =
      if m ∈ es.map method then es.map method else es.map method ++ [m] := by
  induction es with
  | nil => rfl
  | cons e es ih =>
    rw [setEntry]
    by_cases he : e.method = m
    · simp [he]
    · rw [if_neg he, List.map_cons, ih]
      simp only [List.map_cons, List.mem_cons, Ne.symm he, false_or]
      split_ifs <;> rfl

theorem nodup_setEntry (m : HttpMethod) (t : τ) {es : List (MethodTarget τ)} (h : (es.map method).Nodup) :
    ((setEntry m t es).map method).Nodup := by
  rw [methods_setEntry]
  split_ifs with hm
  · exact h
  · rw [← List.concat_eq_append]
    exact h.concat hm

end Route

namespace RegOp

def setEntries : RegOp μ τ → List (MethodTarget τ) → List (MethodTarget τ)
  | .method m t, es => Route.setEntry m t es
  | .any t, es => Route.allMethods.foldl (fun es m => Route.setEntry m t es) es
  | _, es => es

theorem methodTargets_apply (op : RegOp μ τ) (r : Route μ τ) :
    (op.apply r).methodTargets = op.setEntries r.methodTargets := by
  cases op <;> rfl

theorem nodup_setEntries (op : RegOp μ τ) {es : List (MethodTarget τ)} (h : (es.map MethodTarget.method).Nodup) :
    ((op.setEntries es).map MethodTarget.method).Nodup := by
  cases op with
  | method m t => exact Route.nodup_setEntry m t h
  | any t =>
    refine List.foldlRecOn (motive := fun es : List (MethodTarget τ) => (es.map MethodTarget.method).Nodup) _ _ h ?_
    exact fun es hes m _ => Route.nodup_setEntry m t hes
  | touch | predicate | prepend | append => exact h

end RegOp

theorem nodup_methodTargets_build (regs : List (Registration μ τ)) (es : List Edge) :
    ((Route.viewAt (fun v => v.methodTargets) [] (build regs) es).map MethodTarget.method).Nodup := by
  have hview : Route.OwnView (fun v : Route μ τ => v.methodTargets) [] := ⟨fun _ _ => rfl, fun _ _ _ _ => rfl⟩
  induction regs using List.reverseRecOn generalizing es with
  | nil =>
    rw [build, List.foldl_nil, Route.viewAt_fresh hview]
    exact List.nodup_nil
  | append_singleton regs g ih =>
    rw [build_append, register, Route.viewAt_modifyAt hview g.op.local_apply g.op.methodTargets_apply g.ok_address
      (ok_build regs)]
    split_ifs
    · exact g.op.nodup_setEntries (ih _)
    · exact ih es

/-- **What registrations make.** At every node the static children are in strict order and the parameters have
different names; a method has at most one entry; `child` finds what it made; and `get_target` gives the target
registered last. -/
theorem registrations_wellFormed (calls : List (RouterCall τ × Facade)) {es : List Edge} {v : Route μ τ}
    (hv : (afterCalls calls : GroupState μ τ).root.At es v) :
    (v.staticChildren.Pairwise fun a b => a.name < b.name) ∧
    (v.paramChildren.Pairwise fun a b => a.name ≠ b.name) ∧
    (∀ p ∈ v.paramChildren, p.name.head? = some 0x3a) ∧
    (∀ c ∈ v.staticChildren, c.name ≠ [] ∧ 0x2f ∉ c.name ∧ c.name.head? ≠ some 0x3a ∧ c.name ≠ ascii "*") ∧
    (v.methodTargets.map MethodTarget.method).Nodup ∧
    (∀ path, (v.child path).2.child path = v.child path ∧ (v.child path).1.isSome) ∧
    (∀ name c, v.findStaticChild name = some c ↔ c ∈ v.staticChildren ∧ c.name = name) ∧
    ∀ m, v.getTarget m = lastTarget (callRegistrations calls : List (Registration μ τ)) es m := by
  rw [root_afterCalls] at hv
  have hok := ok_build (callRegistrations calls : List (Registration μ τ))
  have hnode := hv.nodeAt_eq hok
  have hvok := hok.nodeAt hnode
  refine ⟨hvok.node.sorted, hvok.node.distinct, fun p hp => (hvok.node.paramNames p hp).colon, ?_, ?_,
    Route.child_child hvok, fun name c => Route.findStaticChild_eq_some hvok.node, fun m => ?_⟩
  · intro c hc
    obtain ⟨h₁, h₂, h₃, h₄⟩ := hvok.node.staticNames c hc
    exact ⟨h₁, h₂, h₃, h₄⟩
  · have := nodup_methodTargets_build (callRegistrations calls : List (Registration μ τ)) es
    rwa [Route.viewAt, hnode] at this
  · rw [← targetAt_build, Route.targetAt, hnode]
    rfl

/-- A registration inside a group of the root. -/
theorem registrations_wellFormed_group :
    let calls : List (RouterCall ℕ × Facade) := [(.group, .node []), (.call (.any 7), .proxy 0 (.node [])),
      (.grouped (.proxy 0 (.node [])), .node [])]
    (afterCalls calls : GroupState Unit ℕ).root.getTarget ⟨ascii "GET"⟩ = some 7 :=
  ((registrations_wellFormed _ .here).2.2.2.2.2.2.2 _).trans (by decide)

end Nhttp.Router
