import Nhttp.Lib.FirstMax
import Nhttp.Protocol.Resource

/-!
# The routing trie

* `Route`: a node of the trie with its children, targets and middlewares.
* `edgesOf`, `Route.modifyAt`: `route::child`, the edges of a path and the node at their end, made
  where it is missing.
* `Registration`, `build`: a sequence of registrations on a root route.
* `Route.routeMatch`: `route::route_match`; `onHandle`: `router::on_handle`.
-/

namespace Nhttp.Router

open Octets Protocol FirstMax

inductive RouteKind where
  | root
  | staticSegment
  | param
  | wildcard
deriving DecidableEq, Repr

structure MethodTarget (τ : Type) where
  method : HttpMethod
  target : τ

/-- A node of the trie. `μ` are middlewares, `τ` targets. -/
structure Route (μ τ : Type) where
  kind : RouteKind
  name : Bytes := []
  predicate : Option (Bytes → Bool) := none
  staticChildren : List (Route μ τ) := []
  paramChildren : List (Route μ τ) := []
  wildcardChild : Option (Route μ τ) := none
  methodTargets : List (MethodTarget τ) := []
  middlewares : List μ := []

variable {μ τ : Type}

/-! ## Paths -/

def stripSlash : Bytes → Bytes
  | [] => []
  | c :: path => if c = 0x2f then path else c :: path

def segment (path : Bytes) : Bytes := path.takeWhile (· ≠ 0x2f)

/-- What follows the slash behind the first segment. -/
def afterSegment (path : Bytes) : Bytes := path.drop ((segment path).length + 1)

theorem length_stripSlash_le (path : Bytes) : (stripSlash path).length ≤ path.length := by
  cases path with
  | nil => exact le_rfl
  | cons c path =>
    rw [stripSlash]
    split_ifs <;> simp

theorem length_afterSegment {path : Bytes} (h : path ≠ []) :
    (afterSegment path).length < path.length := by
  have := List.length_pos_iff.mpr h
  rw [afterSegment, List.length_drop]
  omega

inductive Edge where
  | static (name : Bytes)
  | param (name : Bytes)
  | wildcard
deriving DecidableEq, Repr

/-- The loop of `route::child`. -/
def splitEdges (path : Bytes) : List Edge :=
  if path = [] then []
  else
    let seg := segment path
    if seg = [] ∨ seg = ascii "*" then [.wildcard]
    else (if seg.head? = some 0x3a then .param seg else .static seg) :: splitEdges (afterSegment path)
termination_by path.length
decreasing_by exact length_afterSegment ‹_›

/-- The edges `route::child` follows. -/
def edgesOf (path : Bytes) : List Edge := splitEdges (stripSlash path)

namespace Route

/-! ## Registration -/

/-- `find_or_create_static_child` and what becomes of the child. The children are sorted by name. -/
def modifyStatic (name : Bytes) (f : Route μ τ → Route μ τ) : List (Route μ τ) → List (Route μ τ)
  | [] => [f { kind := .staticSegment, name := name }]
  | c :: cs =>
    if c.name < name then c :: modifyStatic name f cs
    else if c.name = name then f c :: cs
    else f { kind := .staticSegment, name := name } :: c :: cs

/-- `find_or_create_param_child`. -/
def modifyParam (name : Bytes) (f : Route μ τ → Route μ τ) : List (Route μ τ) → List (Route μ τ)
  | [] => [f { kind := .param, name := name }]
  | p :: ps => if p.name = name then f p :: ps else p :: modifyParam name f ps

/-- `find_or_create_wildcard_child`. -/
def modifyWildcard (f : Route μ τ → Route μ τ) (w : Option (Route μ τ)) : Option (Route μ τ) :=
  some (f (w.getD { kind := .wildcard, name := ascii "*" }))

/-- The node at the end of the edges is modified; nodes on the way are made where missing. -/
def modifyAt (f : Route μ τ → Route μ τ) : List Edge → Route μ τ → Route μ τ
  | [], r => f r
  | .static name :: es, r =>
    { r with staticChildren := modifyStatic name (modifyAt f es) r.staticChildren }
  | .param name :: es, r =>
    { r with paramChildren := modifyParam name (modifyAt f es) r.paramChildren }
  | .wildcard :: es, r => { r with wildcardChild := modifyWildcard (modifyAt f es) r.wildcardChild }

/-- `get_target`. The id of a method is a function of its name, so methods are compared by name. -/
def getTarget (r : Route μ τ) (m : HttpMethod) : Option τ :=
  (r.methodTargets.find? fun e => e.method = m).map MethodTarget.target

/-- The entries after `set_target`. -/
def setEntry (m : HttpMethod) (t : τ) : List (MethodTarget τ) → List (MethodTarget τ)
  | [] => [⟨m, t⟩]
  | e :: es => if e.method = m then ⟨e.method, t⟩ :: es else e :: setEntry m t es

def setTarget (m : HttpMethod) (t : τ) (r : Route μ τ) : Route μ τ :=
  { r with methodTargets := setEntry m t r.methodTargets }

def allMethods : List HttpMethod :=
  ["GET", "HEAD", "POST", "PUT", "DELETE", "PATCH", "OPTIONS"].map fun m => ⟨ascii m⟩

end Route

inductive RegOp (μ τ : Type) where
  /-- `child` or `resolve`: the node is made. -/
  | touch
  | method (m : HttpMethod) (t : τ)
  | any (t : τ)
  | predicate (accepts : Bytes → Bool)
  | prepend (m : μ)
  | append (m : μ)

def RegOp.apply : RegOp μ τ → Route μ τ → Route μ τ
  | .touch, r => r
  | .method m t, r => r.setTarget m t
  | .any t, r => Route.allMethods.foldl (fun r m => r.setTarget m t) r
  | .predicate p, r => { r with predicate := some p }
  | .prepend m, r => { r with middlewares := m :: r.middlewares }
  | .append m, r => { r with middlewares := r.middlewares ++ [m] }

/-- `child` is called with the paths in turn, from the root on, and the operation is done on the last node. -/
structure Registration (μ τ : Type) where
  paths : List Bytes
  op : RegOp μ τ

def Registration.address (g : Registration μ τ) : List Edge := g.paths.flatMap edgesOf

def register (r : Route μ τ) (g : Registration μ τ) : Route μ τ := r.modifyAt g.op.apply g.address

def build (regs : List (Registration μ τ)) : Route μ τ := regs.foldl register { kind := .root }

/-! ## Matching -/

abbrev CaptureMap := List (Bytes × Bytes)

def CaptureMap.assign (key value : Bytes) : CaptureMap → CaptureMap
  | [] => [(key, value)]
  | kv :: m => if kv.1 = key then (kv.1, value) :: m else kv :: CaptureMap.assign key value m

structure RouteState where
  captures : CaptureMap := []
  depth : ℕ := 0
deriving DecidableEq, Repr

namespace Route

/-- `find_static_child`: the lower bound of the name among the sorted children, if it has the name. -/
def findStaticChild (r : Route μ τ) (name : Bytes) : Option (Route μ τ) :=
  match r.staticChildren.dropWhile fun c => c.name < name with
  | [] => none
  | c :: _ => if c.name = name then some c else none

def accepts (p : Route μ τ) (seg : Bytes) : Bool :=
  match p.predicate with
  | none => true
  | some accepts => accepts seg

/-- `route_match`: the node that is matched, and the state that is left. -/
def routeMatch (r : Route μ τ) (state : RouteState) (path : Bytes) : Option (Route μ τ) × RouteState :=
  let path' := stripSlash path
  if path' = [] then (some r, state)
  else
    let state := { state with depth := state.depth + 1 }
    let seg := segment path'
    let rest := afterSegment path'
    -- an exact static child takes priority
    match (r.findStaticChild seg).bind fun c =>
        let m := routeMatch c state rest
        m.1.map fun v => (v, m.2) with
    | some (v, trial) => (some v, trial)
    | none =>
      -- among the parameters that accept the segment, the first with the deepest match
      match firstMax (fun p =>
          if p.accepts seg then
            let m := routeMatch p { state with captures := CaptureMap.assign p.name seg state.captures } rest
            m.1.map fun v => (v, m.2)
          else none) (fun m => m.2.depth) r.paramChildren with
      | some (_, v, trial) => (some v, trial)
      | none =>
        match r.wildcardChild with
        | some w => (some w, { state with captures := CaptureMap.assign w.name path' state.captures })
        | none => (none, state)
termination_by path.length
decreasing_by
  all_goals exact lt_of_lt_of_le (length_afterSegment ‹_›) (length_stripSlash_le path)

def hasAnyTarget (r : Route μ τ) : Bool := !r.methodTargets.isEmpty

end Route

inductive RouterAnswer (μ τ : Type) where
  | declined
  | methodNotAllowed
  | run (middlewares : List μ) (target : τ)
deriving DecidableEq, Repr

/-- `router::on_handle`; `path` is what `subpath_of` returns. -/
def onHandle (root : Route μ τ) (m : HttpMethod) (path : Bytes) : RouterAnswer μ τ :=
  match (root.routeMatch {} path).1 with
  | none => .declined
  | some v =>
    match v.getTarget m with
    | none => if v.hasAnyTarget then .methodNotAllowed else .declined
    | some t => .run v.middlewares t

end Nhttp.Router
