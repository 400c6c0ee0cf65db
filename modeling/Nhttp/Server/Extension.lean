import Nhttp.Server.Message

/-!
# Extensions and their registry

* `Exchange`: a request on its way through the extensions, with its tags.
* `Extension`: the two-phase contract; `wants` may leave something in the tags.
* `registryAdd`, `dispatch`: the registry, in the order of priorities; `acceptor`: the position of the extension
  that takes a request.
-/

namespace Nhttp.Server

open Octets

inductive FileKind where
  | notFound
  | regularFile
  | directory
  | other
deriving DecidableEq

structure FileInfo where
  kind : FileKind := .notFound
  size : ℤ := 0
  mtime : ℤ := 0
deriving DecidableEq

/-- `resolve_cache`, once it has been computed: the overlay that did it and what it found. -/
structure ResolveCache where
  owner : ℕ
  value : Option (Bytes × FileInfo)
deriving DecidableEq

/-- A request with its `tag_storage`. The tags of the extensions modelled here have their own fields. -/
structure Exchange (τ : Type) where
  request : Request
  /-- `vpath_tag::subpaths`, the innermost one last. -/
  subpaths : List Bytes := []
  resolveCache : Option ResolveCache := none
  tags : τ

namespace Exchange

variable {τ : Type}

def subpathOf (x : Exchange τ) : Bytes := x.subpaths.getLastD x.request.resource.path

def push (x : Exchange τ) (subpath : Bytes) : Exchange τ := { x with subpaths := x.subpaths ++ [subpath] }

def pop (x : Exchange τ) : Exchange τ := { x with subpaths := x.subpaths.dropLast }

@[simp] theorem subpathOf_push (x : Exchange τ) (subpath : Bytes) : (x.push subpath).subpathOf = subpath := by
  simp [push, subpathOf]

@[simp] theorem tags_push (x : Exchange τ) (subpath : Bytes) : (x.push subpath).tags = x.tags := rfl

@[simp] theorem tags_pop (x : Exchange τ) : x.pop.tags = x.tags := rfl

end Exchange

structure Extension (τ : Type) where
  priority : ℕ := 0x80000000
  wants : Exchange τ → Bool × Exchange τ
  handle : Exchange τ → Response × Exchange τ

variable {τ : Type}

/-- `extension_registry::add`: behind the last one whose priority is not larger. -/
def registryAdd (extensions : List (Extension τ)) (ext : Extension τ) : List (Extension τ) :=
  extensions.takeWhile (fun e => e.priority ≤ ext.priority) ++
    ext :: extensions.dropWhile (fun e => e.priority ≤ ext.priority)

/-- `extension_registry::dispatch`. -/
def dispatch : List (Extension τ) → Exchange τ → Option Response × Exchange τ
  | [], x => (none, x)
  | ext :: extensions, x =>
    match ext.wants x with
    | (true, x) =>
      let (r, x) := ext.handle x
      (some r, x)
    | (false, x) => dispatch extensions x

/-- The position of the extension whose `handle` is called. -/
def acceptor : List (Extension τ) → Exchange τ → Option ℕ
  | [], _ => none
  | ext :: extensions, x =>
    match ext.wants x with
    | (true, _) => some 0
    | (false, x) => (acceptor extensions x).map (· + 1)

end Nhttp.Server
