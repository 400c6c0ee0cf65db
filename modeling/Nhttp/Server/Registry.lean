import Nhttp.Lib.StableInsert
import Nhttp.Server.Extension

/-!
# The order in which extensions are asked

* `ExtensionRegistry.add`: `extension_registry::add` with its binary search.
* `Extension.recorded`: an extension that notes the calls it gets in the tags of the request.
* **`registry_dispatch`**: which extensions a registry asks, in which order, and which one answers.
-/

namespace Nhttp.Server

open StableInsert List

variable {τ υ : Type}

namespace ExtensionRegistry

/-- `extension_registry::add`. -/
def add (extensions : List (Extension τ)) (ext : Extension τ) : List (Extension τ) :=
  extensions.insertIdx (upperBound (fun e => ext.priority < e.priority) extensions) ext

/-- The registry after these `add` calls. -/
def afterAdds (adds : List (Extension τ)) : List (Extension τ) := adds.foldl add []

def Sorted (extensions : List (Extension τ)) : Prop := extensions.Pairwise (fun a b => a.priority ≤ b.priority)

theorem add_eq_registryAdd {extensions : List (Extension τ)} (h : Sorted extensions) (ext : Extension τ) :
    add extensions ext = registryAdd extensions ext := insertIdx_upperBound h ext

/-- The extensions with their places in the sequence of calls, in the order of the registry. -/
def order (adds : List (Extension τ × ℕ)) : List (Extension τ × ℕ) :=
  adds.foldl (insertBehind fun a => a.1.priority) []

/-- First by priority, then by the time of the `add` call. -/
def Before (a b : Extension τ × ℕ) : Prop :=
  a.1.priority < b.1.priority ∨ a.1.priority = b.1.priority ∧ a.2 < b.2

theorem priority_le_of_before {a b : Extension τ × ℕ} (h : Before a b) : a.1.priority ≤ b.1.priority := by
  obtain h | ⟨h, -⟩ := h
  · exact h.le
  · exact h.le

theorem order_concat (adds : List (Extension τ × ℕ)) (a : Extension τ × ℕ) :
    order (adds ++ [a]) = insertBehind (fun a => a.1.priority) (order adds) a := by
  rw [order, foldl_append]
  rfl

theorem perm_order (adds : List (Extension τ × ℕ)) : (order adds).Perm adds := by
  induction adds using List.reverseRecOn with
  | nil => exact .refl _
  | append_singleton adds a ih =>
    rw [order_concat]
    exact (perm_insertBehind _ _ _).trans ((ih.cons a).trans (perm_append_singleton a adds).symm)

theorem before_order {adds : List (Extension τ × ℕ)} (h : adds.Pairwise (fun a b => a.2 < b.2)) :
    (order adds).Pairwise Before := by
  induction adds using List.reverseRecOn with
  | nil => exact .nil
  | append_singleton adds a ih =>
    obtain ⟨hadds, -, hlast⟩ := pairwise_append.mp h
    rw [order_concat]
    refine pairwise_insertBehind ((ih hadds).imp priority_le_of_before) (ih hadds) (fun b hb hle => ?_)
      (fun b _ hlt => .inl hlt)
    -- an equal priority was added earlier
    obtain hlt | heq := lt_or_eq_of_le hle
    · exact .inl hlt
    · exact .inr ⟨heq, hlast b ((perm_order adds).mem_iff.mp hb) a mem_cons_self⟩

theorem sorted_order (adds : List (Extension τ × ℕ)) :
    (order adds).Pairwise (fun a b => a.1.priority ≤ b.1.priority) := by
  induction adds using List.reverseRecOn with
  | nil => exact .nil
  | append_singleton adds a ih =>
    rw [order_concat]
    exact sorted_insertBehind ih a

theorem afterAdds_map (f : Extension τ × ℕ → Extension υ) (hf : ∀ a, (f a).priority = a.1.priority)
    (adds : List (Extension τ × ℕ)) : afterAdds (adds.map f) = (order adds).map f := by
  induction adds using List.reverseRecOn with
  | nil => rfl
  | append_singleton adds a ih =>
    have hs : Sorted ((order adds).map f) := by
      refine pairwise_map.mpr ((sorted_order adds).imp fun {b c} h => ?_)
      rwa [hf, hf]
    have hmap : (insertBehind (fun b => (f b).priority) (order adds) a).map f =
        insertBehind Extension.priority ((order adds).map f) (f a) := map_insertBehind f _ _
    simp only [hf] at hmap
    rw [map_append, map_singleton, afterAdds, foldl_append, ← afterAdds, ih, order_concat, hmap]
    exact add_eq_registryAdd hs (f a)

variable (adds : List (Extension τ))

theorem map_fst_zipIdx : adds.zipIdx.map Prod.fst = adds := zipIdx_map_fst 0 adds

theorem afterAdds_eq : afterAdds adds = (order adds.zipIdx).map Prod.fst := by
  rw [← afterAdds_map Prod.fst (fun _ => rfl), map_fst_zipIdx]

theorem sorted_afterAdds : Sorted (afterAdds adds) := by
  rw [afterAdds_eq]
  exact pairwise_map.mpr (sorted_order _)

theorem perm_add (ext : Extension τ) : (add (afterAdds adds) ext).Perm (ext :: afterAdds adds) := by
  rw [add_eq_registryAdd (sorted_afterAdds adds)]
  exact perm_insertBehind _ _ _

end ExtensionRegistry

/-! ## Calls -/

inductive ExtensionCall where
  | wants (i : ℕ)
  | handle (i : ℕ)
deriving DecidableEq, Repr

def Exchange.withTags (x : Exchange τ) (t : υ) : Exchange υ :=
  { request := x.request, subpaths := x.subpaths, resolveCache := x.resolveCache, tags := t }

/-- The extension, noting its calls behind those already noted. -/
def Extension.recorded (a : Extension τ × ℕ) : Extension (τ × List ExtensionCall) where
  priority := a.1.priority
  wants x :=
    let (wanted, y) := a.1.wants (x.withTags x.tags.1)
    (wanted, y.withTags (y.tags, x.tags.2 ++ [.wants a.2]))
  handle x :=
    let (r, y) := a.1.handle (x.withTags x.tags.1)
    (r, y.withTags (y.tags, x.tags.2 ++ [.handle a.2]))

/-- The calls of one dispatch, by the places of the extensions in the sequence of `add` calls. -/
def dispatchCalls (adds : List (Extension τ)) (x : Exchange τ) : List ExtensionCall :=
  (dispatch (ExtensionRegistry.afterAdds (adds.zipIdx.map Extension.recorded)) (x.withTags (x.tags, []))).2.tags.2

/-- All decline, each on what the one before it has left. -/
inductive Declined : List (Extension τ) → Exchange τ → Exchange τ → Prop
  | nil (x : Exchange τ) : Declined [] x x
  | cons {ext : Extension τ} {extensions : List (Extension τ)} {x y z : Exchange τ} :
      ext.wants x = (false, y) → Declined extensions y z → Declined (ext :: extensions) x z

theorem dispatch_recorded (l : List (Extension τ × ℕ)) (x : Exchange τ) (log : List ExtensionCall) :
    (∃ y, Declined (l.map Prod.fst) x y ∧ dispatch (l.map Prod.fst) x = (none, y) ∧
      dispatch (l.map Extension.recorded) (x.withTags (x.tags, log)) =
        (none, y.withTags (y.tags, log ++ l.map fun a => .wants a.2))) ∨
    ∃ front a back y y', l = front ++ a :: back ∧ Declined (front.map Prod.fst) x y ∧ a.1.wants y = (true, y') ∧
      dispatch (l.map Prod.fst) x = (some (a.1.handle y').1, (a.1.handle y').2) ∧
      dispatch (l.map Extension.recorded) (x.withTags (x.tags, log)) =
        (some (a.1.handle y').1, (a.1.handle y').2.withTags ((a.1.handle y').2.tags,
          log ++ (front.map fun a => .wants a.2) ++ [.wants a.2, .handle a.2])) := by
  induction l generalizing x log with
  | nil => exact .inl ⟨x, .nil x, rfl, by simp [dispatch]⟩
  | cons a l ih =>
    have hrec : (Extension.recorded a).wants (x.withTags (x.tags, log)) =
        ((a.1.wants x).1, (a.1.wants x).2.withTags ((a.1.wants x).2.tags, log ++ [.wants a.2])) := rfl
    rw [map_cons, map_cons, dispatch, dispatch, hrec]
    obtain ⟨wanted, y, hw⟩ : ∃ wanted y, a.1.wants x = (wanted, y) := ⟨_, _, rfl⟩
    rw [hw]
    cases wanted with
    | true =>
      refine .inr ⟨[], a, l, x, y, rfl, .nil x, hw, rfl, ?_⟩
      simp [Extension.recorded, Exchange.withTags]
    | false =>
      obtain ⟨z, hd, h, hl⟩ | ⟨front, b, back, z, z', hlist, hd, hb, h, hl⟩ := ih y (log ++ [.wants a.2])
      · refine .inl ⟨z, .cons hw hd, h, hl.trans ?_⟩
        simp
      · refine .inr ⟨a :: front, b, back, z, z', by rw [hlist]; rfl, .cons hw hd, hb, h, hl.trans ?_⟩
        simp

theorem dispatch_of_declined {extensions : List (Extension τ)} {x y : Exchange τ} (h : Declined extensions x y) :
    dispatch extensions x = (none, y) := by
  induction h with
  | nil x => rfl
  | cons hw _ ih => rw [dispatch, hw]; exact ih

open ExtensionRegistry in
/-- **The order of a dispatch.** A registry asks its extensions by priority and then by the time of their `add` until one
accepts, and only this one handles the request. -/
theorem registry_dispatch (adds : List (Extension τ)) (x : Exchange τ) :
    Sorted (afterAdds adds) ∧ (∀ ext, (add (afterAdds adds) ext).Perm (ext :: afterAdds adds)) ∧
    ((dispatch (afterAdds adds) x).1 = none ↔ ∃ y, Declined (afterAdds adds) x y) ∧
    ∃ l : List (Extension τ × ℕ), l.Perm adds.zipIdx ∧ l.Pairwise Before ∧ afterAdds adds = l.map Prod.fst ∧
      ((∃ y, Declined (l.map Prod.fst) x y ∧ dispatch (afterAdds adds) x = (none, y) ∧
          dispatchCalls adds x = l.map fun a => .wants a.2) ∨
        ∃ front a back y y', l = front ++ a :: back ∧ Declined (front.map Prod.fst) x y ∧
          a.1.wants y = (true, y') ∧
          dispatch (afterAdds adds) x = (some (a.1.handle y').1, (a.1.handle y').2) ∧
          dispatchCalls adds x = (front.map fun a => .wants a.2) ++ [.wants a.2, .handle a.2]) := by
  have hnumbers : adds.zipIdx.Pairwise (fun a b => a.2 < b.2) := by
    have := pairwise_lt_range' (s := 0) (n := adds.length) 1
    rw [← zipIdx_map_snd 0 adds] at this
    exact pairwise_map.mp this
  have hlist := afterAdds_eq adds
  have hcalls : dispatchCalls adds x =
      (dispatch ((order adds.zipIdx).map Extension.recorded) (x.withTags (x.tags, []))).2.tags.2 := by
    rw [dispatchCalls, afterAdds_map Extension.recorded (fun _ => rfl)]
  have hrun := dispatch_recorded (order adds.zipIdx) x []
  refine ⟨sorted_afterAdds adds, perm_add adds, ?_, order adds.zipIdx, perm_order _, before_order hnumbers, hlist, ?_⟩
  · refine ⟨fun hnone => ?_, fun ⟨y, hy⟩ => by rw [dispatch_of_declined hy]⟩
    rw [hlist] at hnone ⊢
    obtain ⟨y, hd, -, -⟩ | ⟨_, a, _, _, y', _, _, _, h, -⟩ := hrun
    · exact ⟨y, hd⟩
    · rw [h] at hnone
      cases hnone
  · obtain ⟨y, hd, h, hl⟩ | ⟨front, a, back, y, y', hsplit, hd, hw, h, hl⟩ := hrun
    · exact .inl ⟨y, hd, by rw [hlist, h], by rw [hcalls, hl]; rfl⟩
    · exact .inr ⟨front, a, back, y, y', hsplit, hd, hw, by rw [hlist, h], by rw [hcalls, hl]; rfl⟩

end Nhttp.Server
