import Mathlib

/-!
# Insertion behind equal keys

* `upperBound`: the binary search of `std::upper_bound`; `upperBound_append` says where it ends in a list whose
  elements that are above come last.
* `insertBehind`: what an insertion at that place makes of a list sorted by a key.
* `pairwise_insertBehind`, `perm_insertBehind`: the order and the elements of the result.
-/

namespace StableInsert

open List hiding not_le

variable {α β : Type}

/-! ## The search -/

/-- The loop, over the `len` elements from `first` on. -/
def upperBoundFrom (above : α → Bool) (xs : List α) (first len : ℕ) : ℕ :=
  if len = 0 then first
  else
    let half := len / 2
    match xs[first + half]? with
    | some middle =>
      if above middle then upperBoundFrom above xs first half
      else upperBoundFrom above xs (first + half + 1) (len - half - 1)
    | none => first
termination_by len

def upperBound (above : α → Bool) (xs : List α) : ℕ := upperBoundFrom above xs 0 xs.length

variable {above : α → Bool} {below rest : List α}

/-- The search keeps the border between the two parts inside its interval. -/
theorem upperBoundFrom_append (hbelow : ∀ a ∈ below, above a = false) (hrest : ∀ a ∈ rest, above a = true)
    {first len : ℕ} (hfirst : first ≤ below.length) (hlen : below.length ≤ first + len)
    (hend : first + len ≤ (below ++ rest).length) :
    upperBoundFrom above (below ++ rest) first len = below.length := by
  induction hn : len using Nat.strongRecOn generalizing first len with
  | ind n ih =>
    subst hn
    rw [upperBoundFrom]
    split_ifs with h0
    · omega
    · rw [length_append] at hend
      dsimp only
      by_cases hm : first + len / 2 < below.length
      · have hget : (below ++ rest)[first + len / 2]? = some (below.get ⟨_, hm⟩) := by
          rw [getElem?_append_left hm, getElem?_eq_getElem hm]
          rfl
        rw [hget]
        dsimp only
        rw [hbelow _ (get_mem _ _), if_neg Bool.false_ne_true]
        exact ih _ (by omega) (by omega) (by omega) (by rw [length_append]; omega) rfl
      · have hm' : first + len / 2 - below.length < rest.length := by omega
        have hget : (below ++ rest)[first + len / 2]? = some (rest.get ⟨_, hm'⟩) := by
          rw [getElem?_append_right (by omega), getElem?_eq_getElem hm']
          rfl
        rw [hget]
        dsimp only
        rw [if_pos (hrest _ (get_mem _ _))]
        exact ih _ (by omega) (by omega) (by omega) (by rw [length_append]; omega) rfl

theorem upperBound_append (hbelow : ∀ a ∈ below, above a = false) (hrest : ∀ a ∈ rest, above a = true) :
    upperBound above (below ++ rest) = below.length :=
  upperBoundFrom_append hbelow hrest (Nat.zero_le _) (by rw [length_append]; omega) (by omega)

/-! ## The insertion -/

variable {κ : Type} [LinearOrder κ]

/-- Behind the last element whose key is not larger. -/
def insertBehind (key : α → κ) (xs : List α) (x : α) : List α :=
  xs.takeWhile (fun a => key a ≤ key x) ++ x :: xs.dropWhile (fun a => key a ≤ key x)

variable {key : α → κ} {xs : List α} {x : α}

theorem le_of_mem_takeWhile {a : α} (h : a ∈ xs.takeWhile (fun a => key a ≤ key x)) : key a ≤ key x := by
  simpa using all_eq_true.mp all_takeWhile a h

theorem lt_of_mem_dropWhile (hs : xs.Pairwise (fun a b => key a ≤ key b)) {a : α}
    (h : a ∈ xs.dropWhile (fun a => key a ≤ key x)) : key x < key a := by
  induction xs with
  | nil => cases h
  | cons b xs ih =>
    obtain ⟨hb, hs⟩ := pairwise_cons.mp hs
    by_cases hle : key b ≤ key x
    · rw [dropWhile_cons_of_pos (by simpa using hle)] at h
      exact ih hs h
    · rw [dropWhile_cons_of_neg (by simpa using hle)] at h
      obtain rfl | h := mem_cons.mp h
      · exact not_le.mp hle
      · exact (not_le.mp hle).trans_le (hb a h)

theorem insertIdx_length_append (front back : List α) (x : α) :
    (front ++ back).insertIdx front.length x = front ++ x :: back := by
  induction front with
  | nil => rfl
  | cons a front ih => rw [cons_append, length_cons, insertIdx_succ_cons, ih, cons_append]

/-- **The search finds the place.** -/
theorem insertIdx_upperBound (hs : xs.Pairwise (fun a b => key a ≤ key b)) (x : α) :
    xs.insertIdx (upperBound (fun a => key x < key a) xs) x = insertBehind key xs x := by
  have hfront : ∀ a ∈ xs.takeWhile (fun a => key a ≤ key x), decide (key x < key a) = false :=
    fun a ha => by simpa using le_of_mem_takeWhile ha
  have hback : ∀ a ∈ xs.dropWhile (fun a => key a ≤ key x), decide (key x < key a) = true :=
    fun a ha => by simpa using lt_of_mem_dropWhile hs ha
  have hat := upperBound_append hfront hback
  have hput := insertIdx_length_append (xs.takeWhile (fun a => key a ≤ key x))
    (xs.dropWhile (fun a => key a ≤ key x)) x
  rw [takeWhile_append_dropWhile] at hat hput
  rw [hat, hput, insertBehind]

theorem perm_insertBehind (key : α → κ) (xs : List α) (x : α) : (insertBehind key xs x).Perm (x :: xs) := by
  refine perm_middle.trans (.cons x ?_)
  rw [takeWhile_append_dropWhile]

/-- A relation that holds between the elements and, as the keys say, with the new one. -/
theorem pairwise_insertBehind {r : α → α → Prop} (hs : xs.Pairwise (fun a b => key a ≤ key b)) (hr : xs.Pairwise r)
    (hle : ∀ a ∈ xs, key a ≤ key x → r a x) (hlt : ∀ a ∈ xs, key x < key a → r x a) :
    (insertBehind key xs x).Pairwise r := by
  have hsplit := takeWhile_append_dropWhile (p := fun a => decide (key a ≤ key x)) (l := xs)
  rw [← hsplit, pairwise_append] at hr
  obtain ⟨hfront, hback, hcross⟩ := hr
  refine pairwise_append.mpr ⟨hfront, pairwise_cons.mpr ⟨fun b hb => ?_, hback⟩, fun a ha b hb => ?_⟩
  · exact hlt b ((dropWhile_sublist _).mem hb) (lt_of_mem_dropWhile hs hb)
  · obtain rfl | hb := mem_cons.mp hb
    · exact hle a ((takeWhile_sublist _).mem ha) (le_of_mem_takeWhile ha)
    · exact hcross a ha b hb

theorem sorted_insertBehind (hs : xs.Pairwise (fun a b => key a ≤ key b)) (x : α) :
    (insertBehind key xs x).Pairwise (fun a b => key a ≤ key b) :=
  pairwise_insertBehind hs hs (fun _ _ h => h) (fun _ _ h => h.le)

theorem map_insertBehind (f : β → α) (ys : List β) (y : β) :
    (insertBehind (fun b => key (f b)) ys y).map f = insertBehind key (ys.map f) (f y) := by
  simp [insertBehind, takeWhile_map, dropWhile_map, Function.comp_def]

end StableInsert
