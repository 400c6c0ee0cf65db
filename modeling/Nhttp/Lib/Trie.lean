import Nhttp.Lib.Bits

/-!
# Binary tries in an arena

A trie is a list of nodes that name their children by index; node `0` is the root.

* `insert t w s`: walk the bits of `w` from the root, growing missing nodes, and mark the last one.
* `look t q`: the mark found at the end of path `q` (`none`: there is no such path).
* **`look_insert`**: an insertion changes `look` at the prefixes of the inserted word only.
* **`look_build`**: what a trie built from a prefix-free list of words finds.
-/

namespace Trie

open List hiding lt_irrefl

variable {α : Type}

structure Node (α : Type) where
  symbol : Option α := none
  zero : Option ℕ := none
  one : Option ℕ := none

/-- The child index stored for bit `b`. -/
def Node.child (n : Node α) (b : Bool) : Option ℕ := match b with
  | false => n.zero
  | true => n.one

/-- Store a child index for bit `b`. -/
def Node.setChild (n : Node α) (b : Bool) (j : ℕ) : Node α := match b with
  | false => { n with zero := some j }
  | true => { n with one := some j }

/-- The nodes, in the order in which they were created. -/
abbrev Arena (α : Type) := List (Node α)

/-- Node `i` (an unmarked node without children if there is none). -/
def node (t : Arena α) (i : ℕ) : Node α := t.getD i {}

/-- The child of node `i` at bit `b`. -/
def child (t : Arena α) (i : ℕ) (b : Bool) : Option ℕ := (node t i).child b

/-- Append a fresh node and make it the child of `cur` at bit `b`. -/
def grow (t : Arena α) (cur : ℕ) (b : Bool) : Arena α :=
  (t ++ [({} : Node α)]).set cur ((node t cur).setChild b t.length)

def mark (t : Arena α) (cur : ℕ) (s : α) : Arena α :=
  t.set cur { node t cur with symbol := some s }

/-- Insert from node `cur`. -/
def insertFrom (t : Arena α) (s : α) (cur : ℕ) : List Bool → Arena α
  | [] => mark t cur s
  | b :: w => match child t cur b with
    | some j => insertFrom t s j w
    | none => insertFrom (grow t cur b) s t.length w

def insert (t : Arena α) (w : List Bool) (s : α) : Arena α := insertFrom t s 0 w

def build (cs : List (List Bool × α)) : Arena α := cs.foldl (fun t c => insert t c.1 c.2) [{}]

/-- Follow a path from node `i`. -/
def walk (t : Arena α) (i : ℕ) : List Bool → Option ℕ
  | [] => some i
  | b :: q => (child t i b).bind fun j => walk t j q

/-- The mark at the end of a path from the root. -/
def look (t : Arena α) (q : List Bool) : Option (Option α) :=
  (walk t 0 q).map fun i => (node t i).symbol

/-! ## Paths -/

theorem walk_append (t : Arena α) (i : ℕ) (p q : List Bool) :
    walk t i (p ++ q) = (walk t i p).bind fun j => walk t j q := by
  induction p generalizing i with
  | nil => rfl
  | cons b p ih =>
    simp only [cons_append, walk, Option.bind_assoc]
    congr 1
    funext j
    exact ih j

theorem walk_snoc (t : Arena α) (i : ℕ) (p : List Bool) (b : Bool) :
    walk t i (p ++ [b]) = (walk t i p).bind fun j => child t j b := by
  rw [walk_append]
  congr 1
  funext j
  simp [walk]

/-- The root exists, children exist, and no node is reached by two paths. -/
structure Wf (t : Arena α) : Prop where
  pos : 0 < t.length
  child_lt : ∀ i b j, child t i b = some j → j < t.length
  inj : ∀ p q j, walk t 0 p = some j → walk t 0 q = some j → p = q

variable {t : Arena α}

theorem Wf.walk_lt (h : Wf t) {q : List Bool} {j : ℕ} (hw : walk t 0 q = some j) : j < t.length := by
  rcases eq_nil_or_concat q with rfl | ⟨p, b, rfl⟩
  · cases hw; exact h.pos
  · rw [concat_eq_append, walk_snoc] at hw
    obtain ⟨i, -, hi⟩ := Option.bind_eq_some_iff.mp hw
    exact h.child_lt i b j hi

theorem wf_root : Wf ([{}] : Arena α) := by
  have hc : ∀ i b, child ([{}] : Arena α) i b = none := by
    intro i b
    cases i <;> cases b <;> rfl
  have hw : ∀ q j, walk ([{}] : Arena α) 0 q = some j → q = [] := by
    intro q j h
    cases q with
    | nil => rfl
    | cons b q => simp [walk, hc] at h
  refine ⟨by simp, fun i b j h => by simp [hc] at h, fun p q j hp hq => ?_⟩
  rw [hw p j hp, hw q j hq]

/-! ## One step of an insertion -/

@[simp] theorem length_grow (t : Arena α) (cur : ℕ) (b : Bool) :
    (grow t cur b).length = t.length + 1 := by simp [grow]

theorem node_grow {cur : ℕ} (hcur : cur < t.length) (b : Bool) (i : ℕ) :
    node (grow t cur b) i = if i = cur then (node t cur).setChild b t.length else node t i := by
  unfold grow
  rw [node, getD_eq_getElem?_getD, getElem?_set]
  by_cases hi : cur = i
  · subst hi; simp [show cur < t.length + 1 by omega]
  · rw [if_neg hi, if_neg (Ne.symm hi), node, getD_eq_getElem?_getD]
    rcases lt_trichotomy i t.length with h | rfl | h
    · rw [getElem?_append_left h]
    · simp
    · rw [getElem?_eq_none (by simp; omega), getElem?_eq_none (by omega)]

theorem child_grow {cur : ℕ} (hcur : cur < t.length) (b : Bool) (i : ℕ) (c : Bool) :
    child (grow t cur b) i c = if i = cur ∧ c = b then some t.length else child t i c := by
  rw [child, node_grow hcur]
  by_cases hi : i = cur
  · subst hi
    cases b <;> cases c <;> simp [Node.setChild, Node.child, child]
  · simp [hi, child]

theorem symbol_grow {cur : ℕ} (hcur : cur < t.length) (b : Bool) (i : ℕ) :
    (node (grow t cur b) i).symbol = (node t i).symbol := by
  rw [node_grow hcur]
  by_cases hi : i = cur
  · subst hi; cases b <;> simp [Node.setChild]
  · simp [hi]

section Grow

variable {t : Arena α} {p : List Bool} {cur : ℕ} {b : Bool}

theorem walk_grow (h : Wf t) (hp : walk t 0 p = some cur) (hb : child t cur b = none) :
    ∀ q, walk (grow t cur b) 0 q = if q = p ++ [b] then some t.length else walk t 0 q := by
  have hcur := h.walk_lt hp
  intro q
  -- last bit first: the new node is a leaf, so a path through it ends there
  induction q using List.reverseRecOn with
  | nil => simp [walk]
  | append_singleton q c ih =>
    rw [walk_snoc, walk_snoc, ih]
    by_cases hq : q = p ++ [b]
    · subst hq
      have hnew : child t t.length c = none := by
        simp [child, node]; cases c <;> rfl
      rw [if_pos rfl, if_neg (by simp), walk_snoc, hp]
      simp [child_grow hcur, hb, hnew, hcur.ne']
    · rw [if_neg hq]
      by_cases hqc : q ++ [c] = p ++ [b]
      · obtain ⟨rfl, hc⟩ := append_inj' hqc rfl
        cases hc
        simp [hp, child_grow hcur]
      · rw [if_neg hqc]
        cases hw : walk t 0 q with
        | none => rfl
        | some k =>
          have hk : ¬ (k = cur ∧ c = b) := by
            rintro ⟨rfl, rfl⟩
            exact hqc (by rw [h.inj q p k hw hp])
          simp [child_grow hcur, hk]

theorem wf_grow (h : Wf t) (hp : walk t 0 p = some cur) (hb : child t cur b = none) :
    Wf (grow t cur b) := by
  have hcur := h.walk_lt hp
  have hw := walk_grow h hp hb
  refine ⟨by simp, fun i c j hj => ?_, fun u v j hu hv => ?_⟩
  · rw [child_grow hcur] at hj
    split_ifs at hj with hi
    · cases hj; simp
    · exact Nat.lt_of_lt_of_le (h.child_lt i c j hj) (by simp)
  · rw [hw] at hu hv
    split_ifs at hu hv with h1 h2 h2
    · rw [h1, h2]
    · cases hu; exact absurd (h.walk_lt hv) (lt_irrefl _)
    · cases hv; exact absurd (h.walk_lt hu) (lt_irrefl _)
    · exact h.inj u v j hu hv

theorem look_grow (h : Wf t) (hp : walk t 0 p = some cur) (hb : child t cur b = none)
    (q : List Bool) :
    look (grow t cur b) q = if q = p ++ [b] then some none else look t q := by
  have hcur := h.walk_lt hp
  unfold look
  rw [walk_grow h hp hb q]
  split_ifs with hq
  · simp only [Option.map_some, symbol_grow hcur]
    simp [node]
  · simp [symbol_grow hcur]

end Grow

section Mark

variable {t : Arena α} {cur : ℕ} {s : α}

theorem node_mark (hcur : cur < t.length) (i : ℕ) :
    node (mark t cur s) i = if i = cur then { node t cur with symbol := some s } else node t i := by
  unfold mark
  rw [node, getD_eq_getElem?_getD, getElem?_set]
  by_cases hi : cur = i
  · subst hi; simp [hcur]
  · rw [if_neg hi, if_neg (Ne.symm hi), node, getD_eq_getElem?_getD]

theorem child_mark (hcur : cur < t.length) (i : ℕ) (b : Bool) :
    child (mark t cur s) i b = child t i b := by
  rw [child, node_mark hcur]
  by_cases hi : i = cur
  · subst hi; cases b <;> simp [Node.child, child]
  · simp [hi, child]

theorem walk_mark (hcur : cur < t.length) (i : ℕ) (q : List Bool) :
    walk (mark t cur s) i q = walk t i q := by
  induction q generalizing i with
  | nil => rfl
  | cons b q ih => simp only [walk, child_mark hcur, ih]

theorem wf_mark (h : Wf t) (hcur : cur < t.length) : Wf (mark t cur s) := by
  refine ⟨by simpa [mark] using h.pos, fun i b j hj => ?_, fun u v j hu hv => ?_⟩
  · rw [child_mark hcur] at hj
    simpa [mark] using h.child_lt i b j hj
  · rw [walk_mark hcur] at hu hv
    exact h.inj u v j hu hv

theorem look_mark (h : Wf t) {p : List Bool} (hp : walk t 0 p = some cur) (q : List Bool) :
    look (mark t cur s) q = if q = p then some (some s) else look t q := by
  have hcur := h.walk_lt hp
  unfold look
  rw [walk_mark hcur]
  split_ifs with hq
  · subst hq; simp [hp, node_mark hcur]
  · cases hw : walk t 0 q with
    | none => rfl
    | some j =>
      have hj : j ≠ cur := fun hj => hq (h.inj q p j hw (by rw [hj]; exact hp))
      simp [node_mark hcur, hj]

end Mark

/-! ## Insertions -/

/-- What an insertion of `w` marked `s` makes of a lookup function. -/
def lookAfter (l : List Bool → Option (Option α)) (w : List Bool) (s : α) (q : List Bool) :
    Option (Option α) :=
  if q = w then some (some s) else (l q).or (if q <+: w then some none else none)

theorem insertFrom_spec (s : α) (w : List Bool) : ∀ (t : Arena α) (p : List Bool) (cur : ℕ),
    Wf t → walk t 0 p = some cur → Wf (insertFrom t s cur w) ∧
      ∀ q, look (insertFrom t s cur w) q = lookAfter (look t) (p ++ w) s q := by
  induction w with
  | nil =>
    intro t p cur h hp
    refine ⟨wf_mark h (h.walk_lt hp), fun q => ?_⟩
    rw [insertFrom, look_mark h hp, lookAfter, append_nil]
    split_ifs with hq hpre
    · rfl
    · -- a prefix of an existing path is a path
      obtain ⟨r, rfl⟩ := hpre
      rw [walk_append] at hp
      obtain ⟨i, hi, -⟩ := Option.bind_eq_some_iff.mp hp
      simp [look, hi]
    · simp
  | cons b w ih =>
    intro t p cur h hp
    cases hb : child t cur b with
    | some j =>
      simp only [insertFrom, hb]
      have hp' : walk t 0 (p ++ [b]) = some j := by rw [walk_snoc, hp]; exact hb
      have := ih t (p ++ [b]) j h hp'
      simpa using this
    | none =>
      simp only [insertFrom, hb]
      have hp' : walk (grow t cur b) 0 (p ++ [b]) = some t.length := by
        rw [walk_grow h hp hb, if_pos rfl]
      obtain ⟨hwf, hl⟩ := ih (grow t cur b) (p ++ [b]) t.length (wf_grow h hp hb) hp'
      refine ⟨hwf, fun q => ?_⟩
      rw [hl q, lookAfter, lookAfter, append_assoc, singleton_append, look_grow h hp hb]
      by_cases hq : q = p ++ [b]
      · subst hq
        have hnone : look t (p ++ [b]) = none := by
          rw [look, walk_snoc, hp, Option.bind_some, hb]; rfl
        simp [hnone]
      · rw [if_neg hq]

theorem wf_insert (h : Wf t) (w : List Bool) (s : α) : Wf (insert t w s) :=
  (insertFrom_spec s w t [] 0 h rfl).1

/-- **An insertion changes lookups at the prefixes of the word only.** -/
theorem look_insert (h : Wf t) (w : List Bool) (s : α) (q : List Bool) :
    look (insert t w s) q = lookAfter (look t) w s q :=
  (insertFrom_spec s w t [] 0 h rfl).2 q

/-- **What a list of insertions finds**: the marks of the words, and empty marks below them. -/
theorem look_foldl_insert (cs : List (List Bool × α)) : ∀ (t : Arena α), Wf t →
    (cs.map Prod.fst).Nodup → ∀ q,
    look (cs.foldl (fun t c => insert t c.1 c.2) t) q =
      match cs.find? fun c => decide (c.1 = q) with
      | some c => some (some c.2)
      | none => (look t q).or (if ∃ c ∈ cs, q <+: c.1 then some none else none) := by
  induction cs with
  | nil => intro t _ _ q; simp
  | cons c cs ih =>
    intro t h hnd q
    rw [map_cons, nodup_cons] at hnd
    rw [foldl_cons, ih _ (wf_insert h _ _) hnd.2 q, find?_cons]
    by_cases hcq : c.1 = q
    · have hnone : cs.find? (fun c => decide (c.1 = q)) = none := by
        rw [find?_eq_none]
        intro d hd hdq
        exact hnd.1 (mem_map.mpr ⟨d, hd, by rw [hcq]; simpa using hdq⟩)
      simp [hnone, hcq, look_insert h, lookAfter]
    · simp only [hcq, decide_false, look_insert h, lookAfter, if_neg (Ne.symm hcq)]
      cases cs.find? fun c => decide (c.1 = q) with
      | some d => rfl
      | none =>
        by_cases h1 : q <+: c.1 <;> by_cases h2 : ∃ d ∈ cs, q <+: d.1 <;> simp [h1, h2]

section Build

variable {cs : List (List Bool × α)}

theorem nodup_of_prefixFree {ws : List (List Bool)} (h : Bits.PrefixFree ws) : ws.Nodup := by
  refine List.Pairwise.imp (fun {u v} huv heq => ?_) h
  subst heq
  exact huv.1 prefix_rfl

theorem look_root (q : List Bool) : look ([{}] : Arena α) q = if q = [] then some none else none := by
  cases q with
  | nil => rfl
  | cons b q => cases b <;> rfl

/-- **What a trie finds.** -/
theorem look_build (h : Bits.PrefixFree (cs.map Prod.fst)) (q : List Bool) :
    look (build cs) q = match cs.find? fun c => decide (c.1 = q) with
      | some c => some (some c.2)
      | none => (if q = [] then some none else none).or
          (if ∃ c ∈ cs, q <+: c.1 then some none else none) := by
  rw [build, look_foldl_insert cs _ wf_root (nodup_of_prefixFree h), look_root]

variable {c : List Bool × α}

theorem mem_unique_of_prefixes (h : Bits.PrefixFree (cs.map Prod.fst)) {d : List Bool × α} (hc : c ∈ cs)
    (hd : d ∈ cs) (hcd : c.1 <+: d.1) : c = d := by
  by_contra hne
  unfold Bits.PrefixFree at h
  rw [pairwise_map] at h
  have : Std.Symm fun x y : List Bool × α => ¬ x.1 <+: y.1 ∧ ¬ y.1 <+: x.1 :=
    ⟨fun _ _ hxy => ⟨hxy.2, hxy.1⟩⟩
  exact (h.forall hc hd hne).1 hcd

theorem look_build_word (h : Bits.PrefixFree (cs.map Prod.fst)) (hc : c ∈ cs) :
    look (build cs) c.1 = some (some c.2) := by
  rw [look_build h]
  cases hf : cs.find? fun d => decide (d.1 = c.1) with
  | none =>
    rw [find?_eq_none] at hf
    exact absurd (by simp) (hf c hc)
  | some d =>
    have hd : d.1 = c.1 := by simpa using find?_some hf
    rw [mem_unique_of_prefixes h (mem_of_find?_eq_some hf) hc (hd ▸ prefix_rfl)]

theorem look_build_prefix (h : Bits.PrefixFree (cs.map Prod.fst)) (hc : c ∈ cs)
    {q : List Bool} (hq : q <+: c.1) (hne : q ≠ c.1) : look (build cs) q = some none := by
  rw [look_build h]
  cases hf : cs.find? fun d => decide (d.1 = q) with
  | none =>
    have : ∃ d ∈ cs, q <+: d.1 := ⟨c, hc, hq⟩
    split_ifs <;> rfl
  | some d =>
    have hd : d.1 = q := by simpa using find?_some hf
    have := mem_unique_of_prefixes h (mem_of_find?_eq_some hf) hc (hd.symm ▸ hq)
    exact absurd (by rw [← hd, this]) hne

theorem mem_of_look_build (h : Bits.PrefixFree (cs.map Prod.fst))
    {q : List Bool} {s : α} (hq : look (build cs) q = some (some s)) : (q, s) ∈ cs := by
  rw [look_build h] at hq
  cases hf : cs.find? fun c => decide (c.1 = q) with
  | none =>
    rw [hf] at hq
    split_ifs at hq <;> cases hq
  | some c =>
    rw [hf] at hq
    cases hq
    have hc : c.1 = q := by simpa using find?_some hf
    rw [← hc]
    exact mem_of_find?_eq_some hf

end Build

end Trie
