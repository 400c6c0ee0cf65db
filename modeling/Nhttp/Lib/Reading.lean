import Mathlib

/-!
# Reading from finite sources

* `Readable`: something that is read piece by piece and gives out finitely many elements.
* `Source`: a stream that hands over fixed contents in order; an empty read means the end.
* `Segments`: the contents cut into given pieces, a read returning at most one of them.
* `Reader`: a program that reads; `drain`: read until nothing comes.
* `Yields`: what a stream that is no `Source` hands over to reads of bounded sizes.
-/

namespace Reading

open List

/-- A stream: `weight` bounds what it can still give out. -/
class Readable (σ : Type) (α : outParam Type) where
  read : σ → ℕ → List α × σ
  weight : σ → ℕ
  weight_read : ∀ s n, (read s n).1 ≠ [] → weight (read s n).2 < weight s

/-- A source: reads hand over `contents` in order, and an empty one happens only at its end. -/
class Source (σ : Type) (α : outParam Type) extends Readable σ α where
  contents : σ → List α
  read_append : ∀ s n, 0 < n → (read s n).1 ++ contents (read s n).2 = contents s
  contents_read_zero : ∀ s, contents (read s 0).2 <:+ contents s
  contents_of_read_nil : ∀ s n, 0 < n → (read s n).1 = [] → contents s = []
  length_read_le : ∀ s n, (read s n).1.length ≤ n

variable {σ α ρ : Type}

theorem length_contents_lt {read : σ → ℕ → List α × σ} (contents : σ → List α)
    (happ : ∀ s n, 0 < n → (read s n).1 ++ contents (read s n).2 = contents s)
    (hle : ∀ s n, (read s n).1.length ≤ n) (s : σ) (n : ℕ) (h : (read s n).1 ≠ []) :
    (contents (read s n).2).length < (contents s).length := by
  have hpos := length_pos_iff.mpr h
  rw [← happ s n (Nat.lt_of_lt_of_le hpos (hle s n)), length_append]
  omega

section source

variable [Source σ α]

/-- How many elements are to come. -/
def left (s : σ) : ℕ := (Source.contents s).length

theorem contents_read (s : σ) {n : ℕ} (hn : 0 < n) (h : (Readable.read s n).1 = []) :
    Source.contents (Readable.read s n).2 = [] := by
  have := Source.read_append s n hn
  rw [h, nil_append] at this
  rw [this]
  exact Source.contents_of_read_nil s n hn h

theorem contents_read_suffix (s : σ) (n : ℕ) :
    Source.contents (Readable.read s n).2 <:+ Source.contents s := by
  obtain rfl | hn := Nat.eq_zero_or_pos n
  · exact Source.contents_read_zero s
  · exact ⟨_, Source.read_append s n hn⟩

theorem left_read (s : σ) {n : ℕ} (hn : 0 < n) :
    (Readable.read s n).1.length + left (Readable.read s n).2 = left s := by
  rw [left, left, ← Source.read_append s n hn, length_append]

theorem read_eq_nil_iff (s : σ) {n : ℕ} (hn : 0 < n) :
    (Readable.read s n).1 = [] ↔ Source.contents s = [] := by
  refine ⟨Source.contents_of_read_nil s n hn, fun h => ?_⟩
  have := Source.read_append s n hn
  rw [h] at this
  exact (append_eq_nil_iff.mp this).1

/-- The source after `k` reads of size `n`. -/
def after (n k : ℕ) (s : σ) : σ := (fun s => (Readable.read s n).2)^[k] s

@[simp] theorem after_zero (n : ℕ) (s : σ) : after n 0 s = s := rfl

theorem contents_suffix_after (n k : ℕ) (s : σ) :
    Source.contents (after n k s) <:+ Source.contents s := by
  induction k generalizing s with
  | zero => exact suffix_rfl
  | succ k ih => exact (ih _).trans (contents_read_suffix s n)

theorem left_after_le (n k : ℕ) (s : σ) : left (after n k s) ≤ left s :=
  (contents_suffix_after n k s).length_le

/-! ## Read-ahead -/

/-- `s'` is reached by reads of size `n`, each made while more than `t` elements were to come, or at the end. -/
inductive Fetched (n t : ℕ) : σ → σ → Prop
  | refl (s : σ) : Fetched n t s s
  | step {s s' : σ} : t < left s ∨ left s = 0 → Fetched n t (Readable.read s n).2 s' → Fetched n t s s'

namespace Fetched

variable {n t : ℕ} {s s₁ s' : σ}

theorem trans (h : Fetched n t s s₁) (h' : Fetched n t s₁ s') : Fetched n t s s' := by
  induction h with
  | refl => exact h'
  | step hs _ ih => exact .step hs (ih h')

/-- **Read-ahead is minimal.** It stops at the first boundary with at most `t` elements to come. -/
theorem length_le (h : Fetched n t s s') {k : ℕ} (hk : left (after n k s) ≤ t) :
    left (after n k s) ≤ left s' := by
  induction h generalizing k with
  | refl s => exact left_after_le n k s
  | step hs _ ih =>
    cases k with
    | zero =>
      rw [after_zero] at hk ⊢
      obtain hs | hs := hs
      · omega
      · omega
    | succ k => exact ih hk

end Fetched

end source

/-! ## Segments -/

/-- Contents cut into non-empty pieces. -/
structure Segments (α : Type) where
  pieces : List (List α)
  ne_nil : ∀ p ∈ pieces, p ≠ []
deriving DecidableEq

namespace Segments

/-- A read returns the first piece, or the start of it if it is longer than asked for. -/
def read (s : Segments α) (n : ℕ) : List α × Segments α :=
  match s with
  | ⟨[], h⟩ => ([], ⟨[], h⟩)
  | ⟨p :: ps, h⟩ =>
    if hp : p.length ≤ n then (p, ⟨ps, fun q hq => h q (mem_cons_of_mem _ hq)⟩)
    else (p.take n, ⟨p.drop n :: ps, by
      intro q hq
      obtain rfl | hq := mem_cons.mp hq
      · rw [ne_eq, drop_eq_nil_iff]; exact hp
      · exact h q (mem_cons_of_mem _ hq)⟩)

theorem read_append (s : Segments α) (n : ℕ) :
    (s.read n).1 ++ (s.read n).2.pieces.flatten = s.pieces.flatten := by
  obtain ⟨_ | ⟨p, ps⟩, h⟩ := s
  · rfl
  · rw [read]
    split_ifs
    · simp
    · simp [← append_assoc]

theorem read_nil (s : Segments α) {n : ℕ} (hn : 0 < n) (hr : (s.read n).1 = []) :
    s.pieces.flatten = [] := by
  obtain ⟨_ | ⟨p, ps⟩, h⟩ := s
  · rfl
  · have hp : p ≠ [] := h p mem_cons_self
    rw [read] at hr
    split_ifs at hr
    · exact absurd hr hp
    · obtain h0 | h0 := take_eq_nil_iff.mp hr
      · omega
      · exact absurd h0 hp

theorem length_read_le (s : Segments α) (n : ℕ) : (s.read n).1.length ≤ n := by
  obtain ⟨_ | ⟨p, ps⟩, h⟩ := s
  · exact Nat.zero_le _
  · rw [read]
    split_ifs with hp
    · exact hp
    · exact length_take_le _ _

instance : Source (Segments α) α where
  read := read
  weight s := s.pieces.flatten.length
  weight_read := length_contents_lt (fun s => s.pieces.flatten) (fun s n _ => read_append s n)
    length_read_le
  contents s := s.pieces.flatten
  read_append s n _ := read_append s n
  contents_read_zero s := ⟨_, read_append s 0⟩
  contents_of_read_nil s _ hn h := read_nil s hn h
  length_read_le := length_read_le

def singles (xs : List α) : Segments α := ⟨xs.map ([·]), by simp⟩

theorem contents_singles (xs : List α) : Source.contents (singles xs) = xs := by
  induction xs with
  | nil => rfl
  | cons x xs ih => exact congrArg (x :: ·) ih

theorem read_singles_cons (x : α) (xs : List α) {n : ℕ} (hn : 0 < n) :
    Readable.read (singles (x :: xs)) n = ([x], singles xs) := by
  change Segments.read _ n = _
  exact dif_pos hn

/-- A piece in front. -/
def cons (p : List α) (hp : p ≠ []) (s : Segments α) : Segments α :=
  ⟨p :: s.pieces, forall_mem_cons.mpr ⟨hp, s.ne_nil⟩⟩

theorem contents_cons (p : List α) (hp : p ≠ []) (s : Segments α) :
    Source.contents (cons p hp s) = p ++ Source.contents s := rfl

theorem read_cons {p : List α} (hp : p ≠ []) (s : Segments α) {n : ℕ} (hn : p.length ≤ n) :
    Readable.read (cons p hp s) n = (p, s) := by
  change Segments.read _ n = _
  exact dif_pos hn

end Segments

/-! ## Programs that read -/

/-- A program that reads pieces of the sizes it chooses and returns a result. -/
inductive Reader (α ρ : Type) where
  | ret (r : ρ)
  | read (n : ℕ) (k : List α → Reader α ρ)

namespace Reader

/-- Every size the program asks for satisfies `p`. -/
def Asks (p : ℕ → Prop) : Reader α ρ → Prop
  | .ret _ => True
  | .read n k => p n ∧ ∀ xs, (k xs).Asks p

theorem asks_true : ∀ t : Reader α ρ, t.Asks fun _ => True
  | .ret _ => trivial
  | .read _ k => ⟨trivial, fun xs => asks_true (k xs)⟩

variable [Readable σ α]

/-- What the program has read, its result and the stream after it. -/
def run : Reader α ρ → σ → List α × ρ × σ
  | .ret r, s => ([], r, s)
  | .read n k, s =>
    let (xs, s) := Readable.read s n
    let (ys, r, s) := (k xs).run s
    (xs ++ ys, r, s)

/-- **Reading keeps an invariant** that relates what has been read to the stream. -/
theorem run_inv {p : ℕ → Prop} {I : List α → σ → Prop}
    (hI : ∀ acc s n, p n → I acc s → I (acc ++ (Readable.read s n).1) (Readable.read s n).2) :
    ∀ (t : Reader α ρ) (acc : List α) (s : σ), t.Asks p → I acc s →
      I (acc ++ (t.run s).1) (t.run s).2.2
  | .ret r, acc, s, _, h => by simpa [run] using h
  | .read n k, acc, s, hp, h => by
    have := run_inv hI (k (Readable.read s n).1) (acc ++ (Readable.read s n).1) (Readable.read s n).2
      (hp.2 _) (hI acc s n hp.1 h)
    simpa [run, append_assoc] using this

end Reader

/-! ## Sequences of reads -/

section reads

def reads [Readable σ α] : σ → List ℕ → List (List α) × σ
  | s, [] => ([], s)
  | s, n :: ns =>
    let (xs, s) := Readable.read s n
    let (xss, s) := reads s ns
    (xs :: xss, s)

variable [Source σ α]

theorem reads_append (s : σ) {ns : List ℕ} (h : ∀ n ∈ ns, 0 < n) :
    (reads s ns).1.flatten ++ Source.contents (reads s ns).2 = Source.contents s := by
  induction ns generalizing s with
  | nil => rfl
  | cons n ns ih =>
    have := ih (Readable.read s n).2 fun m hm => h m (mem_cons_of_mem _ hm)
    rw [← Source.read_append s n (h n mem_cons_self), ← this, ← append_assoc]
    rfl

theorem length_le_reads_or_nil (s : σ) {ns : List ℕ} (h : ∀ n ∈ ns, 0 < n) :
    ns.length ≤ (reads s ns).1.flatten.length ∨ Source.contents (reads s ns).2 = [] := by
  induction ns generalizing s with
  | nil => exact .inl (Nat.zero_le _)
  | cons n ns ih =>
    have hn := h n mem_cons_self
    have hns : ∀ m ∈ ns, 0 < m := fun m hm => h m (mem_cons_of_mem _ hm)
    by_cases h0 : (Readable.read s n).1 = []
    · right
      have := reads_append (Readable.read s n).2 hns
      rw [contents_read s hn h0] at this
      exact (append_eq_nil_iff.mp this).2
    · have := length_pos_iff.mpr h0
      refine (ih (Readable.read s n).2 hns).imp_left fun hle => ?_
      simp only [reads, flatten_cons, length_append, length_cons]
      omega

end reads

section drain

variable [Readable σ α]

/-- Read `n` elements at a time until a read returns nothing. -/
def drain (n : ℕ) (s : σ) : List α × σ :=
  match _h : Readable.read s n with
  | ([], s') => ([], s')
  | (x :: xs, s') => (x :: xs ++ (drain n s').1, (drain n s').2)
termination_by Readable.weight s
decreasing_by
  have := Readable.weight_read s n (by rw [_h]; exact cons_ne_nil _ _)
  rwa [_h] at this

theorem drain_of_nil {n : ℕ} {s : σ} (h : (Readable.read s n).1 = []) :
    drain n s = ([], (Readable.read s n).2) := by
  rw [drain]
  split
  · next h' => rw [h']
  · next h' => rw [h'] at h; cases h

theorem drain_of_ne_nil {n : ℕ} {s : σ} (h : (Readable.read s n).1 ≠ []) :
    drain n s = ((Readable.read s n).1 ++ (drain n (Readable.read s n).2).1,
      (drain n (Readable.read s n).2).2) := by
  rw [drain]
  split
  · next h' => rw [h'] at h; exact absurd rfl h
  · next h' => rw [h']

/-- **Draining keeps an invariant** and ends with a read that returned nothing. -/
theorem drain_inv {n : ℕ} {I : List α → σ → Prop}
    (hI : ∀ acc s, I acc s → I (acc ++ (Readable.read s n).1) (Readable.read s n).2)
    (acc : List α) (s : σ) (h : I acc s) :
    ∃ s', I (acc ++ (drain n s).1) s' ∧ (Readable.read s' n).1 = [] ∧
      (drain n s).2 = (Readable.read s' n).2 := by
  by_cases h0 : (Readable.read s n).1 = []
  · rw [drain_of_nil h0]
    exact ⟨s, by rwa [append_nil], h0, rfl⟩
  · rw [drain_of_ne_nil h0]
    have := drain_inv hI (acc ++ (Readable.read s n).1) (Readable.read s n).2 (hI acc s h)
    simpa [append_assoc] using this
termination_by Readable.weight s
decreasing_by exact Readable.weight_read s n h0

/-- **Reading, then draining**: an invariant of both holds up to the last read, which returned nothing. -/
theorem Reader.run_drain_inv {p : ℕ → Prop} {n : ℕ} {I : List α → σ → Prop}
    (hI : ∀ acc s m, p m → I acc s → I (acc ++ (Readable.read s m).1) (Readable.read s m).2)
    (hn : p n) (t : Reader α ρ) (ht : t.Asks p) (s : σ) (h : I [] s) :
    ∃ s', I ((t.run s).1 ++ (drain n (t.run s).2.2).1) s' ∧ (Readable.read s' n).1 = [] ∧
      (drain n (t.run s).2.2).2 = (Readable.read s' n).2 :=
  drain_inv (fun acc s => hI acc s n hn) _ _ (by simpa using run_inv hI t [] s ht h)

end drain

/-! ## What a stream yields -/

/-- Reads of `1` to `m` elements hand over `xs` in order, and an empty one happens only at the end of `xs`. -/
def Yields [Readable σ α] (m : ℕ) (s : σ) (xs : List α) : Prop :=
  ∃ I : σ → List α → Prop, I s xs ∧ ∀ s xs n, I s xs → 0 < n → n ≤ m →
    (Readable.read s n).1.length ≤ n ∧ ((Readable.read s n).1 = [] → xs = []) ∧
      ∃ ys, (Readable.read s n).1 ++ ys = xs ∧ I (Readable.read s n).2 ys

theorem yields_contents [Source σ α] (m : ℕ) (s : σ) : Yields m s (Source.contents s) := by
  refine ⟨fun s xs => Source.contents s = xs, rfl, ?_⟩
  rintro s _ n rfl hn -
  exact ⟨Source.length_read_le s n, Source.contents_of_read_nil s n hn, _, Source.read_append s n hn, rfl⟩

section yields

variable [Readable σ α] {m n : ℕ}

theorem Yields.read {s : σ} {xs : List α} (h : Yields m s xs) (hn : 0 < n) (hm : n ≤ m) :
    (Readable.read s n).1.length ≤ n ∧ ((Readable.read s n).1 = [] → xs = []) ∧
      ∃ ys, (Readable.read s n).1 ++ ys = xs ∧ Yields m (Readable.read s n).2 ys := by
  obtain ⟨I, hI, hstep⟩ := h
  obtain ⟨hlen, hnil, ys, happ, hI'⟩ := hstep s xs n hI hn hm
  exact ⟨hlen, hnil, ys, happ, I, hI', hstep⟩

theorem Yields.drain {s : σ} {xs : List α} (h : Yields m s xs) (hn : 0 < n) (hm : n ≤ m) : (Reading.drain n s).1 = xs := by
  obtain ⟨-, hnil, ys, happ, hy⟩ := h.read hn hm
  by_cases h0 : (Readable.read s n).1 = []
  · rw [drain_of_nil h0]
    exact (hnil h0).symm
  · rw [drain_of_ne_nil h0]
    dsimp only
    rw [hy.drain hn hm]
    exact happ
termination_by Readable.weight s
decreasing_by exact Readable.weight_read s n h0

end yields

end Reading
