import Nhttp.Async.MpmcStep

/-!
# What the callers of the queue see

* `Effect`: a step inside a call changes where its thread is and claims at most one position; a pop that
  fails has seen a cell that is not published.
* `effect_run`, `effect_push`, `effect_pop`: every step inside a call is like that.
* `isPop`, `isPush`: a call stays what it is.
-/

namespace Nhttp.Async

open Function

namespace MpmcQueue

variable {ι T : Type} [DecidableEq ι] {c : Capacity} {s s' : MpmcQueue ι T} {t : ι}

/-- What a step inside a call does, apart from values. -/
structure Effect (c : Capacity) (s : MpmcQueue ι T) (t : ι) (s' : MpmcQueue ι T) : Prop where
  ops : ∀ t' ≠ t, s'.ops t' = s.ops t'
  enqueuePos : (s'.enqueuePos = s.enqueuePos ∧ (s'.ops t).given = (s.ops t).given) ∨
    (s'.enqueuePos = s.enqueuePos + 1 ∧ (s.ops t).given = none ∧ (s'.ops t).given = some s.enqueuePos)
  dequeuePos : (s'.dequeuePos = s.dequeuePos ∧ (s'.ops t).taken = (s.ops t).taken) ∨
    (s'.dequeuePos = s.dequeuePos + 1 ∧ (s.ops t).taken = none ∧ (s'.ops t).taken = some s.dequeuePos)
  popSequence : ∀ {pos}, s'.ops t = .popSequence pos → pos = s'.dequeuePos
  popExchange : ∀ {pos}, s'.ops t = .popExchange pos → s.ops t = .popSequence pos
  popEmpty : s'.ops t = .popEmpty → ∃ pos, s.ops t = .popSequence pos ∧
    difference (s.sequence (c.cell pos)) (pos + 1) < 0 ∧ s' = s.goto t .popEmpty
  sequence : ∀ i, s.sequence i ≤ s'.sequence i
  logs : s'.pushed = s.pushed ∧ s'.popped = s.popped

theorem goto_self (op : Op T) : (s.goto t op).ops t = op := update_self ..

theorem goto_of_ne {t' : ι} (hne : t' ≠ t) (op : Op T) : (s.goto t op).ops t' = s.ops t' :=
  update_of_ne hne ..

theorem effect_goto {op : Op T} (hg : op.given = (s.ops t).given) (ht : op.taken = (s.ops t).taken)
    (hseq : ∀ pos, op = .popSequence pos → pos = s.dequeuePos)
    (hex : ∀ pos, op = .popExchange pos → s.ops t = .popSequence pos)
    (hempty : op = .popEmpty → ∃ pos, s.ops t = .popSequence pos ∧
      difference (s.sequence (c.cell pos)) (pos + 1) < 0) :
    Effect c s t (s.goto t op) where
  ops t' hne := goto_of_ne hne op
  enqueuePos := .inl ⟨rfl, by rw [goto_self, hg]⟩
  dequeuePos := .inl ⟨rfl, by rw [goto_self, ht]⟩
  popSequence he := hseq _ ((goto_self op).symm.trans he)
  popExchange he := hex _ ((goto_self op).symm.trans he)
  popEmpty he := by
    have hop : op = .popEmpty := (goto_self op).symm.trans he
    obtain ⟨pos, hpos, hneg⟩ := hempty hop
    exact ⟨pos, hpos, hneg, by rw [hop]⟩
  sequence _ := Nat.le_refl _
  logs := ⟨rfl, rfl⟩

/-- A step that changes something shared is not one that looks at the queue. -/
theorem effect_shared {op : Op T} (hops : s'.ops = update s.ops t op)
    (he : (s'.enqueuePos = s.enqueuePos ∧ op.given = (s.ops t).given) ∨
      (s'.enqueuePos = s.enqueuePos + 1 ∧ (s.ops t).given = none ∧ op.given = some s.enqueuePos))
    (hd : (s'.dequeuePos = s.dequeuePos ∧ op.taken = (s.ops t).taken) ∨
      (s'.dequeuePos = s.dequeuePos + 1 ∧ (s.ops t).taken = none ∧ op.taken = some s.dequeuePos))
    (hop : op.given ≠ none ∨ op.taken ≠ none ∨ ∃ v, op = .pushLoad v)
    (hseq : ∀ i, s.sequence i ≤ s'.sequence i) (hlogs : s'.pushed = s.pushed ∧ s'.popped = s.popped) :
    Effect c s t s' := by
  have hself : s'.ops t = op := by rw [hops, update_self]
  refine ⟨fun t' hne => by rw [hops, update_of_ne hne], ?_, ?_, fun h => ?_, fun h => ?_, fun h => ?_,
    hseq, hlogs⟩
  · rw [hself]
    exact he
  · rw [hself]
    exact hd
  all_goals
    rw [hself] at h
    subst h
    rcases hop with hop | hop | ⟨v, hop⟩
    · exact absurd rfl hop
    · exact absurd rfl hop
    · cases hop

omit [DecidableEq ι] in
theorem sequence_le_update {i n : ℕ} (h : s.sequence i ≤ n) (j : ℕ) :
    s.sequence j ≤ update s.sequence i n j := by
  by_cases hj : j = i
  · subst hj
    rw [update_self]
    exact h
  · rw [update_of_ne hj]

theorem effect_run (h : s.Inv c) {spurious : Bool} (hf : s.Fresh (.run t spurious))
    (hs : s.run c t spurious = some s') : Effect c s t s' := by
  have hok := h.ops t
  unfold MpmcQueue.run at hs
  dsimp only [Fresh] at hf
  cases hop : s.ops t with
  | pushLoad v =>
    rw [hop] at hs
    cases hs
    exact effect_goto (by rw [hop]; rfl) (by rw [hop]; rfl) nofun nofun nofun
  | pushSequence v pos =>
    rw [hop] at hs
    cases hs
    split_ifs <;> exact effect_goto (by rw [hop]; rfl) (by rw [hop]; rfl) nofun nofun nofun
  | pushExchange v pos =>
    rw [hop] at hs hok hf
    dsimp only at hs
    by_cases hx : spurious = false ∧ SameWord s.enqueuePos pos
    · rw [if_pos hx] at hs
      cases hs
      have hpos : s.enqueuePos = pos := eq_of_sameWord hx.2 hok.2.1 hf
      subst hpos
      exact effect_shared rfl (.inr ⟨rfl, by rw [hop]; rfl, rfl⟩) (.inl ⟨rfl, by rw [hop]; rfl⟩)
        (.inl nofun) (fun _ => Nat.le_refl _) ⟨rfl, rfl⟩
    · rw [if_neg hx] at hs
      cases hs
      exact effect_goto (by rw [hop]; rfl) (by rw [hop]; rfl) nofun nofun nofun
  | pushValue v pos =>
    rw [hop] at hs
    cases hs
    exact effect_shared rfl (.inl ⟨rfl, by rw [hop]; rfl⟩) (.inl ⟨rfl, by rw [hop]; rfl⟩) (.inl nofun)
      (fun _ => Nat.le_refl _) ⟨rfl, rfl⟩
  | pushStore v pos =>
    rw [hop] at hs hok
    cases hs
    exact effect_shared rfl (.inl ⟨rfl, by rw [hop]; rfl⟩) (.inl ⟨rfl, by rw [hop]; rfl⟩) (.inl nofun)
      (sequence_le_update (by rw [hok.2.1]; exact Nat.le_succ pos)) ⟨rfl, rfl⟩
  | popLoad =>
    rw [hop] at hs
    cases hs
    refine effect_goto (by rw [hop]; rfl) (by rw [hop]; rfl) (fun pos he => ?_) nofun nofun
    cases he
    rfl
  | popSequence pos =>
    rw [hop] at hs
    cases hs
    split_ifs with hz hneg
    · refine effect_goto (by rw [hop]; rfl) (by rw [hop]; rfl) nofun (fun pos' he => ?_) nofun
      cases he
      exact hop
    · exact effect_goto (by rw [hop]; rfl) (by rw [hop]; rfl) nofun nofun fun _ => ⟨pos, hop, hneg⟩
    · exact effect_goto (by rw [hop]; rfl) (by rw [hop]; rfl) nofun nofun nofun
  | popExchange pos =>
    rw [hop] at hs hok hf
    dsimp only at hs
    by_cases hx : spurious = false ∧ SameWord s.dequeuePos pos
    · rw [if_pos hx] at hs
      cases hs
      have hpos : s.dequeuePos = pos := eq_of_sameWord hx.2 hok.1 hf
      subst hpos
      exact effect_shared rfl (.inl ⟨rfl, by rw [hop]; rfl⟩) (.inr ⟨rfl, by rw [hop]; rfl, rfl⟩)
        (.inr (.inl nofun)) (fun _ => Nat.le_refl _) ⟨rfl, rfl⟩
    · rw [if_neg hx] at hs
      cases hs
      refine effect_goto (by rw [hop]; rfl) (by rw [hop]; rfl) (fun pos he => ?_) nofun nofun
      cases he
      rfl
  | popValue pos =>
    rw [hop] at hs
    cases hs
    exact effect_shared rfl (.inl ⟨rfl, by rw [hop]; rfl⟩) (.inl ⟨rfl, by rw [hop]; rfl⟩) (.inr (.inl nofun))
      (fun _ => Nat.le_refl _) ⟨rfl, rfl⟩
  | popStore pos out =>
    rw [hop] at hs hok
    cases hs
    exact effect_shared rfl (.inl ⟨rfl, by rw [hop]; rfl⟩) (.inl ⟨rfl, by rw [hop]; rfl⟩) (.inr (.inl nofun))
      (sequence_le_update (by rw [hok.1]; omega)) ⟨rfl, rfl⟩
  | _ =>
    rw [hop] at hs
    cases hs

theorem effect_push {v : T} (hs : s.step c (.push t v) = some s') : Effect c s t s' := by
  simp only [step] at hs
  split at hs
  case h_1 hop =>
    cases hs
    exact effect_shared rfl (.inl ⟨rfl, by rw [hop]; rfl⟩) (.inl ⟨rfl, by rw [hop]; rfl⟩)
      (.inr (.inr ⟨v, rfl⟩)) (fun _ => Nat.le_refl _) ⟨rfl, rfl⟩
  case h_2 => cases hs

theorem effect_pop (hs : s.step c (.pop t) = some s') : Effect c s t s' := by
  simp only [step] at hs
  split at hs
  case h_1 hop =>
    cases hs
    exact effect_goto (by rw [hop]; rfl) (by rw [hop]; rfl) (fun _ h => by cases h) (fun _ h => by cases h)
      (fun h => by cases h)
  case h_2 => cases hs

/-! ## A call stays what it is -/

theorem isPush_run {spurious : Bool} (hs : s.run c t spurious = some s') :
    (s'.ops t).isPush = (s.ops t).isPush ∧ (s'.ops t).isPop = (s.ops t).isPop := by
  unfold MpmcQueue.run at hs
  cases hop : s.ops t with
  | pushSequence v pos =>
    rw [hop] at hs
    cases hs
    rw [goto_self]
    split_ifs <;> exact ⟨rfl, rfl⟩
  | popSequence pos =>
    rw [hop] at hs
    cases hs
    rw [goto_self]
    split_ifs <;> exact ⟨rfl, rfl⟩
  | pushExchange v pos | popExchange pos =>
    rw [hop] at hs
    dsimp only at hs
    split_ifs at hs <;>
      · cases hs
        simp [goto, Op.isPush, Op.isPop]
  | pushLoad | pushValue | pushStore | popLoad | popValue | popStore =>
    rw [hop] at hs
    cases hs
    simp [goto, Op.isPush, Op.isPop]
  | _ =>
    rw [hop] at hs
    cases hs

end MpmcQueue

end Nhttp.Async
