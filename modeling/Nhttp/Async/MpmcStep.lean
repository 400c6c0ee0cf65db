import Nhttp.Async.MpmcQueue

/-!
# A step of the queue keeps its invariant

A claim moves one counter, a write changes the value of a cell that belongs to the thread, and a store
gives the cell away.

* `OpOk.write`, `OpOk.store`: what the other threads rely on survives.
* **`inv_step`**: every step keeps the invariant, unless a compare-exchange meets a counter that has gone
  round.
-/

namespace Nhttp.Async

open List Function

namespace MpmcQueue

variable {ι T : Type} {c : Capacity} {s s' : MpmcQueue ι T} {t : ι}

/-! ## What the other threads rely on -/

variable {op : Op T} {i n p pos : ℕ} {t' : ι} {v : T} {out : Option T}

theorem OpOk.pushClaim (h : s.OpOk c t op) (v : T) :
    ({ s with enqueuePos := s.enqueuePos + 1, pushes := s.pushes ++ [v] } : MpmcQueue ι T).OpOk c t op := by
  have hget : ∀ {p : ℕ} {w : T}, s.pushes[p]? = some w → (s.pushes ++ [v])[p]? = some w := fun hp =>
    getElem?_append_left (List.getElem?_eq_some_iff.mp hp).1 ▸ hp
  cases op with
  | pushSequence w pos => exact ⟨h.1, Nat.le_succ_of_le h.2⟩
  | pushExchange w pos =>
    refine ⟨h.1, Nat.le_succ_of_le h.2.1, fun he => ?_⟩
    exact absurd h.2.1 (he ▸ Nat.not_succ_le_self _)
  | pushValue w pos => exact ⟨h.1, hget h.2.1, h.2.2⟩
  | pushStore w pos => exact ⟨hget h.1, h.2⟩
  | pushDone w pos => exact ⟨hget h.1, h.2⟩
  | popValue pos =>
    obtain ⟨w, hw, hv⟩ := h.2
    exact ⟨h.1, w, hget hw, hv⟩
  | popStore pos out =>
    obtain ⟨w, hw, hv⟩ := h.2
    exact ⟨h.1, w, hget hw, hv⟩
  | popDone pos out =>
    obtain ⟨w, hw, hv⟩ := h.2
    exact ⟨h.1, w, hget hw, hv⟩
  | _ => exact h

theorem OpOk.popClaim (h : s.OpOk c t op) :
    ({ s with dequeuePos := s.dequeuePos + 1 } : MpmcQueue ι T).OpOk c t op := by
  cases op with
  | popSequence pos => exact Nat.le_succ_of_le h
  | popExchange pos =>
    refine ⟨Nat.le_succ_of_le h.1, fun he => ?_⟩
    exact absurd h.1 (he ▸ Nat.not_succ_le_self _)
  | _ => exact h

theorem OpOk.write (h : s.OpOk c t op) (hi : ∀ p, op.owns = some p → i ≠ c.cell p) (x : Option T) :
    ({ s with value := update s.value i x } : MpmcQueue ι T).OpOk c t op := by
  have hval : ∀ p, op.owns = some p → update s.value i x (c.cell p) = s.value (c.cell p) :=
    fun p hp => update_of_ne (hi p hp).symm ..
  cases op with
  | pushStore v pos => exact ⟨h.1, h.2.1, (hval pos rfl).trans h.2.2⟩
  | popValue pos =>
    obtain ⟨v, hv, hx⟩ := h.2
    exact ⟨h.1, v, hv, (hval pos rfl).trans hx⟩
  | _ => exact h

theorem OpOk.arg (h : s.OpOk c t op) [DecidableEq ι] (hne : t ≠ t') (x : Option T) :
    ({ s with arg := update s.arg t' x } : MpmcQueue ι T).OpOk c t op := by
  have harg : update s.arg t' x t = s.arg t := update_of_ne hne ..
  cases op with
  | pushLoad v | pushFull v => exact harg.trans h
  | pushSequence v pos | pushExchange v pos | pushValue v pos => exact ⟨harg.trans h.1, h.2⟩
  | _ => exact h

theorem Published.store (h : s.Published c p) (hn : s.sequence i ≤ n) :
    ({ s with sequence := update s.sequence i n } : MpmcQueue ι T).Published c p := by
  unfold Published at *
  by_cases hi : c.cell p = i
  · subst hi
    simp only [update_self]
    exact Nat.lt_of_lt_of_le h hn
  · simp only [update_of_ne hi]
    exact h

theorem OpOk.store (h : s.OpOk c t op) (hi : ∀ p, op.owns = some p → i ≠ c.cell p)
    (hn : s.sequence i ≤ n) (he : i = c.cell s.enqueuePos → s.sequence i ≠ s.enqueuePos)
    (hd : i = c.cell s.dequeuePos → s.sequence i ≠ s.dequeuePos + 1) :
    ({ s with sequence := update s.sequence i n } : MpmcQueue ι T).OpOk c t op := by
  have hseq : ∀ p, i ≠ c.cell p → update s.sequence i n (c.cell p) = s.sequence (c.cell p) :=
    fun p hp => update_of_ne hp.symm ..
  cases op with
  | pushExchange v pos =>
    refine ⟨h.1, h.2.1, fun hpos => (hseq pos ?_).trans (h.2.2 hpos)⟩
    rintro rfl
    exact he (congrArg _ hpos) ((h.2.2 hpos).trans hpos)
  | pushValue v pos => exact ⟨h.1, h.2.1, (hseq pos (hi pos rfl)).trans h.2.2⟩
  | pushStore v pos => exact ⟨h.1, (hseq pos (hi pos rfl)).trans h.2.1, h.2.2⟩
  | pushDone v pos => exact ⟨h.1, h.2.store hn⟩
  | popExchange pos =>
    refine ⟨h.1, fun hpos => (hseq pos ?_).trans (h.2 hpos)⟩
    rintro rfl
    exact hd (congrArg _ hpos) ((h.2 hpos).trans (congrArg (· + 1) hpos))
  | popValue pos => exact ⟨(hseq pos (hi pos rfl)).trans h.1, h.2⟩
  | popStore pos out => exact ⟨(hseq pos (hi pos rfl)).trans h.1, h.2⟩
  | popDone pos out => exact ⟨h.1.store hn, h.2⟩
  | _ => exact h

theorem Inv.ne_cell (h : s.Inv c) (ho : (s.ops t).owns = some p) (hne : t' ≠ t) :
    ∀ q, (s.ops t').owns = some q → c.cell p ≠ c.cell q :=
  fun _ hq => h.owns_ne hne.symm ho hq

/-! ## Steps that change nothing shared -/

variable [DecidableEq ι]

theorem comp_goto {α : Type} (f : Op T → α) (op : Op T) :
    f ∘ (s.goto t op).ops = update (f ∘ s.ops) t (f op) :=
  comp_update ..

theorem comp_goto_of_eq {α : Type} (f : Op T → α) (h : f op = f (s.ops t)) :
    f ∘ (s.goto t op).ops = f ∘ s.ops := by
  rw [comp_goto, h]
  exact update_eq_self ..

theorem Inv.goto (h : s.Inv c) (hok : s.OpOk c t op) (hg : op.given = (s.ops t).given)
    (ht : op.taken = (s.ops t).taken) : (s.goto t op).Inv c where
  length := h.length
  le := h.le
  room := h.room
  cells := h.cells
  ops := (forall_update_iff s.ops (p := fun t' op => s.OpOk c t' op)).mpr ⟨hok, fun t' _ => h.ops t'⟩
  given := by
    rw [comp_goto_of_eq Op.given hg]
    exact h.given
  taken := by
    rw [comp_goto_of_eq Op.taken ht]
    exact h.taken
  pushed := h.pushed
  refused := h.refused
  popped := h.popped

theorem Inv.push (h : s.Inv c) (hop : s.ops t = .idle) (v : T) :
    ({ s.goto t (.pushLoad v) with arg := update s.arg t (some v) } : MpmcQueue ι T).Inv c where
  length := h.length
  le := h.le
  room := h.room
  cells := h.cells
  ops := (forall_update_iff s.ops (p := fun t' op => OpOk c { s with arg := _ } t' op)).mpr
    ⟨update_self .., fun t' hne => (h.ops t').arg hne _⟩
  given := by
    have hg : Op.given ∘ (s.goto t (.pushLoad v)).ops = Op.given ∘ s.ops :=
      comp_goto_of_eq _ (by rw [hop]; rfl)
    exact hg ▸ h.given
  taken := by
    have ht : Op.taken ∘ (s.goto t (.pushLoad v)).ops = Op.taken ∘ s.ops :=
      comp_goto_of_eq _ (by rw [hop]; rfl)
    exact ht ▸ h.taken
  pushed := h.pushed
  refused := h.refused
  popped := h.popped

theorem Inv.retPush (h : s.Inv c) (hop : s.ops t = .pushDone v pos) :
    ({ s.goto t .idle with pushed := s.pushed ++ [(pos, v)] } : MpmcQueue ι T).Inv c where
  length := h.length
  le := h.le
  room := h.room
  cells := h.cells
  ops := (forall_update_iff s.ops (p := fun t' op => s.OpOk c t' op)).mpr
    ⟨trivial, fun t' _ => h.ops t'⟩
  given := by
    have hfin := h.given.finish (show (Op.given ∘ s.ops) t = some pos by rw [Function.comp, hop]; rfl)
    have hg : Op.given ∘ (s.goto t .idle).ops = update (Op.given ∘ s.ops) t none :=
      comp_goto Op.given .idle
    simp only [map_append, map_cons, map_nil]
    exact hg ▸ hfin
  taken := by
    have ht : Op.taken ∘ (s.goto t .idle).ops = Op.taken ∘ s.ops :=
      comp_goto_of_eq _ (by rw [hop]; rfl)
    exact ht ▸ h.taken
  pushed r hr := by
    rcases mem_append.mp hr with hr | hr
    · exact h.pushed r hr
    · have hok := h.ops t
      rw [hop] at hok
      rw [mem_singleton.mp hr]
      exact hok
  refused := h.refused
  popped := h.popped

theorem Inv.retFull (h : s.Inv c) (hop : s.ops t = .pushFull v) :
    ({ s.goto t .idle with refused := s.refused ++ [(v, s.arg t)] } : MpmcQueue ι T).Inv c := by
  have hgoto : (s.goto t .idle).Inv c := h.goto trivial (by rw [hop]; rfl) (by rw [hop]; rfl)
  refine { hgoto with refused := fun r hr => ?_ }
  rcases mem_append.mp hr with hr | hr
  · exact h.refused r hr
  · have hok := h.ops t
    rw [hop] at hok
    rw [mem_singleton.mp hr]
    exact hok

theorem Inv.retPop (h : s.Inv c) (hop : s.ops t = .popDone pos out) :
    ({ s.goto t .idle with popped := s.popped ++ [(pos, out)] } : MpmcQueue ι T).Inv c where
  length := h.length
  le := h.le
  room := h.room
  cells := h.cells
  ops := (forall_update_iff s.ops (p := fun t' op => s.OpOk c t' op)).mpr
    ⟨trivial, fun t' _ => h.ops t'⟩
  given := by
    have hg : Op.given ∘ (s.goto t .idle).ops = Op.given ∘ s.ops :=
      comp_goto_of_eq _ (by rw [hop]; rfl)
    exact hg ▸ h.given
  taken := by
    have hfin := h.taken.finish (show (Op.taken ∘ s.ops) t = some pos by rw [Function.comp, hop]; rfl)
    have ht : Op.taken ∘ (s.goto t .idle).ops = update (Op.taken ∘ s.ops) t none :=
      comp_goto Op.taken .idle
    simp only [map_append, map_cons, map_nil]
    exact ht ▸ hfin
  pushed := h.pushed
  refused := h.refused
  popped r hr := by
    rcases mem_append.mp hr with hr | hr
    · exact h.popped r hr
    · have hok := h.ops t
      rw [hop] at hok
      rw [mem_singleton.mp hr]
      exact hok

/-! ## Claims -/

theorem Inv.pushClaim (h : s.Inv c) (hop : s.ops t = .pushExchange v s.enqueuePos) :
    ({ s.goto t (.pushValue v s.enqueuePos) with
        enqueuePos := s.enqueuePos + 1
        pushes := s.pushes ++ [v] } : MpmcQueue ι T).Inv c := by
  have hok := h.ops t
  rw [hop] at hok
  have hseq : s.sequence (c.cell s.enqueuePos) = s.enqueuePos := hok.2.2 rfl
  have hget : ∀ {p : ℕ} {w : T}, s.pushes[p]? = some w → (s.pushes ++ [v])[p]? = some w := fun hp =>
    getElem?_append_left (List.getElem?_eq_some_iff.mp hp).1 ▸ hp
  refine ⟨?_, Nat.le_succ_of_le h.le, ?_, fun i hi => ?_, ?_, ?_, ?_, fun r hr => ?_, h.refused, fun r hr => ?_⟩
  · simp [h.length]
  · -- the cell of the next position is free, as its number is not that of a full cell
    rcases h.cells _ (c.cell_lt s.enqueuePos) with ⟨_, _, hlt⟩ | ⟨p, hp, hcell, _⟩
    · rw [hseq] at hlt
      exact hlt
    · rw [hseq] at hp
      exact absurd (hp ▸ hcell.symm) (c.cell_succ_ne p)
  · refine (h.cells i hi).imp_right ?_
    rintro ⟨p, hp, hcell, hlt, hle, hval⟩
    have hne : s.enqueuePos ≠ p + c.val := by
      intro he
      rw [he, c.cell_add_val, hcell, hp] at hseq
      have := c.two_le_val
      omega
    refine ⟨p, hp, hcell, Nat.lt_succ_of_lt hlt, Nat.lt_of_le_of_ne hle hne, fun hd => ?_⟩
    obtain ⟨w, hw, hx⟩ := hval hd
    exact ⟨w, hget hw, hx⟩
  · refine (forall_update_iff s.ops (p := fun t' op =>
      OpOk c { s with enqueuePos := _, pushes := _ } t' op)).mpr ⟨⟨hok.1, ?_, hseq⟩, fun t' _ =>
        (h.ops t').pushClaim v⟩
    rw [← h.length]
    exact getElem?_concat_length
  · have hg : Op.given ∘ (s.goto t (.pushValue v s.enqueuePos)).ops =
        update (Op.given ∘ s.ops) t (some s.enqueuePos) := comp_goto Op.given _
    exact hg ▸ h.given.issue (by rw [Function.comp, hop]; rfl)
  · have ht : Op.taken ∘ (s.goto t (.pushValue v s.enqueuePos)).ops = Op.taken ∘ s.ops :=
      comp_goto_of_eq _ (by rw [hop]; rfl)
    exact ht ▸ h.taken
  · exact ⟨hget (h.pushed r hr).1, (h.pushed r hr).2⟩
  · obtain ⟨hp, w, hw, hx⟩ := h.popped r hr
    exact ⟨hp, w, hget hw, hx⟩

theorem Inv.popClaim (h : s.Inv c) (hop : s.ops t = .popExchange s.dequeuePos) :
    ({ s.goto t (.popValue s.dequeuePos) with dequeuePos := s.dequeuePos + 1 } : MpmcQueue ι T).Inv c := by
  have hok := h.ops t
  rw [hop] at hok
  have hseq : s.sequence (c.cell s.dequeuePos) = s.dequeuePos + 1 := hok.2 rfl
  -- the cell of the next position is full, and with its value
  obtain ⟨hlt, hval⟩ : s.dequeuePos < s.enqueuePos ∧ ∃ v, s.pushes[s.dequeuePos]? = some v ∧
      s.value (c.cell s.dequeuePos) = some v := by
    rcases h.cells _ (c.cell_lt s.dequeuePos) with ⟨hcell, _⟩ | ⟨p, hp, hcell, hlt, _, hval⟩
    · rw [hseq] at hcell
      exact absurd hcell (c.cell_succ_ne _)
    · have hpd : p = s.dequeuePos := Nat.succ.inj (hp.symm.trans hseq)
      subst hpd
      exact ⟨hlt, hval (Nat.le_refl _)⟩
  refine ⟨h.length, hlt, ?_, fun i hi => ?_, ?_, ?_, ?_, h.pushed, h.refused, h.popped⟩
  · exact Nat.le_trans h.room (Nat.add_le_add_right (Nat.le_succ _) _)
  · refine (h.cells i hi).imp ?_ ?_
    · rintro ⟨hcell, hle, hlt'⟩
      have hne : s.sequence i ≠ s.dequeuePos := by
        intro he
        rw [he] at hcell
        rw [hcell, he] at hseq
        omega
      exact ⟨hcell, Nat.lt_of_le_of_ne hle hne.symm,
        Nat.lt_of_lt_of_le hlt' (Nat.add_le_add_right (Nat.le_succ _) _)⟩
    · rintro ⟨p, hp, hcell, hlt', hle, hval⟩
      exact ⟨p, hp, hcell, hlt', hle, fun hd => hval (Nat.le_of_succ_le hd)⟩
  · exact (forall_update_iff s.ops (p := fun t' op =>
      OpOk c { s with dequeuePos := _ } t' op)).mpr ⟨⟨hseq, hval⟩, fun t' _ => (h.ops t').popClaim⟩
  · have hg : Op.given ∘ (s.goto t (.popValue s.dequeuePos)).ops = Op.given ∘ s.ops :=
      comp_goto_of_eq _ (by rw [hop]; rfl)
    exact hg ▸ h.given
  · have ht : Op.taken ∘ (s.goto t (.popValue s.dequeuePos)).ops =
        update (Op.taken ∘ s.ops) t (some s.dequeuePos) := comp_goto Op.taken _
    exact ht ▸ h.taken.issue (by rw [Function.comp, hop]; rfl)

/-! ## Writes and stores -/

theorem Inv.write (h : s.Inv c) (ho : (s.ops t).owns = some pos) {x : Option T}
    {arg : ι → Option T} (harg : ∀ t' ≠ t, arg t' = s.arg t')
    (hcell : ∀ p, s.sequence (c.cell pos) = p + 1 → c.cell p = c.cell pos → p < s.dequeuePos)
    (hok : OpOk c { s with value := update s.value (c.cell pos) x, arg := arg } t op)
    (hg : op.given = (s.ops t).given) (ht : op.taken = (s.ops t).taken) :
    ({ s.goto t op with value := update s.value (c.cell pos) x, arg := arg } : MpmcQueue ι T).Inv c
    where
  length := h.length
  le := h.le
  room := h.room
  cells i hi := by
    refine (h.cells i hi).imp_right ?_
    rintro ⟨p, hp, hpi, hlt, hle, hval⟩
    refine ⟨p, hp, hpi, hlt, hle, fun hd => ?_⟩
    obtain ⟨v, hv, hx⟩ := hval hd
    refine ⟨v, hv, ?_⟩
    have hne : i ≠ c.cell pos := by
      rintro rfl
      exact absurd (hcell p hp hpi) (Nat.not_lt.mpr hd)
    exact (update_of_ne hne ..).trans hx
  ops := by
    refine (forall_update_iff s.ops (p := fun t' op =>
      OpOk c { s with value := _, arg := arg } t' op)).mpr ⟨hok, fun t' hne => ?_⟩
    have hw := (h.ops t').write (h.ne_cell ho hne) x
    have harg' := hw.arg hne (arg t)
    have he : update s.arg t (arg t) = arg := by
      funext t''
      by_cases ht'' : t'' = t
      · rw [ht'', update_self]
      · rw [update_of_ne ht'', harg t'' ht'']
    simp only [he] at harg'
    exact harg'
  given := by
    have hg' : Op.given ∘ (s.goto t op).ops = Op.given ∘ s.ops := comp_goto_of_eq _ hg
    exact hg' ▸ h.given
  taken := by
    have ht' : Op.taken ∘ (s.goto t op).ops = Op.taken ∘ s.ops := comp_goto_of_eq _ ht
    exact ht' ▸ h.taken
  pushed := h.pushed
  refused := h.refused
  popped := h.popped

theorem Inv.store (h : s.Inv c) (ho : (s.ops t).owns = some pos) (hn : s.sequence (c.cell pos) ≤ n)
    (he : c.cell pos = c.cell s.enqueuePos → s.sequence (c.cell pos) ≠ s.enqueuePos)
    (hd : c.cell pos = c.cell s.dequeuePos → s.sequence (c.cell pos) ≠ s.dequeuePos + 1)
    (hcell : Free c { s with sequence := update s.sequence (c.cell pos) n } (c.cell pos) ∨
      Full c { s with sequence := update s.sequence (c.cell pos) n } (c.cell pos))
    (hok : OpOk c { s with sequence := update s.sequence (c.cell pos) n } t op)
    (hg : op.given = (s.ops t).given) (ht : op.taken = (s.ops t).taken) :
    ({ s.goto t op with sequence := update s.sequence (c.cell pos) n } : MpmcQueue ι T).Inv c where
  length := h.length
  le := h.le
  room := h.room
  cells i hi := by
    by_cases hne : i = c.cell pos
    · rw [hne]
      exact hcell
    · have hseq : update s.sequence (c.cell pos) n i = s.sequence i :=
        update_of_ne hne ..
      refine (h.cells i hi).imp (fun hf => ?_) (fun hf => ?_)
      · unfold Free at *
        simp only [hseq]
        exact hf
      · unfold Full at *
        simp only [hseq]
        exact hf
  ops := (forall_update_iff s.ops (p := fun t' op =>
    OpOk c { s with sequence := _ } t' op)).mpr
      ⟨hok, fun t' hne => (h.ops t').store (h.ne_cell ho hne) hn he hd⟩
  given := by
    have hg' : Op.given ∘ (s.goto t op).ops = Op.given ∘ s.ops := comp_goto_of_eq _ hg
    exact hg' ▸ h.given
  taken := by
    have ht' : Op.taken ∘ (s.goto t op).ops = Op.taken ∘ s.ops := comp_goto_of_eq _ ht
    exact ht' ▸ h.taken
  pushed r hr := ⟨(h.pushed r hr).1, (h.pushed r hr).2.store hn⟩
  refused := h.refused
  popped r hr := ⟨(h.popped r hr).1.store hn, (h.popped r hr).2⟩

/-! ## Every step -/

theorem Inv.pushValue (h : s.Inv c) (hop : s.ops t = .pushValue v pos) :
    ({ s.goto t (.pushStore v pos) with
        value := update s.value (c.cell pos) (s.arg t)
        arg := update s.arg t none } : MpmcQueue ι T).Inv c := by
  have hok := h.ops t
  rw [hop] at hok
  refine h.write (by rw [hop]; rfl) (fun t' hne => update_of_ne hne ..) (fun p hp hcell => ?_) ?_
    (by rw [hop]; rfl) (by rw [hop]; rfl)
  · rw [hok.2.2] at hp
    exact absurd (hp ▸ hcell.symm) (c.cell_succ_ne p)
  · exact ⟨hok.2.1, hok.2.2, (update_self ..).trans hok.1⟩

theorem Inv.popValue (h : s.Inv c) (hop : s.ops t = .popValue pos) :
    ({ s.goto t (.popStore pos (s.value (c.cell pos))) with
        value := update s.value (c.cell pos) none } : MpmcQueue ι T).Inv c := by
  have hok := h.ops t
  rw [hop] at hok
  have harg : ∀ t' ≠ t, s.arg t' = s.arg t' := fun _ _ => rfl
  refine h.write (by rw [hop]; rfl) harg (fun p hp _ => ?_) hok (by rw [hop]; rfl) (by rw [hop]; rfl)
  have hpp : p = pos := Nat.succ.inj (hp.symm.trans hok.1)
  rw [hpp]
  exact h.taken.lt (show (Op.taken ∘ s.ops) t = some pos by rw [Function.comp, hop]; rfl)

theorem Inv.pushStore (h : s.Inv c) (hop : s.ops t = .pushStore v pos) :
    ({ s.goto t (.pushDone v pos) with
        sequence := update s.sequence (c.cell pos) (pos + 1) } : MpmcQueue ι T).Inv c := by
  have hok := h.ops t
  rw [hop] at hok
  obtain ⟨hget, hseq, hval⟩ := hok
  have hlt : pos < s.enqueuePos :=
    h.given.lt (show (Op.given ∘ s.ops) t = some pos by rw [Function.comp, hop]; rfl)
  refine h.store (by rw [hop]; rfl) (hseq.symm ▸ Nat.le_succ pos) (fun _ => hseq.symm ▸ hlt.ne) (fun hc => ?_) ?_
    ⟨hget, ?_⟩ (by rw [hop]; rfl) (by rw [hop]; rfl)
  · rw [hseq]
    rintro rfl
    exact c.cell_succ_ne _ hc
  · refine .inr ⟨pos, update_self .., rfl, hlt, ?_, fun _ => ⟨v, hget, hval⟩⟩
    -- the cell was free, so the pops have not come this far
    rcases h.cells _ (c.cell_lt pos) with ⟨_, hle, _⟩ | ⟨p, hp, hcell, _⟩
    · rw [hseq] at hle
      exact Nat.le_trans h.room (Nat.add_le_add_right hle _)
    · rw [hseq] at hp
      exact absurd (hp ▸ hcell.symm) (c.cell_succ_ne p)
  · show pos < update s.sequence (c.cell pos) (pos + 1) (c.cell pos)
    rw [update_self]
    exact Nat.lt_succ_self pos

theorem Inv.popStore (h : s.Inv c) (hop : s.ops t = .popStore pos out) :
    ({ s.goto t (.popDone pos out) with
        sequence := update s.sequence (c.cell pos) (pos + c.mask + 1) } : MpmcQueue ι T).Inv c := by
  have hok := h.ops t
  rw [hop] at hok
  obtain ⟨hseq, hval⟩ := hok
  have hlt : pos < s.dequeuePos :=
    h.taken.lt (show (Op.taken ∘ s.ops) t = some pos by rw [Function.comp, hop]; rfl)
  have htwo := c.two_le_val
  rw [c.add_mask_add_one]
  have hself : update s.sequence (c.cell pos) (pos + c.val) (c.cell pos) = pos + c.val :=
    update_self ..
  refine h.store (by rw [hop]; rfl) (by omega) (fun hc => ?_) (fun _ => by omega) (.inl ?_) ⟨?_, hval⟩
    (by rw [hop]; rfl) (by rw [hop]; rfl)
  · rw [hseq]
    intro he
    rw [← he] at hc
    exact c.cell_succ_ne pos hc.symm
  · have hle : s.enqueuePos ≤ pos + c.val := by
      rcases h.cells _ (c.cell_lt pos) with ⟨hcell, _⟩ | ⟨p, hp, _, _, hle, _⟩
      · rw [hseq] at hcell
        exact absurd hcell (c.cell_succ_ne pos)
      · have hpp : p = pos := Nat.succ.inj (hp.symm.trans hseq)
        exact hpp ▸ hle
    unfold Free
    simp only [hself, c.cell_add_val, true_and]
    exact ⟨Nat.le_trans h.le hle, Nat.add_lt_add_right hlt _⟩
  · unfold Published
    simp only [hself]
    omega

theorem Inv.run (h : s.Inv c) {spurious : Bool} (hf : s.Fresh (.run t spurious))
    (hs : s.run c t spurious = some s') : s'.Inv c := by
  have hok := h.ops t
  unfold MpmcQueue.run at hs
  dsimp only [Fresh] at hf
  cases hop : s.ops t with
  | pushLoad v =>
    rw [hop] at hs hok
    cases hs
    exact h.goto ⟨hok, Nat.le_refl _⟩ (by rw [hop]; rfl) (by rw [hop]; rfl)
  | pushSequence v pos =>
    rw [hop] at hs hok
    cases hs
    split_ifs with hz hneg
    · refine h.goto ⟨hok.1, hok.2, ?_⟩ (by rw [hop]; rfl) (by rw [hop]; rfl)
      rintro rfl
      exact h.sequence_eq_of_push hz
    · exact h.goto hok.1 (by rw [hop]; rfl) (by rw [hop]; rfl)
    · exact h.goto hok.1 (by rw [hop]; rfl) (by rw [hop]; rfl)
  | pushExchange v pos =>
    rw [hop] at hs hok hf
    dsimp only at hs
    by_cases hx : spurious = false ∧ SameWord s.enqueuePos pos
    · rw [if_pos hx] at hs
      cases hs
      have hpos : s.enqueuePos = pos := eq_of_sameWord hx.2 hok.2.1 hf
      subst hpos
      exact h.pushClaim hop
    · rw [if_neg hx] at hs
      cases hs
      exact h.goto ⟨hok.1, Nat.le_refl _⟩ (by rw [hop]; rfl) (by rw [hop]; rfl)
  | pushValue v pos =>
    rw [hop] at hs
    cases hs
    exact h.pushValue hop
  | pushStore v pos =>
    rw [hop] at hs
    cases hs
    exact h.pushStore hop
  | popLoad =>
    rw [hop] at hs
    cases hs
    exact h.goto (Nat.le_refl s.dequeuePos) (by rw [hop]; rfl) (by rw [hop]; rfl)
  | popSequence pos =>
    rw [hop] at hs hok
    cases hs
    split_ifs with hz hneg
    · refine h.goto ⟨hok, ?_⟩ (by rw [hop]; rfl) (by rw [hop]; rfl)
      rintro rfl
      exact h.sequence_eq_of_pop hz
    · exact h.goto trivial (by rw [hop]; rfl) (by rw [hop]; rfl)
    · exact h.goto trivial (by rw [hop]; rfl) (by rw [hop]; rfl)
  | popExchange pos =>
    rw [hop] at hs hok hf
    dsimp only at hs
    by_cases hx : spurious = false ∧ SameWord s.dequeuePos pos
    · rw [if_pos hx] at hs
      cases hs
      have hpos : s.dequeuePos = pos := eq_of_sameWord hx.2 hok.1 hf
      subst hpos
      exact h.popClaim hop
    · rw [if_neg hx] at hs
      cases hs
      exact h.goto (Nat.le_refl s.dequeuePos) (by rw [hop]; rfl) (by rw [hop]; rfl)
  | popValue pos =>
    rw [hop] at hs
    cases hs
    exact h.popValue hop
  | popStore pos out =>
    rw [hop] at hs
    cases hs
    exact h.popStore hop
  | _ =>
    rw [hop] at hs
    cases hs

theorem inv_step {e : Event ι T} (hf : s.Fresh e) (hs : s.step c e = some s') (h : s.Inv c) : s'.Inv c := by
  cases e with
  | push t v =>
    simp only [step] at hs
    split at hs
    case h_1 hop =>
      cases hs
      exact h.push hop v
    case h_2 => cases hs
  | pop t =>
    simp only [step] at hs
    split at hs
    case h_1 hop =>
      cases hs
      exact h.goto trivial (by rw [hop]; rfl) (by rw [hop]; rfl)
    case h_2 => cases hs
  | run t spurious => exact h.run hf hs
  | ret t =>
    simp only [step] at hs
    split at hs
    case h_1 v pos hop =>
      cases hs
      exact h.retPush hop
    case h_2 v hop =>
      cases hs
      exact h.retFull hop
    case h_3 pos out hop =>
      cases hs
      exact h.retPop hop
    case h_4 hop =>
      cases hs
      exact h.goto trivial (by rw [hop]; rfl) (by rw [hop]; rfl)
    case h_5 => cases hs

end MpmcQueue

end Nhttp.Async
