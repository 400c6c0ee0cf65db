import Mathlib

/-!
# A lock with a queue

A lock is a flag and a queue of waiting parties; every party waits for it, holds it or neither.

* `Ok`: the queue holds exactly the waiting parties, and one party holds the lock if it is taken.
* `Output`: a lock whose holder writes a message to one output; `Output.Move`: all that can happen to it.
* **`Output.Move.serial`**: the output is the messages in the order of the calls.
* **`Output.Move.queue`**: who joins the queue and who gets the lock out of it, in turn.
* `Output.Lost`: the lock is taken and nobody has it.
-/

namespace FifoLock

open List

inductive Phase where
  | waiting
  | holding
deriving DecidableEq

variable {α : Type}

structure Ok (locked : Bool) (waiters : List α) (phase : α → Option Phase) : Prop where
  waiting : ∀ a, phase a = some .waiting ↔ a ∈ waiters
  nodup : waiters.Nodup
  free : locked = false → waiters = []
  holding : locked = true ↔ ∃ a, phase a = some .holding
  unique : ∀ a b, phase a = some .holding → phase b = some .holding → a = b

section Lock

variable {locked : Bool} {waiters : List α} {phase : α → Option Phase} {a : α}

theorem Ok.free_iff (h : Ok locked waiters phase) :
    locked = false ↔ (∀ a, phase a ≠ some .holding) ∧ waiters = [] := by
  refine ⟨fun hf => ⟨fun a ha => ?_, h.free hf⟩, fun ⟨hn, _⟩ => ?_⟩
  · rw [h.holding.mpr ⟨a, ha⟩] at hf
    cases hf
  · refine Bool.eq_false_iff.mpr fun ht => ?_
    obtain ⟨a, ha⟩ := h.holding.mp ht
    exact hn a ha

variable [DecidableEq α]

open Function

theorem Ok.acquire (h : Ok false waiters phase) :
    Ok true waiters (update phase a (some .holding)) := by
  have hw := h.free rfl
  have hn : ∀ b, phase b ≠ some .holding := fun b hb => by simpa using h.holding.mpr ⟨b, hb⟩
  have hu : ∀ b, update phase a (some .holding) b = some .holding ↔ b = a := by
    intro b
    by_cases hb : b = a
    · simp [hb]
    · simp [hb, hn b]
  refine ⟨fun b => ?_, h.nodup, fun hf => (by cases hf), ?_, fun b c hb hc => ?_⟩
  · have hb := (h.waiting b).not.mpr (by simp [hw])
    rw [hw]
    by_cases hba : b = a
    · simp [hba]
    · simp [hba, hb]
  · simp only [hu, exists_eq]
  · rw [(hu b).mp hb, (hu c).mp hc]

theorem Ok.wait (h : Ok true waiters phase) (ha : phase a = none) :
    Ok true (waiters ++ [a]) (update phase a (some .waiting)) := by
  have hna : a ∉ waiters := fun hm => by simp [(h.waiting a).mpr hm] at ha
  have hu : ∀ b, update phase a (some .waiting) b = some .holding ↔ phase b = some .holding := by
    intro b
    by_cases hb : b = a
    · simp [hb, ha]
    · simp [hb]
  refine ⟨fun b => ?_, ?_, fun hf => (by cases hf), ?_, fun b c hb hc => ?_⟩
  · by_cases hb : b = a
    · simp [hb]
    · simp [hb, h.waiting b]
  · refine nodup_append.mpr ⟨h.nodup, by simp, fun b hb c hc hbc => hna ?_⟩
    rw [← mem_singleton.mp hc, ← hbc]
    exact hb
  · simpa only [hu] using h.holding
  · exact h.unique b c ((hu b).mp hb) ((hu c).mp hc)

theorem Ok.release (h : Ok true [] phase) (ha : phase a = some .holding) :
    Ok false [] (update phase a none) := by
  have hu : ∀ b, update phase a none b ≠ some .holding := by
    intro b
    by_cases hb : b = a
    · simp [hb]
    · simp only [ne_eq, hb, not_false_eq_true, update_of_ne]
      exact fun hc => hb (h.unique b a hc ha)
  refine ⟨fun b => ?_, nodup_nil, fun _ => rfl, ?_, fun b c hb => absurd hb (hu b)⟩
  · by_cases hb : b = a
    · simp [hb]
    · simpa [hb] using h.waiting b
  · simpa using hu

theorem Ok.handOver {b : α} {bs : List α} (h : Ok locked (b :: bs) phase)
    (ha : phase a = some .holding) :
    Ok true bs (update (update phase a none) b (some .holding)) := by
  obtain ⟨hb, hbs⟩ := nodup_cons.mp h.nodup
  have hwb : phase b = some .waiting := (h.waiting b).mpr mem_cons_self
  have hab : a ≠ b := by
    rintro rfl
    rw [ha] at hwb
    cases hwb
  have hu : ∀ c, update (update phase a none) b (some .holding) c = some .holding ↔ c = b := by
    intro c
    by_cases hc : c = b
    · simp [hc]
    · by_cases hca : c = a
      · simp [hca, hab]
      · simp only [ne_eq, hc, not_false_eq_true, update_of_ne, hca, iff_false]
        exact fun hh => hca (h.unique c a hh ha)
  refine ⟨fun c => ?_, hbs, fun hf => (by cases hf), ?_, fun c d hc hd => ?_⟩
  · by_cases hc : c = b
    · simp [hc, hb]
    · by_cases hca : c = a
      · have hna : a ∉ bs := fun hm => by
          rw [(h.waiting a).mpr (mem_cons_of_mem b hm)] at ha
          cases ha
        simp [hca, hab, hna]
      · simp [hc, hca, h.waiting c]
  · simp only [hu, exists_eq]
  · rw [(hu c).mp hc, (hu d).mp hd]

end Lock

/-! ## A guarded output -/

/-- The whole message of a party that waits, the rest of it when the party has the lock. -/
inductive Claim (β : Type) where
  | waiting (out : List β)
  | holding (left : List β)

def Claim.phase {β : Type} : Claim β → Phase
  | .waiting _ => .waiting
  | .holding _ => .holding

structure Output (α β : Type) where
  locked : Bool
  waiters : List α
  claim : α → Option (Claim β)
  out : List β
  /-- The messages, in the order in which their parties asked for the lock. -/
  calls : List (List β)

namespace Output

variable {β : Type} {v v' : Output α β}

def phase (v : Output α β) : α → Option Phase := Option.map Claim.phase ∘ v.claim

protected def Ok (v : Output α β) : Prop := FifoLock.Ok v.locked v.waiters v.phase

def message (v : Output α β) (a : α) : List β :=
  match v.claim a with
  | some (.waiting x) => x
  | _ => []

def Serial (v : Output α β) : Prop :=
  ∃ left, (v.locked = false → left = []) ∧ (∀ a x, v.claim a = some (.holding x) → x = left) ∧
    v.out ++ (left ++ v.waiters.flatMap v.message) = v.calls.flatten

section Messages

variable {a : α}

theorem phase_eq {c : Option (Claim β)} (h : v.claim a = c) : v.phase a = c.map Claim.phase :=
  congrArg (Option.map Claim.phase) h

theorem message_congr (h : v'.claim a = v.claim a) : v'.message a = v.message a := by
  rw [message, message, h]

theorem flatMap_message_congr {l : List α} (h : ∀ a ∈ l, v'.claim a = v.claim a) :
    l.flatMap v'.message = l.flatMap v.message := by
  induction l with
  | nil => rfl
  | cons a l ih =>
    rw [flatMap_cons, flatMap_cons, message_congr (h a mem_cons_self),
      ih fun b hb => h b (mem_cons_of_mem a hb)]

theorem Serial.of_holding {x : List β} (h : v.Serial) (ha : v.claim a = some (.holding x)) :
    v.out ++ (x ++ v.waiters.flatMap v.message) = v.calls.flatten := by
  obtain ⟨left, -, hl, he⟩ := h
  rw [hl a x ha]
  exact he

/-- A party that waits is not one that has the lock or has nothing to do with it. -/
theorem Ok.ne_of_mem (h : v.Ok) {b : α} (hb : b ∈ v.waiters) (ha : v.phase a ≠ some .waiting) :
    b ≠ a := by
  rintro rfl
  exact ha ((h.waiting b).mpr hb)

theorem Ok.left_eq (h : v.Ok) {b : α} {x y : List β} (ha : v.claim a = some (.holding x))
    (hb : v.claim b = some (.holding y)) : y = x := by
  have hab : a = b := h.unique a b (phase_eq ha) (phase_eq hb)
  rw [← hab, ha] at hb
  cases hb
  rfl

end Messages

variable [DecidableEq α]

open Function

/-- Everything that can happen. -/
inductive Move (v : Output α β) : Output α β → Prop
  | skip : Move v v
  | acquire (a : α) (x : List β) : v.locked = false → v.claim a = none →
      Move v { v with
        locked := true
        claim := update v.claim a (some (.holding x))
        calls := v.calls ++ [x] }
  | wait (a : α) (x : List β) : v.locked = true → v.claim a = none →
      Move v { v with
        waiters := v.waiters ++ [a]
        claim := update v.claim a (some (.waiting x))
        calls := v.calls ++ [x] }
  | write (a : α) (x y : List β) : v.claim a = some (.holding (x ++ y)) →
      Move v { v with claim := update v.claim a (some (.holding y)), out := v.out ++ x }
  | release (a : α) (x : List β) : v.claim a = some (.holding x) → v.waiters = [] →
      Move v { v with locked := false, claim := update v.claim a none, out := v.out ++ x }
  | handOver (a : α) (x : List β) (b : α) (bs : List α) (y : List β) :
      v.claim a = some (.holding x) → v.waiters = b :: bs → v.claim b = some (.waiting y) →
      Move v { v with
        waiters := bs
        claim := update (update v.claim a none) b (some (.holding y))
        out := v.out ++ x }

theorem phase_update (w : Output α β) {a : α} {c : Option (Claim β)}
    (h : v.claim = update w.claim a c) : v.phase = update w.phase a (c.map Claim.phase) := by
  rw [phase, h, comp_update]
  rfl

/-- **The lock stays in order.** -/
theorem Move.ok (h : v.Ok) (hm : Move v v') : v'.Ok := by
  unfold Output.Ok at h ⊢
  cases hm with
  | skip => exact h
  | acquire a x hl ha =>
    rw [phase_update v rfl]
    rw [hl] at h
    exact h.acquire
  | wait a x hl ha =>
    rw [phase_update v rfl]
    rw [hl] at h ⊢
    exact h.wait (phase_eq ha)
  | write a x y ha =>
    have hp : v.phase a = some .holding := phase_eq ha
    rw [phase_update v rfl, Option.map_some, Claim.phase, ← hp, update_eq_self]
    exact h
  | release a x ha hw =>
    have hl : v.locked = true := h.holding.mpr ⟨a, phase_eq ha⟩
    rw [phase_update v rfl]
    rw [hl, hw] at h
    rw [hw]
    exact h.release (phase_eq ha)
  | handOver a x b bs y ha hw hb =>
    have hl : v.locked = true := h.holding.mpr ⟨a, phase_eq ha⟩
    rw [phase_update { v with claim := update v.claim a none } rfl, phase_update v rfl]
    rw [hw] at h
    rw [hl]
    exact h.handOver (phase_eq ha)

theorem Ok.update_of_mem (h : v.Ok) {a b : α} {c : Option (Claim β)} (hb : b ∈ v.waiters)
    (ha : v.phase a ≠ some .waiting) : update v.claim a c b = v.claim b :=
  update_of_ne (h.ne_of_mem hb ha) _ _

theorem Ok.update_of_mem_tail (h : v.Ok) {a b c : α} {bs : List α} {d : Option (Claim β)}
    (hw : v.waiters = b :: bs) (ha : v.phase a ≠ some .waiting) (hc : c ∈ bs) :
    update (update v.claim a none) b d c = v.claim c := by
  have hnd := h.nodup
  rw [hw] at hnd
  have hcb : c ≠ b := fun hcb => (nodup_cons.mp hnd).1 (hcb ▸ hc)
  rw [update_of_ne hcb]
  exact h.update_of_mem (hw ▸ mem_cons_of_mem b hc) ha

/-- **The queue is served in order**: whoever is in it stays, or is the head and gets the lock. -/
theorem Move.turn (h : v.Ok) (hm : Move v v') :
    ((v'.waiters = v.waiters ∨ ∃ a, v.claim a = none ∧ v'.waiters = v.waiters ++ [a]) ∧
        ∀ a ∈ v.waiters, v'.claim a = v.claim a) ∨
      ∃ b bs y, v.waiters = b :: bs ∧ v'.waiters = bs ∧ v.claim b = some (.waiting y) ∧
        v'.claim b = some (.holding y) ∧ ∀ a ∈ bs, v'.claim a = v.claim a := by
  cases hm with
  | skip => exact .inl ⟨.inl rfl, fun _ _ => rfl⟩
  | acquire a x hl ha =>
    exact .inl ⟨.inl rfl, fun b hb => h.update_of_mem hb (by simp [phase_eq ha])⟩
  | wait a x hl ha =>
    exact .inl ⟨.inr ⟨a, ha, rfl⟩, fun b hb => h.update_of_mem hb (by simp [phase_eq ha])⟩
  | write a x y ha =>
    exact .inl ⟨.inl rfl, fun b hb => h.update_of_mem hb (by simp [phase_eq ha, Claim.phase])⟩
  | release a x ha hw =>
    exact .inl ⟨.inl rfl, fun b hb => h.update_of_mem hb (by simp [phase_eq ha, Claim.phase])⟩
  | handOver a x b bs y ha hw hb =>
    exact .inr ⟨b, bs, y, hw, rfl, hb, update_self _ _ _, fun c hc =>
      h.update_of_mem_tail hw (by simp [phase_eq ha, Claim.phase]) hc⟩

def Lost (v : Output α β) : Prop := v.locked = true ∧ ∀ a, v.phase a ≠ some .holding

theorem Ok.lost_update (h : v.Ok) {a : α} {x : List β} (ha : v.claim a = some (.holding x)) :
    Lost { v with claim := update v.claim a none } := by
  have hp : v.phase a = some .holding := phase_eq ha
  refine ⟨h.holding.mpr ⟨a, hp⟩, fun b hb => ?_⟩
  rw [phase_update v rfl] at hb
  by_cases hba : b = a
  · subst hba
    rw [update_self] at hb
    cases hb
  · rw [update_of_ne hba] at hb
    exact hba (h.unique b a hb hp)

theorem Move.lost (h : v.Lost) (hm : Move v v') :
    v'.Lost ∧ v.waiters <+: v'.waiters ∧ ∀ a, v.phase a = some .waiting → v'.phase a = some .waiting := by
  obtain ⟨hl, hn⟩ := h
  cases hm with
  | skip => exact ⟨⟨hl, hn⟩, prefix_rfl, fun _ ha => ha⟩
  | acquire a x hf =>
    rw [hl] at hf
    cases hf
  | wait a x _ ha =>
    have hpa : v.phase a = none := phase_eq ha
    have hp : ∀ b, phase { v with
        waiters := v.waiters ++ [a], claim := update v.claim a (some (.waiting x)),
        calls := v.calls ++ [x] } b = if b = a then some .waiting else v.phase b := by
      intro b
      rw [phase_update v rfl]
      exact update_apply _ _ _ _
    refine ⟨⟨hl, fun b => ?_⟩, prefix_append _ _, fun b hb => ?_⟩
    · rw [hp]
      split_ifs
      · decide
      · exact hn b
    · rw [hp, hb]
      exact ite_self _
  | write a x y ha => exact absurd (phase_eq ha) (hn a)
  | release a x ha => exact absurd (phase_eq ha) (hn a)
  | handOver a x b bs y ha => exact absurd (phase_eq ha) (hn a)

def joined (v v' : Output α β) : List α :=
  v'.waiters.filter fun a => decide (v.phase a ≠ some .waiting)

/-- Who gets the lock after waiting for it. -/
def resumed (v v' : Output α β) : List α :=
  v.waiters.filter fun a => decide (v'.phase a = some .holding)

/-- **Whoever joins the queue gets the lock once, in turn.** -/
theorem Move.queue (h : v.Ok) (hm : Move v v') :
    v.waiters ++ joined v v' = resumed v v' ++ v'.waiters := by
  have hwait : ∀ a ∈ v.waiters, v.phase a = some .waiting := fun a ha => (h.waiting a).mpr ha
  have hkeep : ∀ {l : List α}, (∀ a ∈ l, a ∈ v.waiters) →
      (l.filter fun a => decide (v.phase a ≠ some .waiting)) = [] := fun hl =>
    filter_eq_nil_iff.mpr fun a ha => by simp [hwait a (hl a ha)]
  have hstay : ∀ {l : List α}, (∀ a ∈ l, a ∈ v.waiters) → (∀ a ∈ l, v'.claim a = v.claim a) →
      (l.filter fun a => decide (v'.phase a = some .holding)) = [] := by
    refine fun hl hc => filter_eq_nil_iff.mpr fun a ha => ?_
    rw [phase_eq (hc a ha), ← phase_eq rfl, hwait a (hl a ha)]
    decide
  unfold joined resumed
  obtain ⟨hw, hc⟩ | ⟨b, bs, y, hw, hw', hb, hb', hc⟩ := hm.turn h
  · rw [hstay (fun _ ha => ha) hc]
    obtain hw | ⟨a, ha, hw⟩ := hw
    · rw [hw, hkeep fun _ ha => ha]
      simp
    · rw [hw, filter_append, hkeep fun _ ha => ha]
      simp [phase_eq ha]
  · have hbs : ∀ a ∈ bs, a ∈ v.waiters := fun a ha => hw ▸ mem_cons_of_mem b ha
    rw [hw', hkeep hbs, hw, filter_cons, hstay hbs hc, phase_eq hb']
    simp [Claim.phase]

/-- **Messages are written one after the other**, in the order of the calls. -/
theorem Move.serial (h : v.Ok) (hs : v.Serial) (hm : Move v v') : v'.Serial := by
  have hok := hm.ok h
  cases hm with
  | skip => exact hs
  | acquire a x hl ha =>
    obtain ⟨left, hf, -, he⟩ := hs
    have hw := h.free hl
    refine ⟨x, fun hc => (by cases hc), fun b y hb => hok.left_eq (update_self _ _ _) hb, ?_⟩
    · rw [hf hl, hw] at he
      rw [hw, flatten_append, ← he]
      simp
  | wait a x hl ha =>
    obtain ⟨left, hf, hu, he⟩ := hs
    have hmsg : v.waiters.flatMap (message { v with
          waiters := v.waiters ++ [a], claim := update v.claim a (some (.waiting x)),
          calls := v.calls ++ [x] }) = v.waiters.flatMap v.message :=
      flatMap_message_congr fun b hb => h.update_of_mem hb (by simp [phase_eq ha])
    refine ⟨left, hf, fun b y hb => ?_, ?_⟩
    · by_cases hba : b = a
      · subst hba
        dsimp only at hb
        rw [update_self] at hb
        cases hb
      · exact hu b y ((update_of_ne hba _ _).symm.trans hb)
    · dsimp only
      rw [flatMap_append, hmsg, flatten_append, ← he]
      simp [message]
  | write a x y ha =>
    have he := hs.of_holding ha
    refine ⟨y, fun hc => ?_, fun b z hb => hok.left_eq (update_self _ _ _) hb, ?_⟩
    · have hl : v.locked = true := h.holding.mpr ⟨a, phase_eq ha⟩
      rw [hl] at hc
      cases hc
    · rw [flatMap_message_congr (v := v) fun b hb =>
        h.update_of_mem hb (by simp [phase_eq ha, Claim.phase])]
      simpa using he
  | release a x ha hw =>
    have he := hs.of_holding ha
    refine ⟨[], fun _ => rfl, fun b z hb => ?_, ?_⟩
    · have hc : false = true := hok.holding.mpr ⟨b, phase_eq hb⟩
      cases hc
    · rw [hw] at he
      rw [hw]
      simpa using he
  | handOver a x b bs y ha hw hb =>
    have he := hs.of_holding ha
    have hl : v.locked = true := h.holding.mpr ⟨a, phase_eq ha⟩
    refine ⟨y, fun hc => ?_, fun c z hc => hok.left_eq (update_self _ _ _) hc, ?_⟩
    · dsimp only at hc
      rw [hl] at hc
      cases hc
    · rw [flatMap_message_congr (v := v) fun c hc =>
        h.update_of_mem_tail hw (by simp [phase_eq ha, Claim.phase]) hc]
      rw [hw, flatMap_cons, show v.message b = y by rw [message, hb]] at he
      simpa using he

end Output

end FifoLock
