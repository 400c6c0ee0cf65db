import Nhttp.Server.H2.Frames

/-!
# Wire writes that throw inside `send_frame`

`send_frame` unlocks `write_lock_` after its last write. An exception of a write leaves it before that.

* `lost_of_failSending`: the lock is then taken and nobody has it; `Lost.step`: it stays so.
* **`sendFrame_releases_iff`**: the lock is released on every way out exactly if no write throws.
-/

namespace Nhttp.Server

open Octets Protocol Http2

namespace H2

def Lost (s : H2) : Prop := s.locked = true ∧ ∀ who, s.phase who ≠ some .holding

variable {s s' : H2} {es : List Event}

theorem lost_iff : s.Lost ↔ s.output.Lost := by
  unfold Lost FifoLock.Output.Lost
  rw [phase_output]
  rfl

theorem lost_of_failSending {who : Sender} (h : s.LockOk) (hs : s.failSending who = some s') :
    s'.Lost := by
  unfold failSending at hs
  split at hs
  · next left hw =>
    have hclaim := claim_eq_holding.mpr hw
    have hlost := (lockOk_iff.mp h).lost_update hclaim
    -- the exception ends the coroutine and changes nothing else at the lock
    have hout : s'.output = { s.output with claim := Function.update s.claim who none } := by
      cases who with
      | loop =>
        cases hs
        exact output_of_log_eq s rfl rfl rfl (claim_update_loop rfl) rfl
      | task t =>
        obtain ⟨x, hx, rfl⟩ := Option.map_eq_some_iff.mp hs
        exact output_of_log_eq s rfl rfl rfl (claim_update_task (g := fun x => { x with pc := .done }) rfl hx rfl) rfl
    rw [lost_iff, hout]
    exact hlost
  · cases hs

theorem sendingOf_of_lost (h : s.Lost) (who : Sender) (left : Bytes) :
    s.sendingOf who ≠ some (.writing left) := by
  intro hw
  have hp := FifoLock.Output.phase_eq (v := s.output) (claim_eq_holding.mpr hw)
  rw [phase_output] at hp
  exact h.2 who hp

theorem Lost.step {e : Event} (h : s.Lost) (hs : s.step e = some s') :
    s'.Lost ∧ s.waiters <+: s'.waiters ∧
      ∀ who, s.phase who = some .waiting → s'.phase who = some .waiting := by
  have hwrite : ∀ who k, s.writeStep who k ≠ some s' := by
    intro who k hw
    unfold writeStep at hw
    split at hw
    · next left hleft => exact sendingOf_of_lost h who left hleft
    · cases hw
  have hfail : e.writeFails = false := by
    cases e with
    | writeFail who =>
      simp only [H2.step, failSending] at hs
      split at hs
      · next left hleft => exact absurd hleft (sendingOf_of_lost h who left)
      · cases hs
    | _ => rfl
  have hm := outputMove_of_step_of_write (fun who k hw => absurd hw (hwrite who k)) hfail hs
  obtain ⟨hlost, hwaiters, hphase⟩ := hm.lost (lost_iff.mp h)
  rw [phase_output, phase_output] at hphase
  exact ⟨lost_iff.mpr hlost, hwaiters, hphase⟩

theorem Lost.exec (h : s.Lost) (hx : Run.Exec H2.step (fun _ _ => True) s es s') :
    s'.Lost ∧ s.waiters <+: s'.waiters ∧
      ∀ who, s.phase who = some .waiting → s'.phase who = some .waiting := by
  induction hx with
  | nil => exact ⟨h, List.prefix_rfl, fun _ hw => hw⟩
  | cons _ hs _ ih =>
    obtain ⟨h1, hw1, hp1⟩ := h.step hs
    obtain ⟨h2, hw2, hp2⟩ := ih h1
    exact ⟨h2, hw1.trans hw2, fun who hw => hp2 who (hp1 who hw)⟩

theorem lockOk_or_lost {b : Bytes} (h : Run.Exec H2.step (fun _ _ => True) (start b) es s) :
    ((∀ e ∈ es, e.writeFails = false) ∧ s.LockOk) ∨ ((∃ e ∈ es, e.writeFails = true) ∧ s.Lost) := by
  refine h.snoc_induction (P := fun es s => ((∀ e ∈ es, e.writeFails = false) ∧ s.LockOk) ∨
    ((∃ e ∈ es, e.writeFails = true) ∧ s.Lost)) (.inl ⟨by simp, lockOk_start b⟩) ?_
  intro es s₁ e s' _ _ hs ih
  obtain ⟨hes, hok⟩ | ⟨⟨e', he', hfail⟩, hlost⟩ := ih
  · cases hf : e.writeFails with
    | false =>
      refine .inl ⟨fun x hx => ?_, hok.step hf hs⟩
      obtain hx | hx := List.mem_append.mp hx
      · exact hes x hx
      · rw [List.mem_singleton.mp hx, hf]
    | true =>
      refine .inr ⟨⟨e, by simp, hf⟩, ?_⟩
      cases e with
      | writeFail who => exact lost_of_failSending hok hs
      | _ => cases hf
  · exact .inr ⟨⟨e', List.mem_append_left _ he', hfail⟩, (hlost.step hs).1⟩

/-- **The lock is released on every way out of `send_frame` exactly if no write throws.** After a write that has thrown
nobody ever has the lock again, and whoever waits for it waits for ever. -/
theorem sendFrame_releases_iff {b : Bytes} {es : List Event} {s : H2}
    (h : Run.Exec H2.step (fun _ _ => True) (start b) es s) :
    ((s.locked = true → ∃ who, s.phase who = some .holding) ↔ ∀ e ∈ es, e.writeFails = false) ∧
      ((∀ e ∈ es, e.writeFails = false) → ∀ who, s.phase who = some .waiting →
        (∃ who', s.phase who' = some .holding) ∧
          ∃ es' s', Run.Exec H2.step WritesReturn s es' s' ∧ who ∈ s.resumedIn es') ∧
      ((∃ e ∈ es, e.writeFails = true) → ∀ es' s', Run.Exec H2.step (fun _ _ => True) s es' s' →
        (∀ who, s'.phase who ≠ some .holding) ∧ s.waiters <+: s'.waiters ∧
          ∀ who, s.phase who = some .waiting → s'.phase who = some .waiting) := by
  have hexcl : (∀ e ∈ es, e.writeFails = false) → ¬∃ e ∈ es, e.writeFails = true := by
    rintro hall ⟨e, he, hf⟩
    rw [hall e he] at hf
    cases hf
  obtain ⟨hall, hok⟩ | ⟨hex, hlost⟩ := lockOk_or_lost h
  · refine ⟨iff_of_true hok.holding.mp hall, fun _ who hw => ?_, fun hex => absurd hex (hexcl hall)⟩
    have hmem := (hok.waiting who).mp hw
    refine ⟨hok.holding.mp ?_, exists_resumed hok hmem⟩
    by_contra hl
    rw [hok.free (Bool.eq_false_iff.mpr hl)] at hmem
    cases hmem
  · refine ⟨iff_of_false (fun hh => ?_) fun hall => hexcl hall hex, fun hall => absurd hex (hexcl hall),
      fun _ es' s' hx => ?_⟩
    · obtain ⟨who, hw⟩ := hh hlost.1
      exact hlost.2 who hw
    · obtain ⟨hlost', hw, hp⟩ := hlost.exec hx
      exact ⟨hlost'.2, hw, hp⟩

def contended : List Event :=
  dispatchEvents 2 ++ [.handlerReturn 0 (makeResponse 200), .resume 0, .handlerReturn 1 (makeResponse 200),
    .resume 1]

/-- Without an exception the second response gets the lock. -/
theorem sendFrame_releases_contended :
    ∃ s, Run.Exec H2.step (fun _ _ => True) (start (requestsOn [1, 3])) contended s ∧
      ∃ es' s', Run.Exec H2.step WritesReturn s es' s' ∧ Sender.task 1 ∈ s.resumedIn es' := by
  have h : (Run.runChecked H2.step (fun _ _ => True) (start (requestsOn [1, 3])) contended).map
      (fun s => s.phase (.task 1)) = some (some .waiting) := by
    decide +kernel
  obtain ⟨s, hx, hp⟩ := Run.exists_exec h
  exact ⟨s, hx, ((sendFrame_releases_iff hx).2.1 (by decide) (.task 1) hp).2⟩

/-- The write of the first response throws; the second one waits for ever. -/
theorem sendFrame_keeps_lock :
    ∃ s, Run.Exec H2.step (fun _ _ => True) (start (requestsOn [1, 3])) (contended ++ [.writeFail (.task 0)]) s ∧
      s.waiters = [.task 1] ∧ ∀ es' s', Run.Exec H2.step (fun _ _ => True) s es' s' →
        s'.locked = true ∧ s'.phase (.task 1) = some .waiting ∧ ∀ who, s'.phase who ≠ some .holding := by
  have h : (Run.runChecked H2.step (fun _ _ => True) (start (requestsOn [1, 3]))
      (contended ++ [.writeFail (.task 0)])).map (fun s => (s.waiters, s.phase (.task 1))) =
        some ([.task 1], some .waiting) := by
    decide +kernel
  obtain ⟨s, hx, hp⟩ := Run.exists_exec h
  obtain ⟨hw, hp⟩ := Prod.mk.inj hp
  have hlost : s.Lost := by
    obtain ⟨hall, -⟩ | ⟨-, hlost⟩ := lockOk_or_lost hx
    · have := hall (.writeFail (.task 0)) (by simp)
      cases this
    · exact hlost
  refine ⟨s, hx, hw, fun es' s' hx' => ?_⟩
  obtain ⟨hlost', -, hphase⟩ := hlost.exec hx'
  exact ⟨hlost'.1, hphase _ hp, hlost'.2⟩

end H2

end Nhttp.Server
