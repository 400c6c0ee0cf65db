import Nhttp.Server.Proxy.Pump

/-!
# Both pumps end

* `not_stranded`, `finished_step`: what holds along a run in which nothing is dropped.
* `exists_idle`, `exists_resumed`, `exists_finished`: once one pump has finished, the other can be resumed,
  and finishes.
* **`pump_not_stranded`**: nobody is stranded, and both sockets can be closed; the first close that drops
  a waiter strands a pump.
-/

namespace Nhttp.Server.Splice

open Async Option Function Multiset Splice PumpPc

variable {tls : ℕ → Bool} {s s' : Splice}

theorem ok_start (leftover : Pump → ℕ) : (start leftover).Ok := by
  refine ⟨Sockets.synced_start.openSocket.openSocket, ?_, nofun, List.nodup_nil, fun _ => rfl, ?_,
    fun p => ?_⟩
  · rfl
  · exact List.nodup_cons.mpr ⟨by decide, List.nodup_singleton _⟩
  · cases p
    all_goals
      refine ⟨.inl ?_, fun _ => ⟨rfl, writeAll_ne_finished _⟩, fun h => absurd h (writeAll_ne_finished _), ?_⟩
      · simp [start]
      · exact iff_of_false (writeAll_ne_finished _) (by simp [start, Sockets.openSocket, Pump.dst])

theorem Ok.not_stranded (h : s.Ok) : ¬s.Stranded := by
  rintro ⟨p, -, hsusp, hn⟩
  rw [h.held, handle_mem_asleep] at hn
  exact hn hsusp

variable {e : Event} {q p : Pump} {rest : List Pump}

theorem pumps_step (hs : s.step tls e = some s') :
    (∀ q, (s'.pumps q).pc = (s.pumps q).pc) ∨
      ∃ p rest c, s.runs = p :: rest ∧ s'.pumps = update s.pumps p c := by
  unfold step at hs
  split at hs
  case h_1 =>
    split_ifs at hs
    obtain ⟨l, -, rfl⟩ := map_eq_some_iff.mp hs
    exact .inl fun _ => rfl
  case h_2 =>
    obtain ⟨l, -, rfl⟩ := map_eq_some_iff.mp hs
    exact .inl fun _ => rfl
  case h_3 =>
    obtain ⟨l, -, rfl⟩ := map_eq_some_iff.mp hs
    exact .inl fun _ => rfl
  case h_4 =>
    obtain ⟨x, -, hs⟩ := bind_eq_some_iff.mp hs
    unfold resume at hs
    split at hs
    case h_1 p l _ _ =>
      cases hs
      refine .inl fun q => ?_
      by_cases hq : q = p
      · subst hq
        simp
      · simp only [update_of_ne hq]
    case h_2 => cases hs
  case h_5 r p rest hr =>
    unfold io at hs
    split at hs
    case h_1 => cases hs
    case h_2 =>
      cases r with
      | done n =>
        dsimp only at hs
        split_ifs at hs
        cases hs
        exact .inr ⟨p, rest, _, hr, rfl⟩
      | interrupted =>
        split_ifs at hs
        cases hs
        exact .inl fun _ => rfl
      | wouldBlock =>
        obtain ⟨l, -, rfl⟩ := map_eq_some_iff.mp hs
        exact .inr ⟨p, rest, _, hr, rfl⟩
      | failed =>
        obtain ⟨pc, -, rfl⟩ := map_eq_some_iff.mp hs
        exact .inr ⟨p, rest, _, hr, rfl⟩
  case h_6 r p rest hr =>
    unfold ssl at hs
    split at hs
    case h_1 => cases hs
    case h_2 =>
      split at hs
      case h_1 =>
        split_ifs at hs
        cases hs
        exact .inr ⟨p, rest, _, hr, rfl⟩
      case h_2 =>
        cases hs
        exact .inr ⟨p, rest, _, hr, rfl⟩
  case h_7 n p rest hr =>
    unfold bio at hs
    split at hs
    case h_1 =>
      split_ifs at hs <;> cases hs <;> exact .inr ⟨p, rest, _, hr, rfl⟩
    case h_2 => cases hs
  case h_8 p rest hr =>
    unfold close at hs
    split_ifs at hs
    obtain ⟨l, -, rfl⟩ := map_eq_some_iff.mp hs
    exact .inr ⟨p, rest, _, hr, rfl⟩
  case h_9 => cases hs

theorem finished_step (hs : s.step tls e = some s') (h : s.Ok)
    (hq : (s.pumps q).pc = .finished) : (s'.pumps q).pc = .finished := by
  obtain hsame | ⟨p, rest, c, hr, hp⟩ := pumps_step hs
  · rw [hsame, hq]
  · have hne : q ≠ p := by
      rintro rfl
      exact h.not_finished hr hq
    rw [hp, update_of_ne hne, hq]

/-! ## The loop comes to the other pump -/

theorem clear_of_not_runs (hr : s.runs = []) (e : Event) : s.Clear tls e := by
  unfold Clear
  split <;> simp [hr]

theorem step_loop_of_step {e : EventLoop.Event} {l : EventLoop} (h : s.Ok) (hr : s.runs = [])
    (he : e.isLoop = true) (hs : s.loop.step e = some l) :
    ∃ e' s', s.step tls e' = some s' ∧ s'.loop = l ∧ (e = .resume → s'.runs ≠ []) := by
  cases e with
  | take => exact ⟨.take, { s with loop := l }, by simp [step, hr, hs], rfl, nofun⟩
  | yield => exact ⟨.yield, { s with loop := l }, by simp [step, hr, hs], rfl, nofun⟩
  | resume =>
    have hres : ∃ x, s.loop.pc.resumed = some x := by
      simp only [EventLoop.step] at hs
      split at hs
      case h_1 hpc => exact ⟨_, by rw [hpc]; rfl⟩
      case h_2 hpc => exact ⟨_, by rw [hpc]; rfl⟩
      case h_3 => cases hs
    obtain ⟨x, hx⟩ := hres
    have hmem : x ∈ asleep s.pumps := by
      rw [← h.held, EventLoop.held_resume hs hx]
      exact mem_add.mpr (.inr (mem_singleton_self x))
    obtain ⟨p, rfl, -⟩ := mem_asleep.mp hmem
    refine ⟨.resume,
      { loop := l
        pumps := update s.pumps p { s.pumps p with suspended := false }
        runs := [p] }, ?_, rfl, fun _ => List.cons_ne_nil _ _⟩
    simp only [step, hr, hx, bind_some, resume, ofHandle_handle, hs]
  | wait | act => cases he

theorem Ok.isSome_next (h : s.Ok) {ev : ReadyEvent} {rest : List ReadyEvent} {k : ℕ}
    (hpc : s.loop.pc = .next (ev :: rest)) (hk : ev.userData = some k) :
    (s.loop.sockets.regs k).isSome = true := by
  have hw := h.wants k
  rw [hpc] at hw
  have hne := hw (List.mem_filterMap.mpr ⟨ev, List.mem_cons_self, hk⟩)
  cases hreg : s.loop.sockets.regs k with
  | none =>
    rw [hreg] at hne
    exact absurd rfl hne
  | some reg => rfl

/-- The steps to the end of the batch, or to a pump that runs. -/
def toIdle (s : Splice) : ℕ := if s.runs ≠ [] ∨ s.loop.pc = .idle then 0 else s.loop.pc.rank + 1

/-- **The batch ends**, or a pump is resumed. -/
theorem exists_idle (h : s.Ok) {p : Pump} (hp : (s.pumps p).pc = .finished) :
    ∃ es s', Run.Exec (step tls) (Clear tls) s es s' ∧
      (s'.Ok ∧ (s'.pumps p).pc = .finished) ∧ (s'.runs ≠ [] ∨ s'.loop.pc = .idle) := by
  have hI : ∀ (s : Splice) e s', s.Clear tls e → s.step tls e = some s' →
      s.Ok ∧ (s.pumps p).pc = .finished → s'.Ok ∧ (s'.pumps p).pc = .finished :=
    fun s e s' hc hs hi => ⟨ok_step hc hs hi.1, finished_step hs hi.1 hi.2⟩
  have hstep : ∀ s : Splice, s.Ok ∧ (s.pumps p).pc = .finished → ¬(s.runs ≠ [] ∨ s.loop.pc = .idle) →
      ∃ e s', s.Clear tls e ∧ s.step tls e = some s' ∧ s'.toIdle < s.toIdle := by
    rintro s ⟨hok, -⟩ hg
    obtain ⟨hruns, hidle⟩ := not_or.mp hg
    have hr : s.runs = [] := not_not.mp hruns
    have hm : s.toIdle = s.loop.pc.rank + 1 := if_neg hg
    by_cases hnil : s.loop.pc = .next []
    · refine ⟨.take, { s with loop := { s.loop with pc := .idle } }, clear_of_not_runs hr _, ?_, ?_⟩
      · simp [step, hr, EventLoop.step, hnil]
      · rw [hm, toIdle, if_pos (.inr rfl)]
        exact Nat.succ_pos _
    · obtain ⟨e, l, he, hs, hlt⟩ :=
        EventLoop.exists_loop_step (fun ev rest k hpc hk => hok.isSome_next hpc hk) hidle hnil
      obtain ⟨e', s', hs', rfl, -⟩ : ∃ e' s', s.step tls e' = some s' ∧ s'.loop = l ∧ _ :=
        step_loop_of_step hok hr he hs
      refine ⟨e', s', clear_of_not_runs hr _, hs', ?_⟩
      rw [hm, toIdle]
      split_ifs
      · exact Nat.succ_pos _
      · exact Nat.succ_lt_succ hlt
  obtain ⟨es, s', hx, hg⟩ := Run.Exec.of_progress Nat.lt_wfRel.wf toIdle hI hstep s ⟨h, hp⟩
  exact ⟨es, s', hx, hx.inv hI ⟨h, hp⟩, hg⟩

theorem Ok.exists_waiters (h : s.Ok) (hr : s.runs = []) (hpc : s.loop.pc = .idle)
    (hq : (s.pumps q).pc ≠ .finished) : ∃ k, waiters (s.loop.sockets.regs k) ≠ 0 := by
  have hsusp : (s.pumps q).suspended = true := by
    rcases (h.pumps q).located with hm | hs | hf
    · rw [hr] at hm
      cases hm
    · exact hs
    · exact absurd hf hq
  have hmem : q.handle ∈ s.loop.held := by
    rw [h.held]
    exact handle_mem_asleep.mpr hsusp
  rw [EventLoop.held, hpc] at hmem
  simp only [EventPc.handles, coe_nil, add_zero] at hmem
  obtain ⟨k, -, hk⟩ := mem_sum.mp hmem
  refine ⟨k, fun h0 => ?_⟩
  rw [h0] at hk
  exact notMem_zero _ hk

theorem exists_resumed (h : s.Ok) (hr : s.runs = []) (hpc : s.loop.pc = .idle)
    (hq : (s.pumps q).pc ≠ .finished) :
    ∃ es s', Run.Exec (step tls) (Clear tls) s es s' ∧ s'.runs ≠ [] := by
  obtain ⟨k, hw⟩ := h.exists_waiters hr hpc hq
  obtain ⟨reg, hreg⟩ : ∃ reg, s.loop.sockets.regs k = some reg := by
    cases hk : s.loop.sockets.regs k with
    | none =>
      rw [hk] at hw
      exact absurd rfl hw
    | some reg => exact ⟨reg, rfl⟩
  have hwatched := h.synced.watched_of_waiters hw
  -- the reactor reports the socket, and the loop takes both waiters
  let s₁ : Splice := { s with loop := { s.loop with pc := .next [⟨some k, true, true⟩] } }
  have hwait : s.step tls (.wait [⟨some k, true, true⟩]) = some s₁ := by
    simp [step, hr, EventLoop.step, hpc, EventLoop.Reported, hwatched, s₁]
  let l₂ : EventLoop :=
    { sockets := s.loop.sockets.updateInterest k { reg with readWaiter := none, writeWaiter := none }
      pc := .after k [] reg.readWaiter reg.writeWaiter }
  have htake : s₁.step tls .take = some { s with loop := l₂ } := by
    simp [step, hr, EventLoop.step, EventLoop.take, hreg, s₁, l₂]
  have hok1 : s₁.Ok := ok_step (clear_of_not_runs hr _) hwait h
  have hok2 : Ok { s with loop := l₂ } := ok_step (clear_of_not_runs (s := s₁) hr _) htake hok1
  obtain ⟨l₃, hresume⟩ : ∃ l₃, l₂.step .resume = some l₃ := by
    obtain ⟨r, w, a, b, c⟩ := reg
    cases r <;> cases w <;> simp_all [l₂, EventLoop.step, EventPc.after, waiters]
  obtain ⟨e, s₃, hs3, -, hruns⟩ : ∃ e s₃, step tls { s with loop := l₂ } e = some s₃ ∧ _ :=
    step_loop_of_step hok2 hr rfl hresume
  have hc1 : s₁.Clear tls .take := clear_of_not_runs (s := s₁) hr _
  have hc2 : Clear tls { s with loop := l₂ } e := clear_of_not_runs (s := { s with loop := l₂ }) hr _
  exact ⟨_, s₃, .cons (clear_of_not_runs hr _) hwait (.cons hc1 htake (.cons hc2 hs3 (.nil s₃))), hruns rfl⟩

/-! ## The other pump ends -/

def toEnd : PumpPc → ℕ
  | .finished => 0
  | .closeInner => 1
  | .flush .close _ => 2
  | .call .close | .flushWrite .close _ _ => 3
  | .flushWrite _ _ _ | .feed _ => 4
  | .flush _ _ => 5
  | .call _ => 6

theorem Ok.waiters_eq_zero (h : s.Ok) (ha : asleep s.pumps = 0) (k : ℕ) :
    waiters (s.loop.sockets.regs k) = 0 := by
  cases hk : s.loop.sockets.regs k with
  | none => rfl
  | some reg =>
    have hheld := h.held
    rw [ha] at hheld
    refine eq_zero_of_forall_notMem fun x hx => ?_
    have hmem : x ∈ ∑ j ∈ Finset.range s.loop.sockets.opened, waiters (s.loop.sockets.regs j) :=
      mem_sum.mpr ⟨k, Finset.mem_range.mpr (EventLoop.lt_opened h.synced hk), hk ▸ hx⟩
    have hzero : x ∈ (0 : Multiset Handle) := hheld ▸ mem_add.mpr (.inl hmem)
    exact notMem_zero x hzero

theorem Ok.exists_close (h : s.Ok) (hr : s.runs = p :: rest)
    (ha : asleep s.pumps = 0) (hc : (s.pumps p).pc.closes tls p = true) :
    ∃ s', s.Clear tls .close ∧ s.step tls .close = some s' ∧ (s'.pumps p).pc = .finished := by
  have hloop : s.loop.step (.act (.close p.dst)) =
      some { s.loop with sockets := s.loop.sockets.close p.dst } := by
    have hruns : s.loop.pc.runs = true := h.loopRuns (hr ▸ List.cons_ne_nil _ _)
    simp [EventLoop.step, EventLoop.act, hruns]
  refine ⟨{ loop := { s.loop with sockets := s.loop.sockets.close p.dst }
            pumps := update s.pumps p ⟨.finished, false⟩
            runs := rest }, ?_, ?_, ?_⟩
  · intro q hq reg hreg
    have hz := h.waiters_eq_zero ha q.dst
    rw [mem_def.mp hreg] at hz
    exact Async.waiters_eq_zero.mp hz
  · simp [step, hr, Splice.close, hc, hloop]
  · simp

/-- **The running pump comes nearer to its end**, if nobody is suspended. -/
theorem Ok.exists_pump_step (h : s.Ok) (hr : s.runs = p :: rest) (ha : asleep s.pumps = 0) :
    ∃ e s', s.Clear tls e ∧ s.step tls e = some s' ∧
      (s'.runs = s.runs ∨ (s'.pumps p).pc = .finished) ∧
      toEnd (s'.pumps p).pc < toEnd (s.pumps p).pc := by
  have hgoto : ∀ e pc, s.Clear tls e → s.step tls e = some (s.goto p pc) →
      toEnd pc < toEnd (s.pumps p).pc → ∃ e s', s.Clear tls e ∧ s.step tls e = some s' ∧
        (s'.runs = s.runs ∨ (s'.pumps p).pc = .finished) ∧
        toEnd (s'.pumps p).pc < toEnd (s.pumps p).pc := by
    intro e pc hc hs hlt
    refine ⟨e, s.goto p pc, hc, hs, .inl rfl, ?_⟩
    simpa [Splice.goto] using hlt
  have hclose : (s.pumps p).pc.closes tls p = true → 0 < toEnd (s.pumps p).pc →
      ∃ e s', s.Clear tls e ∧ s.step tls e = some s' ∧
        (s'.runs = s.runs ∨ (s'.pumps p).pc = .finished) ∧
        toEnd (s'.pumps p).pc < toEnd (s.pumps p).pc := by
    intro hc hlt
    obtain ⟨s', hclear, hs, hf⟩ := h.exists_close hr ha hc
    refine ⟨.close, s', hclear, hs, .inr hf, ?_⟩
    rw [hf]
    exact hlt
  cases hpc : (s.pumps p).pc with
  | finished => exact absurd hpc (h.not_finished hr)
  | closeInner =>
    rw [hpc] at hclose
    exact hclose rfl (by decide)
  | feed c =>
    rw [hpc] at hgoto
    exact hgoto (.io (.failed 104)) (.call .close) trivial
      (by simp [step, hr, Splice.io, hpc, socketCall, thrown]) (by simp [toEnd])
  | flush c r =>
    rw [hpc] at hgoto
    cases c with
    | close =>
      exact hgoto (.bio 0) .closeInner trivial (by simp [step, hr, Splice.bio, hpc, flushed])
        (by simp [toEnd])
    | read =>
      exact hgoto (.bio 1) (.flushWrite .read r 1) trivial (by simp [step, hr, Splice.bio, hpc]) (by simp [toEnd])
    | write n =>
      exact hgoto (.bio 1) (.flushWrite (.write n) r 1) trivial (by simp [step, hr, Splice.bio, hpc])
        (by simp [toEnd])
  | flushWrite c r left =>
    rw [hpc] at hgoto
    cases c with
    | close =>
      have hopen : s.isOpen p.dst = true := by
        rw [isOpen, isSome_iff_ne_none, Ne, ← (h.pumps p).closed]
        exact h.not_finished hr
      exact hgoto (.io (.done left)) (.flush .close r) trivial
        (by simp [step, hr, Splice.io, hpc, socketCall, transferred, Call.socket, hopen])
        (by simp [toEnd])
    | read | write =>
      exact hgoto (.io (.failed 104)) (.call .close) trivial
        (by simp [step, hr, Splice.io, hpc, socketCall, thrown]) (by simp [toEnd])
  | call c =>
    rw [hpc] at hgoto hclose
    cases c with
    | close =>
      by_cases ht : tls p.dst = true
      · exact hgoto (.ssl .failed) (.flush .close .failed) trivial
          (by simp [step, hr, Splice.ssl, hpc, sslCall, ht]) (by simp [toEnd])
      · exact hclose (by simp [closes, ht]) (by simp [toEnd])
    | read =>
      by_cases ht : tls p.src = true
      · exact hgoto (.ssl .failed) (.flush .read .failed) trivial
          (by simp [step, hr, Splice.ssl, hpc, sslCall, ht]) (by simp [toEnd])
      · exact hgoto (.io (.failed 104)) (.call .close) trivial
          (by simp [step, hr, Splice.io, hpc, socketCall, thrown, ht]) (by simp [toEnd])
    | write n =>
      by_cases ht : tls p.dst = true
      · exact hgoto (.ssl .failed) (.flush (.write n) .failed) trivial
          (by simp [step, hr, Splice.ssl, hpc, sslCall, ht]) (by simp [toEnd])
      · exact hgoto (.io (.failed 104)) (.call .close) trivial
          (by simp [step, hr, Splice.io, hpc, socketCall, thrown, ht]) (by simp [toEnd])

theorem Ok.alone (h : s.Ok) (hp : (s.pumps p).pc = .finished) (hr : s.runs ≠ []) :
    s.runs = [p.other] ∧ asleep s.pumps = 0 := by
  obtain ⟨q, rest, hruns⟩ := List.exists_cons_of_ne_nil hr
  have hother : ∀ x ∈ s.runs, x = p.other := by
    intro x hx
    refine (p.eq_or_other x).resolve_left ?_
    rintro rfl
    exact ((h.pumps x).awake hx).2 hp
  have hq : q = p.other := hother q (hruns ▸ List.mem_cons_self)
  subst hq
  have hrest : rest = [] := by
    refine List.eq_nil_iff_forall_not_mem.mpr fun x hx => ?_
    have hnd : (p.other :: rest).Nodup := hruns ▸ h.runsNodup
    have hx' : x = p.other := hother x (hruns ▸ List.mem_cons_of_mem _ hx)
    exact (List.nodup_cons.mp hnd).1 (hx' ▸ hx)
  refine ⟨hrest ▸ hruns, eq_zero_of_forall_notMem fun x hx => ?_⟩
  obtain ⟨r, -, hsusp⟩ := mem_asleep.mp hx
  rcases p.eq_or_other r with rfl | rfl
  · rw [(h.pumps r).ended hp] at hsusp
    cases hsusp
  · rw [h.not_suspended hruns] at hsusp
    cases hsusp

theorem exists_finished (h : s.Ok) (hp : (s.pumps p).pc = .finished) (hr : s.runs ≠ []) :
    ∃ es s', Run.Exec (step tls) (Clear tls) s es s' ∧ (s'.pumps p.other).pc = .finished := by
  -- the condition of the steps says what the chosen ones do
  let C : Splice → Event → Prop := fun s e => s.Clear tls e ∧ ∀ s', s.step tls e = some s' →
    s'.runs = s.runs ∨ (s'.pumps p.other).pc = .finished
  have hI : ∀ (s : Splice) e s', C s e → s.step tls e = some s' →
      s.Ok ∧ (s.pumps p).pc = .finished ∧ (s.runs ≠ [] ∨ (s.pumps p.other).pc = .finished) →
      s'.Ok ∧ (s'.pumps p).pc = .finished ∧ (s'.runs ≠ [] ∨ (s'.pumps p.other).pc = .finished) := by
    rintro s e s' ⟨hc, hpost⟩ hs ⟨hok, hf, hor⟩
    refine ⟨ok_step hc hs hok, finished_step hs hok hf, ?_⟩
    rcases hpost s' hs with hsame | hfin
    · exact hor.imp (fun hn => hsame ▸ hn) (fun hfin => finished_step hs hok hfin)
    · exact .inr hfin
  have hstep : ∀ s : Splice,
      s.Ok ∧ (s.pumps p).pc = .finished ∧ (s.runs ≠ [] ∨ (s.pumps p.other).pc = .finished) →
      ¬(s.pumps p.other).pc = .finished →
      ∃ e s', C s e ∧ s.step tls e = some s' ∧
        toEnd (s'.pumps p.other).pc < toEnd (s.pumps p.other).pc := by
    rintro s ⟨hok, hf, hor⟩ hn
    obtain ⟨hruns, ha⟩ := hok.alone hf (hor.resolve_right hn)
    obtain ⟨e, s', hc, hs, hpost, hlt⟩ : ∃ e s', s.Clear tls e ∧ s.step tls e = some s' ∧ _ :=
      hok.exists_pump_step hruns ha
    refine ⟨e, s', ⟨hc, fun s'' hs'' => ?_⟩, hs, hlt⟩
    cases hs.symm.trans hs''
    exact hpost
  obtain ⟨es, s', hx, hg⟩ := Run.Exec.of_progress Nat.lt_wfRel.wf
    (fun s : Splice => toEnd (s.pumps p.other).pc) hI hstep s ⟨h, hp, .inl hr⟩
  exact ⟨es, s', hx.mono fun _ _ hc => hc.1, hg⟩

theorem exists_both_finished (h : s.Ok) {p : Pump} (hp : (s.pumps p).pc = .finished) :
    ∃ es s', Run.Exec (step tls) (Clear tls) s es s' ∧ ∀ q, (s'.pumps q).pc = .finished := by
  have hI : ∀ (s : Splice) e s', s.Clear tls e → s.step tls e = some s' →
      s.Ok ∧ (s.pumps p).pc = .finished → s'.Ok ∧ (s'.pumps p).pc = .finished :=
    fun s e s' hc hs hi => ⟨ok_step hc hs hi.1, finished_step hs hi.1 hi.2⟩
  have hboth : ∀ {s s' : Splice} {es : List Event}, s.Ok ∧ (s.pumps p).pc = .finished →
      Run.Exec (step tls) (Clear tls) s es s' → (s'.pumps p.other).pc = .finished →
      ∀ q, (s'.pumps q).pc = .finished := by
    intro s s' es hi hx ho q
    rcases p.eq_or_other q with rfl | rfl
    · exact (hx.inv hI hi).2
    · exact ho
  have hrunning : ∀ {s : Splice}, s.Ok ∧ (s.pumps p).pc = .finished → s.runs ≠ [] →
      ∃ es s', Run.Exec (step tls) (Clear tls) s es s' ∧ ∀ q, (s'.pumps q).pc = .finished := by
    intro s hi hr
    obtain ⟨es, s', hx, ho⟩ := exists_finished hi.1 hi.2 hr
    exact ⟨es, s', hx, hboth hi hx ho⟩
  obtain ⟨es₁, s₁, hx1, hi1, hor⟩ := exists_idle h hp
  by_cases hr : s₁.runs = []
  · by_cases ho : (s₁.pumps p.other).pc = .finished
    · exact ⟨es₁, s₁, hx1, hboth ⟨h, hp⟩ hx1 ho⟩
    · have hidle : s₁.loop.pc = .idle := hor.resolve_left (not_not.mpr hr)
      obtain ⟨es₂, s₂, hx2, hr2⟩ := exists_resumed hi1.1 hr hidle ho
      obtain ⟨es₃, s₃, hx3, hall⟩ := hrunning (hx2.inv hI hi1) hr2
      exact ⟨_, s₃, (hx1.append hx2).append hx3, hall⟩
  · obtain ⟨es₂, s₂, hx2, hall⟩ := hrunning hi1 hr
    exact ⟨_, s₂, hx1.append hx2, hall⟩

/-! ## Runs -/

theorem Ok.stranded_of_close (h : s.Ok) (hs : s.step tls .close = some s') (hc : ¬s.Clear tls .close) :
    s'.Stranded := by
  obtain ⟨p, hhead, reg, hreg, hw⟩ : ∃ p, ∃ _ : p ∈ s.runs.head?, ∃ reg,
      ∃ _ : reg ∈ s.loop.sockets.regs p.dst, ¬(reg.readWaiter = none ∧ reg.writeWaiter = none) := by
    simpa only [Clear, not_forall] using hc
  obtain ⟨rest, hr⟩ : ∃ rest, s.runs = p :: rest := List.head?_eq_some_iff.mp hhead
  unfold step at hs
  rw [hr] at hs
  dsimp only at hs
  unfold Splice.close at hs
  split_ifs at hs
  obtain ⟨l, hl, rfl⟩ := map_eq_some_iff.mp hs
  have hheld := EventLoop.held_close h.synced hl
  have hne : waiters (s.loop.sockets.regs p.dst) ≠ 0 := by
    rw [mem_def.mp hreg]
    exact fun h0 => hw (Async.waiters_eq_zero.mp h0)
  obtain ⟨x, hx⟩ := exists_mem_of_ne_zero hne
  -- the waiter is the other pump, and only the other pump is suspended
  have hsleep : asleep s.pumps = asleepAt s.pumps p.other := by
    have h0 := h.asleepAt_eq_zero hr
    cases p <;> simp [asleep, Pump.other, h0]
  have hxs : x ∈ asleepAt s.pumps p.other := by
    rw [← hsleep, ← h.held, hheld]
    exact mem_add.mpr (.inr hx)
  have hsusp : (s.pumps p.other).suspended = true := by
    rw [← handle_mem_asleep, hsleep]
    unfold asleepAt at hxs ⊢
    split_ifs at hxs ⊢
    · exact mem_singleton_self _
    · exact absurd hxs (notMem_zero x)
  have hone : s.loop.held = {p.other.handle} := by
    rw [h.held, hsleep, asleepAt, if_pos hsusp]
  refine ⟨p, ?_, ?_, fun hmem => ?_⟩
  · simp
  · simp only [update_of_ne p.other_ne]
    exact hsusp
  · have hcard : card s.loop.held = 1 := by
      rw [hone]
      rfl
    rw [hheld, card_add] at hcard
    have hpos := card_pos_iff_exists_mem.mpr ⟨x, hx⟩
    have hpos' := card_pos_iff_exists_mem.mpr ⟨p.other.handle, hmem⟩
    dsimp only at hpos'
    omega

/-- **Nobody is stranded as long as nothing is dropped**: no pump waits for ever, a finished pump has closed its
destination, and both pumps can still finish. The first close that drops a waiter strands a pump. -/
theorem pump_not_stranded {leftover : Pump → ℕ} {es : List Event}
    (h : Run.Exec (step tls) (Clear tls) (start leftover) es s) :
    ¬s.Stranded ∧ (∀ p, (s.pumps p).pc = .finished → s.loop.sockets.regs p.dst = none) ∧
      (∀ p, (s.pumps p).pc = .finished → ∃ es' s', Run.Exec (step tls) (Clear tls) s es' s' ∧
        ∀ q, (s'.pumps q).pc = .finished ∧ s'.loop.sockets.regs q.dst = none) ∧
      ∀ s', s.step tls .close = some s' → ¬s.Clear tls .close → s'.Stranded := by
  have hok : s.Ok := h.inv (I := Ok) (fun _ _ _ hc hs hi => ok_step hc hs hi) (ok_start leftover)
  refine ⟨hok.not_stranded, fun p hp => ((hok.pumps p).closed).mp hp, fun p hp => ?_,
    fun s' hs hc => hok.stranded_of_close hs hc⟩
  obtain ⟨es', s', hx, hall⟩ : ∃ es' s', Run.Exec (step tls) (Clear tls) s es' s' ∧ _ :=
    exists_both_finished hok hp
  have hok' : s'.Ok := hx.inv (I := Ok) (fun _ _ _ hc hs hi => ok_step hc hs hi) hok
  exact ⟨es', s', hx, fun q => ⟨hall q, ((hok'.pumps q).closed).mp (hall q)⟩⟩

/-- The downstream peer ends while the other direction waits to write. -/
theorem pump_not_stranded_plain :
    ∃ es s, Run.Exec (step fun _ => false) (Clear fun _ => false) (start fun _ => 0) es s ∧
      (s.pumps .up).pc = .finished ∧ (s.pumps .down).suspended = true ∧ ¬s.Stranded := by
  have h : (Run.runChecked (step fun _ => false) (Clear fun _ => false) (start fun _ => 0)
      [.io .wouldBlock, .io .wouldBlock, .wait [⟨some 1, true, false⟩], .take, .resume,
        .io (.done 5), .io .wouldBlock, .yield, .take, .wait [⟨some 0, true, false⟩], .take,
        .resume, .io (.done 0), .close]).map
      (fun s => ((s.pumps .up).pc, (s.pumps .down).suspended)) = some (.finished, true) := by
    decide +kernel
  obtain ⟨s, hx, he⟩ := Run.exists_exec h
  exact ⟨_, s, hx, congrArg Prod.fst he, congrArg Prod.snd he, (pump_not_stranded hx).1⟩

/-- The upstream peer ends while the other direction waits for the downstream one. -/
theorem pump_stranded :
    ∃ es s, Run.Exec (step fun _ => false) (fun _ _ => True) (start fun _ => 0) es s ∧ s.Stranded := by
  have h : (Run.runChecked (step fun _ => false) (fun _ _ => True) (start fun _ => 0)
      [.io .wouldBlock, .io .wouldBlock, .wait [⟨some 1, true, false⟩], .take, .resume,
        .io (.done 0), .close]).map
      (fun s => ((s.pumps .down).pc, (s.pumps .up).suspended, s.loop.held)) =
        some (.finished, true, 0) := by
    decide +kernel
  obtain ⟨s, hx, he⟩ := Run.exists_exec h
  have hheld : s.loop.held = 0 := congrArg (fun x => x.2.2) he
  refine ⟨_, s, hx, .down, congrArg Prod.fst he, congrArg (fun x => x.2.1) he, ?_⟩
  rw [hheld]
  exact Multiset.notMem_zero _

end Nhttp.Server.Splice
