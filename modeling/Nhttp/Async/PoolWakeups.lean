import Nhttp.Async.PoolJobs

/-!
# No notification is lost

A worker that owns the mutex and has found the queue empty goes to sleep. A job that was on its way then
needs the mutex for its notification, which comes when the worker is asleep.

* `own_or_other`: a step is one of the worker, or leaves the worker and what it has seen alone.
* `Awake`: what a worker that owns the mutex has seen; **`awake_step`**.
-/

set_option autoImplicit false

namespace Nhttp.Async

open Function

namespace ThreadPool

variable {n : ℕ} {κ T : Type} {s s' : ThreadPool n κ T}

/-- A worker is in the `try_pop` under the lock, with a position loaded. -/
def Looking (s : ThreadPool n κ T) (w : Worker n) (pos : ℕ) : Prop :=
  s.workers w = .recheck ∧
    (s.queue.ops (.worker w) = .popSequence pos ∨ s.queue.ops (.worker w) = .popExchange pos)

def Seen (s : ThreadPool n κ T) (w : Worker n) : Prop :=
  (s.workers w = .recheck ∧ s.queue.ops (.worker w) = .popEmpty) ∨ s.workers w = .check ∨
    s.workers w = .wait ∨ s.workers w = .leaving

variable {w w' : Worker n} {i : κ} {q : MpmcQueue (Thread n κ) T} {pc : WorkerPc T}
  {next : WorkerPc T × Option (Owner n κ)} {e : Event n κ T} {pos : ℕ}

theorem Looking.holds (h : s.Looking w pos) : (s.workers w).holds = true := by
  rw [h.1]
  rfl

theorem Seen.holds (h : s.Seen w) : (s.workers w).holds = true := by
  rcases h with ⟨h, _⟩ | h | h | h <;> rw [h] <;> rfl

theorem given_worker (h : s.Wf) (w : Worker n) : (s.queue.ops (.worker w)).given = none := by
  by_cases hop : s.queue.ops (.worker w) = .idle
  · rw [hop]
    rfl
  · exact Op.given_eq_none (h.workerCall w hop).2

theorem workerNext_eq_some (h : s.workerNext w pc = some next) :
    (next.1 = .check ∨ next.1 = .wait ∨ next.1 = .leaving → pc = .check) ∧
      (next.1 = .leaving → s.stopping = true) ∧ (next.1 = .blocked → pc = .wait) ∧
      (next.1 = .exited → pc = .leaving) := by
  cases pc with
  | lock | woken =>
    simp only [workerNext] at h
    split_ifs at h
    cases h
    simp
  | check =>
    cases h
    split_ifs with hstop
    · simp [hstop]
    · simp
  | _ =>
    cases h
    try simp

theorem WorkerPc.ne_of_after {pc' : WorkerPc T} {op : Op T} (h : pc.after op = some pc') :
    pc' ≠ .blocked ∧ pc' ≠ .leaving ∧ pc' ≠ .exited := by
  cases pc <;> cases op <;> cases h <;> simp

/-! ## What a worker has seen -/

/-- There was nothing in the queue, or a notification is to come. -/
structure Awake (s : ThreadPool n κ T) : Prop where
  looking : ∀ w pos, s.Looking w pos →
    s.Outstanding ∨ s.queue.enqueuePos ≤ pos + queueCapacity.val
  seen : ∀ w, s.Seen w → s.Outstanding ∨ s.queue.dequeuePos = s.queue.enqueuePos
  blocked : (∀ w, s.workers w = .blocked) →
    s.Outstanding ∨ s.queue.dequeuePos = s.queue.enqueuePos

theorem awake_start : ({} : ThreadPool n κ T).Awake where
  looking _ _ h := by cases h.1
  seen _ h := by
    rcases h with ⟨h, _⟩ | h | h | h <;> cases h
  blocked _ := .inr rfl

/-- A pop that has failed not too far behind has met the next position, unpublished. -/
theorem Wf.next_of_empty (h : s.Wf) (hle : pos ≤ s.queue.dequeuePos)
    (hnear : s.queue.enqueuePos ≤ pos + queueCapacity.val)
    (hneg : difference (s.queue.sequence (queueCapacity.cell pos)) (pos + 1) < 0) :
    pos = s.queue.dequeuePos ∧ ¬s.queue.Published queueCapacity pos := by
  have hb := h.queue.sequence_bounds pos
  have hDE := h.queue.le
  have hval : queueCapacity.val = 8192 := rfl
  have hlt : s.queue.sequence (queueCapacity.cell pos) < pos + 1 := difference_neg hneg (by omega)
  refine ⟨?_, fun hp => Nat.not_lt.mpr (Nat.le_of_lt_succ hlt) hp⟩
  by_contra hne
  -- an earlier position has been taken, so its cell has a later number
  rcases h.queue.cells _ (queueCapacity.cell_lt pos) with ⟨_, hfree, _⟩ | ⟨p, hp, hcell, _, hfull, _⟩
  · omega
  · have := queueCapacity.add_val_le hcell (by omega)
    omega

theorem Wf.outstanding_of_not_published (h : s.Wf) {p : ℕ} (hp : p < s.queue.enqueuePos)
    (hn : ¬s.queue.Published queueCapacity p) : s.Outstanding := by
  obtain ⟨t, ht⟩ := h.queue.exists_given hp hn
  cases t with
  | worker w =>
    rw [given_worker h w] at ht
    cases ht
  | caller i => exact ⟨i, .inl (by rw [ht]; nofun)⟩

theorem Wf.pos_le_of_looking (h : s.Wf) (hl : s.Looking w pos) :
    pos ≤ s.queue.dequeuePos := by
  have hok := h.queue.ops (.worker w)
  rcases hl.2 with hop | hop
  · rw [hop] at hok
    exact hok
  · rw [hop] at hok
    exact hok.1

/-! ## Steps seen from a worker -/

/-- The other workers have left. -/
def Last (s : ThreadPool n κ T) (w : Worker n) : Prop := ∀ w' ≠ w, s.workers w' = .exited

/-- A step of somebody else. -/
structure Other (w : Worker n) (s s' : ThreadPool n κ T) : Prop where
  worker : s'.workers w = s.workers w ∨ (s.workers w = .blocked ∧ s'.workers w = .woken)
  op : s'.queue.ops (.worker w) = s.queue.ops (.worker w)
  enqueuePos : s'.queue.enqueuePos = s.queue.enqueuePos ∨ s'.Outstanding
  dequeuePos : s.queue.dequeuePos ≤ s'.queue.dequeuePos
  sent : s.Outstanding → s'.Outstanding ∨ ∃ w', s'.workers w' ≠ .blocked
  -- nobody else can notify, or leave, while the worker owns the mutex
  outstanding : (s.workers w).holds = true → s.Outstanding → s'.Outstanding
  last : (s.workers w).holds = true → s'.Last w →
    s.Last w ∧ s'.queue.dequeuePos = s.queue.dequeuePos

/-- A step of somebody else that is none of a worker, and leaves the queue and the calls of `enqueue`. -/
theorem other_of_eq (hq : s'.queue = s.queue) (hc : s'.callers = s.callers)
    (hw : ∀ w, s'.workers w = s.workers w ∨ (s.workers w = .blocked ∧ s'.workers w = .woken)) :
    Other w s s' := by
  have hout : s.Outstanding → s'.Outstanding := by
    rintro ⟨i, hi⟩
    exact ⟨i, by rw [Unsent, hq, hc]; exact hi⟩
  refine ⟨hw w, by rw [hq], .inl (by rw [hq]), by rw [hq], fun h => .inl (hout h), fun _ => hout,
    fun _ hl => ⟨fun w' hne => ?_, by rw [hq]⟩⟩
  rcases hw w' with he | ⟨_, he⟩
  · rw [← he, hl w' hne]
  · rw [hl w' hne] at he
    cases he

/-- The worker that owns the mutex keeps what it has seen, whatever the others do. -/
theorem Other.empty (h : Other w s s') (hwf' : s'.Wf) (hh : (s.workers w).holds = true)
    (he : s.Outstanding ∨ s.queue.dequeuePos = s.queue.enqueuePos) :
    s'.Outstanding ∨ s'.queue.dequeuePos = s'.queue.enqueuePos := by
  rcases he with ho | he
  · exact .inl (h.outstanding hh ho)
  · rcases h.enqueuePos with hE | ho
    · have hd := h.dequeuePos
      have hle := hwf'.queue.le
      exact .inr (by omega)
    · exact .inl ho

theorem Other.worker_eq (h : Other w s s') (hh : (s'.workers w).holds = true) :
    s'.workers w = s.workers w := by
  rcases h.worker with he | ⟨_, he⟩
  · exact he
  · rw [he] at hh
    cases hh

theorem Other.looking (h : Other w s s') (hl : s'.Looking w pos) :
    s.Looking w pos := by
  have he := h.worker_eq hl.holds
  exact ⟨he ▸ hl.1, h.op ▸ hl.2⟩

theorem Other.seen (h : Other w s s') (hl : s'.Seen w) : s.Seen w := by
  have he := h.worker_eq hl.holds
  unfold Seen at *
  rw [he, h.op] at hl
  exact hl

theorem other_worker (h : s.Wf) (hw : w' ≠ w) (hn : s.workerNext w' (s.workers w') = some next) :
    Other w s { s with
      workers := update s.workers w' next.1
      mutex := next.2
      executed := s.executed ++ (s.workers w').runs } := by
  refine ⟨.inl (update_of_ne hw.symm ..), rfl, .inl rfl, Nat.le_refl _, fun ho => .inl ho,
    fun _ ho => ho, fun hh hl => ?_⟩
  -- to leave, the other worker would have to own the mutex
  have hexit := hl w' hw
  simp only [update_self] at hexit
  have hleaving := (workerNext_eq_some hn).2.2.2 hexit
  have hm := h.worker w' (by rw [hleaving]; rfl)
  rw [h.worker w hh] at hm
  exact absurd (Owner.worker.inj (Option.some.inj hm)).symm hw

variable [DecidableEq κ]

inductive Own (w : Worker n) (s : ThreadPool n κ T) : ThreadPool n κ T → Prop
  | queue {q : MpmcQueue (Thread n κ) T} : s.QueueStep (.worker w) q → Own w s { s with queue := q }
  | ret {pc : WorkerPc T} {q : MpmcQueue (Thread n κ) T} :
      (s.workers w).after (s.queue.ops (.worker w)) = some pc → s.Ret (.worker w) q →
      Own w s { s with queue := q, workers := update s.workers w pc }
  | worker {next : WorkerPc T × Option (Owner n κ)} : s.workerNext w (s.workers w) = some next →
      Own w s { s with
        workers := update s.workers w next.1
        mutex := next.2
        executed := s.executed ++ (s.workers w).runs }

theorem other_enqueue (hpc : s.callers i = .outside) (v : T) :
    Other w s { s with callers := update s.callers i (.push v) } := by
  have hout : s.Outstanding →
      ({ s with callers := update s.callers i (.push v) } : ThreadPool n κ T).Outstanding := by
    rintro ⟨j, hj⟩
    refine ⟨j, hj.imp_right fun hu => ?_⟩
    have hne : j ≠ i := by
      rintro rfl
      rw [hpc] at hu
      cases hu
    simp only [update_of_ne hne]
    exact hu
  exact ⟨.inl rfl, rfl, .inl rfl, Nat.le_refl _, fun h => .inl (hout h), fun _ => hout, fun _ hl => ⟨hl, rfl⟩⟩

theorem other_queue {t : Thread n κ}
    (hq : s.QueueStep t q) (ht : t ≠ .worker w) : Other w s { s with queue := q } := by
  have hout : s.Outstanding → ({ s with queue := q } : ThreadPool n κ T).Outstanding := by
    rintro ⟨i, hi⟩
    refine ⟨i, hi.imp_left fun hg => ?_⟩
    by_cases hti : t = .caller i
    · subst hti
      rcases hq.effect.enqueuePos with ⟨_, he⟩ | ⟨_, _, he⟩
      · exact he ▸ hg
      · exact fun hnone => by cases he.symm.trans hnone
    · have hop := hq.effect.ops (.caller i) (Ne.symm hti)
      simp only [hop]
      exact hg
  refine ⟨.inl rfl, hq.effect.ops _ ht.symm, ?_, ?_, fun h => .inl (hout h), fun _ => hout,
    fun _ hl => ⟨hl, ?_⟩⟩
  · rcases hq.effect.enqueuePos with ⟨he, _⟩ | ⟨_, _, hsome⟩
    · exact .inl he
    · -- a claim for a push is one of an `enqueue`
      cases t with
      | worker w' =>
        rw [Op.given_eq_none (hq.worker w' rfl).2] at hsome
        cases hsome
      | caller i => exact .inr ⟨i, .inl fun hnone => by cases hsome.symm.trans hnone⟩
  · rcases hq.effect.dequeuePos with ⟨hd, _⟩ | ⟨hd, _⟩
    · exact hd.ge
    · exact hd ▸ Nat.le_succ _
  · rcases hq.effect.dequeuePos with ⟨hd, _⟩ | ⟨_, _, hsome⟩
    · exact hd
    · -- a claim for a pop is one of a worker, which has not left
      cases t with
      | worker w' =>
        have hexit : s.workers w' = .exited := hl w' fun he => ht (congrArg _ he)
        have hin := (hq.worker w' rfl).1
        rw [hexit] at hin
        cases hin
      | caller i =>
        rw [Op.taken_eq_none (hq.caller i rfl).2] at hsome
        cases hsome

theorem other_retWorker (hw : w' ≠ w)
    (hpc : (s.workers w').after (s.queue.ops (.worker w')) = some pc) (hq : s.Ret (.worker w') q) :
    Other w s { s with queue := q, workers := update s.workers w' pc } := by
  have hout : s.Outstanding → ({ s with queue := q, workers := update s.workers w' pc } :
      ThreadPool n κ T).Outstanding := by
    rintro ⟨i, hi⟩
    have hop : q.ops (.caller i) = s.queue.ops (.caller i) := hq.of_ne nofun
    exact ⟨i, by rw [Unsent, hop]; exact hi⟩
  refine ⟨.inl (update_of_ne hw.symm ..), hq.of_ne fun he => hw (Thread.worker.inj he).symm,
    .inl hq.enqueuePos, hq.dequeuePos.ge, fun h => .inl (hout h), fun _ => hout, fun _ hl => ?_⟩
  have hexit := hl w' hw
  simp only [update_self] at hexit
  exact absurd hexit (WorkerPc.ne_of_after hpc).2.2

theorem CallerPc.unsent_after {pc pc' : CallerPc T} {op : Op T} (h : pc.after op = some pc')
    (hu : op.given ≠ none ∨ pc.unsent = true) : pc'.unsent = true := by
  cases pc <;> cases op <;> cases h
  · rfl
  · rcases hu with hu | hu
    · exact absurd rfl hu
    · cases hu

theorem other_retCaller {pc : CallerPc T}
    (hpc : (s.callers i).after (s.queue.ops (.caller i)) = some pc) (hq : s.Ret (.caller i) q) :
    Other w s { s with queue := q, callers := update s.callers i pc } := by
  have hout : s.Outstanding → ({ s with queue := q, callers := update s.callers i pc } :
      ThreadPool n κ T).Outstanding := by
    rintro ⟨j, hj⟩
    by_cases hji : j = i
    · subst hji
      refine ⟨j, .inr ?_⟩
      simp only [update_self]
      exact CallerPc.unsent_after hpc hj
    · have hop : q.ops (.caller j) = s.queue.ops (.caller j) := hq.of_ne fun he => hji (Thread.caller.inj he)
      refine ⟨j, ?_⟩
      simp only [Unsent, hop, update_of_ne hji]
      exact hj
  exact ⟨.inl rfl, hq.of_ne nofun, .inl hq.enqueuePos, hq.dequeuePos.ge, fun h => .inl (hout h),
    fun _ => hout, fun _ hl => ⟨hl, hq.dequeuePos⟩⟩

theorem other_caller (h : s.Wf) {woken : Option (Worker n)}
    (hw : s.CanWake (s.callers i) woken) {next : CallerPc T × Option (Owner n κ)}
    (hn : s.callerNext i (s.callers i) = some next) :
    Other w s { s with
      callers := update s.callers i next.1
      workers := s.notified woken
      mutex := next.2
      completed := s.completed ++ (s.callers i).returns } := by
  -- the mutex is free or belongs to the call
  have hfree : (s.workers w).holds ≠ true := by
    intro hh
    have hm := h.worker w hh
    cases hpc : s.callers i with
    | lock pos v =>
      rw [hpc, callerNext, if_neg (by rw [hm]; exact Option.some_ne_none _)] at hn
      cases hn
    | notify pos v | unlock pos v =>
      have hm' := h.caller i (by rw [hpc]; rfl)
      rw [hm] at hm'
      cases hm'
    | outside | push =>
      rw [hpc] at hn
      cases hn
  refine ⟨notified_cases hw w, rfl, .inl rfl, Nat.le_refl _, ?_, fun hh => absurd hh hfree,
    fun hh => absurd hh hfree⟩
  rintro ⟨j, hj⟩
  by_cases hji : j = i
  · subst hji
    cases hpc : s.callers j with
    | lock pos v =>
      rw [hpc] at hn
      simp only [callerNext] at hn
      split_ifs at hn
      cases hn
      refine .inl ⟨j, .inr ?_⟩
      simp only [update_self]
      rfl
    | notify pos v =>
      -- this is the notification
      refine .inr ?_
      rw [hpc] at hw
      cases woken with
      | none =>
        obtain ⟨w'⟩ : Nonempty (Worker n) := inferInstance
        exact ⟨w', hw w'⟩
      | some w' =>
        refine ⟨w', ?_⟩
        simp only [notified, update_self]
        intro hb
        cases hb
    | unlock pos v =>
      have hidle := h.caller_idle (show (s.callers j).inCall = false by rw [hpc]; rfl)
      rw [Unsent, hidle, hpc] at hj
      rcases hj with hj | hj
      · exact absurd rfl hj
      · cases hj
    | outside | push =>
      rw [hpc] at hn
      cases hn
  · refine .inl ⟨j, ?_⟩
    simp only [Unsent, update_of_ne hji]
    exact hj

/-- **A step is one of the worker, or of somebody else.** -/
theorem own_or_other (h : s.Wf) (hm : Move s e s') (w : Worker n) : Own w s s' ∨ Other w s s' := by
  cases hm with
  | enqueue hpc => exact .inr (other_enqueue hpc _)
  | @queue _ t _ hq =>
    by_cases ht : t = .worker w
    · exact .inl (.queue (ht ▸ hq))
    · exact .inr (other_queue hq ht)
  | @retWorker w' _ _ hpc hq =>
    by_cases hw : w' = w
    · subst hw
      exact .inl (.ret hpc hq)
    · exact .inr (other_retWorker hw hpc hq)
  | retCaller hpc hq => exact .inr (other_retCaller hpc hq)
  | @worker w' _ hn =>
    by_cases hw : w' = w
    · subst hw
      exact .inl (.worker hn)
    · exact .inr (other_worker h hw hn)
  | caller hw hn => exact .inr (other_caller h hw hn)
  | wake hb => exact .inr (other_of_eq rfl rfl (wake_cases hb))
  | stop | lock | unlock | join => exact .inr (other_of_eq rfl rfl fun _ => .inl rfl)
  | notifyAll hd hw => exact .inr (other_of_eq rfl rfl hw)

/-- A worker's own step changes no call of `enqueue`, and claims nothing for a push. -/
theorem Own.outstanding (h : Own w s s') :
    (s.Outstanding → s'.Outstanding) ∧ s'.queue.enqueuePos = s.queue.enqueuePos := by
  cases h with
  | queue hq =>
    refine ⟨?_, ?_⟩
    · rintro ⟨i, hi⟩
      have hop := hq.effect.ops (.caller i) nofun
      exact ⟨i, by rw [Unsent, hop]; exact hi⟩
    · rcases hq.effect.enqueuePos with ⟨he, _⟩ | ⟨_, _, hsome⟩
      · exact he
      · rw [Op.given_eq_none (hq.worker w rfl).2] at hsome
        cases hsome
  | ret hpc hq =>
    refine ⟨?_, hq.enqueuePos⟩
    rintro ⟨i, hi⟩
    have hne : (.caller i : Thread n κ) ≠ .worker w := nofun
    have hop := hq.of_ne hne
    exact ⟨i, by rw [Unsent, hop]; exact hi⟩
  | worker hn => exact ⟨id, rfl⟩

/-- The worker looks at the queue: it has just loaded the position, or had it before. -/
theorem Own.looking (h : Own w s s') (hwf : s.Wf) (hl : s'.Looking w pos) :
    pos = s'.queue.dequeuePos ∨ (s.Looking w pos ∧ s'.queue.dequeuePos = s.queue.dequeuePos) := by
  cases h with
  | @queue q hq =>
    obtain ⟨hw, hop | hop⟩ := hl
    · exact .inl (hq.effect.popSequence hop)
    · refine .inr ⟨⟨hw, .inl (hq.effect.popExchange hop)⟩, ?_⟩
      rcases hq.effect.dequeuePos with ⟨hd, _⟩ | ⟨_, _, hsome⟩
      · exact hd
      · have hop' : q.ops (.worker w) = .popExchange pos := hop
        rw [hop'] at hsome
        cases hsome
  | ret hpc hq =>
    have hop := hl.2
    simp only [hq.ops, update_self] at hop
    rcases hop with hop | hop <;> cases hop
  | worker hn =>
    have hop := hl.2
    simp only [hwf.worker_idle (inCall_of_workerNext hn)] at hop
    rcases hop with hop | hop <;> cases hop

theorem Own.seen (h : Own w s s') (hwf : s.Wf) (hl : s'.Seen w) :
    s'.queue.dequeuePos = s.queue.dequeuePos ∧ (s.Seen w ∨ ∃ pos, s.Looking w pos ∧
      difference (s.queue.sequence (queueCapacity.cell pos)) (pos + 1) < 0) := by
  cases h with
  | queue hq =>
    have hin := (hq.worker w rfl).1
    rcases hl with ⟨hw, hop⟩ | hw | hw | hw
    · obtain ⟨pos, hpos, hneg, hgoto⟩ := hq.effect.popEmpty hop
      exact ⟨by rw [hgoto]; rfl, .inr ⟨pos, ⟨hw, .inl hpos⟩, hneg⟩⟩
    all_goals
      have hw' : s.workers w = _ := hw
      rw [hw'] at hin
      cases hin
  | @ret pc q hpc hq =>
    refine ⟨hq.dequeuePos, .inl (.inl ?_)⟩
    simp only [Seen, update_self, hq.ops] at hl
    cases hpc' : s.workers w <;> cases hop : s.queue.ops (.worker w) <;> rw [hpc', hop] at hpc <;>
      cases hpc
    case ret.recheck.popEmpty.refl => exact ⟨rfl, rfl⟩
    all_goals
      rcases hl with ⟨hl, _⟩ | hl | hl | hl <;> cases hl
  | worker hn =>
    refine ⟨rfl, .inl (.inr (.inl ?_))⟩
    simp only [Seen, update_self, hwf.worker_idle (inCall_of_workerNext hn)] at hl
    rcases hl with ⟨_, hl⟩ | hl
    · cases hl
    · exact (workerNext_eq_some hn).1 hl

theorem Own.blocked (h : Own w s s') (hb : s'.workers w = .blocked) :
    s.Seen w ∧ s'.queue.dequeuePos = s.queue.dequeuePos := by
  cases h with
  | queue hq =>
    have hin := (hq.worker w rfl).1
    have hb' : s.workers w = .blocked := hb
    rw [hb'] at hin
    cases hin
  | ret hpc hq =>
    simp only [update_self] at hb
    exact absurd hb (WorkerPc.ne_of_after hpc).1
  | worker hn =>
    simp only [update_self] at hb
    exact ⟨.inr (.inr (.inl ((workerNext_eq_some hn).2.2.1 hb))), rfl⟩

theorem awake_step [DecidableEq T] (hwf : s.Wf) (hf : s.Fresh e) (hs : s.step e = some s') (h : s.Awake) :
    s'.Awake := by
  have hwf' := wf_step hf hs hwf
  have hcase := own_or_other hwf (move_of_step hwf hf hs)
  -- what a worker has seen is still so after its own step
  have hown : ∀ {w}, Own w s s' → s'.queue.dequeuePos = s.queue.dequeuePos →
      s.Outstanding ∨ s.queue.dequeuePos = s.queue.enqueuePos →
      s'.Outstanding ∨ s'.queue.dequeuePos = s'.queue.enqueuePos := by
    intro w ho hd he
    obtain ⟨hout, hE⟩ := ho.outstanding
    rw [hE, hd]
    exact he.imp_left hout
  refine ⟨fun w pos hl => ?_, fun w hl => ?_, fun hb => ?_⟩
  · rcases hcase w with ho | ho
    · obtain ⟨hout, hE⟩ := ho.outstanding
      rcases ho.looking hwf hl with hpos | ⟨hl', _⟩
      · exact .inr (hpos ▸ hwf'.queue.room)
      · rw [hE]
        exact (h.looking w pos hl').imp_left hout
    · have hl' := ho.looking hl
      rcases h.looking w pos hl' with hout | hle
      · exact .inl (ho.outstanding hl'.holds hout)
      · rcases ho.enqueuePos with hE | hout
        · exact .inr (hE ▸ hle)
        · exact .inl hout
  · rcases hcase w with ho | ho
    · obtain ⟨hd, hseen | ⟨pos, hl', hneg⟩⟩ := ho.seen hwf hl
      · exact hown ho hd (h.seen w hseen)
      · refine hown ho hd ?_
        rcases h.looking w pos hl' with hout | hnear
        · exact .inl hout
        · obtain ⟨hpos, hpub⟩ := hwf.next_of_empty (hwf.pos_le_of_looking hl') hnear hneg
          subst hpos
          rcases Nat.lt_or_eq_of_le hwf.queue.le with hlt | he
          · exact .inl (hwf.outstanding_of_not_published hlt hpub)
          · exact .inr he
    · have hl' := ho.seen hl
      exact ho.empty hwf' hl'.holds (h.seen w hl')
  · by_cases hex : ∃ w, Own w s s'
    · obtain ⟨w, ho⟩ := hex
      obtain ⟨hseen, hd⟩ := ho.blocked (hb w)
      exact hown ho hd (h.seen w hseen)
    · -- nobody has gone to sleep just now
      have hother : ∀ w, Other w s s' := fun w => (hcase w).resolve_left fun ho => hex ⟨w, ho⟩
      have hb' : ∀ w, s.workers w = .blocked := by
        intro w
        rcases (hother w).worker with he | ⟨hw, _⟩
        · rw [← he, hb w]
        · exact hw
      obtain ⟨w⟩ : Nonempty (Worker n) := inferInstance
      rcases h.blocked hb' with hout | he
      · rcases (hother w).sent hout with hout' | ⟨w', hw'⟩
        · exact .inl hout'
        · exact absurd (hb w') hw'
      · rcases (hother w).enqueuePos with hE | hout
        · have hd := (hother w).dequeuePos
          have hle := hwf'.queue.le
          exact .inr (by omega)
        · exact .inl hout

end ThreadPool

end Nhttp.Async
