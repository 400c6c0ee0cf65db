import Nhttp.Async.PoolWakeups

/-!
# Runs of the thread pool

The last worker to leave has found the queue empty when nobody else could take a job.

* `Drained`: what holds once the destructor has been called, if no `enqueue` was between its claim and its
  notification then.
* **`jobs_not_lost`**: a job that waits has a worker that is awake or a notification to come, and the jobs
  enqueued before the destructor are run exactly once.
-/

set_option autoImplicit false

namespace Nhttp.Async

open Option Function

namespace ThreadPool

variable {n : ℕ} {κ T : Type} {s s' : ThreadPool n κ T}

structure Drained (s : ThreadPool n κ T) : Prop where
  outside : s.destructor = .outside ↔ s.stopping = false
  stopPos : s.stopPos ≤ s.queue.enqueuePos
  promised : ∀ r ∈ s.promised, r.1 < s.stopPos
  published : ∀ p < s.stopPos, s.queue.Published queueCapacity p
  left : ∀ w, s.workers w = .leaving ∨ s.workers w = .exited → s.stopping = true
  looking : ∀ w pos, s.Looking w pos → s.Last w → pos = s.queue.dequeuePos
  seen : ∀ w, s.Seen w → s.Last w → s.stopPos ≤ s.queue.dequeuePos
  exited : (∀ w, s.workers w = .exited) → s.stopPos ≤ s.queue.dequeuePos
  returned : s.destructor = .returned → ∀ w, s.workers w = .exited

theorem drained_start : ({} : ThreadPool n κ T).Drained where
  outside := ⟨fun _ => rfl, fun _ => rfl⟩
  stopPos := Nat.le_refl 0
  promised _ h := by cases h
  published _ h := absurd h (Nat.not_lt_zero _)
  left _ h := by
    rcases h with h | h <;> cases h
  looking _ _ h := by cases h.1
  seen _ _ _ := Nat.zero_le _
  exited _ := Nat.zero_le _
  returned h := by cases h

variable {w : Worker n} {e : Event n κ T}

/-- No worker has taken the job of the position. -/
def Queued (s : ThreadPool n κ T) (p : ℕ) : Prop :=
  p ∉ s.executed.map Prod.fst ∧ ∀ t, s.taking t ≠ some p

theorem Jobs.dequeuePos_le (h : s.Jobs) {p : ℕ} (hp : s.Queued p) : s.queue.dequeuePos ≤ p := by
  by_contra hlt
  rcases h.tickets.kept (Nat.lt_of_not_le hlt) with hd | ⟨t, ht⟩
  · exact hp.1 hd
  · exact hp.2 t ht

theorem taking_of_exited (hwf : s.Wf) (he : s.workers w = .exited) :
    s.taking (.worker w) = none := by
  rw [taking, hwf.worker_idle (by rw [he]; rfl), he]
  rfl

theorem Jobs.mem_executed (h : s.Jobs) (hwf : s.Wf) {r : ℕ × T} (hr : r ∈ s.queue.pushed)
    (he : r.1 ∈ s.executed.map Prod.fst) : (r.1, some r.2) ∈ s.executed := by
  obtain ⟨⟨p, x⟩, hx, hp⟩ := List.mem_map.mp he
  cases hp
  obtain ⟨_, v, hv, hxv⟩ := hwf.queue.popped _ (h.executed hx)
  have hget := (hwf.queue.pushed r hr).1
  have hrv : v = r.2 := Option.some.inj (hv.symm.trans hget)
  rw [← hrv, ← hxv]
  exact hx

theorem Drained.stop (h : s.Drained) (hwf : s.Wf) (hj : s.Jobs) (ha : s.Awake) (hout : s.destructor = .outside)
    (hquiet : ¬s.Outstanding) :
    ({ s with
        destructor := .lock
        stopping := true
        promised := s.completed
        stopPos := s.queue.enqueuePos } : ThreadPool n κ T).Drained where
  outside := by simp
  stopPos := Nat.le_refl _
  promised r hr := by
    have hmem : r.1 ∈ s.queue.pushed.map Prod.fst := List.mem_map_of_mem (hj.completed hr)
    exact hwf.queue.given.done_lt hmem
  published p hp := by
    by_contra hn
    exact hquiet (hwf.outstanding_of_not_published hp hn)
  left _ _ := rfl
  looking := h.looking
  seen w hw _ := ((ha.seen w hw).resolve_left hquiet).ge
  exited hall := by
    obtain ⟨w⟩ : Nonempty (Worker n) := inferInstance
    have hstop := h.left w (.inr (hall w))
    rw [h.outside.mp hout] at hstop
    cases hstop
  returned hd := by cases hd

/-! ## Leaving -/

variable [DecidableEq κ]

theorem Own.last (h : Own w s s') (hl : s'.Last w) : s.Last w := by
  intro w' hne
  have hexit := hl w' hne
  cases h with
  | queue => exact hexit
  | ret | worker =>
    simp only [update_of_ne hne] at hexit
    exact hexit

theorem Own.exited (h : Own w s s') (he : s'.workers w = .exited) :
    s.workers w = .leaving ∧ s'.queue.dequeuePos = s.queue.dequeuePos := by
  cases h with
  | queue hq =>
    have hin := (hq.worker w rfl).1
    have he' : s.workers w = .exited := he
    rw [he'] at hin
    cases hin
  | ret hpc hq =>
    simp only [update_self] at he
    exact absurd he (WorkerPc.ne_of_after hpc).2.2
  | worker hn =>
    simp only [update_self] at he
    exact ⟨(workerNext_eq_some hn).2.2.2 he, rfl⟩

theorem Own.left (h : Own w s s') (hl : s'.workers w = .leaving ∨ s'.workers w = .exited) :
    s.workers w ≠ .exited ∧ (s.stopping = true ∨ s.workers w = .leaving) := by
  rcases hl with hl | hl
  · cases h with
    | queue hq =>
      have hin := (hq.worker w rfl).1
      have hl' : s.workers w = .leaving := hl
      rw [hl'] at hin
      cases hin
    | ret hpc hq =>
      simp only [update_self] at hl
      exact absurd hl (WorkerPc.ne_of_after hpc).2.1
    | worker hn =>
      simp only [update_self] at hl
      obtain ⟨hcheck, hstop, -⟩ := workerNext_eq_some hn
      refine ⟨fun he => ?_, .inl (hstop hl)⟩
      rw [hcheck (.inr (.inr hl))] at he
      cases he
  · obtain ⟨hw, _⟩ := h.exited hl
    refine ⟨fun he => ?_, .inr hw⟩
    rw [hw] at he
    cases he

theorem queue_mono (hm : Move s e s') :
    (∀ i, s.queue.sequence i ≤ s'.queue.sequence i) ∧ s.queue.enqueuePos ≤ s'.queue.enqueuePos ∧
      s.queue.dequeuePos ≤ s'.queue.dequeuePos := by
  cases hm with
  | queue hq =>
    refine ⟨hq.effect.sequence, ?_, ?_⟩
    · rcases hq.effect.enqueuePos with ⟨he, _⟩ | ⟨he, _⟩
      · exact he.ge
      · exact he ▸ Nat.le_succ _
    · rcases hq.effect.dequeuePos with ⟨he, _⟩ | ⟨he, _⟩
      · exact he.ge
      · exact he ▸ Nat.le_succ _
  | retWorker _ hq | retCaller _ hq => exact ⟨fun i => by rw [hq.sequence], hq.enqueuePos.ge, hq.dequeuePos.ge⟩
  | _ => exact ⟨fun _ => Nat.le_refl _, Nat.le_refl _, Nat.le_refl _⟩

theorem stop_or_same (hm : Move s e s') :
    (e = .destructor ∧ s.destructor = .outside ∧ s' = { s with
        destructor := .lock
        stopping := true
        promised := s.completed
        stopPos := s.queue.enqueuePos }) ∨
      (s'.stopping = s.stopping ∧ s'.stopPos = s.stopPos ∧ s'.promised = s.promised ∧
        (s'.destructor = .outside ↔ s.destructor = .outside) ∧
        (s'.destructor = .returned → s.destructor = .returned ∨ ∀ w, s'.workers w = .exited)) := by
  cases hm with
  | stop hd => exact .inl ⟨rfl, hd, rfl⟩
  | lock hd | unlock hd | notifyAll hd => exact .inr ⟨rfl, rfl, rfl, by simp [hd], by simp⟩
  | join hd hall => exact .inr ⟨rfl, rfl, rfl, by simp [hd], fun _ => .inr hall⟩
  | _ => exact .inr ⟨rfl, rfl, rfl, Iff.rfl, .inl⟩

theorem exited_step (hwf : s.Wf) (hm : Move s e s') (he : s.workers w = .exited) : s'.workers w = .exited := by
  rcases own_or_other hwf hm w with ho | ho
  · cases ho with
    | queue hq =>
      have hin := (hq.worker w rfl).1
      rw [he] at hin
      cases hin
    | ret hpc hq =>
      rw [he] at hpc
      cases hpc
    | worker hn =>
      rw [he] at hn
      cases hn
  · rcases ho.worker with he' | ⟨hb, _⟩
    · rw [he', he]
    · rw [he] at hb
      cases hb

/-- **A step keeps the promise of the destructor.** -/
theorem drained_step (hwf : s.Wf) (hj : s.Jobs) (ha : s.Awake) (hquiet : s.QuietStop e) (hm : Move s e s')
    (h : s.Drained) : s'.Drained := by
  rcases stop_or_same hm with ⟨rfl, hout, rfl⟩ | ⟨hstop, hpos, hprom, hdest, hret⟩
  · exact h.stop hwf hj ha hout (hquiet hout)
  have hcase := own_or_other hwf hm
  obtain ⟨hseq, hE, hD⟩ := queue_mono hm
  refine ⟨by rw [hdest, hstop, h.outside], ?_, ?_, fun p hp => ?_, fun w hw => ?_, fun w pos hl hlast => ?_,
    fun w hl hlast => ?_, fun hall => ?_, fun hd w => ?_⟩
  · rw [hpos]
    exact Nat.le_trans h.stopPos hE
  · rw [hprom, hpos]
    exact h.promised
  · rw [hpos] at hp
    exact Nat.lt_of_lt_of_le (h.published p hp) (hseq _)
  · rw [hstop]
    rcases hcase w with ho | ho
    · rcases (ho.left hw).2 with hst | hl
      · exact hst
      · exact h.left w (.inl hl)
    · refine h.left w ?_
      rcases ho.worker with he | ⟨_, he⟩
      · exact he ▸ hw
      · rw [he] at hw
        rcases hw with hw | hw <;> cases hw
  · rcases hcase w with ho | ho
    · rcases ho.looking hwf hl with he | ⟨hl', hd⟩
      · exact he
      · exact (h.looking w pos hl' (ho.last hlast)).trans hd.symm
    · have hl' := ho.looking hl
      obtain ⟨hlast', hd⟩ := ho.last hl'.holds hlast
      exact (h.looking w pos hl' hlast').trans hd.symm
  · rw [hpos]
    rcases hcase w with ho | ho
    · obtain ⟨hd, hseen | ⟨pos, hl', hneg⟩⟩ := ho.seen hwf hl
      · exact hd ▸ h.seen w hseen (ho.last hlast)
      · -- nobody else takes jobs any more, and the next position is not published
        have he := h.looking w pos hl' (ho.last hlast)
        subst he
        obtain ⟨_, hpub⟩ := hwf.next_of_empty (Nat.le_refl _) hwf.queue.room hneg
        rw [hd]
        by_contra hlt
        exact hpub (h.published _ (Nat.lt_of_not_le hlt))
    · have hl' := ho.seen hl
      obtain ⟨hlast', hd⟩ := ho.last hl'.holds hlast
      exact hd ▸ h.seen w hl' hlast'
  · rw [hpos]
    by_cases hex : ∃ w, Own w s s'
    · obtain ⟨w, ho⟩ := hex
      obtain ⟨hw, hd⟩ := ho.exited (hall w)
      exact hd ▸ h.seen w (.inr (.inr (.inr hw))) (ho.last fun w' _ => hall w')
    · refine Nat.le_trans (h.exited fun w => ?_) hD
      rcases ((hcase w).resolve_left fun ho => hex ⟨w, ho⟩).worker with he | ⟨_, he⟩
      · rw [← he, hall w]
      · rw [hall w] at he
        cases he
  · rcases hret hd with hd' | hall
    · exact exited_step hwf hm (h.returned hd' w)
    · exact hall w

/-! ## Runs -/

/-- **No job is lost.** -/
theorem jobs_not_lost [DecidableEq T] {es : List (Event n κ T)} {s : ThreadPool n κ T} (h : Run.Exec step Fresh {} es s) :
    -- a job that waits has a worker that is awake, or a notification to come
    (∀ r ∈ s.completed, s.Queued r.1 → (∃ w, s.workers w ≠ .blocked) ∨ s.Outstanding) ∧
      -- what was enqueued before the destructor has been run, once, when the destructor returns
      (Run.Exec step (fun s e => s.Fresh e ∧ s.QuietStop e) {} es s → s.destructor = .returned →
        ∀ r ∈ s.promised, s.executed.count (r.1, some r.2) = 1) := by
  have hi : s.Wf ∧ s.Jobs ∧ s.Awake :=
    h.inv (I := fun s => s.Wf ∧ s.Jobs ∧ s.Awake)
      (fun _ _ _ hf hs hi => ⟨wf_step hf hs hi.1, jobs_step hi.1 hf hs hi.2.1, awake_step hi.1 hf hs hi.2.2⟩)
      ⟨wf_start, jobs_start, awake_start⟩
  obtain ⟨hwf, hjobs, hawake⟩ := hi
  refine ⟨fun r hr hq => ?_, fun hx hret r hr => ?_⟩
  · by_contra hno
    obtain ⟨hblocked, hout⟩ := not_or.mp hno
    have hall : ∀ w, s.workers w = .blocked := fun w => by
      by_contra hw
      exact hblocked ⟨w, hw⟩
    have he := (hawake.blocked hall).resolve_left hout
    have hmem : r.1 ∈ s.queue.pushed.map Prod.fst := List.mem_map_of_mem (hjobs.completed hr)
    have hlt := hwf.queue.given.done_lt hmem
    have hle := hjobs.dequeuePos_le hq
    omega
  · have hd : s.Drained :=
      (hx.inv (I := fun s => (s.Wf ∧ s.Jobs ∧ s.Awake) ∧ s.Drained)
        (fun _ _ _ hf hs hi => ⟨⟨wf_step hf.1 hs hi.1.1, jobs_step hi.1.1 hf.1 hs hi.1.2.1,
          awake_step hi.1.1 hf.1 hs hi.1.2.2⟩, drained_step hi.1.1 hi.1.2.1 hi.1.2.2 hf.2 (move_of_step hi.1.1 hf.1 hs) hi.2⟩)
        ⟨⟨wf_start, jobs_start, awake_start⟩, drained_start⟩).2
    have hall := hd.returned hret
    have hlt : r.1 < s.queue.dequeuePos := Nat.lt_of_lt_of_le (hd.promised r hr) (hd.exited hall)
    have hdone : r.1 ∈ s.executed.map Prod.fst := by
      rcases hjobs.tickets.kept hlt with hdone | ⟨t, ht⟩
      · exact hdone
      · cases t with
        | worker w =>
          rw [taking_of_exited hwf (hall w)] at ht
          cases ht
        | caller i => cases ht
    exact List.count_eq_one_of_mem (List.Nodup.of_map _ hjobs.tickets.nodup)
      (hjobs.mem_executed hwf (hjobs.promised hr) hdone)

abbrev only : Worker 1 := ⟨0, by decide⟩

/-- Thread `i` enqueues a job, undisturbed and with nobody asleep. -/
def enqueues (i : Bool) (v : ℕ) : List (Event 1 Bool ℕ) :=
  .enqueue i v :: .queue (.push (.caller i) v) :: List.replicate 5 (.queue (.run (.caller i) false)) ++
    [.ret (.caller i), .caller i none, .caller i none, .caller i none]

/-- The worker takes `k` steps in a `try_pop`, and returns from it. -/
def pops (k : ℕ) : List (Event 1 Bool ℕ) :=
  .queue (.pop (.worker only)) :: List.replicate k (.queue (.run (.worker only) false)) ++ [.ret (.worker only)]

/-- A job is enqueued and run, and the pool is destroyed. -/
theorem jobs_not_lost_one :
    ∃ es, ∃ s : ThreadPool 1 Bool ℕ, Run.Exec step Fresh {} es s ∧ s.destructor = .returned ∧
      s.promised = [(0, 8)] ∧ s.executed.count (0, some 8) = 1 := by
  have h : (Run.runChecked step (fun s e => s.Fresh e ∧ s.QuietStop e) ({} : ThreadPool 1 Bool ℕ)
      (enqueues true 8 ++ [.destructor, .destructor, .destructor, .destructor] ++ pops 5 ++ [.worker only] ++
        pops 2 ++ [.worker only] ++ pops 2 ++ [.worker only, .worker only, .destructor])).map
          (fun s => (s.destructor, s.promised)) = some (.returned, [(0, 8)]) := by
    decide +kernel
  obtain ⟨s, hx, he⟩ := Run.exists_exec h
  have hpromised : s.promised = [(0, 8)] := congrArg Prod.snd he
  have hx' : Run.Exec step Fresh {} _ s := hx.mono fun _ _ hc => hc.1
  obtain ⟨_, hrun⟩ := jobs_not_lost hx'
  exact ⟨_, s, hx', congrArg Prod.fst he, hpromised,
    hrun hx (congrArg Prod.fst he) (0, 8) (hpromised ▸ List.mem_singleton_self _)⟩

/-- A job is enqueued behind a claimed position that is not published; the only worker finds nothing, and leaves. -/
theorem job_lost :
    ∃ es, ∃ s : ThreadPool 1 Bool ℕ, Run.Exec step Fresh {} es s ∧ s.destructor = .returned ∧
      s.promised = [(1, 8)] ∧ s.executed = [] := by
  have h : (Run.runChecked step Fresh ({} : ThreadPool 1 Bool ℕ)
      ([.enqueue false 7, .queue (.push (.caller false) 7), .queue (.run (.caller false) false),
        .queue (.run (.caller false) false), .queue (.run (.caller false) false)] ++ enqueues true 8 ++
       [.destructor, .destructor, .destructor, .destructor] ++ pops 2 ++ [.worker only] ++ pops 2 ++
       [.worker only, .worker only, .destructor])).map
          (fun s => (s.destructor, s.promised, s.executed)) = some (.returned, [(1, 8)], []) := by
    decide +kernel
  obtain ⟨s, hx, he⟩ := Run.exists_exec h
  exact ⟨_, s, hx, congrArg Prod.fst he, congrArg (fun x => x.2.1) he, congrArg (fun x => x.2.2) he⟩

end ThreadPool

end Nhttp.Async
