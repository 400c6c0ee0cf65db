import Nhttp.Async.ThreadPool

/-!
# Every job is run at most once

A worker that has claimed a position of the queue keeps it until it has run the job: first in `try_pop`,
then as a local variable.

* `taking`: the position in the hand of a worker.
* `Jobs`: every claimed position is in one hand or its job has been run, and everything that is run or
  reported was put into the queue; **`jobs_step`**.
-/

set_option autoImplicit false

namespace Nhttp.Async

open List Function

namespace ThreadPool

variable {n : ℕ} {κ T : Type} {s s' : ThreadPool n κ T}

def taking (s : ThreadPool n κ T) : Thread n κ → Option ℕ
  | .worker w => ((s.workers w).hand.map Prod.fst).or (s.queue.ops (.worker w)).taken
  | .caller _ => none

structure Jobs (s : ThreadPool n κ T) : Prop where
  tickets : Tickets s.queue.dequeuePos s.taking (s.executed.map Prod.fst)
  hand : ∀ w r, (s.workers w).hand = some r → r ∈ s.queue.popped
  executed : s.executed ⊆ s.queue.popped
  sending : ∀ i r, (s.callers i).hand = some r → r ∈ s.queue.pushed
  completed : s.completed ⊆ s.queue.pushed
  promised : s.promised ⊆ s.queue.pushed

theorem jobs_start : ({} : ThreadPool n κ T).Jobs where
  tickets := by
    have htaking : ({} : ThreadPool n κ T).taking = fun _ => none := by
      funext t
      cases t <;> rfl
    rw [htaking]
    exact Tickets.start
  hand _ _ h := by cases h
  executed := nil_subset _
  sending _ _ h := by cases h
  completed := nil_subset _
  promised := nil_subset _

/-! ## Steps at the queue -/

variable {pc : WorkerPc T} {w : Worker n} {q : MpmcQueue (Thread n κ) T} {i : κ}
  {workers : Worker n → WorkerPc T}

theorem WorkerPc.hand_of_inCall (h : pc.inCall = true) : pc.hand = none := by
  cases pc with
  | pop | recheck => rfl
  | _ => cases h

theorem taking_of_inCall (h : (s.workers w).inCall = true) :
    s.taking (.worker w) = (s.queue.ops (.worker w)).taken := by
  rw [taking, WorkerPc.hand_of_inCall h]
  rfl

theorem taking_congr (hw : (s'.workers w).hand = (s.workers w).hand)
    (hop : (s'.queue.ops (.worker w)).taken = (s.queue.ops (.worker w)).taken) :
    s'.taking (.worker w) = s.taking (.worker w) := by
  rw [taking, taking, hw, hop]

theorem Jobs.of_hand (h : s.Jobs) (hw : ∀ w, (workers w).hand = (s.workers w).hand) :
    ({ s with workers := workers } : ThreadPool n κ T).Jobs := by
  have htaking : ({ s with workers := workers } : ThreadPool n κ T).taking = s.taking := by
    funext t
    cases t with
    | caller i => rfl
    | worker w => exact taking_congr (hw w) rfl
  refine ⟨?_, fun w r hr => h.hand w r ((hw w).symm.trans hr), h.executed, h.sending, h.completed, h.promised⟩
  rw [htaking]
  exact h.tickets

theorem Jobs.wake (h : s.Jobs)
    (hw : ∀ w, workers w = s.workers w ∨ (s.workers w = .blocked ∧ workers w = .woken)) :
    ({ s with workers := workers } : ThreadPool n κ T).Jobs := by
  refine h.of_hand fun w => ?_
  rcases hw w with he | ⟨hb, he⟩
  · rw [he]
  · rw [he, hb]
    rfl

variable [DecidableEq κ]

theorem Jobs.queueStep (h : s.Jobs) {t : Thread n κ} (hq : s.QueueStep t q) :
    ({ s with queue := q } : ThreadPool n κ T).Jobs := by
  obtain ⟨hpush, hpop⟩ := hq.effect.logs
  refine ⟨?_, fun w r hr => hpop ▸ h.hand w r hr, hpop ▸ h.executed, fun i r hr => hpush ▸ h.sending i r hr,
    hpush ▸ h.completed, hpush ▸ h.promised⟩
  have hother : ∀ t' ≠ t, ({ s with queue := q } : ThreadPool n κ T).taking t' = s.taking t' := by
    intro t' hne
    cases t' with
    | worker w => exact taking_congr rfl (congrArg Op.taken (hq.effect.ops _ hne))
    | caller i => rfl
  rcases hq.effect.dequeuePos with ⟨hd, htaken⟩ | ⟨hd, hnone, hsome⟩
  · have htaking : ({ s with queue := q } : ThreadPool n κ T).taking = s.taking := by
      funext t'
      by_cases ht : t' = t
      · subst ht
        cases t' with
        | worker w => exact taking_congr rfl htaken
        | caller i => rfl
      · exact hother t' ht
    rw [htaking]
    exact hd ▸ h.tickets
  · -- only a worker claims a position of the jobs
    cases t with
    | caller i =>
      rw [Op.taken_eq_none (hq.caller i rfl).2] at hsome
      cases hsome
    | worker w =>
      have hin := (hq.worker w rfl).1
      have hself : ({ s with queue := q } : ThreadPool n κ T).taking (.worker w) = some s.queue.dequeuePos :=
        (taking_of_inCall (s := { s with queue := q }) hin).trans hsome
      have htaking : ({ s with queue := q } : ThreadPool n κ T).taking =
          update s.taking (.worker w) (some s.queue.dequeuePos) := by
        funext t'
        by_cases ht : t' = .worker w
        · rw [ht, update_self, hself]
        · rw [update_of_ne ht, hother t' ht]
      rw [htaking]
      exact hd ▸ h.tickets.issue ((taking_of_inCall hin).trans hnone)

/-- What `try_pop` returns is what the worker has in its hand afterwards. -/
theorem WorkerPc.hand_after {pc' : WorkerPc T} {op : Op T} (h : pc.after op = some pc') :
    pc.inCall = true ∧ pc'.hand.map Prod.fst = op.taken := by
  cases pc <;> cases op <;> cases h <;> exact ⟨rfl, rfl⟩

theorem Jobs.retWorker (h : s.Jobs)
    (hpc : (s.workers w).after (s.queue.ops (.worker w)) = some pc) (hq : s.Ret (.worker w) q)
    (hhand : ∀ r, pc.hand = some r → r ∈ q.popped) :
    ({ s with queue := q, workers := update s.workers w pc } : ThreadPool n κ T).Jobs := by
  obtain ⟨hin, htaken⟩ := WorkerPc.hand_after hpc
  refine ⟨?_, fun w' r hr => ?_, fun r hr => hq.popped (h.executed hr),
    fun i r hr => hq.pushed (h.sending i r hr), fun r hr => hq.pushed (h.completed hr),
    fun r hr => hq.pushed (h.promised hr)⟩
  · have htaking : ({ s with queue := q, workers := update s.workers w pc } :
        ThreadPool n κ T).taking = s.taking := by
      funext t
      cases t with
      | caller i => rfl
      | worker w' =>
        by_cases hw : w' = w
        · subst hw
          rw [taking_of_inCall hin, ← htaken]
          simp [taking, hq.ops, Op.taken]
        · refine taking_congr ?_ ?_
          · simp only [update_of_ne hw]
          · simp only [hq.of_ne fun he => hw (Thread.worker.inj he)]
    rw [htaking]
    exact hq.dequeuePos ▸ h.tickets
  · by_cases hw : w' = w
    · subst hw
      simp only [update_self] at hr
      exact hhand r hr
    · simp only [update_of_ne hw] at hr
      exact hq.popped (h.hand w' r hr)

theorem Jobs.retCaller (h : s.Jobs) {pc : CallerPc T}
    (hq : s.Ret (.caller i) q) (hhand : ∀ r, pc.hand = some r → r ∈ q.pushed) :
    ({ s with queue := q, callers := update s.callers i pc } : ThreadPool n κ T).Jobs := by
  refine ⟨?_, fun w r hr => hq.popped (h.hand w r hr), fun r hr => hq.popped (h.executed hr),
    fun j r hr => ?_, fun r hr => hq.pushed (h.completed hr), fun r hr => hq.pushed (h.promised hr)⟩
  · have htaking : ({ s with queue := q, callers := update s.callers i pc } :
        ThreadPool n κ T).taking = s.taking := by
      funext t
      cases t with
      | caller j => rfl
      | worker w =>
        have hop : q.ops (.worker w) = s.queue.ops (.worker w) := hq.of_ne nofun
        exact taking_congr rfl (congrArg Op.taken hop)
    rw [htaking]
    exact hq.dequeuePos ▸ h.tickets
  · by_cases hj : j = i
    · subst hj
      simp only [update_self] at hr
      exact hhand r hr
    · simp only [update_of_ne hj] at hr
      exact hq.pushed (h.sending j r hr)

/-! ## The other steps -/

theorem Jobs.worker_step (h : s.Jobs) (hwf : s.Wf) {next : WorkerPc T × Option (Owner n κ)}
    (hn : s.workerNext w (s.workers w) = some next) :
    ({ s with
        workers := update s.workers w next.1
        mutex := next.2
        executed := s.executed ++ (s.workers w).runs } : ThreadPool n κ T).Jobs := by
  by_cases hjob : ∃ pos out, s.workers w = .job pos out
  · -- the job is run, and the position is handed in
    obtain ⟨pos, out, hpc⟩ := hjob
    rw [hpc] at hn
    cases hn
    have hidle : s.queue.ops (.worker w) = .idle := hwf.worker_idle (by rw [hpc]; rfl)
    have hself : s.taking (.worker w) = some pos := by
      rw [taking, hpc]
      rfl
    refine ⟨?_, fun w' r hr => ?_, ?_, h.sending, h.completed, h.promised⟩
    · have htaking : ({ s with
          workers := update s.workers w .pop
          mutex := s.mutex
          executed := s.executed ++ (s.workers w).runs } : ThreadPool n κ T).taking =
            update s.taking (.worker w) none := by
        funext t
        cases t with
        | caller i => rfl
        | worker w' =>
          by_cases hw : w' = w
          · subst hw
            simp [taking, hidle, WorkerPc.hand, Op.taken]
          · rw [update_of_ne fun he => hw (Thread.worker.inj he)]
            exact taking_congr (by simp only [update_of_ne hw]) rfl
      rw [htaking]
      simp only [hpc, WorkerPc.runs, map_append, map_cons, map_nil]
      exact h.tickets.finish hself
    · by_cases hw : w' = w
      · subst hw
        simp only [update_self] at hr
        cases hr
      · simp only [update_of_ne hw] at hr
        exact h.hand w' r hr
    · refine append_subset.mpr ⟨h.executed, ?_⟩
      rw [hpc]
      exact cons_subset.mpr ⟨h.hand w _ (by rw [hpc]; rfl), nil_subset _⟩
  · have hruns : (s.workers w).runs = [] := by
      cases hpc : s.workers w with
      | job pos out => exact absurd ⟨pos, out, hpc⟩ hjob
      | _ => rfl
    have hhand : next.1.hand = (s.workers w).hand := by
      cases hpc : s.workers w with
      | job pos out => exact absurd ⟨pos, out, hpc⟩ hjob
      | lock | woken =>
        rw [hpc] at hn
        simp only [workerNext] at hn
        split_ifs at hn
        cases hn
        rfl
      | check =>
        rw [hpc] at hn
        cases hn
        split_ifs <;> rfl
      | found | wait | relocked | leaving =>
        rw [hpc] at hn
        cases hn
        rfl
      | pop | recheck | blocked | exited =>
        rw [hpc] at hn
        cases hn
    rw [hruns, append_nil]
    have hsame : ∀ w', (update s.workers w next.1 w').hand = (s.workers w').hand := by
      intro w'
      by_cases hw : w' = w
      · subst hw
        rw [update_self, hhand]
      · rw [update_of_ne hw]
    exact { h.of_hand hsame with }

theorem Jobs.caller_step (h : s.Jobs) {next : CallerPc T × Option (Owner n κ)}
    (hn : s.callerNext i (s.callers i) = some next) :
    ({ s with
        callers := update s.callers i next.1
        mutex := next.2
        completed := s.completed ++ (s.callers i).returns } : ThreadPool n κ T).Jobs := by
  have hhand : ∀ r, next.1.hand = some r ∨ r ∈ (s.callers i).returns → (s.callers i).hand = some r := by
    intro r hr
    cases hpc : s.callers i with
    | lock pos v =>
      rw [hpc] at hn hr
      simp only [callerNext] at hn
      split_ifs at hn
      cases hn
      exact hr.resolve_right not_mem_nil
    | notify pos v =>
      rw [hpc] at hn hr
      cases hn
      exact hr.resolve_right not_mem_nil
    | unlock pos v =>
      rw [hpc] at hn hr
      cases hn
      rcases hr with hr | hr
      · cases hr
      · rw [mem_singleton.mp hr]
        rfl
    | outside | push =>
      rw [hpc] at hn
      cases hn
  refine ⟨h.tickets, h.hand, h.executed, fun j r hr => ?_, ?_, h.promised⟩
  · by_cases hj : j = i
    · subst hj
      simp only [update_self] at hr
      exact h.sending j r (hhand r (.inl hr))
    · simp only [update_of_ne hj] at hr
      exact h.sending j r hr
  · exact append_subset.mpr ⟨h.completed, fun r hr => h.sending i r (hhand r (.inr hr))⟩

/-- **A step keeps account of the jobs.** -/
theorem jobs_step [DecidableEq T] {e : Event n κ T} (hwf : s.Wf) (hf : s.Fresh e) (hs : s.step e = some s')
    (h : s.Jobs) : s'.Jobs := by
  cases move_of_step hwf hf hs with
  | @enqueue i v =>
    refine ⟨h.tickets, h.hand, h.executed, fun j r hr => ?_, h.completed, h.promised⟩
    by_cases hj : j = i
    · subst hj
      simp only [update_self] at hr
      cases hr
    · simp only [update_of_ne hj] at hr
      exact h.sending j r hr
  | queue hq => exact h.queueStep hq
  | retWorker hpc hq hhand => exact h.retWorker hpc hq hhand
  | retCaller hpc hq hhand => exact h.retCaller hq hhand
  | worker hn => exact h.worker_step hwf hn
  | caller hw hn => exact (h.caller_step hn).wake (notified_cases hw)
  | wake hb => exact h.wake (wake_cases hb)
  | stop => exact { h with promised := h.completed }
  | lock | unlock | join => exact { h with }
  | notifyAll hd hw => exact { h.wake hw with }

end ThreadPool

end Nhttp.Async
