import Nhttp.Async.MpmcEffect

/-!
# The thread pool

`enqueue` pushes a job into the lock-free queue and takes a mutex to notify one worker; a worker that finds
the queue empty takes the mutex, looks again, and waits. The destructor sets a flag, takes the mutex once,
notifies everybody and joins the workers.

* `WorkerPc`, `CallerPc`, `DestructorPc`: where the threads are; `ThreadPool`, `step`: the pool.
* `Move`: all that a step does; `move_of_step` is the inversion of `step`.
* `Wf`: threads are in the calls that their code makes, and the mutex has one owner; **`wf_step`**.
-/

set_option autoImplicit false

namespace Nhttp.Async

open Option Function MpmcQueue List.Subset

def queueCapacity : Capacity := ⟨13, by decide, by decide⟩

def workerCount (n : ℕ) : ℕ := if n = 0 then 1 else n

/-- A worker of a pool that was asked for `n` of them. -/
abbrev Worker (n : ℕ) : Type := Fin (workerCount n)

theorem workerCount_pos (n : ℕ) : 0 < workerCount n := by
  unfold workerCount
  split_ifs <;> omega

instance (n : ℕ) : Nonempty (Worker n) := ⟨⟨0, workerCount_pos n⟩⟩

inductive Thread (n : ℕ) (κ : Type)
  | worker (w : Worker n)
  | caller (i : κ)
  deriving DecidableEq, Repr

/-- A thread that can own the mutex. -/
inductive Owner (n : ℕ) (κ : Type)
  | worker (w : Worker n)
  | caller (i : κ)
  | destructor
  deriving DecidableEq, Repr

/-- Where `worker_loop` is. -/
inductive WorkerPc (T : Type)
  /-- In the `try_pop` at the top. -/
  | pop
  | job (pos : ℕ) (out : Option T)
  | lock
  /-- In the `try_pop` under the lock. -/
  | recheck
  /-- The `try_pop` under the lock has found a job; in front of the unlock. -/
  | found (pos : ℕ) (out : Option T)
  | check
  | wait
  | blocked
  /-- Woken up, and in front of locking the mutex again. -/
  | woken
  /-- Back from the wait, in front of the unlock. -/
  | relocked
  /-- In front of the unlock of the return. -/
  | leaving
  | exited
  deriving DecidableEq, Repr

namespace WorkerPc

variable {T : Type}

def holds : WorkerPc T → Bool
  | .recheck | .found .. | .check | .wait | .relocked | .leaving => true
  | _ => false

/-- The worker is in a call of `try_pop`, or about to begin one. -/
def inCall : WorkerPc T → Bool
  | .pop | .recheck => true
  | _ => false

def hand : WorkerPc T → Option (ℕ × Option T)
  | .job pos out | .found pos out => some (pos, out)
  | _ => none

def runs : WorkerPc T → List (ℕ × Option T)
  | .job pos out => [(pos, out)]
  | _ => []

/-- Where a worker goes when `try_pop` returns. -/
def after : WorkerPc T → Op T → Option (WorkerPc T)
  | .pop, .popDone pos out => some (.job pos out)
  | .pop, .popEmpty => some .lock
  | .recheck, .popDone pos out => some (.found pos out)
  | .recheck, .popEmpty => some .check
  | _, _ => none

end WorkerPc

/-- Where a call of `enqueue` is. -/
inductive CallerPc (T : Type)
  | outside
  /-- In `try_push`, or about to begin it again. -/
  | push (v : T)
  | lock (pos : ℕ) (v : T)
  | notify (pos : ℕ) (v : T)
  | unlock (pos : ℕ) (v : T)
  deriving DecidableEq, Repr

namespace CallerPc

variable {T : Type}

def holds : CallerPc T → Bool
  | .notify .. | .unlock .. => true
  | _ => false

def inCall : CallerPc T → Bool
  | .push _ => true
  | _ => false

/-- The job is in the queue, and the notification is still to be sent. -/
def unsent : CallerPc T → Bool
  | .lock .. | .notify .. => true
  | _ => false

/-- The job that is in the queue. -/
def hand : CallerPc T → Option (ℕ × T)
  | .lock pos v | .notify pos v | .unlock pos v => some (pos, v)
  | _ => none

/-- The call that the next step completes. -/
def returns : CallerPc T → List (ℕ × T)
  | .unlock pos v => [(pos, v)]
  | _ => []

/-- Where a call goes when `try_push` returns; it tries again with the same job if the queue is full. -/
def after : CallerPc T → Op T → Option (CallerPc T)
  | .push _, .pushDone v pos => some (.lock pos v)
  | .push v, .pushFull _ => some (.push v)
  | _, _ => none

end CallerPc

inductive DestructorPc
  | outside
  | lock
  | unlock
  | notify
  | join
  | returned
  deriving DecidableEq, Repr

/-- A pool with its workers, the threads that call `enqueue`, and what has happened. -/
structure ThreadPool (n : ℕ) (κ T : Type) where
  queue : MpmcQueue (Thread n κ) T := {}
  workers : Worker n → WorkerPc T := fun _ => .pop
  callers : κ → CallerPc T := fun _ => .outside
  /-- The owner of `wake_mutex_`. -/
  mutex : Option (Owner n κ) := none
  stopping : Bool := false
  destructor : DestructorPc := .outside
  /-- The jobs that have been run, with their positions in the queue. -/
  executed : List (ℕ × Option T) := []
  /-- The calls of `enqueue` that have returned, with position and job. -/
  completed : List (ℕ × T) := []
  /-- The calls of `enqueue` that had returned when the destructor was called. -/
  promised : List (ℕ × T) := []
  /-- The positions that had been claimed when the destructor was called. -/
  stopPos : ℕ := 0

namespace ThreadPool

variable {n : ℕ} {κ T : Type}

inductive Event (n : ℕ) (κ T : Type)
  | enqueue (i : κ) (v : T)
  /-- A step inside `try_push` or `try_pop`. -/
  | queue (e : MpmcQueue.Event (Thread n κ) T)
  | ret (t : Thread n κ)
  | worker (w : Worker n)
  /-- A step of `enqueue`; a notification wakes one of the waiting workers. -/
  | caller (i : κ) (woken : Option (Worker n))
  /-- A worker wakes up without a notification. -/
  | wake (w : Worker n)
  | destructor

/-- What a worker does outside the queue, and the owner of the mutex afterwards. -/
def workerNext (s : ThreadPool n κ T) (w : Worker n) : WorkerPc T → Option (WorkerPc T × Option (Owner n κ))
  | .job .. => some (.pop, s.mutex)
  | .lock => if s.mutex = none then some (.recheck, some (.worker w)) else none
  | .found pos out => some (.job pos out, none)
  | .check => some (if s.stopping then .leaving else .wait, s.mutex)
  -- the wait releases the mutex
  | .wait => some (.blocked, none)
  | .woken => if s.mutex = none then some (.relocked, some (.worker w)) else none
  | .relocked => some (.pop, none)
  | .leaving => some (.exited, none)
  | .pop | .recheck | .blocked | .exited => none

def callerNext (s : ThreadPool n κ T) (i : κ) : CallerPc T → Option (CallerPc T × Option (Owner n κ))
  | .lock pos v => if s.mutex = none then some (.notify pos v, some (.caller i)) else none
  | .notify pos v => some (.unlock pos v, s.mutex)
  | .unlock .. => some (.outside, none)
  | .outside | .push _ => none

/-- `notify_one` wakes one of the workers that wait, if there is one. -/
def CanWake (s : ThreadPool n κ T) : CallerPc T → Option (Worker n) → Prop
  | .notify .., some w => s.workers w = .blocked
  | .notify .., none => ∀ w, s.workers w ≠ .blocked
  | _, woken => woken = none

instance [DecidableEq T] (s : ThreadPool n κ T) (pc : CallerPc T) (woken : Option (Worker n)) :
    Decidable (s.CanWake pc woken) := by
  unfold CanWake
  split <;> infer_instance

def notified (s : ThreadPool n κ T) : Option (Worker n) → Worker n → WorkerPc T
  | some w => update s.workers w .woken
  | none => s.workers

def InCall (s : ThreadPool n κ T) : MpmcQueue.Event (Thread n κ) T → Prop
  | .pop (.worker w) => (s.workers w).inCall = true
  | .push (.caller i) v => s.callers i = .push v
  | .run _ _ => True
  | _ => False

instance [DecidableEq T] (s : ThreadPool n κ T) (e : MpmcQueue.Event (Thread n κ) T) :
    Decidable (s.InCall e) := by
  unfold InCall
  split <;> infer_instance

section Steps

variable [DecidableEq κ] [DecidableEq T]

def step (s : ThreadPool n κ T) : Event n κ T → Option (ThreadPool n κ T)
  | .enqueue i v =>
    if s.callers i = .outside then some { s with callers := update s.callers i (.push v) } else none
  | .queue e =>
    if s.InCall e then (s.queue.step queueCapacity e).map fun q => { s with queue := q } else none
  | .ret (.worker w) =>
    ((s.workers w).after (s.queue.ops (.worker w))).bind fun pc =>
      (s.queue.step queueCapacity (.ret (.worker w))).map fun q =>
        { s with queue := q, workers := update s.workers w pc }
  | .ret (.caller i) =>
    ((s.callers i).after (s.queue.ops (.caller i))).bind fun pc =>
      (s.queue.step queueCapacity (.ret (.caller i))).map fun q =>
        { s with queue := q, callers := update s.callers i pc }
  | .worker w =>
    (s.workerNext w (s.workers w)).map fun next =>
      { s with
        workers := update s.workers w next.1
        mutex := next.2
        executed := s.executed ++ (s.workers w).runs }
  | .caller i woken =>
    if s.CanWake (s.callers i) woken then
      (s.callerNext i (s.callers i)).map fun next =>
        { s with
          callers := update s.callers i next.1
          workers := s.notified woken
          mutex := next.2
          completed := s.completed ++ (s.callers i).returns }
    else none
  | .wake w =>
    if s.workers w = .blocked then some { s with workers := update s.workers w .woken } else none
  | .destructor =>
    match s.destructor with
    | .outside =>
      some { s with
        destructor := .lock
        stopping := true
        promised := s.completed
        stopPos := s.queue.enqueuePos }
    | .lock =>
      if s.mutex = none then some { s with destructor := .unlock, mutex := some .destructor } else none
    | .unlock => some { s with destructor := .notify, mutex := none }
    | .notify =>
      some { s with
        destructor := .join
        workers := fun w => if s.workers w = .blocked then .woken else s.workers w }
    | .join => if ∀ w, s.workers w = .exited then some { s with destructor := .returned } else none
    | .returned => none

end Steps

/-- Every compare-exchange of the queue meets a counter that has not gone round. -/
def Fresh (s : ThreadPool n κ T) : Event n κ T → Prop
  | .queue e => s.queue.Fresh e
  | _ => True

instance (s : ThreadPool n κ T) (e : Event n κ T) : Decidable (s.Fresh e) := by
  unfold Fresh
  split <;> infer_instance

/-- The `enqueue` of a thread has claimed a position, and has not sent its notification. -/
def Unsent (s : ThreadPool n κ T) (i : κ) : Prop :=
  (s.queue.ops (.caller i)).given ≠ none ∨ (s.callers i).unsent = true

instance (s : ThreadPool n κ T) (i : κ) : Decidable (s.Unsent i) := inferInstanceAs (Decidable (_ ∨ _))

/-- Some `enqueue` has not sent its notification. -/
def Outstanding (s : ThreadPool n κ T) : Prop := ∃ i, s.Unsent i

instance [Fintype κ] (s : ThreadPool n κ T) : Decidable s.Outstanding :=
  inferInstanceAs (Decidable (∃ _, _))

/-- The destructor is called when no `enqueue` is between its claim and its notification. -/
def QuietStop (s : ThreadPool n κ T) : Event n κ T → Prop
  | .destructor => s.destructor = .outside → ¬s.Outstanding
  | _ => True

instance [Fintype κ] (s : ThreadPool n κ T) (e : Event n κ T) : Decidable (s.QuietStop e) := by
  unfold QuietStop
  split <;> infer_instance

/-! ## Calls and the mutex -/

structure Wf (s : ThreadPool n κ T) : Prop where
  queue : s.queue.Inv queueCapacity
  workerCall : ∀ w, s.queue.ops (.worker w) ≠ .idle →
    (s.workers w).inCall = true ∧ (s.queue.ops (.worker w)).isPush = false
  callerCall : ∀ i, s.queue.ops (.caller i) ≠ .idle →
    (s.callers i).inCall = true ∧ (s.queue.ops (.caller i)).isPop = false
  worker : ∀ w, (s.workers w).holds = true → s.mutex = some (.worker w)
  caller : ∀ i, (s.callers i).holds = true → s.mutex = some (.caller i)
  destructor : s.destructor = .unlock → s.mutex = some .destructor

theorem wf_start : ({} : ThreadPool n κ T).Wf where
  queue := inv_start queueCapacity
  workerCall _ h := absurd rfl h
  callerCall _ h := absurd rfl h
  worker _ h := by cases h
  caller _ h := by cases h
  destructor h := by cases h

section Lock

variable {s s' : ThreadPool n κ T}

/-- A step of `x` on the mutex: it is free afterwards, or as before, or `x` has taken it. -/
structure LockStep (x : Owner n κ) (held held' : Bool) (m m' : Option (Owner n κ)) : Prop where
  own : held' = true → m' = some x ∨ (held = true ∧ m' = m)
  other : m' = m ∨ m = none ∨ held = true

variable {held held' : Bool} {m m' : Option (Owner n κ)} {x : Owner n κ}

theorem LockStep.of_ne {y : Owner n κ}
    (h : LockStep x held held' m m') (hx : held = true → m = some x) (hne : y ≠ x) (hy : m = some y) :
    m' = some y := by
  rcases h.other with he | he | he
  · exact he.trans hy
  · rw [hy] at he
    cases he
  · rw [hx he] at hy
    exact absurd (Option.some.inj hy).symm hne

theorem LockStep.self (h : LockStep x held held' m m') (hx : held = true → m = some x) (hh : held' = true) :
    m' = some x := by
  rcases h.own hh with he | ⟨hheld, he⟩
  · exact he
  · exact he.trans (hx hheld)

theorem lockStep_worker {w : Worker n} {pc : WorkerPc T} {next : WorkerPc T × Option (Owner n κ)}
    (h : s.workerNext w pc = some next) :
    LockStep (.worker w) pc.holds next.1.holds s.mutex next.2 := by
  cases pc with
  | job | found | wait | relocked | leaving =>
    cases h
    exact ⟨by simp [WorkerPc.holds], by simp [WorkerPc.holds]⟩
  | lock | woken =>
    simp only [workerNext] at h
    split_ifs at h with hm
    cases h
    exact ⟨fun _ => .inl rfl, .inr (.inl hm)⟩
  | check =>
    cases h
    exact ⟨fun _ => .inr ⟨rfl, rfl⟩, .inl rfl⟩
  | pop | recheck | blocked | exited => cases h

theorem lockStep_caller {i : κ} {pc : CallerPc T} {next : CallerPc T × Option (Owner n κ)}
    (h : s.callerNext i pc = some next) :
    LockStep (.caller i) pc.holds next.1.holds s.mutex next.2 := by
  cases pc with
  | lock =>
    simp only [callerNext] at h
    split_ifs at h with hm
    cases h
    exact ⟨fun _ => .inl rfl, .inr (.inl hm)⟩
  | notify =>
    cases h
    exact ⟨fun _ => .inr ⟨rfl, rfl⟩, .inl rfl⟩
  | unlock =>
    cases h
    exact ⟨by simp [CallerPc.holds], .inr (.inr rfl)⟩
  | outside | push => cases h

end Lock

/-! ## Steps at the queue -/

section Queue

variable [DecidableEq κ] {s s' : ThreadPool n κ T}

structure QueueStep (s : ThreadPool n κ T) (t : Thread n κ) (q : MpmcQueue (Thread n κ) T) : Prop where
  effect : s.queue.Effect queueCapacity t q
  inv : q.Inv queueCapacity
  worker : ∀ w, t = .worker w → (s.workers w).inCall = true ∧ (q.ops t).isPush = false
  caller : ∀ i, t = .caller i → (s.callers i).inCall = true ∧ (q.ops t).isPop = false

/-- A call returns. -/
structure Ret (s : ThreadPool n κ T) (t : Thread n κ) (q : MpmcQueue (Thread n κ) T) : Prop where
  inv : q.Inv queueCapacity
  ops : q.ops = update s.queue.ops t .idle
  enqueuePos : q.enqueuePos = s.queue.enqueuePos
  dequeuePos : q.dequeuePos = s.queue.dequeuePos
  sequence : q.sequence = s.queue.sequence
  pushed : s.queue.pushed ⊆ q.pushed
  popped : s.queue.popped ⊆ q.popped

variable {q : MpmcQueue (Thread n κ) T} {t : Thread n κ}

theorem Ret.of_ne {t' : Thread n κ} (h : s.Ret t q) (hne : t' ≠ t) :
    q.ops t' = s.queue.ops t' := by
  rw [h.ops, update_of_ne hne]

theorem queueStep_of_run (h : s.Wf) {spurious : Bool}
    (hf : s.queue.Fresh (.run t spurious)) (hs : s.queue.run queueCapacity t spurious = some q) :
    s.QueueStep t q := by
  have hkind := isPush_run hs
  have hne : s.queue.ops t ≠ .idle := by
    intro hop
    rw [run, hop] at hs
    cases hs
  refine ⟨effect_run h.queue hf hs, h.queue.run hf hs, ?_, ?_⟩
  · rintro w rfl
    exact ⟨(h.workerCall w hne).1, hkind.1.trans (h.workerCall w hne).2⟩
  · rintro i rfl
    exact ⟨(h.callerCall i hne).1, hkind.2.trans (h.callerCall i hne).2⟩

theorem queueStep_of_step [DecidableEq T] (h : s.Wf) {e : MpmcQueue.Event (Thread n κ) T} (hf : s.queue.Fresh e)
    (hs : s.step (.queue e) = some s') : ∃ t q, s' = { s with queue := q } ∧ s.QueueStep t q := by
  simp only [step] at hs
  split_ifs at hs with hin
  obtain ⟨q, hq, rfl⟩ := map_eq_some_iff.mp hs
  have hinv : q.Inv queueCapacity := MpmcQueue.inv_step hf hq h.queue
  cases e with
  | push t v =>
    cases t with
    | worker w => cases hin
    | caller i =>
      refine ⟨.caller i, q, rfl, MpmcQueue.effect_push hq, hinv, (fun _ ht => by cases ht), ?_⟩
      rintro j ⟨⟩
      have hpc : s.callers i = .push v := hin
      refine ⟨by rw [hpc]; rfl, ?_⟩
      simp only [MpmcQueue.step] at hq
      split at hq <;> cases hq
      simp [MpmcQueue.goto, Op.isPop]
  | pop t =>
    cases t with
    | worker w =>
      refine ⟨.worker w, q, rfl, MpmcQueue.effect_pop hq, hinv, ?_, (fun _ ht => by cases ht)⟩
      rintro j ⟨⟩
      refine ⟨hin, ?_⟩
      simp only [MpmcQueue.step] at hq
      split at hq <;> cases hq
      simp [MpmcQueue.goto, Op.isPush]
    | caller i => cases hin
  | run t spurious => exact ⟨t, q, rfl, queueStep_of_run h hf hq⟩
  | ret t => cases hin

theorem ret_of_step (h : s.Wf) (hs : s.queue.step queueCapacity (.ret t) = some q) : s.Ret t q := by
  have hinv : q.Inv queueCapacity := MpmcQueue.inv_step (e := .ret t) trivial hs h.queue
  simp only [MpmcQueue.step] at hs
  split at hs
  case h_1 =>
    cases hs
    exact ⟨hinv, rfl, rfl, rfl, rfl, List.subset_append_left _ _, refl _⟩
  case h_2 =>
    cases hs
    exact ⟨hinv, rfl, rfl, rfl, rfl, refl _, refl _⟩
  case h_3 =>
    cases hs
    exact ⟨hinv, rfl, rfl, rfl, rfl, refl _, List.subset_append_left _ _⟩
  case h_4 =>
    cases hs
    exact ⟨hinv, rfl, rfl, rfl, rfl, refl _, refl _⟩
  case h_5 => cases hs

variable [DecidableEq T]

theorem retWorker_of_step (h : s.Wf) {w : Worker n} (hs : s.step (.ret (.worker w)) = some s') :
    ∃ pc q, (s.workers w).after (s.queue.ops (.worker w)) = some pc ∧ s.Ret (.worker w) q ∧
      (∀ r, pc.hand = some r → r ∈ q.popped) ∧
      s' = { s with queue := q, workers := update s.workers w pc } := by
  obtain ⟨pc, hpc, hs⟩ := bind_eq_some_iff.mp hs
  obtain ⟨q, hq, rfl⟩ := map_eq_some_iff.mp hs
  refine ⟨pc, q, hpc, ret_of_step h hq, fun r hr => ?_, rfl⟩
  -- only a call that has found a job leaves one in the hand
  simp only [MpmcQueue.step] at hq
  cases hop : s.queue.ops (.worker w) with
  | popDone pos out =>
    rw [hop] at hpc hq
    cases hq
    have hr' : r = (pos, out) := by
      cases hw : s.workers w <;> rw [hw] at hpc <;> cases hpc <;> exact (Option.some.inj hr).symm
    rw [hr']
    exact List.mem_append_right _ (List.mem_singleton_self _)
  | _ =>
    rw [hop] at hpc
    cases hw : s.workers w <;> rw [hw] at hpc <;> cases hpc <;> cases hr

theorem retCaller_of_step (h : s.Wf) {i : κ} (hs : s.step (.ret (.caller i)) = some s') :
    ∃ pc q, (s.callers i).after (s.queue.ops (.caller i)) = some pc ∧ s.Ret (.caller i) q ∧
      (∀ r, pc.hand = some r → r ∈ q.pushed) ∧
      s' = { s with queue := q, callers := update s.callers i pc } := by
  obtain ⟨pc, hpc, hs⟩ := bind_eq_some_iff.mp hs
  obtain ⟨q, hq, rfl⟩ := map_eq_some_iff.mp hs
  refine ⟨pc, q, hpc, ret_of_step h hq, fun r hr => ?_, rfl⟩
  simp only [MpmcQueue.step] at hq
  cases hop : s.queue.ops (.caller i) with
  | pushDone v pos =>
    rw [hop] at hpc hq
    cases hq
    have hr' : r = (pos, v) := by
      cases hw : s.callers i <;> rw [hw] at hpc <;> cases hpc
      exact (Option.some.inj hr).symm
    rw [hr']
    exact List.mem_append_right _ (List.mem_singleton_self _)
  | _ =>
    rw [hop] at hpc
    cases hw : s.callers i <;> rw [hw] at hpc <;> cases hpc <;> cases hr

/-- **What a step can do.** -/
inductive Move (s : ThreadPool n κ T) : Event n κ T → ThreadPool n κ T → Prop
  | enqueue {i : κ} {v : T} : s.callers i = .outside →
      Move s (.enqueue i v) { s with callers := update s.callers i (.push v) }
  | queue {e : MpmcQueue.Event (Thread n κ) T} {t : Thread n κ} {q : MpmcQueue (Thread n κ) T} :
      s.QueueStep t q → Move s (.queue e) { s with queue := q }
  | retWorker {w : Worker n} {pc : WorkerPc T} {q : MpmcQueue (Thread n κ) T} :
      (s.workers w).after (s.queue.ops (.worker w)) = some pc → s.Ret (.worker w) q →
      (∀ r, pc.hand = some r → r ∈ q.popped) →
      Move s (.ret (.worker w)) { s with queue := q, workers := update s.workers w pc }
  | retCaller {i : κ} {pc : CallerPc T} {q : MpmcQueue (Thread n κ) T} :
      (s.callers i).after (s.queue.ops (.caller i)) = some pc → s.Ret (.caller i) q →
      (∀ r, pc.hand = some r → r ∈ q.pushed) →
      Move s (.ret (.caller i)) { s with queue := q, callers := update s.callers i pc }
  | worker {w : Worker n} {next : WorkerPc T × Option (Owner n κ)} : s.workerNext w (s.workers w) = some next →
      Move s (.worker w) { s with
        workers := update s.workers w next.1
        mutex := next.2
        executed := s.executed ++ (s.workers w).runs }
  | caller {i : κ} {woken : Option (Worker n)} {next : CallerPc T × Option (Owner n κ)} :
      s.CanWake (s.callers i) woken → s.callerNext i (s.callers i) = some next →
      Move s (.caller i woken) { s with
        callers := update s.callers i next.1
        workers := s.notified woken
        mutex := next.2
        completed := s.completed ++ (s.callers i).returns }
  | wake {w : Worker n} : s.workers w = .blocked →
      Move s (.wake w) { s with workers := update s.workers w .woken }
  | stop : s.destructor = .outside →
      Move s .destructor { s with
        destructor := .lock
        stopping := true
        promised := s.completed
        stopPos := s.queue.enqueuePos }
  | lock : s.destructor = .lock → s.mutex = none →
      Move s .destructor { s with destructor := .unlock, mutex := some .destructor }
  | unlock : s.destructor = .unlock → Move s .destructor { s with destructor := .notify, mutex := none }
  | notifyAll {workers : Worker n → WorkerPc T} : s.destructor = .notify →
      (∀ w, workers w = s.workers w ∨ (s.workers w = .blocked ∧ workers w = .woken)) →
      Move s .destructor { s with destructor := .join, workers := workers }
  | join : s.destructor = .join → (∀ w, s.workers w = .exited) →
      Move s .destructor { s with destructor := .returned }

theorem move_of_step (h : s.Wf) {e : Event n κ T} (hf : s.Fresh e) (hs : s.step e = some s') : Move s e s' := by
  cases e with
  | enqueue i v =>
    simp only [step] at hs
    split_ifs at hs with hpc
    cases hs
    exact .enqueue hpc
  | queue e =>
    obtain ⟨t, q, rfl, hq⟩ := queueStep_of_step h hf hs
    exact .queue hq
  | ret t =>
    cases t with
    | worker w =>
      obtain ⟨pc, q, hpc, hq, hhand, rfl⟩ := retWorker_of_step h hs
      exact .retWorker hpc hq hhand
    | caller i =>
      obtain ⟨pc, q, hpc, hq, hhand, rfl⟩ := retCaller_of_step h hs
      exact .retCaller hpc hq hhand
  | worker w =>
    obtain ⟨next, hn, rfl⟩ := map_eq_some_iff.mp hs
    exact .worker hn
  | caller i woken =>
    simp only [step] at hs
    split_ifs at hs with hw
    obtain ⟨next, hn, rfl⟩ := map_eq_some_iff.mp hs
    exact .caller hw hn
  | wake w =>
    simp only [step] at hs
    split_ifs at hs with hb
    cases hs
    exact .wake hb
  | destructor =>
    simp only [step] at hs
    cases hd : s.destructor with
    | outside =>
      rw [hd] at hs
      cases hs
      exact .stop hd
    | lock =>
      rw [hd] at hs
      dsimp only at hs
      split_ifs at hs with hm
      cases hs
      exact .lock hd hm
    | unlock =>
      rw [hd] at hs
      cases hs
      exact .unlock hd
    | notify =>
      rw [hd] at hs
      cases hs
      refine .notifyAll hd fun w => ?_
      by_cases hb : s.workers w = .blocked
      · exact .inr ⟨hb, if_pos hb⟩
      · exact .inl (if_neg hb)
    | join =>
      rw [hd] at hs
      dsimp only at hs
      split_ifs at hs with hall
      cases hs
      exact .join hd hall
    | returned =>
      rw [hd] at hs
      cases hs

end Queue

/-! ## Every step -/

section Step

variable {s s' : ThreadPool n κ T}

variable {op : Op T} {pc : WorkerPc T} {next : WorkerPc T × Option (Owner n κ)} {w : Worker n} {i : κ}
  {q : MpmcQueue (Thread n κ) T}

theorem WorkerPc.holds_after {pc' : WorkerPc T} (h : pc.after op = some pc') :
    pc'.holds = pc.holds := by
  cases pc <;> cases op <;> cases h <;> rfl

theorem CallerPc.holds_after {pc pc' : CallerPc T} (h : pc.after op = some pc') :
    pc'.holds = false := by
  cases pc <;> cases op <;> cases h <;> rfl

theorem inCall_of_workerNext (h : s.workerNext w pc = some next) : pc.inCall = false := by
  cases pc with
  | pop | recheck => cases h
  | _ => rfl

theorem inCall_of_callerNext {pc : CallerPc T} {next : CallerPc T × Option (Owner n κ)}
    (h : s.callerNext i pc = some next) : pc.inCall = false := by
  cases pc with
  | push => cases h
  | _ => rfl

theorem Wf.worker_idle (h : s.Wf) (hpc : (s.workers w).inCall = false) :
    s.queue.ops (.worker w) = .idle := by
  by_contra hne
  rw [(h.workerCall w hne).1] at hpc
  cases hpc

theorem Wf.caller_idle (h : s.Wf) (hpc : (s.callers i).inCall = false) :
    s.queue.ops (.caller i) = .idle := by
  by_contra hne
  rw [(h.callerCall i hne).1] at hpc
  cases hpc

theorem notified_cases {woken : Option (Worker n)} (h : s.CanWake (s.callers i) woken) (w : Worker n) :
    s.notified woken w = s.workers w ∨ (s.workers w = .blocked ∧ s.notified woken w = .woken) := by
  cases woken with
  | none => exact .inl rfl
  | some w' =>
    by_cases hw : w = w'
    · subst hw
      refine .inr ⟨?_, update_self ..⟩
      cases hpc : s.callers i with
      | notify pos v =>
        rw [hpc] at h
        exact h
      | _ =>
        rw [hpc] at h
        cases h
    · exact .inl (update_of_ne hw ..)

theorem wake_cases (hb : s.workers w = .blocked) (w' : Worker n) :
    update s.workers w .woken w' = s.workers w' ∨
      (s.workers w' = .blocked ∧ update s.workers w .woken w' = .woken) := by
  by_cases hw : w' = w
  · subst hw
    exact .inr ⟨hb, update_self ..⟩
  · exact .inl (update_of_ne hw ..)

theorem Wf.worker_step (h : s.Wf)
    (hn : s.workerNext w (s.workers w) = some next) (executed : List (ℕ × Option T)) :
    ({ s with workers := update s.workers w next.1, mutex := next.2, executed := executed } :
      ThreadPool n κ T).Wf := by
  have hlock := lockStep_worker hn
  refine ⟨h.queue, fun w' hne => ?_, h.callerCall, fun w' hh => ?_, fun i hh => ?_, fun hd => ?_⟩
  · by_cases hw : w' = w
    · subst hw
      exact absurd (h.worker_idle (inCall_of_workerNext hn)) hne
    · simp only [update_of_ne hw]
      exact h.workerCall w' hne
  · by_cases hw : w' = w
    · subst hw
      simp only [update_self] at hh
      exact hlock.self (h.worker w') hh
    · simp only [update_of_ne hw] at hh
      exact hlock.of_ne (h.worker w) (fun he => hw (Owner.worker.inj he)) (h.worker w' hh)
  · exact hlock.of_ne (h.worker w) nofun (h.caller i hh)
  · exact hlock.of_ne (h.worker w) nofun (h.destructor hd)

/-- Workers that are woken up: they were in no call, and do not own the mutex. -/
theorem Wf.wake (h : s.Wf) {workers : Worker n → WorkerPc T}
    (hw : ∀ w, workers w = s.workers w ∨ (s.workers w = .blocked ∧ workers w = .woken)) :
    ({ s with workers := workers } : ThreadPool n κ T).Wf := by
  refine ⟨h.queue, fun w hne => ?_, h.callerCall, fun w hh => ?_, h.caller, h.destructor⟩
  · rcases hw w with he | ⟨hb, _⟩
    · simp only [he]
      exact h.workerCall w hne
    · exact absurd (h.worker_idle (by rw [hb]; rfl)) hne
  · rcases hw w with he | ⟨_, he⟩
    · simp only [he] at hh
      exact h.worker w hh
    · simp only [he] at hh
      cases hh

theorem Wf.destructor_step (h : s.Wf) {pc : DestructorPc} {m : Option (Owner n κ)}
    (hlock : LockStep .destructor (s.destructor = .unlock) (pc = .unlock) s.mutex m) :
    ({ s with destructor := pc, mutex := m } : ThreadPool n κ T).Wf := by
  have hd : decide (s.destructor = .unlock) = true → s.mutex = some .destructor := fun hd =>
    h.destructor (of_decide_eq_true hd)
  refine ⟨h.queue, h.workerCall, h.callerCall, fun w hh => ?_, fun i hh => ?_, fun hpc => ?_⟩
  · exact hlock.of_ne hd nofun (h.worker w hh)
  · exact hlock.of_ne hd nofun (h.caller i hh)
  · exact hlock.self hd (decide_eq_true hpc)

variable [DecidableEq κ]

theorem Wf.queueStep (h : s.Wf) {t : Thread n κ} (hq : s.QueueStep t q) :
    ({ s with queue := q } : ThreadPool n κ T).Wf := by
  refine ⟨hq.inv, fun w hne => ?_, fun i hne => ?_, h.worker, h.caller, h.destructor⟩
  · by_cases ht : t = .worker w
    · exact ht ▸ hq.worker w ht
    · have hop := hq.effect.ops (.worker w) (Ne.symm ht)
      simp only [hop] at hne ⊢
      exact h.workerCall w hne
  · by_cases ht : t = .caller i
    · exact ht ▸ hq.caller i ht
    · have hop := hq.effect.ops (.caller i) (Ne.symm ht)
      simp only [hop] at hne ⊢
      exact h.callerCall i hne

theorem Wf.retWorker (h : s.Wf)
    (hpc : (s.workers w).after (s.queue.ops (.worker w)) = some pc) (hq : s.Ret (.worker w) q) :
    ({ s with queue := q, workers := update s.workers w pc } : ThreadPool n κ T).Wf := by
  refine ⟨hq.inv, fun w' hne => ?_, fun i hne => ?_, fun w' hh => ?_, h.caller, h.destructor⟩
  · by_cases hw : w' = w
    · subst hw
      simp only [hq.ops, update_self] at hne
      exact absurd rfl hne
    · have hop : q.ops (.worker w') = s.queue.ops (.worker w') :=
        hq.of_ne fun he => hw (Thread.worker.inj he)
      simp only [hop, update_of_ne hw] at hne ⊢
      exact h.workerCall w' hne
  · have hop : q.ops (.caller i) = s.queue.ops (.caller i) := hq.of_ne nofun
    simp only [hop] at hne ⊢
    exact h.callerCall i hne
  · refine h.worker w' ?_
    by_cases hw : w' = w
    · subst hw
      simp only [update_self, WorkerPc.holds_after hpc] at hh
      exact hh
    · simp only [update_of_ne hw] at hh
      exact hh

theorem Wf.retCaller (h : s.Wf) {pc : CallerPc T}
    (hpc : (s.callers i).after (s.queue.ops (.caller i)) = some pc) (hq : s.Ret (.caller i) q) :
    ({ s with queue := q, callers := update s.callers i pc } : ThreadPool n κ T).Wf := by
  refine ⟨hq.inv, fun w hne => ?_, fun j hne => ?_, h.worker, fun j hh => ?_, h.destructor⟩
  · have hop : q.ops (.worker w) = s.queue.ops (.worker w) := hq.of_ne nofun
    simp only [hop] at hne ⊢
    exact h.workerCall w hne
  · by_cases hj : j = i
    · subst hj
      simp only [hq.ops, update_self] at hne
      exact absurd rfl hne
    · have hop : q.ops (.caller j) = s.queue.ops (.caller j) :=
        hq.of_ne fun he => hj (Thread.caller.inj he)
      simp only [hop, update_of_ne hj] at hne ⊢
      exact h.callerCall j hne
  · refine h.caller j ?_
    by_cases hj : j = i
    · subst hj
      simp only [update_self, CallerPc.holds_after hpc] at hh
      cases hh
    · simp only [update_of_ne hj] at hh
      exact hh

theorem Wf.caller_step (h : s.Wf) {next : CallerPc T × Option (Owner n κ)}
    (hn : s.callerNext i (s.callers i) = some next) (completed : List (ℕ × T)) :
    ({ s with callers := update s.callers i next.1, mutex := next.2, completed := completed } :
      ThreadPool n κ T).Wf := by
  have hlock := lockStep_caller hn
  refine ⟨h.queue, h.workerCall, fun j hne => ?_, fun w hh => ?_, fun j hh => ?_, fun hd => ?_⟩
  · by_cases hj : j = i
    · subst hj
      exact absurd (h.caller_idle (inCall_of_callerNext hn)) hne
    · simp only [update_of_ne hj]
      exact h.callerCall j hne
  · exact hlock.of_ne (h.caller i) nofun (h.worker w hh)
  · by_cases hj : j = i
    · subst hj
      simp only [update_self] at hh
      exact hlock.self (h.caller j) hh
    · simp only [update_of_ne hj] at hh
      exact hlock.of_ne (h.caller i) (fun he => hj (Owner.caller.inj he)) (h.caller j hh)
  · exact hlock.of_ne (h.caller i) nofun (h.destructor hd)

theorem Wf.enqueue (h : s.Wf) (hpc : s.callers i = .outside) (v : T) :
    ({ s with callers := update s.callers i (.push v) } : ThreadPool n κ T).Wf := by
  refine ⟨h.queue, h.workerCall, fun j hne => ?_, h.worker, fun j hh => h.caller j ?_, h.destructor⟩
  · by_cases hj : j = i
    · subst hj
      exact absurd (h.caller_idle (by rw [hpc]; rfl)) hne
    · simp only [update_of_ne hj]
      exact h.callerCall j hne
  · by_cases hj : j = i
    · subst hj
      simp only [update_self] at hh
      cases hh
    · simp only [update_of_ne hj] at hh
      exact hh

theorem wf_step [DecidableEq T] {e : Event n κ T} (hf : s.Fresh e) (hs : s.step e = some s') (h : s.Wf) : s'.Wf := by
  -- the destructor neither takes the mutex nor gives it back
  have hsame : ∀ pc : DestructorPc, pc ≠ .unlock →
      LockStep .destructor (s.destructor = .unlock) (pc = .unlock) s.mutex s.mutex := fun _ hpc =>
    ⟨fun he => absurd (of_decide_eq_true he) hpc, .inl rfl⟩
  cases move_of_step h hf hs with
  | enqueue hpc => exact h.enqueue hpc _
  | queue hq => exact h.queueStep hq
  | retWorker hpc hq => exact h.retWorker hpc hq
  | retCaller hpc hq => exact h.retCaller hpc hq
  | worker hn => exact h.worker_step hn _
  | caller hw hn => exact (h.caller_step hn _).wake (notified_cases hw)
  | wake hb => exact h.wake (wake_cases hb)
  | stop => exact { h.destructor_step (hsame .lock nofun) with }
  | lock hd hm => exact h.destructor_step ⟨fun _ => .inl rfl, .inr (.inl hm)⟩
  | unlock hd => exact h.destructor_step ⟨nofun, .inr (.inr (by rw [hd]; rfl))⟩
  | notifyAll hd hw => exact (h.destructor_step (hsame .join nofun)).wake hw
  | join => exact h.destructor_step (hsame .returned nofun)

end Step

end ThreadPool

end Nhttp.Async
