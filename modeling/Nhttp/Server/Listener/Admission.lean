import Nhttp.Lib.Lists
import Nhttp.Lib.Run

/-!
# Admission of connections

Every worker that has a fresh connection loads `active_connections_`, compares it with the limit and, if
there is room, adds one and starts the handler, which takes one off at its end. A connection that is spliced
to an upstream goes on in two pumps, which nobody waits for.

* `Orderly`: no worker loads the counter while another is between its load and its addition, and no
  connection is spliced.
* **`active_eq_admitted`**: the counter is the number of running handlers; in an `Orderly` run these are the
  connections that are not finished, and they stay within the limit.
-/

namespace Nhttp.Server

open Lists

/-- Which handler a connection gets. -/
inductive Endpoint
  | plain
  | tls
  deriving DecidableEq, Repr

/-- A connection that `accept` has returned. -/
structure Accepted where
  endpoint : Endpoint
  fd : ℕ
  deriving DecidableEq, Repr

inductive WorkerPc
  /-- In the reactor, or in a coroutine that does not admit a connection. -/
  | idle
  /-- With a connection, in front of the load of the counter. -/
  | accepted (c : Accepted)
  /-- The counter was below the limit: in front of the addition. -/
  | loaded (c : Accepted)
  deriving DecidableEq, Repr

namespace WorkerPc

/-- Between the load and the addition. -/
def isLoaded : WorkerPc → Bool
  | .loaded _ => true
  | _ => false

end WorkerPc

/-- How `run_connection` ends, or that it is not called. -/
inductive Exit
  | returned
  /-- An exception, which the handler catches. -/
  | threw
  /-- The TLS handshake fails. -/
  | refused
  /-- The proxy answered an upgrade, and started two pumps. -/
  | spliced
  deriving DecidableEq, Repr

def Exit.pumps : Exit → ℕ
  | .spliced => 2
  | _ => 0

/-- Where `handle_connection` or `handle_connection_tls` is. -/
inductive HandlerPc
  | running
  /-- In front of the subtraction. -/
  | leaving
  | left
  deriving DecidableEq, Repr

/-- A connection that has been admitted, with its worker and the pumps that are left of it. -/
structure Admitted where
  worker : ℕ
  conn : Accepted
  handler : HandlerPc := .running
  pumps : ℕ := 0
  deriving DecidableEq, Repr

def Admitted.counted (a : Admitted) : Bool := a.handler != .left

def Admitted.finished (a : Admitted) : Bool := a.handler == .left && a.pumps == 0

structure Listener where
  maxConnections : ℕ
  workers : List WorkerPc
  active : ℕ := 0
  nextWorker : ℕ := 0
  /-- The `dispatch_accepted` coroutines that wait for their worker. -/
  scheduled : List (ℕ × Accepted) := []
  /-- The connections that have been admitted and are not finished. -/
  admitted : List Admitted := []
  deriving DecidableEq, Repr

namespace Listener

/-- A step of the worker `w`. -/
inductive Event
  /-- `accept` returns; with `distribute` the connection is handed to another worker. -/
  | accept (w : ℕ) (c : Accepted) (distribute : Bool)
  | resume (w : ℕ) (c : Accepted)
  | load (w : ℕ)
  | add (w : ℕ)
  /-- The handler of the admitted connection `i` gets behind its `try`. -/
  | leave (i : ℕ) (exit : Exit)
  | sub (i : ℕ)
  /-- One of the pumps of the connection `i` ends. -/
  | pumpEnds (i : ℕ)
  deriving DecidableEq, Repr

def setWorker (s : Listener) (w : ℕ) (pc : WorkerPc) : Listener :=
  { s with workers := s.workers.set w pc }

/-- `pick_worker_round_robin`, and the `dispatch_accepted` that it is picked for. -/
def dispatchAccepted (s : Listener) (c : Accepted) : Listener :=
  { s with
    nextWorker := (s.nextWorker + 1) % 2 ^ 64
    scheduled := s.scheduled ++ [(s.nextWorker % s.workers.length, c)] }

/-- What becomes of the admitted connection `i`. -/
def putAdmitted (s : Listener) (i : ℕ) (a : Admitted) : Listener :=
  { s with admitted := if a.finished then s.admitted.eraseIdx i else s.admitted.set i a }

/-- A step of the admitted connection `i`, when its worker has nothing else to do. -/
def advance (s : Listener) (i : ℕ) (f : Admitted → Option Admitted) : Option Listener :=
  match s.admitted[i]? with
  | some a => if s.workers[a.worker]? = some .idle then (f a).map (s.putAdmitted i) else none
  | none => none

def step (s : Listener) : Event → Option Listener
  | .accept w c distribute =>
    if s.workers[w]? = some .idle then
      some (if distribute then s.dispatchAccepted c else s.setWorker w (.accepted c))
    else none
  | .resume w c =>
    if s.workers[w]? = some .idle ∧ (w, c) ∈ s.scheduled then
      some { s.setWorker w (.accepted c) with scheduled := s.scheduled.erase (w, c) }
    else none
  | .load w =>
    match s.workers[w]? with
    | some (.accepted c) =>
      -- above the limit the connection is closed
      some (s.setWorker w (if s.maxConnections ≤ s.active then .idle else .loaded c))
    | _ => none
  | .add w =>
    match s.workers[w]? with
    | some (.loaded c) =>
      some { s.setWorker w .idle with active := s.active + 1, admitted := { worker := w, conn := c } :: s.admitted }
    | _ => none
  | .leave i exit =>
    s.advance i fun a =>
      if a.handler = .running then some { a with handler := .leaving, pumps := exit.pumps } else none
  | .sub i =>
    advance { s with active := s.active - 1 } i fun a =>
      if a.handler = .leaving then some { a with handler := .left } else none
  | .pumpEnds i => s.advance i fun a => if 0 < a.pumps then some { a with pumps := a.pumps - 1 } else none

/-- A listener with `n` workers before the first connection. -/
def start (n maxConnections : ℕ) : Listener :=
  { maxConnections := maxConnections, workers := List.replicate n .idle }

/-- The counter is loaded while no worker is between its load and its addition, and no connection is spliced. -/
def Orderly (s : Listener) : Event → Prop
  | .load _ => ∀ pc ∈ s.workers, pc.isLoaded = false
  | .leave _ exit => exit ≠ .spliced
  | _ => True

instance (s : Listener) (e : Event) : Decidable (s.Orderly e) := by
  unfold Orderly
  split <;> infer_instance

/-! ## What a step does -/

inductive Change (a : Admitted) : Event → ℕ → Admitted → Prop
  | leave {i : ℕ} {exit : Exit} : a.handler = .running →
      Change a (.leave i exit) 0 { a with handler := .leaving, pumps := exit.pumps }
  | sub {i : ℕ} : a.handler = .leaving → Change a (.sub i) 1 { a with handler := .left }
  | pumpEnds {i : ℕ} : 0 < a.pumps → Change a (.pumpEnds i) 0 { a with pumps := a.pumps - 1 }

inductive Move (s : Listener) : Event → Listener → Prop
  | other {e : Event} {s' : Listener} : s'.maxConnections = s.maxConnections →
      (s'.workers = s.workers ∨ ∃ w pc, pc.isLoaded = false ∧ s'.workers = s.workers.set w pc) →
      s'.active = s.active → s'.admitted = s.admitted → Move s e s'
  | load (w : ℕ) (c : Accepted) : s.active < s.maxConnections →
      Move s (.load w) (s.setWorker w (.loaded c))
  | add (w : ℕ) (c : Accepted) : s.workers[w]? = some (.loaded c) →
      Move s (.add w)
        { s.setWorker w .idle with active := s.active + 1, admitted := { worker := w, conn := c } :: s.admitted }
  | change {e : Event} {i n : ℕ} {a a' : Admitted} : s.admitted[i]? = some a → Change a e n a' →
      Move s e (putAdmitted { s with active := s.active - n } i a')

theorem advance_eq_some {s s' : Listener} {i : ℕ} {f : Admitted → Option Admitted} (h : s.advance i f = some s') :
    ∃ a a', s.admitted[i]? = some a ∧ f a = some a' ∧ s.putAdmitted i a' = s' := by
  unfold advance at h
  split at h
  · rename_i a ha
    split_ifs at h
    obtain ⟨a', hf, hs⟩ := Option.map_eq_some_iff.mp h
    exact ⟨a, a', ha, hf, hs⟩
  · cases h

theorem move_of_step {s s' : Listener} {e : Event} (h : s.step e = some s') : Move s e s' := by
  cases e with
  | accept w c distribute =>
    simp only [step] at h
    split_ifs at h with hw hd
    · cases h
      exact .other rfl (.inl rfl) rfl rfl
    · cases h
      exact .other rfl (.inr ⟨w, _, rfl, rfl⟩) rfl rfl
  | resume w c =>
    simp only [step] at h
    split_ifs at h with hw
    cases h
    exact .other rfl (.inr ⟨w, _, rfl, rfl⟩) rfl rfl
  | load w =>
    simp only [step] at h
    split at h
    · rename_i c hw
      by_cases hm : s.maxConnections ≤ s.active
      · rw [if_pos hm] at h
        cases h
        exact .other rfl (.inr ⟨w, _, rfl, rfl⟩) rfl rfl
      · rw [if_neg hm] at h
        cases h
        exact .load w c (Nat.lt_of_not_le hm)
    · cases h
  | add w =>
    simp only [step] at h
    split at h
    · rename_i c hw
      cases h
      exact .add w c hw
    · cases h
  | leave i exit =>
    obtain ⟨a, a', ha, hf, rfl⟩ := advance_eq_some h
    split_ifs at hf with hg
    cases hf
    exact .change ha (.leave hg)
  | sub i =>
    obtain ⟨a, a', ha, hf, rfl⟩ := advance_eq_some h
    split_ifs at hf with hg
    cases hf
    exact .change ha (.sub hg)
  | pumpEnds i =>
    obtain ⟨a, a', ha, hf, rfl⟩ := advance_eq_some h
    split_ifs at hf with hg
    cases hf
    exact .change ha (.pumpEnds hg)

/-! ## The counter -/

variable {s s' : Listener} {e : Event} {i n : ℕ} {a a' : Admitted}

/-- The handlers that will take one off. -/
def counted (s : Listener) : ℕ := s.admitted.countP Admitted.counted

theorem counted_putAdmitted (h : s.admitted[i]? = some a) (a' : Admitted) :
    (s.putAdmitted i a').counted + (if a.counted then 1 else 0) = s.counted + (if a'.counted then 1 else 0) := by
  have hset := countP_set_add Admitted.counted a' h
  unfold counted putAdmitted
  by_cases hf : a'.finished = true
  · -- what is finished is not counted, so that it may as well stay
    have hi : i < (s.admitted.set i a').length := by
      rw [List.length_set]
      exact (List.getElem?_eq_some_iff.mp h).1
    have hperm := (List.getElem_cons_eraseIdx_perm hi).countP_eq Admitted.counted
    have hc : a'.counted = false := by
      simp only [Admitted.finished, Bool.and_eq_true, beq_iff_eq] at hf
      simp [Admitted.counted, hf.1]
    rw [List.getElem_set_self, List.eraseIdx_set_eq, List.countP_cons_of_neg (by simp [hc])] at hperm
    rw [if_pos hf, hperm, hset]
  · rw [if_neg hf]
    exact hset

/-- **The counter** goes down exactly where a handler takes itself off. -/
theorem counted_change (h : s.admitted[i]? = some a) (hc : Change a e n a') :
    (s.putAdmitted i a').counted + n = s.counted := by
  have hput := counted_putAdmitted h a'
  cases hc with
  | leave hr => simpa [Admitted.counted, hr] using hput
  | sub hr => simpa [Admitted.counted, hr] using hput
  | pumpEnds => exact Nat.add_right_cancel hput

theorem active_step (h : s.active = s.counted) (hs : s.step e = some s') : s'.active = s'.counted := by
  cases move_of_step hs with
  | other _ _ ha hh => rw [ha, counted, hh, h, counted]
  | load => exact h
  | add w c =>
    simp only [counted, List.countP_cons_of_pos (show Admitted.counted { worker := w, conn := c } = true from rfl)]
    exact congrArg (· + 1) h
  | @change _ i n _ a' ha hc =>
    have := counted_change ha hc
    change s.active - n = (s.putAdmitted i a').counted
    omega

/-! ## The limit -/

def admitting (s : Listener) : ℕ := s.workers.countP WorkerPc.isLoaded

/-- There is room for everybody who has been told so, and every connection has its handler. -/
structure Fits (s : Listener) : Prop where
  room : s.active + s.admitting ≤ s.maxConnections
  handlers : ∀ a ∈ s.admitted, a.counted = true ∧ a.pumps = 0

theorem countP_set_le {l : List WorkerPc} {w : ℕ} {pc : WorkerPc} (h : pc.isLoaded = false) :
    (l.set w pc).countP WorkerPc.isLoaded ≤ l.countP WorkerPc.isLoaded := by
  cases hw : l[w]? with
  | none =>
    have hsame : l.set w pc = l := List.set_eq_of_length_le (List.getElem?_eq_none_iff.mp hw)
    exact Nat.le_of_eq (congrArg (List.countP WorkerPc.isLoaded) hsame)
  | some pc' =>
    have hc := countP_set_add WorkerPc.isLoaded pc hw
    rw [h] at hc
    simp only [Bool.false_eq_true, if_false] at hc
    omega

theorem room_step (h : s.active + s.admitting ≤ s.maxConnections) (hc : s.Orderly e) (hs : s.step e = some s') :
    s'.active + s'.admitting ≤ s'.maxConnections := by
  unfold admitting at h ⊢
  cases move_of_step hs with
  | other hm hw ha _ =>
    rw [hm, ha]
    obtain hw | ⟨w, pc, hpc, hw⟩ := hw
    · rw [hw]
      exact h
    · have hle := countP_set_le (l := s.workers) (w := w) hpc
      rw [hw]
      omega
  | load w c hlt =>
    -- nobody else has been told that there is room
    have hnone : s.workers.countP WorkerPc.isLoaded = 0 := by
      rw [List.countP_eq_zero]
      intro pc hpc
      rw [hc pc hpc]
      simp
    have hone : (s.workers.set w (.loaded c)).countP WorkerPc.isLoaded ≤ 1 := by
      cases hw : s.workers[w]? with
      | none =>
        rw [List.set_eq_of_length_le (List.getElem?_eq_none_iff.mp hw), hnone]
        exact Nat.zero_le 1
      | some pc =>
        have hadd := countP_set_add WorkerPc.isLoaded (.loaded c) hw
        split_ifs at hadd <;> omega
    simp only [setWorker]
    omega
  | add w c hw =>
    have hadd := countP_set_add WorkerPc.isLoaded .idle hw
    have h1 : (WorkerPc.loaded c).isLoaded = true := rfl
    have h2 : WorkerPc.idle.isLoaded = false := rfl
    simp only [h1, h2, if_true, Bool.false_eq_true, if_false] at hadd
    simp only [setWorker]
    omega
  | change =>
    simp only [putAdmitted]
    omega

theorem mem_putAdmitted {b : Admitted} (hb : b ∈ (s.putAdmitted i a').admitted) :
    b ∈ s.admitted ∨ b = a' ∧ a'.finished = false := by
  unfold putAdmitted at hb
  split_ifs at hb with hf
  · exact .inl (List.mem_of_mem_eraseIdx hb)
  · exact (List.mem_or_eq_of_mem_set hb).imp_right fun h => ⟨h, Bool.eq_false_iff.mpr hf⟩

theorem Fits.step (h : s.Fits) (hc : s.Orderly e) (hs : s.step e = some s') : s'.Fits := by
  refine ⟨room_step h.room hc hs, fun b hb => ?_⟩
  cases move_of_step hs with
  | other _ _ _ hh => exact h.handlers b (hh ▸ hb)
  | load => exact h.handlers b hb
  | add w c =>
    obtain rfl | hb := List.mem_cons.mp hb
    · exact ⟨rfl, rfl⟩
    · exact h.handlers b hb
  | @change _ i n a a' ha hchange =>
    obtain hb | ⟨rfl, hf⟩ := mem_putAdmitted hb
    · exact h.handlers b hb
    · have hpumps := (h.handlers a (List.mem_of_getElem? ha)).2
      cases hchange with
      | @leave _ exit =>
        refine ⟨rfl, ?_⟩
        cases exit with
        | spliced => exact absurd rfl hc
        | _ => rfl
      | sub => simp [Admitted.finished, hpumps] at hf
      | pumpEnds hpos => omega

/-! ## Runs -/

/-- **The counter counts the running handlers**; if no worker loads it while another is between its load and its addition
and no connection is spliced, these are the connections that are not finished, and they stay within the limit. -/
theorem active_eq_admitted {n maxConnections : ℕ} {es : List Event}
    (h : Run.Exec step (fun _ _ => True) (start n maxConnections) es s) :
    s.active = s.admitted.countP Admitted.counted ∧
      (Run.Exec step Orderly (start n maxConnections) es s →
        s.active = s.admitted.length ∧ s.admitted.length ≤ maxConnections) := by
  have ha : s.active = s.counted :=
    h.inv (I := fun s => s.active = s.counted) (fun _ _ _ _ hs hi => active_step hi hs) rfl
  refine ⟨ha, fun hx => ?_⟩
  have hi : s.Fits ∧ s.maxConnections = maxConnections := by
    refine hx.inv (I := fun s => s.Fits ∧ s.maxConnections = maxConnections) (fun s e s' hc hs hi => ?_)
      ⟨⟨?_, fun _ hb => absurd hb List.not_mem_nil⟩, rfl⟩
    · refine ⟨hi.1.step hc hs, ?_⟩
      rw [← hi.2]
      cases move_of_step hs with
      | other hm => exact hm
      | load | add | change => rfl
    · simp [admitting, start, List.countP_replicate, WorkerPc.isLoaded]
  have hlen : s.active = s.admitted.length := by
    rw [ha]
    exact List.countP_eq_length.mpr fun a ha => (hi.1.handlers a ha).1
  have hroom := hi.1.room
  exact ⟨hlen, by omega⟩

/-- Two workers, one after the other. -/
theorem active_eq_admitted_two :
    ∃ es s, Run.Exec step Orderly (start 2 1) es s ∧ s.active = s.admitted.length ∧ s.active = 1 ∧
      s.admitted.length ≤ 1 := by
  have h : (Run.runChecked step Orderly (start 2 1)
      [.accept 0 ⟨.plain, 5⟩ false, .accept 1 ⟨.tls, 6⟩ false, .load 0, .add 0, .leave 0 .threw, .sub 0, .load 1,
        .add 1]).map (fun s => s.active) = some 1 := by
    decide
  obtain ⟨s, hx, he⟩ := Run.exists_exec h
  obtain ⟨ha, hle⟩ := (active_eq_admitted (hx.mono fun _ _ _ => trivial)).2 hx
  exact ⟨_, s, hx, ha, he, hle⟩

/-- Both workers load the counter before either adds one; and a single worker admits a second connection while the
first one is spliced. -/
theorem admitted_exceeds :
    (∃ es s, Run.Exec step (fun _ _ => True) (start 2 1) es s ∧ s.maxConnections < s.admitted.length) ∧
      ∃ es s, Run.Exec step (fun _ _ => True) (start 1 1) es s ∧ s.maxConnections < s.admitted.length ∧
        s.active < s.admitted.length := by
  have h1 : (Run.runChecked step (fun _ _ => True) (start 2 1)
      [.accept 0 ⟨.plain, 5⟩ false, .accept 1 ⟨.plain, 6⟩ false, .load 0, .load 1, .add 0, .add 1]).map
        (fun s => decide (s.maxConnections < s.admitted.length)) = some true := by
    decide
  have h2 : (Run.runChecked step (fun _ _ => True) (start 1 1)
      [.accept 0 ⟨.plain, 5⟩ false, .load 0, .add 0, .leave 0 .spliced, .sub 0, .accept 0 ⟨.plain, 6⟩ false, .load 0,
        .add 0]).map (fun s => decide (s.maxConnections < s.admitted.length ∧ s.active < s.admitted.length)) =
          some true := by
    decide
  obtain ⟨s₁, hx1, he1⟩ := Run.exists_exec h1
  obtain ⟨s₂, hx2, he2⟩ := Run.exists_exec h2
  exact ⟨⟨_, s₁, hx1, of_decide_eq_true he1⟩, _, s₂, hx2, of_decide_eq_true he2⟩

end Listener

end Nhttp.Server
