import Nhttp.Async.Registration
import Nhttp.Lib.Octets
import Nhttp.Lib.Tasks
import Nhttp.Tls.Stream

/-!
# Detached coroutines

Nobody waits for a `detached_task`: an exception that leaves its body terminates the process.

* `DetachedTask.body`: the detached coroutines of the server. What stands inside a `try` is any coroutine.
* `FailsWithin`: a system call fails before so many octets are written.
* **`escapes_iff`**: from which of them, and when, an exception escapes.
-/

namespace Nhttp.Server.Detached

open Async Octets AsyncTask Writing Tls

/-- Why a coroutine does not go on. -/
inductive Stop where
  | suspended
  | threw (err : ℕ)
deriving DecidableEq, Repr

/-- The outcomes to come for a coroutine, `active_connections_`, and `streams_` of its connection. -/
structure World where
  outcomes : List SysResult
  active : ℕ := 0
  streams : List ℕ := []

abbrev Coroutine (α : Type) := AsyncTask World Stop α

/-- The loop of `read_some`, `write_some` and `accept`. -/
def retrying : List SysResult → Except Stop ℕ × List SysResult
  | [] => (.error .suspended, [])
  | .done n :: os => (.ok n, os)
  | .wouldBlock :: os => retrying os
  | .interrupted :: os => retrying os
  | .failed err :: os => (.error (.threw err), os)

def syscall : Coroutine ℕ := fun w => ((retrying w.outcomes).1, { w with outcomes := (retrying w.outcomes).2 })

def update (f : World → World) : Coroutine Unit := fun w => (.ok (), f w)

/-- `try { .. } catch (...) { }`. -/
def catchAll (t : Coroutine Unit) : Coroutine Unit :=
  tryCatch t fun
    | .suspended => throw .suspended
    | .threw _ => pure ()

/-! ## The listener -/

def countConnection (maxConnections : ℕ) : Coroutine Unit :=
  update fun w => if maxConnections ≤ w.active then w else { w with active := w.active + 1 }

/-- What a turn of `accept_loop` does with a connection. With `distribute` it goes to `dispatchAccepted`. -/
def handOver (maxConnections : ℕ) (distribute : Bool) : Coroutine Unit :=
  if distribute then pure () else countConnection maxConnections

/-- `accept_loop` and `accept_loop_tls`, for so many turns. -/
def acceptLoop (maxConnections : ℕ) (distribute : Bool) : ℕ → Coroutine Unit
  | 0 => throw .suspended
  | turns + 1 => do
    let _ ← syscall
    handOver maxConnections distribute
    acceptLoop maxConnections distribute turns

/-- `dispatch_accepted` and `dispatch_accepted_tls`, behind `schedule`. -/
def dispatchAccepted (maxConnections : ℕ) : Coroutine Unit := countConnection maxConnections

/-- The first octets of a connection, in at most so many reads. -/
def peek (read : ℕ → Coroutine Bytes) : ℕ → Bytes → Coroutine Bytes
  | 0, peeked => pure peeked
  | reads + 1, peeked =>
    if peeked.length < 4 then do
      let buf ← read (4 - peeked.length)
      if buf = [] then pure peeked else peek read reads (peeked ++ buf)
    else pure peeked

def handleConnection (read : ℕ → Coroutine Bytes) (runConnection runConnectionH2 : Bytes → Coroutine Unit) :
    Coroutine Unit := do
  catchAll do
    let peeked ← peek read 4 []
    if peeked = ascii "PRI " then runConnectionH2 peeked else runConnection peeked
  update fun w => { w with active := w.active - 1 }

def handleConnectionTls (accept : Coroutine Bool) (runConnection : Coroutine Unit) : Coroutine Unit := do
  catchAll do
    let accepted ← accept
    if accepted then runConnection else pure ()
  update fun w => { w with active := w.active - 1 }

def dispatchStream {ρ : Type} (id : ℕ) (malformed : Bool) (makeResponse : ℕ → ρ) (handler : Option (Coroutine ρ))
    (writeResponse : ρ → Coroutine Unit) : Coroutine Unit := do
  catchAll do
    let resp ← if malformed then pure (makeResponse 400) else handler.getD (pure (makeResponse 501))
    writeResponse resp
  update fun w => { w with streams := w.streams.erase id }

/-! ## Pumps -/

/-- The loop of `flush_wbio`; the pieces in which `BIO_read` hands octets out make no difference. -/
def flushWbio : ℕ → List SysResult → Except Stop Unit × List SysResult
  | 0, os => (.ok (), os)
  | _ + 1, [] => (.error .suspended, [])
  | left + 1, .done n :: os => flushWbio (left + 1 - n) os
  | left + 1, .wouldBlock :: os => flushWbio (left + 1) os
  | left + 1, .interrupted :: os => flushWbio (left + 1) os
  | _ + 1, .failed err :: os => (.error (.threw err), os)

/-- The destination of a pump: a socket, or TLS over one. Closing puts `pending` octets into the write BIO. -/
inductive Destination where
  | plain
  | tls (write : ℕ → Coroutine ℕ) (pending : ℕ)

namespace Destination

def write : Destination → ℕ → Coroutine ℕ
  | .plain, _ => syscall
  | .tls write _, n => write n

def close : Destination → Coroutine Unit
  | .plain => pure ()
  | .tls _ pending => fun w => ((flushWbio pending w.outcomes).1, { w with outcomes := (flushWbio pending w.outcomes).2 })

/-- `http1_io::write_all`. -/
def writeAll (dst : Destination) : ℕ → ℕ → Coroutine Unit
  | 0, _ => throw .suspended
  | turns + 1, n =>
    if n = 0 then pure ()
    else do
      let k ← dst.write n
      dst.writeAll turns (n - k)

end Destination

/-- The loop of `pump`. -/
def copyAll (read : ℕ → Coroutine ℕ) (dst : Destination) : ℕ → Coroutine Unit
  | 0 => throw .suspended
  | turns + 1 => do
    let n ← read 4096
    if n = 0 then pure ()
    else do
      dst.writeAll (turns + 1) n
      copyAll read dst turns

/-- The `try` of `pump`. -/
def pumpAll (read : ℕ → Coroutine ℕ) (dst : Destination) (leftover turns : ℕ) : Coroutine Unit :=
  catchAll do
    if leftover = 0 then pure () else dst.writeAll turns leftover
    copyAll read dst turns

def pump (read : ℕ → Coroutine ℕ) (dst : Destination) (leftover turns : ℕ) : Coroutine Unit := do
  pumpAll read dst leftover turns
  dst.close

/-! ## What escapes -/

/-- The detached coroutines. Loops make so many turns. -/
inductive DetachedTask (ρ : Type) where
  | acceptLoop (maxConnections : ℕ) (distribute : Bool)
  | dispatchAccepted (maxConnections : ℕ)
  | handleConnection (read : ℕ → Coroutine Bytes) (runConnection runConnectionH2 : Bytes → Coroutine Unit)
  | handleConnectionTls (accept : Coroutine Bool) (runConnection : Coroutine Unit)
  | dispatchStream (id : ℕ) (malformed : Bool) (makeResponse : ℕ → ρ) (handler : Option (Coroutine ρ))
      (writeResponse : ρ → Coroutine Unit)
  | pump (read : ℕ → Coroutine ℕ) (dst : Destination) (leftover turns : ℕ)

/-- A system call fails before the ones in front of it have written so many octets. -/
def FailsWithin (left : ℕ) (os : List SysResult) : Prop :=
  ∃ before err rest, os = before ++ .failed err :: rest ∧ (∀ e, .failed e ∉ before) ∧
    (before.map SysResult.octets).sum < left

namespace DetachedTask

variable {ρ : Type}

/-- The last turn of `accept_loop` finds no outcome left. -/
def body : DetachedTask ρ → Coroutine Unit
  | .acceptLoop maxConnections distribute => fun w =>
    (Detached.acceptLoop maxConnections distribute (w.outcomes.length + 1)).exec w
  | .dispatchAccepted maxConnections => Detached.dispatchAccepted maxConnections
  | .handleConnection read runConnection runConnectionH2 => Detached.handleConnection read runConnection runConnectionH2
  | .handleConnectionTls accept runConnection => Detached.handleConnectionTls accept runConnection
  | .dispatchStream id malformed makeResponse handler writeResponse =>
    Detached.dispatchStream id malformed makeResponse handler writeResponse
  | .pump read dst leftover turns => Detached.pump read dst leftover turns

/-- `unhandled_exception` is called. -/
def Escapes (t : DetachedTask ρ) (w : World) : Prop := ∃ err, (t.body.exec w).1 = .error (.threw err)

/-- No `accept` fails; and where a pump has closed TLS, no write fails before the write BIO is flushed. -/
def Calm (w : World) : DetachedTask ρ → Prop
  | .acceptLoop _ _ => ∀ err, .failed err ∉ w.outcomes
  | .pump read (.tls write pending) leftover turns => ∀ w',
    (pumpAll read (.tls write pending) leftover turns).exec w = (.ok (), w') → ¬FailsWithin pending w'.outcomes
  | _ => True

end DetachedTask

theorem retrying_cases (os : List SysResult) :
    (retrying os).1 = .error .suspended ∧ (∀ err, .failed err ∉ os) ∨
    (∃ n, (retrying os).1 = .ok n ∧ (retrying os).2.length < os.length ∧
      ∀ err, .failed err ∈ os ↔ .failed err ∈ (retrying os).2) ∨
    ∃ err, (retrying os).1 = .error (.threw err) ∧ .failed err ∈ os := by
  induction os with
  | nil => exact .inl ⟨rfl, by simp⟩
  | cons r os ih =>
    cases r with
    | done n => exact .inr (.inl ⟨n, rfl, Nat.lt_succ_self _, fun err => by simp [retrying]⟩)
    | failed err => exact .inr (.inr ⟨err, rfl, List.mem_cons_self⟩)
    | wouldBlock | interrupted =>
      obtain ⟨hr, hos⟩ | ⟨n, hr, hlt, hos⟩ | ⟨err, hr, hos⟩ := ih
      · exact .inl ⟨hr, by simpa using hos⟩
      · exact .inr (.inl ⟨n, hr, Nat.lt_succ_of_lt hlt, by simpa [retrying] using hos⟩)
      · exact .inr (.inr ⟨err, hr, List.mem_cons_of_mem _ hos⟩)

def Throws {α : Type} (t : Coroutine α) (w : World) : Prop := ∃ err, (t.exec w).1 = .error (.threw err)

theorem throws_bind_iff {α β : Type} (t : Coroutine α) (f : α → Coroutine β) (w : World) :
    Throws (t >>= f) w ↔ Throws t w ∨ ∃ a w', t.exec w = (.ok a, w') ∧ Throws (f a) w' := by
  rw [Throws, Throws, exec_bind]
  obtain ⟨e | a, w'⟩ := t.exec w
  · simp
  · simp [Throws]

theorem not_throws_update (f : World → World) (w : World) : ¬Throws (update f) w := by
  rintro ⟨err, h⟩
  cases h

theorem not_throws_catchAll (t : Coroutine Unit) (w : World) : ¬Throws (catchAll t) w := by
  rw [Throws, catchAll, exec_tryCatch]
  rcases t.exec w with ⟨(_ | _) | _, w'⟩ <;> rintro ⟨err, ⟨⟩⟩

theorem not_throws_guarded (t : Coroutine Unit) (f : World → World) (w : World) :
    ¬Throws (do catchAll t; update f) w := by
  rw [throws_bind_iff]
  rintro (h | ⟨_, w', _, h⟩)
  · exact not_throws_catchAll t w h
  · exact not_throws_update f w' h

theorem exec_handOver (maxConnections : ℕ) (distribute : Bool) (w : World) :
    ∃ active, (handOver maxConnections distribute).exec w = (.ok (), { w with active := active }) := by
  cases distribute with
  | true => exact ⟨w.active, rfl⟩
  | false =>
    by_cases hfull : maxConnections ≤ w.active
    · exact ⟨w.active, Prod.ext rfl (if_pos hfull)⟩
    · exact ⟨w.active + 1, Prod.ext rfl (if_neg hfull)⟩

theorem throws_acceptLoop_iff (maxConnections : ℕ) (distribute : Bool) {turns : ℕ} {w : World}
    (h : w.outcomes.length < turns) :
    Throws (acceptLoop maxConnections distribute turns) w ↔ ∃ err, .failed err ∈ w.outcomes := by
  induction turns generalizing w with
  | zero => cases h
  | succ turns ih =>
    have hcall : syscall.exec w = ((retrying w.outcomes).1, { w with outcomes := (retrying w.outcomes).2 }) := rfl
    rw [acceptLoop, throws_bind_iff, Throws, hcall]
    obtain ⟨hr, hos⟩ | ⟨n, hr, hlt, hos⟩ | ⟨err, hr, hos⟩ := retrying_cases w.outcomes
    · simp [hr, hos]
    · obtain ⟨active, hover⟩ := exec_handOver maxConnections distribute { w with outcomes := (retrying w.outcomes).2 }
      have hrest := @ih { w with outcomes := (retrying w.outcomes).2, active := active } (by dsimp only; omega)
      simp only [hr, hos, ← hrest]
      simp [Throws, exec_bind, hover]
    · rw [hr]
      exact iff_of_true (.inl ⟨err, rfl⟩) ⟨err, hos⟩

theorem failsWithin_cons {r : SysResult} (hr : ∀ e, r ≠ .failed e) (left : ℕ) (os : List SysResult) :
    FailsWithin left (r :: os) ↔ FailsWithin (left - r.octets) os := by
  constructor
  · rintro ⟨before, err, rest, he, hbefore, hlt⟩
    cases before with
    | nil => exact absurd (List.cons.inj he).1 (hr err)
    | cons x before =>
      obtain ⟨rfl, rfl⟩ := List.cons.inj he
      refine ⟨before, err, rest, rfl, fun e hmem => hbefore e (List.mem_cons_of_mem _ hmem), ?_⟩
      rw [List.map_cons, List.sum_cons] at hlt
      omega
  · rintro ⟨before, err, rest, rfl, hbefore, hlt⟩
    refine ⟨r :: before, err, rest, rfl, fun e hmem => ?_, ?_⟩
    · obtain he | hmem := List.mem_cons.mp hmem
      · exact hr e he.symm
      · exact hbefore e hmem
    · rw [List.map_cons, List.sum_cons]
      omega

theorem flushWbio_throws_iff (left : ℕ) (os : List SysResult) :
    (∃ err, (flushWbio left os).1 = .error (.threw err)) ↔ FailsWithin left os := by
  induction os generalizing left with
  | nil => cases left <;> simp [flushWbio, FailsWithin]
  | cons r os ih =>
    cases left with
    | zero => simp [flushWbio, FailsWithin]
    | succ left =>
      cases r with
      | done n | wouldBlock | interrupted =>
        rw [failsWithin_cons (fun _ h => by cases h), flushWbio]
        exact ih _
      | failed err =>
        exact iff_of_true ⟨err, rfl⟩ ⟨[], err, os, rfl, by simp, Nat.succ_pos left⟩

structure OutcomeSocket where
  outcomes : List SysResult

instance : Duplex OutcomeSocket where
  write s xs := ((retrying s.outcomes).1.toOption.map (min · xs.length), ⟨(retrying s.outcomes).2⟩)
  write_le s xs k h := by
    obtain ⟨n, -, rfl⟩ := Option.map_eq_some_iff.mp h
    exact min_le_right _ _
  read s _ := (none, s)

theorem writeLoop_outcomeSocket (data : Bytes) (os : List SysResult) {written fuel : ℕ} (hf : os.length < fuel) :
    writeLoop data fuel written (OutcomeSocket.mk os) =
      some ((flushWbio (data.length - written) os).1.toBool, ⟨(flushWbio (data.length - written) os).2⟩) := by
  induction os generalizing written fuel with
  | nil =>
    obtain hle | hlt := le_or_gt data.length written
    · rw [writeLoop_of_le hle, Nat.sub_eq_zero_of_le hle]
      rfl
    · obtain ⟨left, hleft⟩ : ∃ left, data.length - written = left + 1 := ⟨data.length - written - 1, by omega⟩
      obtain ⟨fuel, rfl⟩ := Nat.exists_eq_add_one_of_ne_zero (Nat.ne_zero_of_lt hf)
      rw [hleft, writeLoop_throw hlt rfl]
      rfl
  | cons r os ih =>
    obtain hle | hlt := le_or_gt data.length written
    · rw [writeLoop_of_le hle, Nat.sub_eq_zero_of_le hle]
      rfl
    · obtain ⟨left, hleft⟩ : ∃ left, data.length - written = left + 1 := ⟨data.length - written - 1, by omega⟩
      obtain ⟨fuel, rfl⟩ := Nat.exists_eq_add_one_of_ne_zero (Nat.ne_zero_of_lt hf)
      rw [List.length_cons] at hf
      cases r with
      | done n =>
        have hrest : data.length - (written + min n (data.drop written).length) = left + 1 - n := by
          rw [List.length_drop]
          omega
        have hcall : Writable.write (OutcomeSocket.mk (.done n :: os)) (data.drop written) =
            (some (min n (data.drop written).length), ⟨os⟩) := rfl
        rw [writeLoop_call hlt hcall, ih (show os.length < fuel by omega), hrest, hleft, flushWbio]
      | wouldBlock | interrupted =>
        have hsame := @ih written (fuel + 1) (by omega)
        rw [hleft, writeLoop, if_pos hlt] at hsame
        rw [hleft, writeLoop, if_pos hlt, flushWbio]
        exact hsame
      | failed err =>
        rw [hleft, writeLoop_throw hlt rfl]
        rfl

/-- **The flush of a TLS stream** on such a socket, with one piece in the write BIO. -/
theorem flushWbio_outcomeSocket {ε : Type} [Engine ε] (ssl : ε) {wbio : Bytes} (h : wbio.length ≤ 4096)
    (os : List SysResult) :
    TlsStream.flushWbio (os.length + 2) ⟨ssl, wbio, OutcomeSocket.mk os⟩ =
      some ((flushWbio wbio.length os).1.toBool, ⟨ssl, [], ⟨(flushWbio wbio.length os).2⟩⟩) := by
  rw [TlsStream.flushWbio_succ]
  by_cases hnil : wbio = []
  · rw [if_pos hnil, hnil, List.length_nil, flushWbio]
    rfl
  · rw [if_neg hnil, List.take_of_length_le h, List.drop_of_length_le h, writeLoop_outcomeSocket wbio os (by omega),
      Nat.sub_zero]
    cases (flushWbio wbio.length os).1.toBool with
    | false => rfl
    | true => rfl

/-- **Where an exception escapes**: none does exactly if no `accept` of a listener fails and no write fails while a
pump closes a TLS stream. -/
theorem escapes_iff {ρ : Type} (t : DetachedTask ρ) (w : World) : ¬t.Escapes w ↔ t.Calm w := by
  cases t with
  | acceptLoop maxConnections distribute =>
    have hloop := throws_acceptLoop_iff maxConnections distribute (Nat.lt_succ_self w.outcomes.length)
    exact hloop.not.trans not_exists
  | dispatchAccepted => exact iff_of_true (not_throws_update _ w) trivial
  | handleConnection | handleConnectionTls | dispatchStream => exact iff_of_true (not_throws_guarded _ _ w) trivial
  | pump read dst leftover turns =>
    have hpump : DetachedTask.Escapes (.pump read dst leftover turns : DetachedTask ρ) w ↔
        ∃ w', (pumpAll read dst leftover turns).exec w = (.ok (), w') ∧ Throws dst.close w' := by
      have htry : ¬Throws (pumpAll read dst leftover turns) w := not_throws_catchAll _ w
      refine (throws_bind_iff _ _ w).trans ((or_iff_right htry).trans ⟨?_, ?_⟩)
      · rintro ⟨_, w', h⟩
        exact ⟨w', h⟩
      · rintro ⟨w', h⟩
        exact ⟨(), w', h⟩
    rw [hpump]
    cases dst with
    | plain =>
      refine iff_of_true ?_ trivial
      rintro ⟨w', _, err, h⟩
      cases h
    | tls write pending =>
      have hclose : ∀ w', Throws (Destination.tls write pending).close w' ↔ FailsWithin pending w'.outcomes :=
        fun w' => flushWbio_throws_iff pending w'.outcomes
      simp only [hclose, not_exists, not_and]
      rfl

/-- `accept` fails for want of descriptors, or a pump writes its `close_notify` to a peer that has gone. -/
theorem escapes_accept :
    (DetachedTask.acceptLoop 100 false : DetachedTask Unit).Escapes { outcomes := [.wouldBlock, .done 7, .failed 24] } ∧
      (DetachedTask.pump (fun _ => syscall) (.tls (fun _ => syscall) 24) 0 1 : DetachedTask Unit).Escapes
        { outcomes := [.done 0, .failed 104] } :=
  ⟨⟨24, rfl⟩, ⟨104, rfl⟩⟩

end Nhttp.Server.Detached
