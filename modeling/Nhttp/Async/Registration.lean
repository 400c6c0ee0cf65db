import Mathlib

/-!
# Registrations of sockets

An `async_socket` owns an `io_registration` with the coroutines that wait for it. The reactor has to watch
the socket as long as somebody waits.

* `Registration`, `Sockets`: the registrations of the open sockets, and what the reactor watches.
* `Synced`: the reactor watches what somebody waits for; **`Synced.updateInterest`**.
-/

namespace Nhttp.Async

open Function

/-- The outcome of a system call on a socket; `accept` returns a descriptor. -/
inductive SysResult
  | done (n : ℕ)
  | wouldBlock
  | interrupted
  | failed (err : ℕ)
  deriving DecidableEq, Repr

/-- What a system call has transferred. -/
def SysResult.octets : SysResult → ℕ
  | .done n => n
  | .wouldBlock | .interrupted | .failed _ => 0

abbrev Handle : Type := ℕ

/-- `io_registration`. -/
structure Registration where
  readWaiter : Option Handle := none
  writeWaiter : Option Handle := none
  registered : Bool := false
  interestRead : Bool := false
  interestWrite : Bool := false
  deriving DecidableEq, Repr

/-- The sockets of an `io_context`, numbered in the order in which they were opened. -/
structure Sockets where
  regs : ℕ → Option Registration := fun _ => none
  /-- What the reactor watches: readable, writable. -/
  watched : ℕ → Option (Bool × Bool) := fun _ => none
  opened : ℕ := 0

namespace Registration

def wantRead (reg : Registration) : Bool := reg.readWaiter.isSome

def wantWrite (reg : Registration) : Bool := reg.writeWaiter.isSome

/-- What the reactor has been told about the socket. -/
def told (reg : Registration) : Option (Bool × Bool) :=
  if reg.registered then some (reg.interestRead, reg.interestWrite) else none

/-- The flags say what the reactor has been told: an unregistered socket has no interest. -/
def Flags (reg : Registration) : Prop :=
  reg.registered = (reg.interestRead || reg.interestWrite)

/-- The flags after `update_interest`. -/
def refreshed (reg : Registration) : Registration :=
  { reg with
    registered := reg.wantRead || reg.wantWrite
    interestRead := reg.wantRead
    interestWrite := reg.wantWrite }

end Registration

namespace Sockets

/-- A new `async_socket`. -/
def openSocket (s : Sockets) : Sockets :=
  { s with regs := update s.regs s.opened (some {}), opened := s.opened + 1 }

/-- `update_interest`, on the registration of socket `k` as it has just been changed. -/
def updateInterest (s : Sockets) (k : ℕ) (reg : Registration) : Sockets :=
  if reg.registered = false then
    if reg.wantRead || reg.wantWrite then
      { s with
        watched := update s.watched k (some (reg.wantRead, reg.wantWrite))
        regs := update s.regs k (some { reg with
          registered := true
          interestRead := reg.wantRead
          interestWrite := reg.wantWrite }) }
    else { s with regs := update s.regs k (some reg) }
  else if reg.wantRead = reg.interestRead ∧ reg.wantWrite = reg.interestWrite then
    { s with regs := update s.regs k (some reg) }
  else if reg.wantRead = false ∧ reg.wantWrite = false then
    { s with
      watched := update s.watched k none
      regs := update s.regs k (some { reg with
        registered := false
        interestRead := reg.wantRead
        interestWrite := reg.wantWrite }) }
  else
    { s with
      watched := update s.watched k (some (reg.wantRead, reg.wantWrite))
      regs := update s.regs k (some { reg with
        interestRead := reg.wantRead
        interestWrite := reg.wantWrite }) }

/-- `watch_readable`; a closed socket has no registration. -/
def watchReadable (s : Sockets) (k : ℕ) (h : Handle) : Option Sockets :=
  (s.regs k).map fun reg => s.updateInterest k { reg with readWaiter := some h }

def watchWritable (s : Sockets) (k : ℕ) (h : Handle) : Option Sockets :=
  (s.regs k).map fun reg => s.updateInterest k { reg with writeWaiter := some h }

/-- `forget`: the registration stays, without waiters. -/
def forget (s : Sockets) (k : ℕ) (reg : Registration) : Sockets :=
  { s with
    watched := if reg.registered then update s.watched k none else s.watched
    regs := update s.regs k (some {}) }

/-- `async_socket::close`: `forget`, and the registration is freed. -/
def close (s : Sockets) (k : ℕ) : Sockets :=
  match s.regs k with
  | none => s
  | some reg => { s.forget k reg with regs := update (s.forget k reg).regs k none }

/-- The reactor knows what the registrations say, and the registrations say what is waited for. -/
structure Synced (s : Sockets) : Prop where
  closed : ∀ {k}, s.regs k = none → s.watched k = none
  told : ∀ {k reg}, s.regs k = some reg → s.watched k = reg.told
  refreshed : ∀ {k reg}, s.regs k = some reg → reg.refreshed = reg
  fresh : ∀ {k}, s.opened ≤ k → s.regs k = none

theorem synced_start : ({} : Sockets).Synced where
  closed _ := rfl
  told h := by cases h
  refreshed h := by cases h
  fresh _ := rfl

section Operations

variable {s : Sockets} {k : ℕ} {reg : Registration}

/-- **`update_interest`**: the registration is refreshed, and the reactor told. -/
theorem updateInterest_eq (hf : reg.Flags) (ht : s.watched k = reg.told) :
    s.updateInterest k reg = { s with
      watched := update s.watched k reg.refreshed.told
      regs := update s.regs k (some reg.refreshed) } := by
  have hsame : ∀ x, s.watched k = x → update s.watched k x = s.watched := by
    rintro x rfl
    exact update_eq_self ..
  obtain ⟨r, w, registered, ir, iw⟩ := reg
  cases r <;> cases w <;> cases registered <;> cases ir <;> cases iw <;>
    simp_all [updateInterest, Registration.refreshed, Registration.told, Registration.wantRead,
      Registration.wantWrite, Registration.Flags]

theorem Synced.flags (h : s.Synced) (hk : s.regs k = some reg) : reg.Flags := by
  rw [← h.refreshed hk]
  rfl

/-- The waiters of an open socket change, and `update_interest` is called. -/
theorem Synced.updateInterest_eq (h : s.Synced) (hk : s.regs k = some reg) (r w : Option Handle) :
    s.updateInterest k { reg with readWaiter := r, writeWaiter := w } = { s with
      watched := update s.watched k
        (Registration.refreshed { reg with readWaiter := r, writeWaiter := w }).told
      regs := update s.regs k
        (some (Registration.refreshed { reg with readWaiter := r, writeWaiter := w })) } := by
  have hf : reg.Flags := h.flags hk
  have ht : s.watched k = reg.told := h.told hk
  exact Sockets.updateInterest_eq hf ht

theorem Synced.update (h : s.Synced) (hk : s.regs k = some reg) (reg' : Registration) :
    ({ s with
        watched := update s.watched k reg'.refreshed.told
        regs := update s.regs k (some reg'.refreshed) } : Sockets).Synced := by
  refine ⟨fun {j} hj => ?_, fun {j x} hj => ?_, fun {j x} hj => ?_, fun {j} hj => ?_⟩
  · by_cases hjk : j = k
    · subst hjk
      simp only [update_self] at hj
      cases hj
    · simp only [update_of_ne hjk] at hj ⊢
      exact h.closed hj
  · by_cases hjk : j = k
    · subst hjk
      simp only [update_self, Option.some.injEq] at hj ⊢
      rw [hj]
    · simp only [update_of_ne hjk] at hj ⊢
      exact h.told hj
  · by_cases hjk : j = k
    · subst hjk
      simp only [update_self, Option.some.injEq] at hj
      rw [← hj]
      rfl
    · simp only [update_of_ne hjk] at hj
      exact h.refreshed hj
  · have hjk : j ≠ k := by
      rintro rfl
      rw [h.fresh hj] at hk
      cases hk
    simp only [update_of_ne hjk]
    exact h.fresh hj

/-- **The reactor stays informed.** -/
theorem Synced.updateInterest (h : s.Synced) (hk : s.regs k = some reg) (r w : Option Handle) :
    (s.updateInterest k { reg with readWaiter := r, writeWaiter := w }).Synced := by
  rw [h.updateInterest_eq hk]
  exact h.update hk _

/-- To forget a socket is to take its waiters away and to call `update_interest`. -/
theorem Synced.forget_eq (h : s.Synced) (hk : s.regs k = some reg) :
    s.forget k reg = s.updateInterest k { reg with readWaiter := none, writeWaiter := none } := by
  have ht := h.told hk
  rw [h.updateInterest_eq hk, forget]
  cases hr : reg.registered with
  | true => rfl
  | false =>
    rw [Registration.told, hr, if_neg Bool.false_ne_true] at ht
    rw [if_neg Bool.false_ne_true]
    exact congrArg (fun w => ({ s with watched := w, regs := _ } : Sockets)) (update_eq_self_iff.mpr ht.symm).symm

theorem Synced.openSocket (h : s.Synced) : s.openSocket.Synced := by
  refine ⟨fun {j} hj => ?_, fun {j x} hj => ?_, fun {j x} hj => ?_, fun {j} hj => ?_⟩
  · by_cases hjk : j = s.opened
    · subst hjk
      simp only [Sockets.openSocket, update_self] at hj
      cases hj
    · simp only [Sockets.openSocket, update_of_ne hjk] at hj
      exact h.closed hj
  · by_cases hjk : j = s.opened
    · subst hjk
      simp only [Sockets.openSocket, update_self, Option.some.injEq] at hj ⊢
      rw [← hj]
      exact h.closed (h.fresh (Nat.le_refl _))
    · simp only [Sockets.openSocket, update_of_ne hjk] at hj ⊢
      exact h.told hj
  · by_cases hjk : j = s.opened
    · subst hjk
      simp only [Sockets.openSocket, update_self, Option.some.injEq] at hj
      rw [← hj]
      rfl
    · simp only [Sockets.openSocket, update_of_ne hjk] at hj
      exact h.refreshed hj
  · have hj' : s.opened + 1 ≤ j := hj
    have hjk : j ≠ s.opened := by omega
    simp only [Sockets.openSocket, update_of_ne hjk]
    exact h.fresh (by omega)

theorem close_regs (s : Sockets) (k : ℕ) : (s.close k).regs = update s.regs k none := by
  unfold Sockets.close
  cases hk : s.regs k with
  | none => exact (update_eq_self_iff.mpr hk.symm).symm
  | some reg => exact update_idem ..

theorem Synced.close_watched (h : s.Synced) (k : ℕ) :
    (s.close k).watched = Function.update s.watched k none := by
  unfold Sockets.close
  cases hk : s.regs k with
  | none => exact (update_eq_self_iff.mpr (h.closed hk).symm).symm
  | some reg =>
    dsimp only
    rw [h.forget_eq hk, h.updateInterest_eq hk]
    rfl

theorem Synced.close (h : s.Synced) (k : ℕ) : (s.close k).Synced := by
  have hopened : (s.close k).opened = s.opened := by
    unfold Sockets.close
    cases s.regs k <;> rfl
  refine ⟨fun {j} hj => ?_, fun {j x} hj => ?_, fun {j x} hj => ?_, fun {j} hj => ?_⟩
  · rw [h.close_watched]
    by_cases hjk : j = k
    · rw [hjk, update_self]
    · rw [close_regs, update_of_ne hjk] at hj
      rw [update_of_ne hjk, h.closed hj]
  all_goals rw [close_regs] at *
  · by_cases hjk : j = k
    · rw [hjk, update_self] at hj
      cases hj
    · rw [update_of_ne hjk] at hj
      rw [h.close_watched, update_of_ne hjk, h.told hj]
  · by_cases hjk : j = k
    · rw [hjk, update_self] at hj
      cases hj
    · rw [update_of_ne hjk] at hj
      exact h.refreshed hj
  · by_cases hjk : j = k
    · rw [hjk, update_self]
    · rw [update_of_ne hjk, h.fresh (hopened ▸ hj)]

end Operations

end Sockets

end Nhttp.Async
