import Nhttp.Async.ReadyEvents

/-!
# Where the handles are

A handle of a suspended coroutine is stored in the registration of a socket, or is about to be resumed. The
loop loses none; a coroutine that sets or drops a waiter may.

* `waiters`, `held`: the handles of a registration, and all that are stored.
* **`held_loop`**, `held_resume`, `held_watch`, `held_close`: what each step does to them.
-/

namespace Nhttp.Async

open Finset Option Function Sockets EventPc

inductive Direction
  | read
  | write
  deriving DecidableEq, Repr

/-- What a coroutine does to wait for a socket. -/
def Direction.watch : Direction → ℕ → Handle → EventLoop.Action
  | .read => .watchReadable
  | .write => .watchWritable

def Direction.waiter : Direction → Registration → Option Handle
  | .read => Registration.readWaiter
  | .write => Registration.writeWaiter

namespace EventPc

def rest : EventPc → List ReadyEvent
  | .idle => []
  | .next rest | .resumeRead _ _ _ rest | .resumeWrite _ _ rest | .running _ rest => rest

/-- The handles that have been taken out of a registration and are still to be resumed. -/
def handles : EventPc → List Handle
  | .idle | .next _ => []
  | .resumeRead _ h write _ => h :: write.toList
  | .resumeWrite _ h _ => [h]
  | .running saved _ => saved.toList.map Prod.snd

def resumed : EventPc → Option Handle
  | .resumeRead _ h _ _ | .resumeWrite _ h _ => some h
  | _ => none

theorem rest_after (k : ℕ) (rest : List ReadyEvent) (read write : Option Handle) :
    (after k rest read write).rest = rest := by
  cases read <;> cases write <;> rfl

theorem handles_after (k : ℕ) (rest : List ReadyEvent) (read write : Option Handle) :
    (after k rest read write).handles = read.toList ++ write.toList := by
  cases read <;> cases write <;> rfl

end EventPc

def waiters : Option Registration → Multiset Handle
  | none => 0
  | some reg => (reg.readWaiter.toList : Multiset Handle) + (reg.writeWaiter.toList : Multiset Handle)

theorem waiters_eq_zero {reg : Registration} :
    waiters (some reg) = 0 ↔ reg.readWaiter = none ∧ reg.writeWaiter = none := by
  obtain ⟨r, w, _, _, _⟩ := reg
  cases r <;> cases w <;> simp [waiters]

variable {k : ℕ} {s : Sockets}

theorem Sockets.Synced.watched_of_waiters (h : s.Synced)
    (hw : waiters (s.regs k) ≠ 0) : (s.watched k).isSome = true := by
  cases hk : s.regs k with
  | none =>
    rw [hk] at hw
    exact absurd rfl hw
  | some reg =>
    rw [hk, Ne, waiters_eq_zero] at hw
    rw [h.told hk, ← h.refreshed hk]
    obtain ⟨r, w, _, _, _⟩ := reg
    cases r <;> cases w <;>
      simp_all [Registration.told, Registration.refreshed, Registration.wantRead, Registration.wantWrite]

theorem Sockets.Synced.waiters_of_watched (h : s.Synced)
    (hw : (s.watched k).isSome = true) : waiters (s.regs k) ≠ 0 := by
  cases hk : s.regs k with
  | none =>
    rw [h.closed hk] at hw
    cases hw
  | some reg =>
    rw [Ne, waiters_eq_zero]
    rintro ⟨hr, hw'⟩
    rw [h.told hk, ← h.refreshed hk] at hw
    simp [Registration.told, Registration.refreshed, Registration.wantRead, Registration.wantWrite, hr,
      hw'] at hw

namespace EventLoop

def held (l : EventLoop) : Multiset Handle :=
  (∑ k ∈ range l.sockets.opened, waiters (l.sockets.regs k)) + (l.pc.handles : Multiset Handle)

variable {l l' : EventLoop}

variable {k : ℕ} {d : Direction} {h : Handle}

theorem held_update {x : Option Registration} (hk : k < l.sockets.opened)
    (ho : l'.sockets.opened = l.sockets.opened)
    (hr : l'.sockets.regs = update l.sockets.regs k x) :
    l'.held + waiters (l.sockets.regs k) + (l.pc.handles : Multiset Handle) =
      l.held + waiters x + (l'.pc.handles : Multiset Handle) := by
  have hupd : (fun j => waiters (l'.sockets.regs j)) =
      update (fun j => waiters (l.sockets.regs j)) k (waiters x) := by
    rw [hr]
    exact comp_update waiters l.sockets.regs k x
  have hmem : k ∈ range l.sockets.opened := mem_range.mpr hk
  have hnew : ∑ j ∈ range l.sockets.opened, waiters (l'.sockets.regs j) =
      waiters x + ∑ j ∈ range l.sockets.opened \ {k}, waiters (l.sockets.regs j) := by
    rw [hupd, sum_update_of_mem hmem]
  have hold : ∑ j ∈ range l.sockets.opened, waiters (l.sockets.regs j) =
      waiters (l.sockets.regs k) + ∑ j ∈ range l.sockets.opened \ {k}, waiters (l.sockets.regs j) := by
    rw [sdiff_singleton_eq_erase, add_sum_erase _ (fun j => waiters (l.sockets.regs j)) hmem]
  rw [held, held, ho, hnew, hold]
  abel

/-! ## One registration -/

theorem opened_updateInterest (s : Sockets) (k : ℕ) (reg : Registration) :
    (s.updateInterest k reg).opened = s.opened := by
  unfold updateInterest
  split_ifs <;> rfl

theorem opened_close (s : Sockets) (k : ℕ) : (s.close k).opened = s.opened := by
  unfold close
  split <;> rfl

theorem watch_spec (hsync : l.sockets.Synced) (hs : l.step (.act (d.watch k h)) = some l') :
    ∃ reg reg', l.sockets.regs k = some reg ∧ l'.pc = l.pc ∧ l'.sockets.opened = l.sockets.opened ∧
      l'.sockets.regs = update l.sockets.regs k (some reg') ∧
      (d.waiter reg = none → waiters (some reg') = waiters (some reg) + {h}) := by
  cases d with
  | read =>
    cases move_of_step hs with | @watchReadable _ reg hreg => ?_
    refine ⟨reg, _, hreg, rfl, opened_updateInterest _ _ _,
      congrArg regs (hsync.updateInterest_eq hreg (some h) reg.writeWaiter), fun hw => ?_⟩
    have hnone : reg.readWaiter = none := hw
    simp [waiters, Registration.refreshed, hnone, add_comm]
  | write =>
    cases move_of_step hs with | @watchWritable _ reg hreg => ?_
    refine ⟨reg, _, hreg, rfl, opened_updateInterest _ _ _,
      congrArg regs (hsync.updateInterest_eq hreg reg.readWaiter (some h)), fun hw => ?_⟩
    have hnone : reg.writeWaiter = none := hw
    simp [waiters, Registration.refreshed, hnone]

theorem take_spec {reg : Registration} (hsync : l.sockets.Synced) (hreg : l.sockets.regs k = some reg)
    (ev : ReadyEvent) (rest : List ReadyEvent)
    (hl : l' = { sockets := l.sockets.updateInterest k { reg with
                   readWaiter := if ev.readable then none else reg.readWaiter
                   writeWaiter := if ev.writable then none else reg.writeWaiter }
                 pc := .after k rest (if ev.readable then reg.readWaiter else none)
                   (if ev.writable then reg.writeWaiter else none) }) :
    l'.pc.rest = rest ∧ ∃ reg', l'.sockets.opened = l.sockets.opened ∧
      l'.sockets.regs = update l.sockets.regs k (some reg') ∧
      waiters (some reg) = waiters (some reg') + (l'.pc.handles : Multiset Handle) := by
  subst hl
  refine ⟨rest_after _ _ _ _, _, opened_updateInterest _ _ _,
    congrArg regs (hsync.updateInterest_eq hreg _ _), ?_⟩
  rw [handles_after, ← Multiset.coe_add]
  obtain ⟨r, w, _, _, _⟩ := reg
  obtain ⟨_, readable, writable⟩ := ev
  cases readable <;> cases writable <;> cases r <;> cases w <;>
    simp [waiters, Registration.refreshed, add_comm]

/-! ## All handles -/

theorem lt_opened (hsync : l.sockets.Synced) {reg : Registration}
    (hk : l.sockets.regs k = some reg) : k < l.sockets.opened := by
  by_contra hge
  rw [hsync.fresh (Nat.le_of_not_lt hge)] at hk
  cases hk

theorem held_loop {e : Event} (hsync : l.sockets.Synced) (he : e.isLoop = true ∨ ∃ batch, e = .wait batch)
    (hr : e ≠ .resume) (hs : l.step e = some l') : l'.held = l.held := by
  cases move_of_step hs with
  | wait hpc | last hpc | skip hpc _ => simp only [held, hpc, handles]
  | @take ev rest k reg hpc _ hreg =>
    obtain ⟨-, reg', ho, hregs, hw⟩ := take_spec hsync hreg ev rest rfl
    have hupd := held_update (lt_opened hsync hreg) ho hregs
    rw [hreg, hw, hpc] at hupd
    simp only [handles, Multiset.coe_nil, add_zero] at hupd
    rw [add_assoc l.held] at hupd
    exact add_right_cancel hupd
  | saved hpc | yield hpc => simp [held, hpc, handles]
  | resumeRead | resumeWrite => exact absurd rfl hr
  | openSocket | forget | close | watchReadable | watchWritable => obtain he | ⟨_, he⟩ := he <;> cases he

theorem held_resume (hs : l.step .resume = some l') (hh : l.pc.resumed = some h) :
    l.held = l'.held + {h} := by
  cases move_of_step hs with
  | @resumeRead k h' write rest hpc =>
    rw [hpc] at hh
    cases hh
    have hhandles : (write.map fun h => (k, h)).toList.map Prod.snd = write.toList := by cases write <;> rfl
    simp only [held, hpc, handles, hhandles, ← Multiset.cons_coe, ← Multiset.singleton_add]
    abel
  | resumeWrite hpc =>
    rw [hpc] at hh
    cases hh
    simp [held, hpc, handles]

theorem held_watch (hsync : l.sockets.Synced) (hs : l.step (.act (d.watch k h)) = some l')
    (hc : ∀ reg ∈ l.sockets.regs k, d.waiter reg = none) : l'.held = l.held + {h} := by
  obtain ⟨reg, reg', hreg, hpc, ho, hregs, hw⟩ := watch_spec hsync hs
  have hupd := held_update (lt_opened hsync hreg) ho hregs
  rw [hw (hc reg hreg), hreg, hpc] at hupd
  have hupd' : l'.held + waiters (some reg) = l.held + {h} + waiters (some reg) := by
    rw [add_assoc l.held, add_comm ({h} : Multiset Handle)]
    exact add_right_cancel hupd
  exact add_right_cancel hupd'

theorem held_close (hsync : l.sockets.Synced) (hs : l.step (.act (.close k)) = some l') :
    l.held = l'.held + waiters (l.sockets.regs k) := by
  cases move_of_step hs
  cases hk : l.sockets.regs k with
  | none =>
    have hsame : l.sockets.close k = l.sockets := by
      unfold close
      rw [hk]
    simp [held, hsame, waiters]
  | some reg =>
    let l₁ : EventLoop := { l with sockets := l.sockets.close k }
    have hregs : l₁.sockets.regs = update l.sockets.regs k none := close_regs _ _
    have hupd := held_update (lt_opened hsync hk) (opened_close _ _) hregs
    rw [hk] at hupd
    have hupd' := add_right_cancel hupd
    rw [hupd', waiters, add_zero]

end EventLoop

end Nhttp.Async
