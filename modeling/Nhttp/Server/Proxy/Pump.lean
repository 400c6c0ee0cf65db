import Nhttp.Async.Handles
import Nhttp.Tls.Stream

/-!
# The pumps of an upgraded connection

After a response `101` a proxied connection is two coroutines. Each copies what it reads to its
destination, and closes it at the end. Each stream is a socket, or TLS on top of one.

* `Splice`, `step`: the loop that watches both sockets, the two pumps, and who runs.
* `Stranded`: one pump has finished, and the other waits for ever.
* `Ok`: every suspended pump is held once; **`ok_step`**.
-/

namespace Nhttp.Server

open Async List Option Function EventLoop

/-- The two directions. -/
inductive Pump
  /-- `pump(wire, downstream, upstream_leftover)`. -/
  | down
  /-- `pump(downstream, wire, downstream_leftover)`. -/
  | up
  deriving DecidableEq, Repr

namespace Pump

def other : Pump → Pump
  | down => up
  | up => down

/-- The socket of `to`: `0` is the downstream one, `1` the upstream one. -/
def dst : Pump → ℕ
  | down => 0
  | up => 1

/-- The socket of `from`. -/
def src (p : Pump) : ℕ := p.other.dst

def handle : Pump → Handle
  | down => 0
  | up => 1

def ofHandle : Handle → Option Pump
  | 0 => some down
  | 1 => some up
  | _ => none

theorem other_ne (p : Pump) : p.other ≠ p := by cases p <;> decide

theorem eq_or_other (p q : Pump) : q = p ∨ q = p.other := by cases p <;> cases q <;> decide

theorem dst_ne {p q : Pump} (h : q ≠ p) : q.dst ≠ p.dst := by
  cases p <;> cases q <;> simp_all [dst]

end Pump

/-- The operation on a stream that a pump is in. -/
inductive Call
  /-- `write_all`, with so many bytes left. -/
  | write (left : ℕ)
  | read
  | close
  deriving DecidableEq, Repr

def Call.socket (p : Pump) : Call → ℕ
  | .read => p.src
  | .write _ | .close => p.dst

inductive PumpPc
  | call (c : Call)
  /-- `flush_wbio`, in front of `BIO_read`. -/
  | flush (c : Call) (r : Tls.SslResult)
  /-- `flush_wbio`, with so many bytes left. -/
  | flushWrite (c : Call) (r : Tls.SslResult) (left : ℕ)
  | feed (c : Call)
  /-- `tls_stream::close`, in front of `inner_->close()`. -/
  | closeInner
  | finished
  deriving DecidableEq, Repr

namespace PumpPc

/-- `write_all`, and then the next read. -/
def writeAll (n : ℕ) : PumpPc := if n = 0 then .call .read else .call (.write n)

/-- The stream operation returns `n`. -/
def returned : Call → ℕ → PumpPc
  | .write left, n => writeAll (left - n)
  | .read, n => if n = 0 then .call .close else writeAll n
  | .close, _ => .closeInner

/-- After `flush_wbio`. -/
def flushed (c : Call) (r : Tls.SslResult) : PumpPc :=
  match c, r with
  | .close, _ => .closeInner
  | c, .done n => returned c n
  | c, .wantRead => .feed c
  | c, .wantWrite => .call c
  | c, .failed => returned c 0

/-- A system call has transferred `n` bytes. -/
def transferred (n : ℕ) : PumpPc → PumpPc
  | .call c => returned c n
  | .flushWrite c r left => if left - n = 0 then .flush c r else .flushWrite c r (left - n)
  | .feed c => if n = 0 then returned c 0 else .call c
  | pc => pc

/-- A system call has failed: the exception is caught, unless the pump is in `to->close()`. -/
def thrown : PumpPc → Option PumpPc
  | .flushWrite .close _ _ => none
  | _ => some (.call .close)

variable (tls : ℕ → Bool) (p : Pump)

def socketCall : PumpPc → Option (Direction × ℕ × ℕ)
  | .call (.write left) => if tls p.dst then none else some (.write, p.dst, left)
  | .call .read => if tls p.src then none else some (.read, p.src, 4096)
  | .flushWrite c _ left => some (.write, c.socket p, left)
  | .feed c => some (.read, c.socket p, 4096)
  | _ => none

/-- The call of the SSL library a pump is in front of, and how much it can transfer. -/
def sslCall : PumpPc → Option (Call × ℕ)
  | .call (.write left) => if tls p.dst then some (.write left, left) else none
  | .call .read => if tls p.src then some (.read, 4096) else none
  | .call .close => if tls p.dst then some (.close, 0) else none
  | _ => none

def closes : PumpPc → Bool
  | .call .close => !tls p.dst
  | .closeInner => true
  | _ => false

end PumpPc

structure Coroutine where
  pc : PumpPc
  suspended : Bool := false
  deriving DecidableEq, Repr

structure Splice where
  loop : EventLoop
  pumps : Pump → Coroutine
  /-- The pumps that run, one after the other, before the loop goes on. -/
  runs : List Pump

namespace Splice

inductive Event
  | wait (batch : List ReadyEvent)
  | take
  | resume
  | yield
  | io (r : SysResult)
  | ssl (r : Tls.SslResult)
  | bio (n : ℕ)
  /-- It closes the socket of its destination, and ends. -/
  | close
  deriving DecidableEq, Repr

/-- The upgrade handler has called both pumps; the first one runs. -/
def start (leftover : Pump → ℕ) : Splice where
  loop := { sockets := ({} : Sockets).openSocket.openSocket }
  pumps p := ⟨.writeAll (leftover p), false⟩
  runs := [.down, .up]

variable (tls : ℕ → Bool)

def isOpen (s : Splice) (k : ℕ) : Bool := (s.loop.sockets.regs k).isSome

def goto (s : Splice) (p : Pump) (pc : PumpPc) : Splice :=
  { s with pumps := update s.pumps p ⟨pc, false⟩ }

/-- A system call of `read_some` or `write_some`. On a closed socket it fails. -/
def io (s : Splice) (p : Pump) (rest : List Pump) (r : SysResult) : Option Splice :=
  match (s.pumps p).pc.socketCall tls p with
  | none => none
  | some (d, k, limit) =>
    match r with
    | .done n => if s.isOpen k ∧ n ≤ limit then some (s.goto p ((s.pumps p).pc.transferred n)) else none
    | .interrupted => if s.isOpen k then some s else none
    | .wouldBlock =>
      (s.loop.step (.act (d.watch k p.handle))).map fun loop =>
        { loop := loop
          pumps := update s.pumps p { s.pumps p with suspended := true }
          runs := rest }
    | .failed _ => (s.pumps p).pc.thrown.map (s.goto p)

def ssl (s : Splice) (p : Pump) (r : Tls.SslResult) : Option Splice :=
  match (s.pumps p).pc.sslCall tls p with
  | none => none
  | some (c, limit) =>
    match r with
    | .done n => if c = .close ∨ 0 < n ∧ n ≤ limit then some (s.goto p (.flush c r)) else none
    | _ => some (s.goto p (.flush c r))

def bio (s : Splice) (p : Pump) (n : ℕ) : Option Splice :=
  match (s.pumps p).pc with
  | .flush c r =>
    if n = 0 then some (s.goto p (.flushed c r))
    else if n ≤ 4096 then some (s.goto p (.flushWrite c r n))
    else none
  | _ => none

def close (s : Splice) (p : Pump) (rest : List Pump) : Option Splice :=
  if (s.pumps p).pc.closes tls p then
    (s.loop.step (.act (.close p.dst))).map fun loop =>
      { loop := loop
        pumps := update s.pumps p ⟨.finished, false⟩
        runs := rest }
  else none

def resume (s : Splice) (h : Handle) : Option Splice :=
  match Pump.ofHandle h, s.loop.step .resume with
  | some p, some loop => some
      { loop := loop
        pumps := update s.pumps p { s.pumps p with suspended := false }
        runs := [p] }
  | _, _ => none

def step (s : Splice) (e : Event) : Option Splice :=
  match e, s.runs with
  -- a socket is reported once
  | .wait batch, [] =>
    if (batch.filterMap ReadyEvent.userData).Nodup then
      (s.loop.step (.wait batch)).map fun loop => { s with loop := loop }
    else none
  | .take, [] => (s.loop.step .take).map fun loop => { s with loop := loop }
  | .yield, [] => (s.loop.step .yield).map fun loop => { s with loop := loop }
  | .resume, [] => s.loop.pc.resumed.bind s.resume
  | .io r, p :: rest => s.io tls p rest r
  | .ssl r, p :: _ => s.ssl tls p r
  | .bio n, p :: _ => s.bio p n
  | .close, p :: rest => s.close tls p rest
  | _, _ => none

/-! ## Who is held -/

def asleepAt (pumps : Pump → Coroutine) (p : Pump) : Multiset Handle :=
  if (pumps p).suspended then {p.handle} else 0

def asleep (pumps : Pump → Coroutine) : Multiset Handle := asleepAt pumps .down + asleepAt pumps .up

/-- One pump has finished, and the handle of the other is stored nowhere: nobody will ever resume it. -/
def Stranded (s : Splice) : Prop :=
  ∃ p : Pump, (s.pumps p).pc = .finished ∧ (s.pumps p.other).suspended = true ∧ p.other.handle ∉ s.loop.held

/-- What a pump drops or sets in a registration is empty. -/
def Clear (s : Splice) : Event → Prop
  | .close => ∀ p ∈ s.runs.head?, ∀ reg ∈ s.loop.sockets.regs p.dst,
      reg.readWaiter = none ∧ reg.writeWaiter = none
  | .io .wouldBlock => ∀ p ∈ s.runs.head?, ∀ c ∈ (s.pumps p).pc.socketCall tls p,
      ∀ reg ∈ s.loop.sockets.regs c.2.1, c.1.waiter reg = none
  | _ => True

instance (s : Splice) (e : Event) : Decidable (s.Clear tls e) := by
  unfold Clear
  split <;> infer_instance

structure PumpOk (s : Splice) (p : Pump) : Prop where
  located : p ∈ s.runs ∨ (s.pumps p).suspended = true ∨ (s.pumps p).pc = .finished
  awake : p ∈ s.runs → (s.pumps p).suspended = false ∧ (s.pumps p).pc ≠ .finished
  ended : (s.pumps p).pc = .finished → (s.pumps p).suspended = false
  closed : (s.pumps p).pc = .finished ↔ s.loop.sockets.regs p.dst = none

structure Ok (s : Splice) : Prop where
  synced : s.loop.sockets.Synced
  held : s.loop.held = asleep s.pumps
  wants : ∀ k ∈ s.loop.pc.rest.filterMap ReadyEvent.userData,
    waiters (s.loop.sockets.regs k) ≠ 0
  nodup : (s.loop.pc.rest.filterMap ReadyEvent.userData).Nodup
  loopRuns : s.runs ≠ [] → s.loop.pc.runs = true
  runsNodup : s.runs.Nodup
  pumps : ∀ p, s.PumpOk p

/-! ## One step -/

section Step

variable {tls} {s s' : Splice}

variable {h : Handle} {pumps : Pump → Coroutine} {k : ℕ} {rest : List Pump} {pc : PumpPc} {l : EventLoop}

theorem mem_asleep :
    h ∈ asleep pumps ↔ ∃ p : Pump, h = p.handle ∧ (pumps p).suspended = true := by
  have hat : ∀ p, h ∈ asleepAt pumps p ↔ h = p.handle ∧ (pumps p).suspended = true := by
    intro p
    unfold asleepAt
    split_ifs with hp <;> simp [hp]
  rw [asleep, Multiset.mem_add, hat, hat]
  constructor
  · rintro (hd | hu)
    · exact ⟨.down, hd⟩
    · exact ⟨.up, hu⟩
  · rintro ⟨p, hp⟩
    cases p
    · exact .inl hp
    · exact .inr hp

variable {p : Pump}

theorem handle_mem_asleep : p.handle ∈ asleep pumps ↔ (pumps p).suspended = true := by
  rw [mem_asleep]
  constructor
  · rintro ⟨q, hq, hs⟩
    cases p <;> cases q <;> first | exact hs | cases hq
  · exact fun hs => ⟨p, rfl, hs⟩

theorem asleep_update (pumps : Pump → Coroutine) (p : Pump) (c : Coroutine) :
    asleep (update pumps p c) + asleepAt pumps p =
      asleep pumps + if c.suspended then {p.handle} else 0 := by
  cases p <;> simp only [asleep, asleepAt, update, Pump.handle] <;> simp <;> abel

theorem ofHandle_eq_some (hp : Pump.ofHandle h = some p) : h = p.handle := by
  unfold Pump.ofHandle at hp
  split at hp <;> cases hp <;> rfl

theorem ofHandle_handle (p : Pump) : Pump.ofHandle p.handle = some p := by cases p <;> rfl

theorem update_eq_none_iff {regs : ℕ → Option Registration} {reg reg' : Registration}
    (hk : regs k = some reg) (j : ℕ) :
    update regs k (some reg') j = none ↔ regs j = none := by
  by_cases hj : j = k
  · subst hj
    simp [hk]
  · rw [update_of_ne hj]

theorem Ok.not_suspended (h : s.Ok) (hr : s.runs = p :: rest) : (s.pumps p).suspended = false :=
  ((h.pumps p).awake (hr ▸ mem_cons_self)).1

theorem Ok.not_finished (h : s.Ok) (hr : s.runs = p :: rest) : (s.pumps p).pc ≠ .finished :=
  ((h.pumps p).awake (hr ▸ mem_cons_self)).2

theorem Ok.asleepAt_eq_zero (h : s.Ok) (hr : s.runs = p :: rest) : asleepAt s.pumps p = 0 := by
  simp [asleepAt, h.not_suspended hr]

/-- **The running pump goes on.** -/
theorem Ok.goto (h : s.Ok) (hr : s.runs = p :: rest) (hpc : pc ≠ .finished) : (s.goto p pc).Ok := by
  refine ⟨h.synced, ?_, h.wants, h.nodup, h.loopRuns, h.runsNodup, fun q => ?_⟩
  · have hsame := asleep_update s.pumps p ⟨pc, false⟩
    rw [h.asleepAt_eq_zero hr] at hsame
    simp only [Bool.false_eq_true, if_false, add_zero] at hsame
    exact h.held.trans hsame.symm
  · by_cases hq : q = p
    · subst hq
      have hclosed := (h.pumps q).closed
      have hmem : q ∈ s.runs := hr ▸ mem_cons_self
      refine ⟨.inl hmem, fun _ => ?_, fun hf => ?_, ?_⟩
      · simp [Splice.goto, hpc]
      · simp [Splice.goto]
      · simp only [Splice.goto, update_self, hpc, false_iff]
        exact fun hn => h.not_finished hr (hclosed.mpr hn)
    · have hsame : (s.goto p pc).pumps q = s.pumps q := update_of_ne hq ..
      refine ⟨?_, ?_, ?_, ?_⟩ <;> rw [hsame]
      · exact (h.pumps q).located
      · exact (h.pumps q).awake
      · exact (h.pumps q).ended
      · exact (h.pumps q).closed

theorem Ok.suspend (h : s.Ok) (hr : s.runs = p :: rest) {d : Direction}
      (hs : s.loop.step (.act (d.watch k p.handle)) = some l)
    (hc : ∀ reg ∈ s.loop.sockets.regs k, d.waiter reg = none) :
    Ok { loop := l
         pumps := update s.pumps p { s.pumps p with suspended := true }
         runs := rest } := by
  obtain ⟨reg, reg', hreg, hpc, -, hregs, hw⟩ := watch_spec h.synced hs
  have hnone : ∀ j, update s.loop.sockets.regs k (some reg') j = none ↔
      s.loop.sockets.regs j = none := update_eq_none_iff hreg
  have hnodup : (p :: rest).Nodup := hr ▸ h.runsNodup
  refine ⟨synced_step hs h.synced, ?_, fun j hj => ?_, ?_, fun _ => ?_, hnodup.of_cons,
    fun q => ?_⟩
  · have hsleep := asleep_update s.pumps p { s.pumps p with suspended := true }
    rw [h.asleepAt_eq_zero hr, add_zero] at hsleep
    rw [hsleep, ← h.held]
    exact held_watch h.synced hs hc
  · dsimp only at hj ⊢
    rw [hpc] at hj
    rw [hregs]
    by_cases hjk : j = k
    · subst hjk
      rw [update_self, hw (hc reg hreg)]
      intro h0
      have hmem : p.handle ∈ waiters (some reg) + {p.handle} :=
        Multiset.mem_add.mpr (.inr (Multiset.mem_singleton_self _))
      rw [h0] at hmem
      exact Multiset.notMem_zero _ hmem
    · rw [update_of_ne hjk]
      exact h.wants j hj
  · dsimp only
    rw [hpc]
    exact h.nodup
  · dsimp only
    rw [hpc]
    refine h.loopRuns ?_
    rw [hr]
    exact cons_ne_nil _ _
  · by_cases hq : q = p
    · subst hq
      refine ⟨.inr (.inl ?_), fun hmem => ?_, fun hf => ?_, ?_⟩
      · simp
      · exact absurd hmem (nodup_cons.mp hnodup).1
      · simp only [update_self] at hf
        exact absurd hf (h.not_finished hr)
      · simp only [update_self, hregs, hnone]
        exact (h.pumps q).closed
    · have hok := h.pumps q
      refine ⟨?_, ?_, ?_, ?_⟩ <;> simp only [update_of_ne hq, hregs, hnone]
      · have hloc := hok.located
        rw [hr, mem_cons] at hloc
        tauto
      · intro hmem
        exact hok.awake (hr ▸ mem_cons_of_mem _ hmem)
      · exact hok.ended
      · exact hok.closed

theorem waiters_eq_zero_of_clear (hc : ∀ reg ∈ s.loop.sockets.regs k,
    reg.readWaiter = none ∧ reg.writeWaiter = none) : waiters (s.loop.sockets.regs k) = 0 := by
  cases hk : s.loop.sockets.regs k with
  | none => rfl
  | some reg => exact waiters_eq_zero.mpr (hc reg hk)

theorem close_spec {l' : EventLoop} (hs : l.step (.act (.close k)) = some l') :
    l' = { l with sockets := l.sockets.close k } ∧ l.pc.runs = true := by
  simp only [EventLoop.step] at hs
  split_ifs at hs with hruns
  cases hs
  exact ⟨rfl, hruns⟩

theorem Ok.close (h : s.Ok) (hr : s.runs = p :: rest)
    (hs : s.loop.step (.act (.close p.dst)) = some l) (hw : waiters (s.loop.sockets.regs p.dst) = 0) :
    Ok { loop := l, pumps := update s.pumps p ⟨.finished, false⟩, runs := rest } := by
  have hheld := held_close h.synced hs
  obtain ⟨rfl, hruns⟩ := close_spec hs
  have hnodup : (p :: rest).Nodup := hr ▸ h.runsNodup
  refine ⟨h.synced.close _, ?_, fun j hj => ?_, h.nodup, fun _ => hruns, hnodup.of_cons, fun q => ?_⟩
  · have hsleep := asleep_update s.pumps p ⟨.finished, false⟩
    rw [h.asleepAt_eq_zero hr] at hsleep
    simp only [Bool.false_eq_true, if_false, add_zero] at hsleep
    dsimp only
    rw [hsleep, ← h.held, hheld, hw, add_zero]
  · have hjk : j ≠ p.dst := by
      rintro rfl
      exact h.wants _ hj hw
    simp only [Sockets.close_regs, update_of_ne hjk]
    exact h.wants j hj
  · by_cases hq : q = p
    · subst hq
      refine ⟨.inr (.inr ?_), fun hmem => ?_, fun _ => ?_, ?_⟩
      · simp
      · exact absurd hmem (nodup_cons.mp hnodup).1
      · simp
      · simp [Sockets.close_regs]
    · have hok := h.pumps q
      refine ⟨?_, ?_, ?_, ?_⟩ <;>
        simp only [update_of_ne hq, Sockets.close_regs, update_of_ne (Pump.dst_ne hq)]
      · have hloc := hok.located
        rw [hr, mem_cons] at hloc
        tauto
      · intro hmem
        exact hok.awake (hr ▸ mem_cons_of_mem _ hmem)
      · exact hok.ended
      · exact hok.closed

theorem Ok.resume (h : s.Ok) (hr : s.runs = []) (hp : s.loop.pc.resumed = some p.handle)
    (hs : s.loop.step .resume = some l) :
    Ok { loop := l
         pumps := update s.pumps p { s.pumps p with suspended := false }
         runs := [p] } := by
  have hheld := held_resume hs hp
  have hsusp : (s.pumps p).suspended = true := by
    rw [← handle_mem_asleep, ← h.held, hheld]
    simp
  have hspec : l.sockets = s.loop.sockets ∧ l.pc.rest = s.loop.pc.rest ∧ l.pc.runs = true := by
    cases move_of_step hs with
    | resumeRead hpc | resumeWrite hpc => exact ⟨rfl, by rw [hpc]; rfl, rfl⟩
  obtain ⟨hsock, hrest, hruns⟩ := hspec
  refine ⟨?_, ?_, ?_, ?_, fun _ => hruns, nodup_singleton p, fun q => ?_⟩
  · exact hsock ▸ h.synced
  · have hsleep := asleep_update s.pumps p { s.pumps p with suspended := false }
    rw [asleepAt, if_pos hsusp, ← h.held, hheld] at hsleep
    simp only [Bool.false_eq_true, if_false, add_zero] at hsleep
    exact (add_right_cancel hsleep).symm
  · dsimp only
    rw [hsock, hrest]
    exact h.wants
  · dsimp only
    rw [hrest]
    exact h.nodup
  · have hok := h.pumps q
    by_cases hq : q = p
    · subst hq
      have hne : (s.pumps q).pc ≠ .finished := fun hf => by
        rw [hok.ended hf] at hsusp
        cases hsusp
      refine ⟨.inl (mem_singleton_self q), fun _ => ?_, fun _ => ?_, ?_⟩
      · simp [hne]
      · simp
      · simp only [update_self, hsock]
        exact hok.closed
    · refine ⟨?_, fun hmem => absurd (mem_singleton.mp hmem) hq, ?_, ?_⟩ <;>
        simp only [update_of_ne hq, hsock]
      · have hloc := hok.located
        rw [hr] at hloc
        exact .inr (hloc.resolve_left not_mem_nil)
      · exact hok.ended
      · exact hok.closed

theorem Ok.loop (h : s.Ok) (hr : s.runs = []) {e : EventLoop.Event}
    (he : e.isLoop = true ∨ ∃ batch, e = .wait batch ∧ (batch.filterMap ReadyEvent.userData).Nodup)
    (hne : e ≠ .resume) (hs : s.loop.step e = some l) : Ok { s with loop := l } := by
  have hheld : l.held = s.loop.held :=
    held_loop h.synced (he.imp_right (Exists.imp fun _ hb => hb.1)) hne hs
  have key : (∀ j, l.sockets.regs j = none ↔ s.loop.sockets.regs j = none) ∧
      (∀ k ∈ l.pc.rest.filterMap ReadyEvent.userData, waiters (l.sockets.regs k) ≠ 0) ∧
      (l.pc.rest.filterMap ReadyEvent.userData).Nodup := by
    have hw := h.wants
    have hnd := h.nodup
    cases move_of_step hs with
    | wait _ hrep =>
      obtain he | ⟨_, hb, hnd⟩ := he
      · cases he
      · cases hb
        refine ⟨fun _ => Iff.rfl, fun k hk => ?_, hnd⟩
        obtain ⟨ev, hev, hk⟩ := mem_filterMap.mp hk
        have hrep := hrep ev hev
        rw [EventLoop.Reported, hk] at hrep
        exact h.synced.waiters_of_watched hrep
    | last => exact ⟨fun _ => Iff.rfl, fun _ hk => absurd hk not_mem_nil, nodup_nil⟩
    | skip hpc hk =>
      rw [hpc, EventPc.rest, filterMap_cons_none hk] at hw hnd
      exact ⟨fun _ => Iff.rfl, hw, hnd⟩
    | @take ev rest k reg hpc hk hreg =>
      rw [hpc, EventPc.rest, filterMap_cons_some hk] at hw hnd
      obtain ⟨hrest, reg', -, hregs, -⟩ := take_spec h.synced hreg ev rest rfl
      rw [hrest, hregs]
      refine ⟨update_eq_none_iff hreg, fun j hj => ?_, hnd.of_cons⟩
      have hjk : j ≠ k := by
        rintro rfl
        exact (nodup_cons.mp hnd).1 hj
      rw [update_of_ne hjk]
      exact hw j (mem_cons_of_mem _ hj)
    | saved hpc | yield hpc =>
      rw [hpc] at hw hnd
      exact ⟨fun _ => Iff.rfl, hw, hnd⟩
    | resumeRead | resumeWrite => exact absurd rfl hne
    | openSocket | forget | close | watchReadable | watchWritable => obtain he | ⟨_, he, _⟩ := he <;> cases he
  refine ⟨synced_step hs h.synced, hheld.trans h.held, key.2.1, key.2.2,
    fun hn => absurd hr hn, h.runsNodup, fun q => ?_⟩
  have hok := h.pumps q
  exact ⟨hok.located, hok.awake, hok.ended, hok.closed.trans (key.1 _).symm⟩

/-! ## The program counters -/

theorem writeAll_ne_finished (n : ℕ) : PumpPc.writeAll n ≠ .finished := by
  unfold PumpPc.writeAll
  split_ifs <;> nofun

theorem returned_ne_finished (c : Call) (n : ℕ) : PumpPc.returned c n ≠ .finished := by
  cases c with
  | write left => exact writeAll_ne_finished _
  | read =>
    simp only [PumpPc.returned]
    split_ifs
    · nofun
    · exact writeAll_ne_finished _
  | close => nofun

theorem flushed_ne_finished (c : Call) (r : Tls.SslResult) : PumpPc.flushed c r ≠ .finished := by
  unfold PumpPc.flushed
  split
  · nofun
  · exact returned_ne_finished _ _
  · nofun
  · nofun
  · exact returned_ne_finished _ _

theorem transferred_ne_finished (h : pc ≠ .finished) (n : ℕ) :
    pc.transferred n ≠ .finished := by
  cases pc with
  | call c => exact returned_ne_finished _ _
  | flushWrite c r left =>
    simp only [PumpPc.transferred]
    split_ifs <;> nofun
  | feed c =>
    simp only [PumpPc.transferred]
    split_ifs
    · exact returned_ne_finished _ _
    · nofun
  | flush | closeInner => exact h
  | finished => exact absurd rfl h

theorem thrown_ne_finished {pc' : PumpPc} (h : pc.thrown = some pc') : pc' ≠ .finished := by
  unfold PumpPc.thrown at h
  split at h <;> cases h
  nofun

/-! ## Every step -/

theorem Ok.io (h : s.Ok) (hr : s.runs = p :: rest) {r : SysResult}
    (hc : s.Clear tls (.io r)) (hs : s.io tls p rest r = some s') : s'.Ok := by
  unfold Splice.io at hs
  split at hs
  case h_1 => cases hs
  case h_2 d k limit hcall =>
    cases r with
    | done n =>
      dsimp only at hs
      split_ifs at hs
      cases hs
      exact h.goto hr (transferred_ne_finished (h.not_finished hr) n)
    | interrupted =>
      dsimp only at hs
      split_ifs at hs
      cases hs
      exact h
    | wouldBlock =>
      obtain ⟨l, hl, rfl⟩ := map_eq_some_iff.mp hs
      have hempty : ∀ reg ∈ s.loop.sockets.regs k, d.waiter reg = none := by
        have hp : p ∈ s.runs.head? := by
          rw [hr]
          rfl
        exact hc p hp (d, k, limit) hcall
      exact h.suspend hr hl hempty
    | failed =>
      obtain ⟨pc, hpc, rfl⟩ := map_eq_some_iff.mp hs
      exact h.goto hr (thrown_ne_finished hpc)

theorem Ok.ssl (h : s.Ok) (hr : s.runs = p :: rest) {r : Tls.SslResult}
    (hs : s.ssl tls p r = some s') : s'.Ok := by
  unfold Splice.ssl at hs
  split at hs
  case h_1 => cases hs
  case h_2 c limit _ =>
    have hok : (s.goto p (.flush c r)).Ok := h.goto hr nofun
    cases r with
    | done n =>
      dsimp only at hs
      split_ifs at hs
      cases hs
      exact hok
    | wantRead | wantWrite | failed =>
      cases hs
      exact hok

theorem Ok.bio (h : s.Ok) (hr : s.runs = p :: rest) {n : ℕ} (hs : s.bio p n = some s') : s'.Ok := by
  unfold Splice.bio at hs
  split at hs
  case h_1 c r _ =>
    split_ifs at hs
    · cases hs
      exact h.goto hr (flushed_ne_finished c r)
    · cases hs
      exact h.goto hr nofun
  case h_2 => cases hs

/-- **Every suspended pump stays held**, if what is dropped or set is empty. -/
theorem ok_step {e : Event} (hc : s.Clear tls e) (hs : s.step tls e = some s') (h : s.Ok) : s'.Ok := by
  unfold step at hs
  split at hs
  case h_1 batch hr =>
    split_ifs at hs with hnd
    obtain ⟨l, hl, rfl⟩ := map_eq_some_iff.mp hs
    exact h.loop hr (.inr ⟨batch, rfl, hnd⟩) nofun hl
  case h_2 hr =>
    obtain ⟨l, hl, rfl⟩ := map_eq_some_iff.mp hs
    exact h.loop (e := .take) hr (.inl rfl) nofun hl
  case h_3 hr =>
    obtain ⟨l, hl, rfl⟩ := map_eq_some_iff.mp hs
    exact h.loop (e := .yield) hr (.inl rfl) nofun hl
  case h_4 hr =>
    obtain ⟨x, hx, hs⟩ := bind_eq_some_iff.mp hs
    unfold Splice.resume at hs
    split at hs
    case h_1 p l hp hl =>
      cases hs
      rw [ofHandle_eq_some hp] at hx
      exact h.resume hr hx hl
    case h_2 => cases hs
  case h_5 r p rest hr => exact h.io hr hc hs
  case h_6 r p rest hr => exact h.ssl hr hs
  case h_7 n p rest hr => exact h.bio hr hs
  case h_8 p rest hr =>
    unfold Splice.close at hs
    split_ifs at hs
    obtain ⟨l, hl, rfl⟩ := map_eq_some_iff.mp hs
    have hp : p ∈ s.runs.head? := by
      rw [hr]
      rfl
    exact h.close hr hl (waiters_eq_zero_of_clear (hc p hp))
  case h_9 => cases hs

end Step

end Splice

end Nhttp.Server
