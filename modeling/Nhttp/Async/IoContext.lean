import Nhttp.Lib.Run

/-!
# The loop of an `io_context`

`post` puts a handle into `posted_` and wakes the reactor; `stop` sets a flag and wakes the reactor; the
loop waits, resumes what is ready, and takes all of `posted_` at once. A wake is a token that stays until a
wait takes it.

* `Awake`: the loop has yet to take what a returned call has left, or there is a token.
* `Ordered`: every post is in one place, in the order of the calls.
* **`posted_resumed`**: no wake-up is lost, and everything posted is resumed once and in order.
-/

namespace Nhttp.Async

open Function

/-- A thread that calls `post` or `stop`: the one in `run`, from a coroutine, or another one. -/
inductive Caller
  | loop
  | other (i : ℕ)
  deriving DecidableEq, Repr

/-- The `n`-th call of `post`. -/
structure Post where
  n : ℕ
  caller : Caller
  handle : ℕ
  deriving DecidableEq, Repr

/-- What a thread is doing. -/
inductive Call
  | idle
  /-- In `post`, between the push and the wake. -/
  | posting (n : ℕ)
  /-- In `stop`, between the store and the wake. -/
  | stopping
  deriving DecidableEq, Repr

/-- Where `io_context::run` is. -/
inductive LoopPc
  | check
  | wait
  | events
  | timers
  /-- In front of the swap of `drain_posted`. -/
  | drain
  /-- In `drain_posted`, with the handles that are still to be resumed. -/
  | draining (rest : List Post)
  | exited
  deriving DecidableEq, Repr

namespace LoopPc

/-- The loop resumes coroutines, which may call `post` and `stop`. -/
def resumes : LoopPc → Bool
  | .events | .timers | .draining _ => true
  | _ => false

/-- The loop will take `posted_` before it waits. -/
def willDrain : LoopPc → Bool
  | .events | .timers | .drain => true
  | _ => false

/-- The handles taken out of `posted_` and not resumed yet. -/
def taken : LoopPc → List Post
  | .draining rest => rest
  | _ => []

/-- The steps of the loop until it takes `posted_`. -/
def rank : LoopPc → ℕ
  | .draining rest => 5 + rest.length
  | .check => 4
  | .wait => 3
  | .events => 2
  | .timers => 1
  | .drain | .exited => 0

end LoopPc

structure IoContext where
  posted : List Post := []
  stopping : Bool := false
  /-- The reactor has been woken, and no wait has taken notice. -/
  token : Bool := false
  loop : LoopPc := .check
  calls : Caller → Call := fun _ => .idle
  stopReturned : Bool := false
  /-- All calls of `post`, in the order of their pushes. -/
  posts : List Post := []
  /-- What `drain_posted` has resumed, in order. -/
  resumed : List Post := []

namespace IoContext

inductive Event
  | post (c : Caller) (handle : ℕ)
  | stop (c : Caller)
  /-- `reactor::wake`, at the end of both. -/
  | wake (c : Caller)
  /-- `reactor::wait` returns: it has taken the token, or there is an event, a timeout or a signal. -/
  | waitReturns (woken : Bool)
  | loop
  deriving DecidableEq, Repr

/-- A thread can begin a call. -/
def CanCall (s : IoContext) (c : Caller) : Prop :=
  s.calls c = .idle ∧ (c = .loop → s.loop.resumes = true)

instance (s : IoContext) (c : Caller) : Decidable (s.CanCall c) := inferInstanceAs (Decidable (_ ∧ _))

def post (s : IoContext) (c : Caller) (handle : ℕ) : IoContext :=
  { s with
    posted := s.posted ++ [⟨s.posts.length, c, handle⟩]
    posts := s.posts ++ [⟨s.posts.length, c, handle⟩]
    calls := update s.calls c (.posting s.posts.length) }

def stop (s : IoContext) (c : Caller) : IoContext :=
  { s with stopping := true, calls := update s.calls c .stopping }

def wake (s : IoContext) (c : Caller) : IoContext :=
  { s with
    token := true
    calls := update s.calls c .idle
    stopReturned := s.stopReturned || s.calls c = .stopping }

def loopStep (s : IoContext) : Option IoContext :=
  match s.loop with
  | .check => some { s with loop := if s.stopping then .exited else .wait }
  | .wait => none
  | .events => some { s with loop := .timers }
  | .timers => some { s with loop := .drain }
  -- the swap, under the mutex
  | .drain => some { s with loop := .draining s.posted, posted := [] }
  | .draining [] => some { s with loop := .check }
  | .draining (p :: rest) => some { s with loop := .draining rest, resumed := s.resumed ++ [p] }
  | .exited => none

def step (s : IoContext) : Event → Option IoContext
  | .post c handle => if s.CanCall c then some (s.post c handle) else none
  | .stop c => if s.CanCall c then some (s.stop c) else none
  | .wake c => if s.calls c = .idle then none else some (s.wake c)
  | .waitReturns woken =>
    if s.loop = .wait ∧ (woken = true → s.token = true) then
      some { s with loop := .events, token := s.token && !woken }
    else none
  | .loop => if s.calls .loop = .idle then s.loopStep else none

/-! ## The invariant -/

def Returned (s : IoContext) (p : Post) : Prop := s.calls p.caller ≠ .posting p.n

instance (s : IoContext) (p : Post) : Decidable (s.Returned p) := inferInstanceAs (Decidable (_ ≠ _))

structure Awake (s : IoContext) : Prop where
  posted : ∀ p ∈ s.posted, s.Returned p → s.token = true ∨ s.loop.willDrain = true
  storing : ∀ c, s.calls c = .stopping → s.stopping = true
  stopped : s.stopReturned = true → s.stopping = true
  stopping : s.stopReturned = true → s.loop = .wait → s.token = true

/-- Every post is in one place, and the places are in the order of the calls. -/
structure Ordered (s : IoContext) : Prop where
  numbers : s.posts.map Post.n = List.range s.posts.length
  balance : s.posts = s.resumed ++ s.loop.taken ++ s.posted

theorem awake_start : ({} : IoContext).Awake := by
  refine ⟨?_, ?_, ?_, ?_⟩
  · intro p hp
    cases hp
  · intro c hc
    cases hc
  · intro h
    cases h
  · intro h
    cases h

theorem ordered_start : ({} : IoContext).Ordered := ⟨rfl, rfl⟩

section Step

variable {s s' : IoContext}

theorem Ordered.nodup (h : s.Ordered) : s.posts.Nodup := by
  refine List.Nodup.of_map Post.n ?_
  rw [h.numbers]
  exact List.nodup_range

/-! ### Calls -/

theorem Awake.post (h : s.Awake) {c : Caller} (hc : s.calls c = .idle) (handle : ℕ) :
    (s.post c handle).Awake := by
  refine ⟨fun p hp hr => ?_, fun c' hc' => ?_, h.stopped, h.stopping⟩
  · obtain hp | hp := List.mem_append.mp hp
    · refine h.posted p hp fun hcall => ?_
      -- a caller in a call has no other one in progress
      by_cases hpc : p.caller = c
      · rw [hpc, hc] at hcall
        cases hcall
      · refine hr ?_
        simp only [IoContext.post, update_of_ne hpc]
        exact hcall
    · rw [List.mem_singleton.mp hp] at hr
      exact absurd (update_self ..) hr
  · refine h.storing c' ?_
    by_cases hcc : c' = c
    · subst hcc
      simp [IoContext.post] at hc'
    · simpa [IoContext.post, hcc] using hc'

theorem Awake.stop (h : s.Awake) {c : Caller} (hc : s.calls c = .idle) : (s.stop c).Awake := by
  refine ⟨fun p hp hr => h.posted p hp fun hcall => hr ?_, fun _ _ => rfl, fun _ => rfl, h.stopping⟩
  have hpc : p.caller ≠ c := by
    rintro rfl
    rw [hc] at hcall
    cases hcall
  simp only [IoContext.stop, update_of_ne hpc]
  exact hcall

theorem Awake.wake (h : s.Awake) (c : Caller) : (s.wake c).Awake := by
  refine ⟨fun _ _ _ => .inl rfl, fun c' hc' => h.storing c' ?_, fun hr => ?_, fun _ _ => rfl⟩
  · by_cases hcc : c' = c
    · subst hcc
      simp [IoContext.wake] at hc'
    · simpa [IoContext.wake, hcc] using hc'
  · simp only [IoContext.wake, Bool.or_eq_true, decide_eq_true_eq] at hr
    rcases hr with hr | hr
    · exact h.stopped hr
    · exact h.storing c hr

theorem Ordered.post (h : s.Ordered) (c : Caller) (handle : ℕ) : (s.post c handle).Ordered := by
  refine ⟨?_, ?_⟩
  · simp [IoContext.post, h.numbers, List.range_succ]
  · simp only [IoContext.post]
    rw [← List.append_assoc, ← h.balance]

/-! ### The loop -/

theorem Awake.waitReturns (h : s.Awake) (token : Bool) :
    ({ s with loop := .events, token := token } : IoContext).Awake :=
  ⟨fun _ _ _ => .inr rfl, h.storing, h.stopped, fun _ hl => by cases hl⟩

theorem Awake.loopStep (h : s.Awake) (hs : s.loopStep = some s') : s'.Awake := by
  unfold IoContext.loopStep at hs
  cases hl : s.loop with
  | check =>
    rw [hl] at hs
    cases hs
    refine ⟨fun p hp hr => ?_, h.storing, h.stopped, fun hr hw => ?_⟩
    · rcases h.posted p hp hr with ht | hd
      · exact .inl ht
      · rw [hl] at hd
        cases hd
    · simp [h.stopped hr] at hw
  | wait | exited =>
    rw [hl] at hs
    cases hs
  | events =>
    rw [hl] at hs
    cases hs
    exact ⟨fun _ _ _ => .inr rfl, h.storing, h.stopped, fun _ hw => by cases hw⟩
  | timers =>
    rw [hl] at hs
    cases hs
    exact ⟨fun _ _ _ => .inr rfl, h.storing, h.stopped, fun _ hw => by cases hw⟩
  | drain =>
    rw [hl] at hs
    cases hs
    refine ⟨fun p hp => ?_, h.storing, h.stopped, fun _ hw => by cases hw⟩
    cases hp
  | draining rest =>
    have hkeep : ∀ p ∈ s.posted, s.Returned p → s.token = true := by
      intro p hp hr
      rcases h.posted p hp hr with ht | hd
      · exact ht
      · rw [hl] at hd
        cases hd
    rw [hl] at hs
    cases rest with
    | nil =>
      cases hs
      exact ⟨fun p hp hr => .inl (hkeep p hp hr), h.storing, h.stopped, fun _ hw => by cases hw⟩
    | cons q rest =>
      cases hs
      exact ⟨fun p hp hr => .inl (hkeep p hp hr), h.storing, h.stopped, fun _ hw => by cases hw⟩

theorem Ordered.of_eq (h : s.Ordered) (hp : s'.posts = s.posts) (hr : s'.resumed = s.resumed)
    (hl : s'.loop.taken = s.loop.taken) (hq : s'.posted = s.posted) : s'.Ordered := by
  refine ⟨?_, ?_⟩
  · rw [hp, h.numbers]
  · rw [hp, hr, hl, hq, h.balance]

theorem Ordered.loopStep (h : s.Ordered) (hs : s.loopStep = some s') : s'.Ordered := by
  have hb := h.balance
  unfold IoContext.loopStep at hs
  cases hl : s.loop with
  | check =>
    rw [hl] at hs
    cases hs
    refine h.of_eq rfl rfl ?_ rfl
    rw [hl]
    dsimp only
    split_ifs <;> rfl
  | wait | exited =>
    rw [hl] at hs
    cases hs
  | events | timers =>
    rw [hl] at hs
    cases hs
    exact h.of_eq rfl rfl (by rw [hl]; rfl) rfl
  | drain =>
    rw [hl] at hs hb
    cases hs
    refine ⟨h.numbers, ?_⟩
    simpa [LoopPc.taken] using hb
  | draining rest =>
    rw [hl] at hs hb
    cases rest with
    | nil =>
      cases hs
      exact ⟨h.numbers, hb⟩
    | cons q rest =>
      cases hs
      refine ⟨h.numbers, ?_⟩
      simpa [LoopPc.taken] using hb

theorem posts_loopStep (hs : s.loopStep = some s') : s'.posts = s.posts := by
  unfold IoContext.loopStep at hs
  split at hs <;> cases hs <;> rfl

theorem mem_posts_step {e : Event} {p : Post} (hs : s.step e = some s') (hp : p ∈ s.posts) :
    p ∈ s'.posts := by
  cases e with
  | post c handle =>
    simp only [step] at hs
    split_ifs at hs
    cases hs
    exact List.mem_append_left _ hp
  | stop c | wake c | waitReturns woken =>
    simp only [step] at hs
    split_ifs at hs
    cases hs
    exact hp
  | loop =>
    simp only [step] at hs
    split_ifs at hs
    rw [posts_loopStep hs]
    exact hp

theorem ok_step {e : Event} (h : s.Awake ∧ s.Ordered) (hs : s.step e = some s') :
    s'.Awake ∧ s'.Ordered := by
  cases e with
  | post c handle =>
    simp only [step] at hs
    split_ifs at hs with hc
    cases hs
    exact ⟨h.1.post hc.1 handle, h.2.post c handle⟩
  | stop c =>
    simp only [step] at hs
    split_ifs at hs with hc
    cases hs
    exact ⟨h.1.stop hc.1, h.2.of_eq rfl rfl rfl rfl⟩
  | wake c =>
    simp only [step] at hs
    split_ifs at hs
    cases hs
    exact ⟨h.1.wake c, h.2.of_eq rfl rfl rfl rfl⟩
  | waitReturns woken =>
    simp only [step] at hs
    split_ifs at hs with hw
    cases hs
    exact ⟨h.1.waitReturns _, h.2.of_eq rfl rfl (by rw [hw.1]; rfl) rfl⟩
  | loop =>
    simp only [step] at hs
    split_ifs at hs
    exact ⟨h.1.loopStep hs, h.2.loopStep hs⟩

end Step

/-! ## Progress -/

section Progress

variable {s : IoContext} {p : Post}

/-- What the loop still has to do for a post: the takes, the resumptions before it, and the steps on the way. -/
def distance (p : Post) (s : IoContext) : ℕ × ℕ × ℕ :=
  (if p ∈ s.posted then 1 else 0, s.loop.rank,
    (if s.calls .loop = .idle then 0 else 1) + if s.token then 0 else 1)

def Settled (p : Post) (s : IoContext) : Prop := p ∈ s.resumed ∨ s.loop = .exited

/-- The order of distances. -/
abbrev closer : ℕ × ℕ × ℕ → ℕ × ℕ × ℕ → Prop := Prod.Lex (· < ·) (Prod.Lex (· < ·) (· < ·))

theorem wellFounded_closer : WellFounded closer :=
  WellFounded.prod_lex Nat.lt_wfRel.wf (WellFounded.prod_lex Nat.lt_wfRel.wf Nat.lt_wfRel.wf)

theorem closer_of_rank {s' : IoContext} (hp : s'.posted = s.posted) (hl : s'.loop.rank < s.loop.rank) :
    closer (distance p s') (distance p s) := by
  unfold distance
  rw [hp]
  exact .right _ (.left _ _ hl)

theorem exists_loopStep (hw : s.loop ≠ .wait) (hex : s.loop ≠ .exited)
    (hmem : p ∈ s.loop.taken ∨ p ∈ s.posted) :
    ∃ s', s.loopStep = some s' ∧ closer (distance p s') (distance p s) := by
  cases hl : s.loop with
  | check =>
    refine ⟨{ s with loop := if s.stopping then .exited else .wait }, by rw [loopStep, hl], ?_⟩
    refine closer_of_rank rfl ?_
    rw [hl]
    show (if s.stopping then LoopPc.exited else LoopPc.wait).rank < 4
    split_ifs <;> decide
  | wait => exact absurd hl hw
  | events =>
    refine ⟨{ s with loop := .timers }, by rw [loopStep, hl], closer_of_rank rfl ?_⟩
    rw [hl]
    exact Nat.one_lt_two
  | timers =>
    refine ⟨{ s with loop := .drain }, by rw [loopStep, hl], closer_of_rank rfl ?_⟩
    rw [hl]
    exact Nat.one_pos
  | drain =>
    have hposted : p ∈ s.posted := by
      rw [hl] at hmem
      exact hmem.resolve_left List.not_mem_nil
    refine ⟨{ s with loop := .draining s.posted, posted := [] }, by rw [loopStep, hl], ?_⟩
    unfold distance
    rw [if_pos hposted]
    exact .left _ _ Nat.one_pos
  | draining rest =>
    cases rest with
    | nil =>
      refine ⟨{ s with loop := .check }, by rw [loopStep, hl], closer_of_rank rfl ?_⟩
      rw [hl]
      exact Nat.lt_succ_self 4
    | cons q rest =>
      refine ⟨{ s with loop := .draining rest, resumed := s.resumed ++ [q] }, by rw [loopStep, hl],
        closer_of_rank rfl ?_⟩
      rw [hl]
      exact Nat.lt_succ_self (5 + rest.length)
  | exited => exact absurd hl hex

theorem posting_of_wait (h : s.Awake) (hl : s.loop = .wait) (ht : s.token ≠ true) (hp : p ∈ s.posted) :
    s.calls p.caller = .posting p.n := by
  by_contra hr
  rcases h.posted p hp hr with ht' | hd
  · exact ht ht'
  · rw [hl] at hd
    cases hd

/-- **Somebody can always take a step towards the post.** -/
theorem exists_closer (h : s.Awake ∧ s.Ordered) (hp : p ∈ s.posts) (hs : ¬Settled p s) :
    ∃ e s', s.step e = some s' ∧ closer (distance p s') (distance p s) := by
  obtain ⟨hres, hex⟩ := not_or.mp hs
  have hmem : p ∈ s.loop.taken ∨ p ∈ s.posted := by
    rw [h.2.balance, List.mem_append, List.mem_append] at hp
    tauto
  by_cases hc : s.calls .loop = .idle
  · by_cases hl : s.loop = .wait
    · by_cases ht : s.token = true
      · refine ⟨.waitReturns true, { s with loop := .events, token := s.token && !true },
          if_pos ⟨hl, fun _ => ht⟩, closer_of_rank rfl ?_⟩
        rw [hl]
        exact Nat.lt_succ_self 2
      · have hcall : s.calls p.caller = .posting p.n := by
          refine posting_of_wait h.1 hl ht (hmem.resolve_left ?_)
          rw [hl]
          exact List.not_mem_nil
        refine ⟨.wake p.caller, s.wake p.caller, ?_, .right _ (.right _ ?_)⟩
        · simp [step, hcall]
        · have hupd : update s.calls p.caller .idle .loop = .idle := by
            by_cases hpl : Caller.loop = p.caller
            · rw [hpl, update_self]
            · rw [update_of_ne hpl, hc]
          simp [wake, hupd, hc, ht]
    · obtain ⟨s', hs', hlt⟩ := exists_loopStep hl hex hmem
      exact ⟨.loop, s', by rw [step, if_pos hc, hs'], hlt⟩
  · refine ⟨.wake .loop, s.wake .loop, if_neg hc, .right _ (.right _ ?_)⟩
    simp only [wake, update_self, if_neg hc]
    split_ifs <;> simp

end Progress

/-! ## Runs -/

/-- **No wake-up is lost, and everything posted is resumed once and in order.** -/
theorem posted_resumed {es : List Event} {s : IoContext}
    (h : Run.Exec step (fun _ _ => True) {} es s) :
    -- the loop does not wait without a token for what a call that has returned has left
    (s.loop = .wait → (∃ p ∈ s.posted, s.Returned p) ∨ s.stopReturned = true → s.token = true) ∧
      -- every post has been resumed, is about to be, or is in `posted_`; at the exit, one of the two
      s.posts.Nodup ∧ s.posts = s.resumed ++ s.loop.taken ++ s.posted ∧
      (s.loop = .exited → s.posts = s.resumed ++ s.posted) ∧
      -- it gets resumed unless the loop exits first
      (∀ p ∈ s.posts, ∃ es' s', Run.Exec step (fun _ _ => True) s es' s' ∧ Settled p s') ∧
      -- the posts of one thread are resumed in their order
      ∀ c, s.resumed.filter (fun p => p.caller = c) <+: s.posts.filter (fun p => p.caller = c) := by
  have hok : s.Awake ∧ s.Ordered :=
    h.inv (I := fun s => s.Awake ∧ s.Ordered) (fun _ _ _ _ hs hi => ok_step hi hs)
      ⟨awake_start, ordered_start⟩
  refine ⟨fun hl hw => ?_, hok.2.nodup, hok.2.balance, fun hl => ?_, fun p hp => ?_, fun c => ?_⟩
  · rcases hw with ⟨p, hp, hr⟩ | hr
    · rcases hok.1.posted p hp hr with ht | hd
      · exact ht
      · rw [hl] at hd
        cases hd
    · exact hok.1.stopping hr hl
  · have hb := hok.2.balance
    rw [hl] at hb
    simpa [LoopPc.taken] using hb
  · refine Run.Exec.of_progress wellFounded_closer (distance p)
      (I := fun s => (s.Awake ∧ s.Ordered) ∧ p ∈ s.posts) ?_ ?_ s ⟨hok, hp⟩
    · intro s e s' _ hs hi
      exact ⟨ok_step hi.1 hs, mem_posts_step hs hi.2⟩
    · intro s hi hg
      obtain ⟨e, s', hs, hlt⟩ := exists_closer hi.1 hi.2 hg
      exact ⟨e, s', trivial, hs, hlt⟩
  · rw [hok.2.balance, List.append_assoc, List.filter_append]
    exact List.prefix_append _ _

/-- Two threads post while the loop waits; one handle has been resumed, the other is next. -/
theorem posted_resumed_two :
    ∃ es s, Run.Exec step (fun _ _ => True) {} es s ∧ s.resumed = [⟨0, .other 0, 7⟩] ∧
      s.loop.taken = [⟨1, .other 1, 8⟩] ∧ s.posts = s.resumed ++ s.loop.taken ++ s.posted ∧
      s.posts.Nodup := by
  have h : (Run.runChecked step (fun _ _ => True) ({} : IoContext)
      [.loop, .post (.other 0) 7, .post (.other 1) 8, .wake (.other 1), .waitReturns true, .loop, .loop,
        .loop, .wake (.other 0), .loop]).map (fun s => (s.resumed, s.loop.taken)) =
        some ([⟨0, .other 0, 7⟩], [⟨1, .other 1, 8⟩]) := by
    decide
  obtain ⟨s, hx, he⟩ := Run.exists_exec h
  obtain ⟨_, hnodup, hbalance, _⟩ := posted_resumed hx
  exact ⟨_, s, hx, congrArg Prod.fst he, congrArg Prod.snd he, hbalance, hnodup⟩

end IoContext

end Nhttp.Async
