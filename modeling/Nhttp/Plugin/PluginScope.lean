import Nhttp.Router.Middleware

/-!
# Scopes of plugins

* `Plugin`, `pluginScope`: the calls around a handler, `plugin_scope::handle`.
* `ScopeEvent`, `Plugin.recorded`: the calls of a run, with what they threw.
* `ScopeRun`: the runs of a stack of scopes; `scopeRun_handle`: a stack has no others.
* **`scopes_bracket`**: the order of the calls, and which exception reaches the caller.
-/

namespace Nhttp.Plugins

open Router AsyncTask List MiddlewareStack

variable {σ ε ρ : Type}

structure Plugin (σ ε : Type) where
  onBegin : AsyncTask σ ε Unit
  onEnd : AsyncTask σ ε Unit

/-- `plugin_scope::handle`; `outcome` stands for `eptr` and `result`. -/
def pluginScope (plugin : Plugin σ ε) : Middleware σ ε ρ := fun next => do
  plugin.onBegin
  let outcome ← tryCatch (do return Except.ok (← next)) (fun e => pure (Except.error e))
  let outcome ← tryCatch (do plugin.onEnd; return outcome) (fun e =>
    match outcome with
    -- a second exception is swallowed
    | .error _ => pure outcome
    | .ok _ => pure (.error e))
  match outcome with
  | .error e => throw e
  | .ok result => pure result

/-! ## The calls of a run -/

/-- What a call threw. -/
def thrownBy {α : Type} : Except ε α → Option ε
  | .error e => some e
  | .ok _ => none

/-- A call; scopes are numbered. -/
inductive ScopeEvent (ε ρ : Type) where
  | onBegin (i : ℕ) (thrown : Option ε)
  | target (outcome : Except ε ρ)
  | onEnd (i : ℕ) (thrown : Option ε)

namespace ScopeEvent

def thrown : ScopeEvent ε ρ → Option ε
  | .onBegin _ thrown => thrown
  | .target outcome => thrownBy outcome
  | .onEnd _ thrown => thrown

/-- The scope whose `on_begin` is called. -/
def entered : ScopeEvent ε ρ → Option ℕ
  | .onBegin i _ => some i
  | .target _ => none
  | .onEnd _ _ => none

/-- The scope whose `on_begin` has completed. -/
def opened : ScopeEvent ε ρ → Option ℕ
  | .onBegin i none => some i
  | .onBegin _ (some _) => none
  | .target _ => none
  | .onEnd _ _ => none

/-- The scope whose `on_end` is called. -/
def closed : ScopeEvent ε ρ → Option ℕ
  | .onBegin _ _ => none
  | .target _ => none
  | .onEnd i _ => some i

end ScopeEvent

def Plugin.recorded (plugin : Plugin σ ε) (i : ℕ) : Plugin (σ × List (ScopeEvent ε ρ)) ε where
  onBegin := recording (fun r => .onBegin i (thrownBy r)) plugin.onBegin
  onEnd := recording (fun r => .onEnd i (thrownBy r)) plugin.onEnd

def scopes (calls : List (StackCall (Plugin σ ε))) : List (Plugin σ ε × ℕ) :=
  StackCall.build (calls.zipIdx.map fun c => c.1.map (·, c.2))

def recordedRun (calls : List (StackCall (Plugin σ ε))) (target : AsyncTask σ ε ρ) (s : σ) :
    Except ε ρ × σ × List (ScopeEvent ε ρ) :=
  exec (MiddlewareStack.handle ((scopes calls).map fun a => pluginScope (a.1.recorded a.2))
    (recording .target target)) (s, [])

/-- What a scope hands on, from the outcome inside and what its `on_end` threw. -/
def leaving : Except ε ρ → Option ε → Except ε ρ
  | .error e, _ => .error e
  | .ok _, some e => .error e
  | .ok r, none => .ok r

theorem exec_pluginScope (plugin : Plugin σ ε) (next : AsyncTask σ ε ρ) (s : σ) :
    exec (pluginScope plugin next) s = match plugin.onBegin.exec s with
      | (.error e, s) => (.error e, s)
      | (.ok _, s) =>
        (leaving (next.exec s).1 (thrownBy (plugin.onEnd.exec (next.exec s).2).1),
          (plugin.onEnd.exec (next.exec s).2).2) := by
  rw [pluginScope, exec_bind]
  obtain ⟨e | _, s⟩ := plugin.onBegin.exec s
  · rfl
  · dsimp only
    rw [exec_bind, exec_tryCatch, exec_bind]
    obtain ⟨e | r, s⟩ := next.exec s
    all_goals
      dsimp only [exec_pure]
      rw [exec_bind, exec_tryCatch, exec_bind]
      obtain ⟨e | _, s⟩ := plugin.onEnd.exec s
    all_goals rfl

/-! ## Runs of a stack -/

/-- The calls of a run through the scopes with these numbers, and its outcome. -/
inductive ScopeRun : List ℕ → List (ScopeEvent ε ρ) → Except ε ρ → Prop
  | target (outcome : Except ε ρ) : ScopeRun [] [.target outcome] outcome
  | refused (i : ℕ) (is : List ℕ) (e : ε) : ScopeRun (i :: is) [.onBegin i (some e)] (.error e)
  | scope {is : List ℕ} {events : List (ScopeEvent ε ρ)} {r : Except ε ρ} (i : ℕ) (thrown : Option ε) :
      ScopeRun is events r → ScopeRun (i :: is) (.onBegin i none :: (events ++ [.onEnd i thrown])) (leaving r thrown)

theorem scopeRun_handle (stack : List (Plugin σ ε × ℕ)) (target : AsyncTask σ ε ρ) (s : σ)
    (log : List (ScopeEvent ε ρ)) :
    ∃ events r s', ScopeRun (stack.map Prod.snd) events r ∧
      exec (handle (stack.map fun a => pluginScope a.1) target) s = (r, s') ∧
      exec (handle (stack.map fun a => pluginScope (a.1.recorded a.2)) (recording .target target))
        (s, log) = (r, s', log ++ events) := by
  induction stack generalizing s log with
  | nil =>
    refine ⟨[.target (target.exec s).1], (target.exec s).1, (target.exec s).2, .target _, ?_, ?_⟩
    · rw [map_nil, handle_nil]
    · rw [map_nil, handle_nil, exec_recording]
  | cons a stack ih =>
    simp only [map_cons, handle_cons]
    rw [exec_pluginScope, exec_pluginScope, Plugin.recorded, exec_recording]
    obtain ⟨e | _, s⟩ := a.1.onBegin.exec s
    · exact ⟨[.onBegin a.2 (some e)], .error e, s, .refused _ _ _, rfl, rfl⟩
    · obtain ⟨events, r, s', hrun, hplain, hrec⟩ := ih s (log ++ [.onBegin a.2 none])
      dsimp only
      rw [hplain, thrownBy, hrec, exec_recording]
      refine ⟨_, _, _, .scope a.2 (thrownBy (a.1.onEnd.exec s').1) hrun, rfl, ?_⟩
      simp

namespace ScopeRun

variable {is : List ℕ} {events : List (ScopeEvent ε ρ)} {r : Except ε ρ}

theorem entered_prefix (h : ScopeRun is events r) : events.filterMap ScopeEvent.entered <+: is := by
  induction h with
  | target outcome => exact nil_prefix
  | refused i is e => exact cons_prefix_cons.mpr ⟨rfl, nil_prefix⟩
  | scope i thrown _ ih =>
    simpa [filterMap_cons, ScopeEvent.entered] using ih

theorem closed_eq (h : ScopeRun is events r) :
    events.filterMap ScopeEvent.closed = (events.filterMap ScopeEvent.opened).reverse := by
  induction h with
  | target outcome => rfl
  | refused i is e => rfl
  | scope i thrown _ ih => simp [filterMap_cons, ScopeEvent.closed, ScopeEvent.opened, ih]

theorem mem_opened_iff {i : ℕ} : i ∈ events.filterMap ScopeEvent.opened ↔ .onBegin i none ∈ events := by
  rw [mem_filterMap]
  constructor
  · rintro ⟨ev, hev, h⟩
    cases ev with
    | onBegin j thrown =>
      cases thrown with
      | none =>
        cases h
        exact hev
      | some e => cases h
    | target outcome => cases h
    | onEnd j thrown => cases h
  · exact fun h => ⟨_, h, rfl⟩

theorem opened_sublist (events : List (ScopeEvent ε ρ)) :
    (events.filterMap ScopeEvent.opened).Sublist (events.filterMap ScopeEvent.entered) := by
  induction events with
  | nil => exact .slnil
  | cons ev events ih =>
    cases ev with
    | onBegin i thrown =>
      cases thrown with
      | none => exact ih.cons_cons i
      | some e => exact ih.cons i
    | target outcome => exact ih
    | onEnd i thrown => exact ih

theorem opened_of_target {outcome : Except ε ρ} (h : ScopeRun is events r) (ht : .target outcome ∈ events) :
    events.filterMap ScopeEvent.opened = is := by
  induction h with
  | target _ => rfl
  | refused i is e => simp at ht
  | scope i thrown _ ih =>
    simp only [mem_cons, mem_append, not_mem_nil, or_false, reduceCtorEq, false_or] at ht
    simp [filterMap_cons, ScopeEvent.opened, ih ht]

theorem outcome_eq (h : ScopeRun is events r) :
    (∃ e, events.findSome? ScopeEvent.thrown = some e ∧ r = .error e) ∨
      events.findSome? ScopeEvent.thrown = none ∧ ∃ result, r = .ok result ∧ .target (.ok result) ∈ events := by
  induction h with
  | target outcome =>
    cases outcome with
    | error e => exact .inl ⟨e, rfl, rfl⟩
    | ok result => exact .inr ⟨rfl, result, rfl, mem_singleton_self _⟩
  | refused i is e => exact .inl ⟨e, rfl, rfl⟩
  | scope i thrown _ ih =>
    rw [findSome?_cons, findSome?_append]
    obtain ⟨e, hfirst, rfl⟩ | ⟨hnone, result, rfl, hmem⟩ := ih
    · exact .inl ⟨e, by rw [hfirst]; rfl, rfl⟩
    · rw [hnone]
      cases thrown with
      | some e => exact .inl ⟨e, rfl, rfl⟩
      | none => exact .inr ⟨rfl, result, rfl, by simp [hmem]⟩

end ScopeRun

/-- Events that open and close scopes like brackets; a begin that throws opens nothing. -/
inductive Nested : List (ScopeEvent ε ρ) → Prop
  | target (outcome : Except ε ρ) : Nested [.target outcome]
  | refused (i : ℕ) (e : ε) : Nested [.onBegin i (some e)]
  | scope {events : List (ScopeEvent ε ρ)} (i : ℕ) (thrown : Option ε) : Nested events →
      Nested (.onBegin i none :: (events ++ [.onEnd i thrown]))

theorem ScopeRun.nested {is : List ℕ} {events : List (ScopeEvent ε ρ)} {r : Except ε ρ} (h : ScopeRun is events r) :
    Nested events := by
  induction h with
  | target outcome => exact .target outcome
  | refused i is e => exact .refused i e
  | scope i thrown _ ih => exact .scope i thrown ih

variable (calls : List (StackCall (Plugin σ ε)))

theorem scopes_plugins : (scopes calls).map Prod.fst = StackCall.build calls := by
  have hid : calls.zipIdx.map (fun c => (c.1.map (·, c.2)).map Prod.fst) = calls := by
    conv_rhs => rw [← zipIdx_map_fst 0 calls]
    refine map_congr_left fun c _ => ?_
    obtain ⟨m | m, i⟩ := c
    · rfl
    · rfl
  rw [scopes, ← StackCall.build_map, map_map]
  exact congrArg StackCall.build hid

theorem scopes_numbers : ((scopes calls).map Prod.snd).Perm (List.range calls.length) := by
  have hnum : (calls.zipIdx.map fun c => c.1.map (·, c.2)).map (fun c => c.middleware.2) = List.range calls.length := by
    rw [map_map, range_eq_range', ← zipIdx_map_snd 0 calls]
    refine map_congr_left fun c _ => ?_
    obtain ⟨m | m, i⟩ := c
    · rfl
    · rfl
  have hperm := (StackCall.build_perm (calls.zipIdx.map fun c => c.1.map (·, c.2))).map Prod.snd
  rw [map_map] at hperm
  rw [← hnum]
  exact hperm

/-- **Scopes are brackets.** Whatever throws, scopes are entered in the order of the stack and left in the reverse
order; the target runs only inside of all of them; and the caller gets the first exception, or the result. -/
theorem scopes_bracket (calls : List (StackCall (Plugin σ ε))) (target : AsyncTask σ ε ρ) (s : σ) :
    ∃ events r s', recordedRun calls target s = (r, s', events) ∧
      exec (MiddlewareStack.handle ((StackCall.build calls).map pluginScope) target) s = (r, s') ∧
      events.filterMap ScopeEvent.entered <+: (scopes calls).map Prod.snd ∧ Nested events ∧
      (∀ i, (.onBegin i none ∈ events → (events.filterMap ScopeEvent.closed).count i = 1) ∧
        (.onBegin i none ∉ events → (events.filterMap ScopeEvent.closed).count i = 0)) ∧
      ((∃ outcome, .target outcome ∈ events) → ∀ i < calls.length, .onBegin i none ∈ events) ∧
      (∀ e, r = .error e ↔ events.findSome? ScopeEvent.thrown = some e) ∧
      ∀ result, r = .ok result →
        (∀ ev ∈ events, ev.thrown = none) ∧ .target (.ok result) ∈ events := by
  obtain ⟨events, r, s', hrun, hplain, hrec⟩ := scopeRun_handle (scopes calls) target s []
  have hnumbers := scopes_numbers calls
  have hclosed : ∀ i, (events.filterMap ScopeEvent.closed).count i = (events.filterMap ScopeEvent.opened).count i :=
    fun i => by rw [hrun.closed_eq, count_reverse]
  have hnodup : (events.filterMap ScopeEvent.opened).Nodup := by
    refine (ScopeRun.opened_sublist events).nodup (hrun.entered_prefix.sublist.nodup ?_)
    exact hnumbers.nodup_iff.mpr nodup_range
  refine ⟨events, r, s', hrec, ?_, hrun.entered_prefix, hrun.nested, fun i => ⟨fun h => ?_, fun h => ?_⟩, ?_, ?_, ?_⟩
  · rw [← scopes_plugins, map_map]
    exact hplain
  · rw [hclosed, hnodup.count, if_pos (ScopeRun.mem_opened_iff.mpr h)]
  · rw [hclosed, count_eq_zero_of_not_mem fun hm => h (ScopeRun.mem_opened_iff.mp hm)]
  · rintro ⟨outcome, ht⟩ i hi
    rw [← ScopeRun.mem_opened_iff, hrun.opened_of_target ht]
    exact hnumbers.mem_iff.mpr (mem_range.mpr hi)
  · intro e
    obtain ⟨e', hfirst, rfl⟩ | ⟨hnone, result, rfl, -⟩ := hrun.outcome_eq
    · rw [hfirst]
      simp
    · rw [hnone]
      simp
  · rintro result rfl
    obtain ⟨e, -, he⟩ | ⟨hnone, result', he, hmem⟩ := hrun.outcome_eq
    · cases he
    · cases he
      exact ⟨findSome?_eq_none_iff.mp hnone, hmem⟩

end Nhttp.Plugins
