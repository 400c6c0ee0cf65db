import Nhttp.Http2.HpackRoundTrip
import Nhttp.Server.H2.Client
import Nhttp.Server.H2.Moves

/-!
# Connection and client

* `Serves c s`: the connection `s` has seen exactly what the client `c` has sent. Handler calls are those of
  the complete requests, and the stream objects hold what is in progress.
* `Serves.openStream`, `Serves.completeHeaders`, `Serves.handleData`: what the frames of the client do.
-/

namespace Nhttp.Server

open Octets Protocol Http2 FrameFlags Lists List

/-! ## Stream objects of a client -/

structure Collects (o : H2Stream) (b : HeaderBlock) : Prop where
  resource : o.resource = {}
  headers : o.headers = []
  hostname : o.hostname = []
  body : o.bodyBuffer = []
  malformed : o.malformed = false
  endStream : o.endStream = b.endStream
  empty : b.endStream = true → b.request.body = []
  block : o.headerBlock ++ b.left = encode b.request.fields

structure Awaits (o : H2Stream) (r : ClientRequest) (left : Bytes) : Prop where
  resource : o.resource = (requestOf r.fields).resource
  headers : o.headers = (requestOf r.fields).headers
  hostname : o.hostname = (requestOf r.fields).hostname
  malformed : o.malformed = false
  endHeaders : o.endHeaders = true
  body : o.bodyBuffer ++ left = r.body

def H2Stream.core (o : H2Stream) : H2Stream := { o with sendWindow := 0, windowWaiter := none }

variable {o o' : H2Stream} {s' : H2} {i id : ℕ}

theorem Collects.of_core {b : HeaderBlock} (h : Collects o b) (hc : o'.core = o.core) : Collects o' b := by
  refine ⟨?_, ?_, ?_, ?_, ?_, ?_, h.empty, ?_⟩
  · exact (congrArg H2Stream.resource hc :).trans h.resource
  · exact (congrArg H2Stream.headers hc :).trans h.headers
  · exact (congrArg H2Stream.hostname hc :).trans h.hostname
  · exact (congrArg H2Stream.bodyBuffer hc :).trans h.body
  · exact (congrArg H2Stream.malformed hc :).trans h.malformed
  · exact (congrArg H2Stream.endStream hc :).trans h.endStream
  · exact (congrArg (fun o : H2Stream => o.headerBlock ++ b.left) hc :).trans h.block

theorem Awaits.of_core {r : ClientRequest} {left : Bytes} (h : Awaits o r left)
    (hc : o'.core = o.core) : Awaits o' r left := by
  refine ⟨?_, ?_, ?_, ?_, ?_, ?_⟩
  · exact (congrArg H2Stream.resource hc :).trans h.resource
  · exact (congrArg H2Stream.headers hc :).trans h.headers
  · exact (congrArg H2Stream.hostname hc :).trans h.hostname
  · exact (congrArg H2Stream.malformed hc :).trans h.malformed
  · exact (congrArg H2Stream.endHeaders hc :).trans h.endHeaders
  · exact (congrArg (fun o : H2Stream => o.bodyBuffer ++ left) hc :).trans h.body

/-! ## The relation -/

def Action.call? : Action → Option (ℕ × Request × Bytes)
  | .called id req body => some (id, req, body)
  | _ => none

def H2.handlerCalls (s : H2) : List (ℕ × Request × Bytes) := s.log.reverse.filterMap Action.call?

/-- The connection has seen what the client has sent. -/
structure Serves (c : Client) (s : H2) : Prop where
  handler : s.hasHandler = true
  limit : s.maxRequestBodySize = 16 * 1024 * 1024
  calls : s.handlerCalls = c.done.map ClientRequest.call
  tasks : ∀ ref ∈ s.tasks.map Task.ref, ∃ r ∈ c.done, s.ids[ref]? = some r.id
  idle : c.block = none → s.expectingContinuation = false
  block : ∀ b, c.block = some b → s.expectingContinuation = true ∧
    s.lastHeaderStreamId = b.request.id ∧
      ∃ ref, s.streams.lookup b.request.id = some ref ∧ Collects (s.object ref) b
  bodies : ∀ p ∈ c.bodies, ∃ ref, s.streams.lookup p.1.id = some ref ∧
    Awaits (s.object ref) p.1 p.2

/-- A step that leaves alone what the loop works with, streams of coroutines apart. -/
structure Quiet (s s' : H2) : Prop where
  handler : s'.hasHandler = s.hasHandler
  limit : s'.maxRequestBodySize = s.maxRequestBodySize
  expecting : s'.expectingContinuation = s.expectingContinuation
  last : s'.lastHeaderStreamId = s.lastHeaderStreamId
  calls : s'.handlerCalls = s.handlerCalls
  tasks : s'.tasks.map Task.ref = s.tasks.map Task.ref
  ids : s'.ids = s.ids
  objects : ∀ ref, (s'.object ref).core = (s.object ref).core
  streams : ∀ id, (∀ ref ∈ s.tasks.map Task.ref, s.ids[ref]? ≠ some id) →
    s'.streams.lookup id = s.streams.lookup id

variable {s : H2}

/-- Nothing but flow control, coroutine states and other actions of the log. -/
theorem quiet_of_eq (hh : s'.hasHandler = s.hasHandler) (hm : s'.maxRequestBodySize = s.maxRequestBodySize)
    (he : s'.expectingContinuation = s.expectingContinuation)
    (hl : s'.lastHeaderStreamId = s.lastHeaderStreamId) (hc : s'.handlerCalls = s.handlerCalls)
    (ht : s'.tasks.map Task.ref = s.tasks.map Task.ref) (hi : s'.ids = s.ids)
    (ho : ∀ ref, (s'.object ref).core = (s.object ref).core) (hs : s'.streams = s.streams) :
    Quiet s s' :=
  ⟨hh, hm, he, hl, hc, ht, hi, ho, fun _ _ => by rw [hs]⟩

section Distinct

variable {c : Client} {s : H2}

theorem Serves.no_task (h : Serves c s) {r : ClientRequest} (hr : ∀ r' ∈ c.done, r'.id ≠ r.id) :
    ∀ ref ∈ s.tasks.map Task.ref, s.ids[ref]? ≠ some r.id := by
  intro ref href hid
  obtain ⟨r', hr', hid'⟩ := h.tasks ref href
  rw [hid'] at hid
  exact hr r' hr' (Option.some.inj hid)

end Distinct

def Client.Distinct (c : Client) : Prop := (c.requests.map ClientRequest.id).Nodup

namespace Client

variable {c : Client}

theorem Distinct.sends {c' : Client} {f : Frame} (h : c.Distinct) (hs : c.Sends f c') : c'.Distinct :=
  (hs.perm.map _).nodup_iff.mpr h

theorem Distinct.ne {l₁ l₂ : List ClientRequest} {r r' : ClientRequest} (h : c.Distinct)
    (he : c.requests = l₁ ++ l₂) (hr : r ∈ l₁) (hr' : r' ∈ l₂) : r'.id ≠ r.id := by
  rw [Distinct, he, map_append, nodup_append] at h
  exact (h.2.2 _ (mem_map_of_mem hr) _ (mem_map_of_mem hr')).symm

theorem Distinct.body_not_done (h : c.Distinct) {p : ClientRequest × Bytes}
    (hp : p ∈ c.bodies) : ∀ r ∈ c.done, r.id ≠ p.1.id :=
  fun _ hr => h.ne rfl (mem_append_right _ (mem_map_of_mem hp)) hr

variable {b : HeaderBlock}

theorem Distinct.block_not_done (h : c.Distinct)
    (hb : c.block = some b) : ∀ r ∈ c.done, r.id ≠ b.request.id :=
  fun _ hr => h.ne rfl (mem_append_left _ (mem_append_right _ (by simp [hb]))) hr

theorem Distinct.todo_not_body (h : c.Distinct) {l₁ l₂ : List ClientRequest}
    {r : ClientRequest} (ht : c.todo = l₁ ++ r :: l₂) : ∀ p ∈ c.bodies, p.1.id ≠ r.id :=
  fun _ hp => h.ne (append_assoc _ _ _) (mem_append_left _ (by simp [ht])) (mem_append_left _ (mem_map_of_mem hp))

theorem Distinct.block_not_body (h : c.Distinct)
    (hb : c.block = some b) : ∀ p ∈ c.bodies, p.1.id ≠ b.request.id :=
  fun _ hp => h.ne (append_assoc _ _ _) (mem_append_right _ (by simp [hb])) (mem_append_left _ (mem_map_of_mem hp))

theorem Distinct.body_not_body (h : c.Distinct) {l₁ l₂ : List (ClientRequest × Bytes)}
    {r : ClientRequest} {left : Bytes} (hb : c.bodies = l₁ ++ (r, left) :: l₂) :
    ∀ p ∈ l₁ ++ l₂, p.1.id ≠ r.id := by
  unfold Distinct requests at h
  rw [map_append, nodup_append, map_append, nodup_append] at h
  have hn := h.1.2.1
  rw [hb, map_append, map_cons, map_append, map_cons, nodup_middle,
    nodup_cons] at hn
  intro p hp he
  refine hn.1 (he ▸ ?_)
  rw [← map_append, ← map_append]
  exact mem_map_of_mem (mem_map_of_mem hp)

end Client

theorem Serves.quiet {c : Client} (h : Serves c s) (hd : c.Distinct) (hq : Quiet s s') :
    Serves c s' := by
  refine ⟨hq.handler.trans h.handler, hq.limit.trans h.limit, hq.calls.trans h.calls, ?_,
    fun hb => hq.expecting.trans (h.idle hb), fun b hb => ?_, fun p hp => ?_⟩
  · rw [hq.tasks, hq.ids]
    exact h.tasks
  · obtain ⟨h1, h2, ref, hl, hc⟩ := h.block b hb
    refine ⟨hq.expecting.trans h1, hq.last.trans h2, ref, ?_, hc.of_core (hq.objects ref)⟩
    rw [hq.streams _ (h.no_task (hd.block_not_done hb))]
    exact hl
  · obtain ⟨ref, hl, ha⟩ := h.bodies p hp
    refine ⟨ref, ?_, ha.of_core (hq.objects ref)⟩
    rw [hq.streams _ (h.no_task (hd.body_not_done hp))]
    exact hl

/-! ## Steps outside the loop -/

theorem lookup_filter_ne {l : List (ℕ × ℕ)} (h : i ≠ id) :
    (l.filter fun e => e.1 ≠ id).lookup i = l.lookup i := by
  induction l with
  | nil => rfl
  | cons e l ih =>
    obtain ⟨j, ref⟩ := e
    by_cases hj : j = id
    · have hij : (i == j) = false := by simp [hj, h]
      rw [filter_cons_of_neg (by simp [hj]), ih, lookup_cons, hij]
    · rw [filter_cons_of_pos (by simp [hj]), lookup_cons, lookup_cons, ih]

theorem handlerCalls_cons {a : Action} (hl : s'.log = a :: s.log) (ha : a.call? = none) :
    s'.handlerCalls = s.handlerCalls := by
  simp [H2.handlerCalls, hl, ha]

theorem handlerCalls_called {ref : ℕ} {req : Request} {body : Bytes}
    (hl : s'.log = .called id req body :: .dispatched ref i :: s.log) :
    s'.handlerCalls = s.handlerCalls ++ [(id, req, body)] := by
  unfold H2.handlerCalls
  rw [hl, reverse_cons, reverse_cons, append_assoc, filterMap_append]
  rfl

section QuietSteps

variable (s : H2)

variable {s' : H2}

theorem quiet_of_bare (hb : s'.bare = s.bare) : Quiet s s' := by
  have ht : s'.tasks.map Task.erase = s.tasks.map Task.erase := congrArg H2.tasks hb
  refine quiet_of_eq ?_ ?_ ?_ ?_ ?_ ?_ ?_ (fun ref => ?_) ?_
  · exact (congrArg H2.hasHandler hb :)
  · exact (congrArg H2.maxRequestBodySize hb :)
  · exact (congrArg H2.expectingContinuation hb :)
  · exact (congrArg H2.lastHeaderStreamId hb :)
  · exact (congrArg H2.handlerCalls hb :)
  · simpa [Task.erase, Function.comp_def] using congrArg (List.map Task.ref) ht
  · exact (congrArg H2.ids hb :)
  · exact (congrArg (fun s : H2 => (s.object ref).core) hb :)
  · exact (congrArg H2.streams hb :)

theorem quiet_loopSend (f : Frame) (k : LoopCont) : Quiet s (s.loopSend f k) := by
  obtain ⟨lo, wa, st, he⟩ := H2.loopSend_eq s f k
  rw [he]
  exact quiet_of_eq rfl rfl rfl rfl (handlerCalls_cons rfl rfl) rfl rfl (fun _ => rfl) rfl

/-- The end of a coroutine takes its own stream out of the map; nothing else shows. -/
theorem quiet_taskMove {s : H2} (hw : s.Wf) {t : ℕ} {x : Task} (hx : s.tasks[t]? = some x)
    (hm : H2.TaskMove s t x s') : Quiet s s' := by
  have hmem : x.ref ∈ s.tasks.map Task.ref := mem_map_of_mem (mem_of_getElem? hx)
  have hid : s.ids[x.ref]? = some (s.object x.ref).id := by
    refine H2.ids_getElem? ?_
    rw [← H2.length_ids]
    exact hw.tasks x.ref hmem
  obtain ⟨f, streams, c, lo, wa, pc, acts, hf, hs, ha, rfl⟩ := hm.effect
  refine ⟨rfl, rfl, rfl, rfl, ?_, map_modify_of_keeps (by intro _; rfl) _ _,
    H2.ids_modifyObject hf.id s x.ref,
    H2.object_modifyObject_of_keeps (fun o => by rw [hf o]; rfl) s x.ref, fun id hno => ?_⟩
  · have hc : acts.reverse.filterMap Action.call? = [] := by
      refine filterMap_eq_nil_iff.mpr fun a hm => ?_
      have hof := ha a (mem_reverse.mp hm)
      cases a with
      | called => cases hof
      | _ => rfl
    simp [H2.handlerCalls, hc]
  · obtain rfl | rfl := hs
    · rfl
    · refine lookup_filter_ne ?_
      rintro rfl
      exact hno x.ref hmem hid

end QuietSteps

/-! ## Frames of the client -/

theorem H2.modifyObject_congr {ref : ℕ} {f g : H2Stream → H2Stream}
    (h : f (s.object ref) = g (s.object ref)) : s.modifyObject ref f = s.modifyObject ref g := by
  have hl : s.objects.modify ref f = s.objects.modify ref g := by
    refine ext_getElem? fun i => ?_
    rw [getElem?_modify, getElem?_modify]
    by_cases hi : ref = i
    · subst hi
      cases ho : s.objects[ref]? with
      | none => rfl
      | some o =>
        have he : s.object ref = o := by simp [H2.object, ho]
        simpa [he] using h
    · simp [hi]
  unfold H2.modifyObject
  rw [hl]

theorem H2.object_modifyObject_self {ref : ℕ} (h : ref < s.ids.length) (f : H2Stream → H2Stream) :
    (s.modifyObject ref f).object ref = f (s.object ref) := by
  rw [object_modifyObject, if_pos ⟨rfl, lt_of_lt_of_eq h (length_ids s)⟩]

def H2Stream.completed (o : H2Stream) (fields : HeaderList) : H2Stream :=
  { o with
    resource := (requestOf fields).resource
    headers := (requestOf fields).headers
    hostname := (requestOf fields).hostname
    endHeaders := true }

theorem completeHeaders_of_collects {ref : ℕ} {r : ClientRequest} {es : Bool}
    (hr : ref < s.ids.length) (h : Collects (s.object ref) ⟨r, [], es⟩) :
    s.completeHeaders ref =
      if es then (s.modifyObject ref fun o => o.completed r.fields).dispatchStream ref
      else s.modifyObject ref fun o => o.completed r.fields := by
  have hblock : (s.object ref).headerBlock = encode r.fields := by
    rw [← h.block, append_nil]
  have hdec : s.hpackDecoder.decode (s.object ref).headerBlock [] =
      ⟨none, s.hpackDecoder, r.fields⟩ := by
    rw [hblock]
    exact HpackDecoder.decodeFrom_encode r.fields r.fields_lt rfl
  have hs : (s.finishHeaderBlock ref).modifyObject ref (fun o => { o with endHeaders := true }) =
      s.modifyObject ref fun o => o.completed r.fields := by
    unfold H2.finishHeaderBlock
    rw [hdec]
    rw [H2.modifyObject_modifyObject]
    refine H2.modifyObject_congr ?_
    have hf := foldl_applyField (s.object ref) r.fields h.resource h.headers h.hostname
    dsimp only [Function.comp_apply]
    rw [hf]
    rfl
  have hnew : (s.modifyObject ref fun o => o.completed r.fields).object ref =
      (s.object ref).completed r.fields := H2.object_modifyObject_self hr _
  have he : ((s.object ref).completed r.fields).endStream = es := h.endStream
  have hm : ((s.object ref).completed r.fields).malformed = false := h.malformed
  unfold H2.completeHeaders
  dsimp only
  rw [hs, hnew, he, hm, Bool.or_false]

section Frames

variable {c : Client} {s : H2} {r : ClientRequest} {ref : ℕ}

theorem Serves.modifyObject (h : Serves c s) (hw : s.Wf) (hb : c.block = none)
    (hl : s.streams.lookup r.id = some ref) (hn : ∀ p ∈ c.bodies, p.1.id ≠ r.id)
    {f : H2Stream → H2Stream} (hf : ∀ o, (f o).id = o.id) : Serves c (s.modifyObject ref f) := by
  refine ⟨h.handler, h.limit, h.calls, ?_, h.idle, fun b hb' => ?_, fun p hp => ?_⟩
  · rw [H2.ids_modifyObject hf]
    exact h.tasks
  · rw [hb] at hb'
    cases hb'
  · obtain ⟨ref', hl', ha⟩ := h.bodies p hp
    refine ⟨ref', hl', ?_⟩
    rw [H2.object_modifyObject, if_neg]
    · exact ha
    · rintro ⟨rfl, -⟩
      have hi := hw.lookup hl
      rw [hw.lookup hl'] at hi
      exact hn p hp (Option.some.inj hi)

theorem Serves.setBodies (h : Serves c s) (bs : List (ClientRequest × Bytes))
    (hbs : ∀ p ∈ bs, ∃ ref, s.streams.lookup p.1.id = some ref ∧ Awaits (s.object ref) p.1 p.2) :
    Serves { c with bodies := bs } s :=
  ⟨h.handler, h.limit, h.calls, h.tasks, h.idle, h.block, hbs⟩

variable {l₁ l₂ : List (ClientRequest × Bytes)} {block left payload : Bytes}

theorem Serves.dropBody (h : Serves c s) {q : ClientRequest × Bytes} (hbs : c.bodies = l₁ ++ q :: l₂) :
    Serves { c with bodies := l₁ ++ l₂ } s := by
  refine h.setBodies _ fun p hp => h.bodies p ?_
  rw [hbs]
  exact ((sublist_cons_self q l₂).append_left l₁).subset hp

theorem Serves.dispatchStream (h : Serves c s) (hw : s.Wf) (hb : c.block = none)
    (hl : s.streams.lookup r.id = some ref) (hn : ∀ p ∈ c.bodies, p.1.id ≠ r.id)
    (ha : Awaits (s.object ref) r []) :
    Serves { c with done := c.done ++ [r] } (s.dispatchStream ref) := by
  have hid : (s.object ref).id = r.id := H2.object_id_of_ids (hw.lookup hl)
  have hm := h.modifyObject hw hb hl hn (f := fun o => { o with headers := [] }) (by intro _; rfl)
  have hcall : (⟨(s.object ref).resource, (s.object ref).headers, (s.object ref).hostname⟩ : Request)
      = requestOf r.fields := by
    rw [ha.resource, ha.headers, ha.hostname]
  have hbody : (s.object ref).bodyBuffer = r.body := by
    rw [← ha.body, append_nil]
  have he : s.dispatchStream ref =
      { s.modifyObject ref (fun o => { o with headers := [] }) with
        tasks := s.tasks ++ [⟨ref, .handler⟩]
        log := .called r.id (requestOf r.fields) r.body :: .dispatched ref r.id :: s.log } := by
    unfold H2.dispatchStream H2.record
    dsimp only
    rw [if_neg (by rw [ha.malformed]; exact Bool.false_ne_true), if_pos h.handler, hcall, hbody, hid]
    rfl
  rw [he]
  refine ⟨hm.handler, hm.limit, ?_, fun r' hr' => ?_, hm.idle, hm.block, hm.bodies⟩
  · rw [map_append, ← h.calls]
    exact handlerCalls_called rfl
  · rw [map_append, mem_append] at hr'
    obtain hr' | hr' := hr'
    · obtain ⟨q, hq, hi⟩ := hm.tasks r' hr'
      exact ⟨q, mem_append_left _ hq, hi⟩
    · rw [map_singleton, mem_singleton] at hr'
      refine ⟨r, mem_append_right _ (mem_singleton_self r), ?_⟩
      subst hr'
      exact (congrArg (·[r']?) (H2.ids_modifyObject (by intro _; rfl) s r')).trans (hw.lookup hl)

theorem Serves.completeHeaders (h : Serves c s) (hw : s.Wf) (hb : c.block = none)
    (hl : s.streams.lookup r.id = some ref) (hn : ∀ p ∈ c.bodies, p.1.id ≠ r.id) {es : Bool}
    (hc : Collects (s.object ref) ⟨r, [], es⟩) :
    Serves (c.sentBlock ⟨r, [], es⟩ true) (s.completeHeaders ref) := by
  have hlt := H2.lt_length_ids (hw.lookup hl)
  have hid : ∀ o : H2Stream, (o.completed r.fields).id = o.id := fun _ => rfl
  have hm := h.modifyObject hw hb hl hn hid
  have hobj : (s.modifyObject ref fun o => o.completed r.fields).object ref =
      (s.object ref).completed r.fields := H2.object_modifyObject_self hlt _
  have ha : Awaits ((s.modifyObject ref fun o => o.completed r.fields).object ref) r r.body := by
    rw [hobj]
    refine ⟨rfl, rfl, rfl, hc.malformed, rfl, ?_⟩
    exact congrArg (· ++ r.body) hc.body
  rw [completeHeaders_of_collects hlt hc]
  cases es with
  | true =>
    have hbody : r.body = [] := hc.empty rfl
    rw [hbody] at ha
    have hd := hm.dispatchStream (hw.modifyObject hid ref) hb hl hn ha
    exact ⟨hd.handler, hd.limit, hd.calls, hd.tasks, fun _ => hd.idle hb,
      fun b hb' => (by cases hb'), hd.bodies⟩
  | false =>
    have hs := hm.setBodies ((r, r.body) :: c.bodies) ?_
    · exact ⟨hs.handler, hs.limit, hs.calls, hs.tasks, fun _ => hs.idle hb,
        fun b hb' => (by cases hb'), hs.bodies⟩
    · intro p hp
      obtain rfl | hp := mem_cons.mp hp
      · exact ⟨ref, hl, ha⟩
      · exact hm.bodies p hp

theorem Serves.openStream (h : Serves c s) (hw : s.Wf) (hb : c.block = none)
    (hn : ∀ p ∈ c.bodies, p.1.id ≠ r.id) (block : Bytes) (es : Bool) :
    Serves c (s.openStream r.id block es) := by
  refine ⟨h.handler, h.limit, ?_, fun ref href => ?_, h.idle, fun b hb' => ?_,
    fun p hp => ?_⟩
  · rw [← h.calls]
    exact handlerCalls_cons rfl rfl
  · obtain ⟨q, hq, hi⟩ := h.tasks ref href
    refine ⟨q, hq, ?_⟩
    rw [H2.ids_openStream, getElem?_append_left (H2.lt_length_ids hi)]
    exact hi
  · rw [hb] at hb'
    cases hb'
  · obtain ⟨ref, hl, ha⟩ := h.bodies p hp
    refine ⟨ref, ?_, ?_⟩
    · have hne : (p.1.id == r.id) = false := by simp [hn p hp]
      unfold H2.openStream
      dsimp only
      rw [lookup_cons, hne]
      exact (lookup_filter_ne (hn p hp)).trans hl
    · rw [H2.object_openStream_old (H2.lt_length_ids (hw.lookup hl))]
      exact ha

theorem lookup_openStream (s : H2) (id : ℕ) (block : Bytes) (es : Bool) :
    (s.openStream id block es).streams.lookup id = some s.objects.length := by
  simp [H2.openStream]

theorem Serves.handleHeaders (h : Serves c s) (hw : s.Wf) (hb : c.block = none)
    (hn : ∀ p ∈ c.bodies, p.1.id ≠ r.id) (fh : FrameHeader)
    (hid : fh.streamId = r.id) (hp : H2.headersFragment fh payload = some block)
    (he : encode r.fields = block ++ left)
    (hes : has fh.flags endStream = true → r.body = [])
    (heh : has fh.flags endHeaders = true → left = []) :
    ∃ s', s.handleHeaders fh payload = some s' ∧
      Serves (c.sentBlock ⟨r, left, has fh.flags endStream⟩
        (has fh.flags endHeaders)) s' := by
  have ho := h.openStream hw hb hn block (has fh.flags endStream)
  have hl := lookup_openStream s r.id block (has fh.flags endStream)
  have hc : Collects ((s.openStream r.id block
      (has fh.flags endStream)).object s.objects.length)
      ⟨r, left, has fh.flags endStream⟩ := by
    rw [H2.object_openStream_new]
    exact ⟨rfl, rfl, rfl, rfl, rfl, rfl, hes, he.symm⟩
  unfold H2.handleHeaders
  rw [if_neg (by rw [hid, h.idle hb]; simp [r.id_ne_zero]), hp, hid]
  dsimp only
  by_cases hf : has fh.flags endHeaders = true
  · rw [if_pos hf, hf]
    cases heh hf
    exact ⟨_, rfl, ho.completeHeaders (hw.openStream _ _ _) hb hl hn hc⟩
  · rw [if_neg hf, Bool.eq_false_iff.mpr hf]
    refine ⟨_, rfl, ho.handler, ho.limit, ho.calls, ho.tasks, fun hb' => ?_, fun b hb' => ?_, ho.bodies⟩
    · cases hb'
    · cases hb'
      exact ⟨rfl, rfl, _, hl, hc⟩

theorem Serves.handleContinuation (h : Serves c s) (hw : s.Wf) {b : HeaderBlock}
    (hb : c.block = some b) (hn : ∀ p ∈ c.bodies, p.1.id ≠ b.request.id) (fh : FrameHeader)
    (hid : fh.streamId = b.request.id) (he : b.left = block ++ left)
    (heh : has fh.flags endHeaders = true → left = []) :
    ∃ s', s.handleContinuation fh block = some s' ∧
      Serves (c.sentBlock { b with left := left }
        (has fh.flags endHeaders)) s' := by
  obtain ⟨hx, hlast, ref, hl, hc⟩ := h.block b hb
  have hlt := H2.lt_length_ids (hw.lookup hl)
  -- without the block in progress, the client still describes the connection
  have h0 : Serves { c with block := none } { s with expectingContinuation := false } :=
    ⟨h.handler, h.limit, h.calls, h.tasks, fun _ => rfl, fun b hb' => (by cases hb'), h.bodies⟩
  have hw0 : ({ s with expectingContinuation := false } : H2).Wf :=
    hw.mono rfl (fun _ he => he) rfl (.inr rfl)
  have hm := h0.modifyObject hw0 rfl hl hn
    (f := fun o => { o with headerBlock := o.headerBlock ++ block }) (by intro _; rfl)
  have hc' : Collects
      ((s.modifyObject ref fun o => { o with headerBlock := o.headerBlock ++ block }).object ref)
      { b with left := left } := by
    rw [H2.object_modifyObject_self hlt]
    refine ⟨hc.resource, hc.headers, hc.hostname, hc.body, hc.malformed, hc.endStream, hc.empty, ?_⟩
    rw [append_assoc, ← he]
    exact hc.block
  unfold H2.handleContinuation
  rw [if_neg (by rw [hx, hlast]; simp [hid]), hid, hl]
  dsimp only
  by_cases hf : has fh.flags endHeaders = true
  · rw [if_pos hf, hf]
    cases heh hf
    refine ⟨_, rfl, ?_⟩
    exact hm.completeHeaders (hw0.modifyObject (by intro _; rfl) ref) rfl hl hn hc'
  · rw [if_neg hf, Bool.eq_false_iff.mpr hf]
    refine ⟨_, rfl, hm.handler, hm.limit, hm.calls, hm.tasks, fun hb' => ?_, fun b' hb' => ?_, hm.bodies⟩
    · cases hb'
    · cases hb'
      exact ⟨hx, hlast, ref, hl, hc'⟩

theorem Serves.handleData (h : Serves c s) (hw : s.Wf) (hb : c.block = none) {content : Bytes}
    (hbs : c.bodies = l₁ ++ (r, content ++ left) :: l₂) (hn : ∀ p ∈ l₁ ++ l₂, p.1.id ≠ r.id)
    (fh : FrameHeader) (hid : fh.streamId = r.id)
    (hp : stripPadding payload (has fh.flags padded) = some content) :
    ∃ s' ref, s.handleData fh payload = some (s', some ref) ∧
      s'.streams.lookup r.id = some ref ∧ Serves { c with bodies := l₁ ++ (r, left) :: l₂ } s' := by
  obtain ⟨ref, hl, ha⟩ := h.bodies (r, content ++ left) (by rw [hbs]; simp)
  have hlt := H2.lt_length_ids (hw.lookup hl)
  have hsum : (s.object ref).bodyBuffer.length + (content.length + left.length) = r.body.length := by
    rw [← length_append, ← length_append]
    exact congrArg List.length ha.body
  have h0 := h.dropBody hbs
  have hm := h0.modifyObject hw hb hl hn
    (f := fun o => { o with bodyBuffer := o.bodyBuffer ++ content }) (by intro _; rfl)
  refine ⟨s.modifyObject ref fun o => { o with bodyBuffer := o.bodyBuffer ++ content }, ref, ?_, hl, ?_⟩
  · unfold H2.handleData
    rw [hid, hl, hp]
    dsimp only
    rw [if_neg]
    have := r.body_le
    rw [h.limit]
    omega
  · refine hm.setBodies _ fun p hp => ?_
    rw [mem_append, mem_cons] at hp
    obtain rfl | hp : p = (r, left) ∨ p ∈ l₁ ++ l₂ := by
      rw [mem_append]
      tauto
    · refine ⟨ref, hl, ?_⟩
      rw [H2.object_modifyObject_self hlt]
      refine ⟨ha.resource, ha.headers, ha.hostname, ha.malformed, ha.endHeaders, ?_⟩
      rw [append_assoc]
      exact ha.body
    · exact hm.bodies p hp

theorem Serves.finishBody (h : Serves c s) (hw : s.Wf) (hb : c.block = none)
    (hbs : c.bodies = l₁ ++ (r, []) :: l₂)
    (hn : ∀ p ∈ l₁ ++ l₂, p.1.id ≠ r.id) (hl : s.streams.lookup r.id = some ref) {fh : FrameHeader}
    (hf : has fh.flags endStream = true) :
    ∃ s', s.finishData fh ref = s'.nextFrame ∧
      Serves { c with bodies := l₁ ++ l₂, done := c.done ++ [r] } s' := by
  obtain ⟨ref', hl', ha⟩ := h.bodies (r, []) (by rw [hbs]; simp)
  cases hl.symm.trans hl'
  have hlt := H2.lt_length_ids (hw.lookup hl)
  have h0 := h.dropBody hbs
  have hm := h0.modifyObject hw hb hl hn (f := fun o => { o with endStream := true }) (by intro _; rfl)
  have hobj : (s.modifyObject ref fun o => { o with endStream := true }).object ref =
      { s.object ref with endStream := true } := H2.object_modifyObject_self hlt _
  have hd := hm.dispatchStream (hw.modifyObject (by intro _; rfl) ref) hb hl hn (by
    rw [hobj]
    exact ⟨ha.resource, ha.headers, ha.hostname, ha.malformed, ha.endHeaders, ha.body⟩)
  refine ⟨_, ?_, hd⟩
  unfold H2.finishData
  rw [if_pos hf]
  rw [if_pos]
  rw [hobj]
  exact ha.endHeaders

end Frames

end Nhttp.Server
