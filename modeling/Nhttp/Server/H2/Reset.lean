import Nhttp.Server.H2.Moves

/-!
# Streams that the client has reset

RST_STREAM takes the stream out of the map and does nothing else: a coroutine that works on the
stream keeps its object and goes on.

* `Stranded`: a coroutine waits for window on a stream object that the map does not know.
* `AfterReset`: nobody works on the id, and nobody can begin to.
* **`reset_silences`**: if nobody works on the id when the frame is processed, and the id is not used
  again, then nothing is sent on it and nobody is stranded.
-/

namespace Nhttp.Server

open Octets Protocol Http2 List Nhttp.Server.Action

def Action.onStream (id : ℕ) : Action → Bool
  | .sent _ f => (f.type == .headers || f.type == .data) && f.streamId == id
  | _ => false

namespace H2

def framesOn (s : H2) (id : ℕ) : ℕ := s.log.countP (Action.onStream id)

def Stranded (s : H2) (id : ℕ) : Prop :=
  ∃ x ∈ s.tasks, (s.object x.ref).id = id ∧ x.pc.isWaiting = true ∧ ∀ e ∈ s.streams, e.2 ≠ x.ref

instance (s : H2) (id : ℕ) : Decidable (s.Stranded id) := by
  unfold Stranded
  infer_instance

def Resets (s : H2) (id : ℕ) (s' : H2) : Prop :=
  (∃ fh, s.loop = .payload fh ∧ fh.type = .rstStream ∧ fh.streamId = id) ∧ s.step .loop = some s'

def NoHeadersOn (id : ℕ) (s : H2) : Event → Prop := s.OnFrame fun fh => fh.type = .headers → fh.streamId ≠ id

instance (id : ℕ) (s : H2) (e : Event) : Decidable (NoHeadersOn id s e) := inferInstanceAs (Decidable (s.OnFrame _ e))

/-- Nobody works on the id or can begin to, and `n` frames have been sent on it. -/
structure AfterReset (id n : ℕ) (s : H2) : Prop where
  frames : s.framesOn id = n
  tasks : ∀ x ∈ s.tasks, s.ids[x.ref]? = some id → x.pc = .done
  streams : ∀ e ∈ s.streams, e.1 ≠ id
  loop : ∀ fh ref, s.loop.data = some (fh, ref) → fh.streamId ≠ id

namespace AfterReset

variable {id n : ℕ} {s s' : H2}

theorem mono (h : AfterReset id n s) (hf : s'.framesOn id = s.framesOn id) (hi : s'.ids = s.ids)
    (ht : ∀ y ∈ s'.tasks, ∃ x ∈ s.tasks, y.ref = x.ref ∧ (x.pc = .done → y.pc = .done))
    (hs : ∀ e ∈ s'.streams, e ∈ s.streams)
    (hl : s'.loop.data = none ∨ s'.loop.data = s.loop.data) : AfterReset id n s' := by
  refine ⟨hf.trans h.frames, fun y hy hid => ?_, fun e he => h.streams e (hs e he), fun fh ref hd => ?_⟩
  · obtain ⟨x, hx, href, hdone⟩ := ht y hy
    rw [hi, href] at hid
    exact hdone (h.tasks x hx hid)
  · obtain hl | hl := hl
    · rw [hl] at hd
      cases hd
    · exact h.loop fh ref (hl ▸ hd)

theorem mono_of_eq (h : AfterReset id n s) (hf : s'.framesOn id = s.framesOn id) (hi : s'.ids = s.ids)
    (ht : s'.tasks = s.tasks) (hs : ∀ e ∈ s'.streams, e ∈ s.streams)
    (hl : s'.loop.data = none ∨ s'.loop.data = s.loop.data) : AfterReset id n s' :=
  h.mono hf hi (fun y hy => ⟨y, ht ▸ hy, rfl, fun h => h⟩) hs hl

theorem of_bare (h : AfterReset id n s) (hb : s'.bare = s.bare) : AfterReset id n s' := by
  have hl : s'.loop.erase = s.loop.erase := congrArg H2.loop hb
  have ht : s'.tasks.map Task.erase = s.tasks.map Task.erase := congrArg H2.tasks hb
  have hs : s'.bare.streams = s.bare.streams := congrArg H2.streams hb
  have hg : s'.bare.log = s.bare.log := congrArg H2.log hb
  have hi : s'.bare.ids = s.bare.ids := congrArg ids hb
  refine h.mono (congrArg (List.countP (onStream id)) hg) hi (fun y hy => ?_)
    (fun e he => hs ▸ he) (.inr ?_)
  · have hm : y.erase ∈ s.tasks.map Task.erase := ht ▸ mem_map_of_mem hy
    obtain ⟨x, hx, he⟩ := mem_map.mp hm
    refine ⟨x, hx, (congrArg Task.ref he).symm, fun hd => ?_⟩
    have hp : x.pc.erase = y.pc.erase := congrArg Task.pc he
    rw [hd] at hp
    exact TaskPc.eq_done_of_erase hp.symm
  · rw [← LoopPc.data_erase, hl, LoopPc.data_erase]

/-! ## Response coroutines -/

theorem modifyObject (h : AfterReset id n s) {f : H2Stream → H2Stream} (hf : ∀ o, (f o).id = o.id)
    (ref : ℕ) : AfterReset id n (s.modifyObject ref f) :=
  h.mono_of_eq rfl (ids_modifyObject hf s ref) rfl (fun _ he => he) (.inr rfl)

theorem eraseStream (h : AfterReset id n s) (i : ℕ) : AfterReset id n (s.eraseStream i) :=
  h.mono_of_eq rfl rfl rfl (fun _ he => mem_of_mem_filter he) (.inr rfl)

theorem taskMove {t : ℕ} {x : Task} (h : AfterReset id n s) (hw : s.Wf) (hx : s.tasks[t]? = some x)
    (hm : TaskMove s t x s') : AfterReset id n s' := by
  -- a coroutine for the id has finished, so this one is for another stream
  have hmem : x ∈ s.tasks := mem_of_getElem? hx
  have hi : s.ids[x.ref]? ≠ some id := fun hid => hm.pc_ne_done (h.tasks x hmem hid)
  have hid : (s.object x.ref).id ≠ id := by
    intro he
    have hlt : x.ref < s.objects.length := by
      rw [← length_ids]
      exact hw.tasks x.ref (mem_map_of_mem hmem)
    exact hi (by rw [ids_getElem? hlt, he])
  have hs := hm.streams_subset
  obtain ⟨f, streams, c, lo, wa, pc, acts, hf, -, ha, rfl⟩ := hm.effect
  have hids := ids_modifyObject hf.id s x.ref
  refine ⟨?_, fun y hy hyid => ?_, fun e he => h.streams e (hs e he), h.loop⟩
  · rw [← h.frames]
    refine countP_ofTask ha (fun a hof => ?_) s.log
    cases a with
    | sent r g =>
      cases r with
      | none => cases hof
      | some r =>
        simp only [ofTask, Bool.and_eq_true, beq_iff_eq] at hof
        simp [onStream, hof.2, hid]
    | _ => simp [onStream]
  · have hyid' : s.ids[y.ref]? = some id := by rw [← hids]; exact hyid
    obtain ⟨i, hi'⟩ := mem_iff_getElem?.mp hy
    simp only [getElem?_modify] at hi'
    by_cases hti : t = i
    · subst hti
      simp only [hx, if_true, Option.map_eq_map, Option.map_some, Option.some.injEq] at hi'
      subst hi'
      exact absurd hyid' hi
    · simp only [hti, if_false, Option.map_eq_map, Option.map_id'] at hi'
      exact h.tasks y (mem_of_getElem? hi') hyid'

/-! ## The loop -/

theorem loopSend (h : AfterReset id n s) {f : Frame} (hf : f.type ≠ .headers ∧ f.type ≠ .data)
    {k : LoopCont}
    (hk : ∀ st fh ref, (LoopPc.sending st k).data = some (fh, ref) → fh.streamId ≠ id) :
    AfterReset id n (s.loopSend f k) := by
  obtain ⟨lo, wa, st, he⟩ := loopSend_eq s f k
  rw [he]
  refine ⟨?_, h.tasks, h.streams, hk st⟩
  rw [← h.frames]
  simp [framesOn, onStream, hf.1, hf.2]

variable {ref i : ℕ} {fh : FrameHeader} {payload : Bytes}

theorem dispatchStream (h : AfterReset id n s) (hi : s.ids[ref]? ≠ some id) :
    AfterReset id n (s.dispatchStream ref) := by
  obtain ⟨f, pc, called, hf, -, -, hc, he⟩ := dispatchStream_eq s ref
  have hids := ids_modifyObject hf.id s ref
  rw [he]
  refine ⟨?_, fun x hx hid => ?_, h.streams, h.loop⟩
  · rw [← h.frames]
    obtain rfl | ⟨req, body, rfl⟩ := hc <;> simp [framesOn, onStream]
  · have hid' : s.ids[x.ref]? = some id := by rw [← hids]; exact hid
    obtain hx | hx := mem_append.mp hx
    · exact h.tasks x hx hid'
    · rw [mem_singleton.mp hx] at hid'
      exact absurd hid' hi

theorem openStream (h : AfterReset id n s) (hw : s.Wf) (hi : i ≠ id) (block : Bytes)
    (endStream : Bool) : AfterReset id n (s.openStream i block endStream) := by
  refine ⟨?_, fun x hx hid => ?_, fun e he => ?_, h.loop⟩
  · rw [← h.frames]
    simp [framesOn, H2.openStream, onStream]
  · rw [ids_openStream, getElem?_append_left (hw.tasks x.ref (mem_map_of_mem hx))] at hid
    exact h.tasks x hx hid
  · obtain rfl | he := mem_cons.mp he
    · exact hi
    · exact h.streams e (mem_of_mem_filter he)

theorem wake (h : AfterReset id n s) (ref : ℕ) : AfterReset id n (s.wake ref) := by
  unfold H2.wake
  cases (s.object ref).windowWaiter with
  | none => exact h
  | some t =>
    refine h.mono rfl (ids_modifyObject (f := fun o => { o with windowWaiter := none }) (fun _ => rfl)
      s ref) (fun y hy => ?_) (fun _ he => he) (.inr rfl)
    -- only a coroutine that waits is changed
    obtain ⟨i, hi⟩ := mem_iff_getElem?.mp hy
    simp only [getElem?_modify] at hi
    obtain ⟨x, hx, rfl⟩ := Option.map_eq_some_iff.mp hi
    refine ⟨x, mem_of_getElem? hx, ?_, fun hd => ?_⟩
    · by_cases hti : t = i
      · cases x.pc <;> simp [hti]
      · simp [hti]
    · by_cases hti : t = i
      · simp [hti, hd]
      · simp [hti, hd]

theorem begins (h : AfterReset id n s) (hw : s.Wf) {r : Option (ℕ × ℕ)}
    (hi : fh.type = .headers → fh.streamId ≠ id) (hb : Begin s fh r s') :
    AfterReset id n s' ∧ ∀ ref i, r = some (ref, i) → i ≠ id := by
  have hlook : ∀ {ref}, s.streams.lookup fh.streamId = some ref → fh.streamId ≠ id := fun {ref} hl => by
    obtain ⟨l₁, l₂, he, -⟩ := lookup_eq_some_iff.mp hl
    exact h.streams (fh.streamId, ref) (by rw [he]; simp)
  cases hb with
  | pass => exact ⟨h, fun _ _ hr => by cases hr⟩
  | settings => exact ⟨h.mono_of_eq rfl rfl rfl (fun _ he => he) (.inr rfl), fun _ _ hr => by cases hr⟩
  | opened block endStream ht =>
    refine ⟨h.openStream hw (hi ht) block endStream, fun _ _ hr => ?_⟩
    cases hr
    exact hi ht
  | fragment ref _ _ hl | content ref _ _ hl =>
    refine ⟨h.modifyObject (by intro _; rfl) ref, fun _ _ hr => ?_⟩
    cases hr
    exact hlook hl
  | credit =>
    refine ⟨h.mono_of_eq ?_ rfl rfl (fun _ he => he) (.inr rfl), fun _ _ hr => by cases hr⟩
    simp [framesOn, record, onStream]
  | creditStream ref =>
    refine ⟨h.mono_of_eq ?_ (ids_modifyObject (by intro _; rfl) s ref) rfl (fun _ he => he) (.inr rfl),
      fun _ _ hr => by cases hr⟩
    simp [framesOn, record, H2.modifyObject, onStream]
  | erased => exact ⟨h.eraseStream _, fun _ _ hr => by cases hr⟩
  | resumed fh' ref hd =>
    refine ⟨h, fun _ _ hr => ?_⟩
    cases hr
    exact h.loop fh' ref hd

theorem work (h : AfterReset id n s) {r : Option (ℕ × ℕ)} (hr : s.Refers r)
    (hne : ∀ ref i, r = some (ref, i) → i ≠ id) (hw : Work fh r s s') : AfterReset id n s' := by
  induction hw with
  | refl => exact h
  | trans hw _ ih ih' => exact ih' (ih h hr) (hr.work hw)
  | block => exact h.mono_of_eq rfl rfl rfl (fun _ he => he) (.inr rfl)
  | object s _ hf => exact h.modifyObject (H2Stream.Keeps.of_kept hf).id _
  | dispatched s he =>
    refine h.dispatchStream fun hid => hne _ _ he ?_
    exact Option.some.inj ((hr _ _ he).symm.trans hid)
  | woken s ref => exact h.wake ref

theorem loopMove (h : AfterReset id n s) (hw : s.Wf) (hc : NoHeadersOn id s .loop)
    (hm : LoopMove s s') : AfterReset id n s' := by
  obtain ⟨m, fh, r, s₁, hp, ⟨s₀, hb, hk⟩, hl⟩ := hm.phases
  have ht : AfterReset id n (s.takeBuffer m).2 := h.mono_of_eq rfl rfl rfl (fun _ he => he) (.inr rfl)
  have hi : fh.type = .headers → fh.streamId ≠ id := fun ht => by
    obtain hp | ⟨rfl, -⟩ := hp
    · exact OnFrame.frame hc hp ht
    · cases ht
  obtain ⟨h0, hne⟩ := ht.begins (hw.takeBuffer m) hi hb
  have h1 := h0.work (hb.refers (hw.takeBuffer m)) hne hk
  cases hl with
  | go pc hpc => exact h1.mono_of_eq rfl rfl rfl (fun _ he => he) (.inl (LoopPc.data_eq_none hpc))
  | send f k hf hk => exact h1.loopSend hf fun st fh ref hd => hne _ _ (hk st fh ref hd).1

theorem step {e : Event} (h : AfterReset id n s) (hw : s.Wf) (hc : NoHeadersOn id s e)
    (hs : s.step e = some s') : AfterReset id n s' := by
  cases move_of_step hs with
  | recv => exact h.mono_of_eq rfl rfl rfl (fun _ he => he) (.inr rfl)
  | recvEnd | recvFail | writeFail => exact h.mono_of_eq rfl rfl rfl (fun _ he => he) (.inl rfl)
  | loop hm => exact h.loopMove hw hc hm
  | write _ _ hb => exact h.of_bare hb
  | task _ t x hx _ hm => exact h.taskMove hw hx hm

theorem not_stranded (h : AfterReset id n s) (hw : s.Wf) : ¬s.Stranded id := by
  rintro ⟨x, hx, hid, hp, -⟩
  have hlt : x.ref < s.objects.length := by
    rw [← length_ids]
    exact hw.tasks x.ref (mem_map_of_mem hx)
  have hd := h.tasks x hx (by rw [ids_getElem? hlt, hid])
  rw [hd] at hp
  cases hp

end AfterReset

/-! ## Runs -/

theorem afterReset_of_resets {s s' : H2} {id : ℕ} (h : s.Resets id s')
    (hd : ∀ x ∈ s.tasks, (s.object x.ref).id = id → x.pc = .done) :
    AfterReset id (s'.framesOn id) s' := by
  obtain ⟨⟨fh, hl, ht, hi⟩, hs⟩ := h
  have he : s' = ((s.takeBuffer fh.length).2.eraseStream id).nextFrame := by
    simpa [processFrame, ht, hi] using ((step_payload_iff hl).mp hs).2
  subst he
  refine ⟨rfl, fun x hx hid => hd x hx (object_id_of_ids hid), fun e he => ?_, fun _ _ hd => by cases hd⟩
  simpa using of_mem_filter he

/-- **Nothing is sent on a stream after its reset**, and nobody is stranded on it, if its coroutines have finished by
then and its id is not used again. -/
theorem reset_silences {b : Bytes} {es es' : List Event} {s₀ s₁ s : H2} {id : ℕ}
    (h₀ : Run.Exec H2.step (fun _ _ => True) (start b) es s₀) (hr : s₀.Resets id s₁)
    (hd : ∀ x ∈ s₀.tasks, (s₀.object x.ref).id = id → x.pc = .done)
    (h : Run.Exec H2.step (NoHeadersOn id) s₁ es' s) :
    s.framesOn id = s₁.framesOn id ∧ ¬s.Stranded id := by
  have hw₀ : s₀.Wf := h₀.inv (I := Wf) (fun _ _ _ _ hs hw => hw.step hs) (wf_start b)
  have hi : s.Wf ∧ AfterReset id (s₁.framesOn id) s := by
    refine h.inv (I := fun s => s.Wf ∧ AfterReset id (s₁.framesOn id) s)
      (fun s e s' hc hs hi => ⟨hi.1.step hs, hi.2.step hi.1 hc hs⟩)
      ⟨hw₀.step hr.2, afterReset_of_resets hr hd⟩
  exact ⟨hi.2.frames, hi.2.not_stranded hi.1⟩

def rstFrame (id : ℕ) : Frame := ⟨.rstStream, 0, id, writeU32 8⟩

def updateFrame (id increment : ℕ) : Frame :=
  ⟨.windowUpdate, 0, id, writeWindowUpdatePayload increment⟩

/-- Stream 1 is reset after its response; a request on stream 3 follows. -/
theorem reset_silences_answered :
    ∃ es s₀ s₁ es' s, Run.Exec H2.step (fun _ _ => True)
        (start (requestsOn [1] ++ (rstFrame 1).bytes ++ (requestFrame 3).bytes)) es s₀ ∧
      s₀.Resets 1 s₁ ∧ Run.Exec H2.step (NoHeadersOn 1) s₁ es' s ∧ s.tasks.length = 2 ∧
      (s.framesOn 1 = s₁.framesOn 1 ∧ ¬s.Stranded 1) := by
  have h : (Run.runChecked H2.step (fun _ _ => True)
      (start (requestsOn [1] ++ (rstFrame 1).bytes ++ (requestFrame 3).bytes))
      (dispatchEvents 1 ++ [.handlerReturn 0 (makeResponse 200), .resume 0, .write (.task 0) 19,
        .resume 0, .loop])).map (fun s₀ =>
          (s₀.loop, decide (∀ x ∈ s₀.tasks, (s₀.object x.ref).id = 1 → x.pc = .done),
            (s₀.step .loop).bind fun s₁ => (Run.runChecked H2.step (NoHeadersOn 1) s₁
              [.loop, .loop]).map fun s => s.tasks.length)) =
      some (.payload ⟨4, .rstStream, 0, 1⟩, true, some 2) := by
    decide +kernel
  obtain ⟨s₀, hx, he⟩ := Run.exists_exec h
  simp only [Prod.mk.injEq, decide_eq_true_eq] at he
  obtain ⟨hl, hd, hs⟩ := he
  obtain ⟨s₁, hs₁, hs⟩ := Option.bind_eq_some_iff.mp hs
  obtain ⟨s, hx', hn⟩ := Run.exists_exec hs
  have hr : s₀.Resets 1 s₁ := ⟨⟨_, hl, rfl, rfl⟩, hs₁⟩
  exact ⟨_, s₀, s₁, _, s, hx, hr, hx', hn, reset_silences hx hr hd hx'⟩

/-- A client that sets the initial window to zero, sends a request, resets the stream, and grants window. -/
def resetWhileWaiting : Bytes :=
  clientPreface ++ (⟨.settings, 0, 0, [0, 4, 0, 0, 0, 0]⟩ : Frame).bytes ++ (requestFrame 1).bytes ++
    (rstFrame 1).bytes ++ (updateFrame 1 100).bytes ++ (updateFrame 0 100).bytes

/-- A running handler responds after the reset, and a writer that waits for window is stranded. -/
theorem reset_ignored :
    (∃ es s₀ s₁ es' s, Run.Exec H2.step (fun _ _ => True)
        (start (requestsOn [1] ++ (rstFrame 1).bytes)) es s₀ ∧ s₀.Resets 1 s₁ ∧
      Run.Exec H2.step (NoHeadersOn 1) s₁ es' s ∧ s₁.framesOn 1 = 0 ∧ s.framesOn 1 = 1) ∧
    ∃ es s₀ s₁ es' s, Run.Exec H2.step (fun _ _ => True) (start resetWhileWaiting) es s₀ ∧
      s₀.Resets 1 s₁ ∧ Run.Exec H2.step (NoHeadersOn 1) s₁ es' s ∧ s₁.Stranded 1 ∧ s.Stranded 1 ∧
      s.readBuffer = [] ∧ s.loop = .header := by
  refine ⟨?_, ?_⟩
  · have h : (Run.runChecked H2.step (fun _ _ => True)
        (start (requestsOn [1] ++ (rstFrame 1).bytes)) (dispatchEvents 1 ++ [.loop])).map (fun s₀ =>
          (s₀.loop, (s₀.step .loop).bind fun s₁ => (Run.runChecked H2.step (NoHeadersOn 1) s₁
            [.handlerReturn 0 (makeResponse 200), .resume 0]).map fun s =>
              (s₁.framesOn 1, s.framesOn 1))) =
        some (.payload ⟨4, .rstStream, 0, 1⟩, some (0, 1)) := by
      decide +kernel
    obtain ⟨s₀, hx, he⟩ := Run.exists_exec h
    obtain ⟨hl, hs⟩ := Prod.mk.inj he
    obtain ⟨s₁, hs₁, hs⟩ := Option.bind_eq_some_iff.mp hs
    obtain ⟨s, hx', hn⟩ := Run.exists_exec hs
    obtain ⟨hn₁, hn⟩ := Prod.mk.inj hn
    exact ⟨_, s₀, s₁, _, s, hx, ⟨⟨_, hl, rfl, rfl⟩, hs₁⟩, hx', hn₁, hn⟩
  · have h : (Run.runChecked H2.step (fun _ _ => True) (start resetWhileWaiting)
        ([.loop, .write .loop 9, .loop, .loop, .loop, .write .loop 9, .loop, .loop, .loop,
          .handlerReturn 0 { makeResponse 200 with body := some [0x61], contentLength := 1 },
          .resume 0, .write (.task 0) 19, .resume 0, .bodyRead 0 1, .resume 0, .loop])).map (fun s₀ =>
          (s₀.loop, (s₀.step .loop).bind fun s₁ => (Run.runChecked H2.step (NoHeadersOn 1) s₁
            [.loop, .loop, .loop, .loop]).map fun s =>
              decide (s₁.Stranded 1 ∧ s.Stranded 1 ∧ s.readBuffer = [] ∧ s.loop = .header))) =
        some (.payload ⟨4, .rstStream, 0, 1⟩, some true) := by
      decide +kernel
    obtain ⟨s₀, hx, he⟩ := Run.exists_exec h
    obtain ⟨hl, hs⟩ := Prod.mk.inj he
    obtain ⟨s₁, hs₁, hs⟩ := Option.bind_eq_some_iff.mp hs
    obtain ⟨s, hx', hn⟩ := Run.exists_exec hs
    exact ⟨_, s₀, s₁, _, s, hx, ⟨⟨_, hl, rfl, rfl⟩, hs₁⟩, hx', of_decide_eq_true hn⟩

end H2

end Nhttp.Server
