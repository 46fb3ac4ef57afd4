import Recall.Proof.Work

/-!
# Progress of the engine

The owners, the coordinator and a shutdown under way find something to do until every request that
was accepted is answered. Nothing they wait for is missing: a queue that is full is served, a message
that is awaited is in its queue, and whoever was told to stop hears of it.
-/

namespace Recall.Engine

open Draining

variable {n : Nat} {setup : Setup n} {shards : Shards n} {trace events : List (Event n)}
  {s s' t : System n}

/-! ### What a shutdown has said is heard -/

/-- The owner closed its queue, or will once it comes to the message that says so. -/
def Owner.Heeds (owner : Owner) : Prop :=
  .stop ∈ owner.controls ∨ owner.dataClosed = true ∨ owner.position = .exited

/-- `Stop` is in the queue it was sent to until it is heeded. -/
structure Heard (s : System n) : Prop where
  cross : s.stage.stopSent → .stop ∈ s.cross ∨ s.crossClosed = true
  owners : ∀ o, s.stage.told o → (s.owners o).Heeds
  closed : ∀ o, (s.owners o).stopping = true → (s.owners o).dataClosed = true

namespace Heard

theorem start (shards : Shards n) (queueBytes : Nat) (clock : I64) :
    Heard (.start shards queueBytes clock) where
  cross h := h.elim
  owners o h := h.elim
  closed o h := by cases h

theorem quiet (hquiet : Quiet s s') (h : Heard s) : Heard s' where
  cross := by
    rw [hquiet.stage, hquiet.stop, hquiet.crossClosed]
    exact h.cross
  owners o := by
    rw [Owner.Heeds, hquiet.stage, hquiet.controls, hquiet.dataClosed, hquiet.position]
    exact h.owners o
  closed o := by
    rw [hquiet.stopping, hquiet.dataClosed]
    exact h.closed o

theorem setOwner {o : Fin n} {owner : Owner} (h : Heard s)
    (hheeds : (s.owners o).Heeds → owner.Heeds)
    (hclosed : owner.stopping = true → owner.dataClosed = true) : Heard (s.setOwner o owner) where
  cross := h.cross
  owners := System.forall_setOwner (P := fun p owner => s.stage.told p → owner.Heeds)
    (fun htold => hheeds (h.owners o htold)) h.owners
  closed := System.forall_setOwner
    (P := fun _ owner => owner.stopping = true → owner.dataClosed = true) hclosed h.closed

/-- An owner that moves on in its loop forgets nothing. -/
theorem advanceOwner {o : Fin n} {owner : Owner} (h : Heard s)
    (halive : (s.owners o).position ≠ .exited)
    (hcontrols : .stop ∈ (s.owners o).controls → .stop ∈ owner.controls)
    (hstopping : owner.stopping = (s.owners o).stopping)
    (hclosed : owner.dataClosed = (s.owners o).dataClosed) : Heard (s.setOwner o owner) := by
  refine h.setOwner ?_ ?_
  · rintro (hstop | hclose | hexited)
    · exact .inl (hcontrols hstop)
    · exact .inr (.inl (hclosed.trans hclose))
    · exact absurd hexited halive
  · rw [hstopping, hclosed]
    exact h.closed o

theorem setCoordinator {coordinator : Coordinator n} (h : Heard s) :
    Heard { s with coordinator } := ⟨h.cross, h.owners, h.closed⟩

end Heard

theorem OwnerStep.heard {o : Fin n} (h : Heard s) (hstep : OwnerStep setup s o events s') :
    Heard s' := by
  have halive := hstep.not_exited
  cases hstep with
  | skipTurn | emptyTurn | takeTurn | tick | sampleTick | runTick | takeData | sample =>
      exact h.advanceOwner halive id rfl rfl
  | @control message rest seed owner completion hselect hrunning hcontrols hhandle =>
      refine Heard.setCoordinator ?_
      obtain ⟨-, -, hkept, -, hframe⟩ := Owner.handle_frame hhandle
      by_cases hmessage : message = .stop
      · subst hmessage
        obtain ⟨-, rfl, -⟩ := Owner.handle_stop hhandle
        exact h.setOwner (fun _ => .inr (.inl rfl)) fun _ => rfl
      · obtain ⟨hstopping, hclosed⟩ := hframe hmessage
        refine h.advanceOwner halive (fun hstop => ?_) hstopping hclosed
        rw [hkept]
        rw [hcontrols] at hstop
        exact (List.mem_cons.mp hstop).resolve_left fun heq => hmessage heq.symm
  | controlsClosed hselect hrunning hcontrols hdisconnected hfree =>
      exact h.setOwner (fun _ => .inr (.inl rfl)) fun _ => rfl
  | execute hserving hexecute =>
      exact Heard.quiet (.answer ..) (h.advanceOwner halive id rfl rfl)
  | exit hselect hfree hdata hclosed =>
      exact h.setOwner (fun _ => .inr (.inr rfl)) (h.closed o)

theorem CoordinatorStep.heard (h : Heard s) (hstep : CoordinatorStep setup s events s') :
    Heard s' := by
  cases hstep with
  | closeCross hidle hcross => exact ⟨fun _ => .inr rfl, h.owners, h.closed⟩
  | coordinate hidle hcross hid hsplit =>
      have hheard := h.cross
      simp only [hcross, List.mem_cons, reduceCtorEq, false_or] at hheard
      exact ⟨hheard, h.owners, h.closed⟩
  | finish | reserved | failed | oversized | decided | applied => exact h.setCoordinator
  | instruct hworking hready htodo halive hroom =>
      exact Heard.setCoordinator (h.advanceOwner halive (List.mem_append_left _) rfl rfl)
  | released hworking htodo hphase => exact Heard.quiet (.answer ..) h.setCoordinator

theorem ShutdownStep.heard (h : Heard s) (hstep : ShutdownStep setup s s') : Heard s' := by
  cases hstep with
  | beginShutdown hstage => exact ⟨fun h => h.elim, fun _ h => h.elim, h.closed⟩
  | sendStop hstage hopen hroom =>
      exact ⟨fun _ => .inl (by simp), fun _ h => h.elim, h.closed⟩
  | joinCoordinator hstage hfinished =>
      refine ⟨fun _ => h.cross (by simp [hstage, Stage.stopSent]), fun o htold => ?_, h.closed⟩
      exact absurd (List.mem_finRange o) htold
  | @stopOwner o remaining hstage halive hroom =>
      refine ⟨fun _ => h.cross (by simp [hstage, Stage.stopSent]), fun p htold => ?_, ?_⟩
      · by_cases hp : p = o
        · subst hp
          exact .inl (by simp)
        · have hbefore := h.owners p (by simpa [hstage, Stage.told, hp] using htold)
          simpa [Owner.Heeds, hp] using hbefore
      · exact System.forall_setOwner
          (P := fun _ owner => owner.stopping = true → owner.dataClosed = true) (h.closed o)
          h.closed
  | joinOwners hstage hexited =>
      exact ⟨fun _ => h.cross (by simp [hstage, Stage.stopSent]),
        fun o _ => .inr (.inr (hexited o)), h.closed⟩

theorem Step.heard (h : Heard s) (hstep : Step setup s events s') : Heard s' := by
  cases hstep with
  | call hstep => exact h.quiet hstep.quiet
  | owner hstep => exact hstep.heard h
  | coordinator hstep => exact hstep.heard h
  | shutdown hstep => exact hstep.heard h
  | advance hle => exact ⟨h.cross, h.owners, h.closed⟩
  | stats hhandle halive hroom => exact h.advanceOwner halive (List.mem_append_left _) rfl rfl
  | abandon hstage hcalls => exact ⟨fun h => h.elim, fun _ h => h.elim, h.closed⟩

theorem Reaches.heard (hreaches : Reaches setup shards trace s) : Heard s := by
  induction hreaches with
  | start hnew => exact .start ..
  | step hbefore hstep ih => exact hstep.heard ih

/-! ### Where everything rests -/

/-- An owner that waits in `select!`: no message it listens to, and no request it may take. -/
structure Owner.Waits (owner : Owner) : Prop where
  select : owner.position = .select
  controls : owner.stopping = true ∨ owner.controls = []
  data : owner.reservation = none → owner.data = [] ∧ owner.dataClosed = false

theorem Works.at_top {o : Fin n} (htop : (s.owners o).position = .top) :
    ∃ events s', Works setup s events s' := by
  cases hturn : (s.owners o).dataTurn with
  | false => exact ⟨_, _, .owner (.skipTurn htop (.inl hturn)) (by simp)⟩
  | true =>
      cases hfree : (s.owners o).reservation with
      | some active => exact ⟨_, _, .owner (.skipTurn htop (.inr (by simp [hfree]))) (by simp)⟩
      | none =>
          cases hdata : (s.owners o).data with
          | nil => exact ⟨_, _, .owner (.emptyTurn htop hturn hfree hdata) (by simp)⟩
          | cons request rest => exact ⟨_, _, .owner (.takeTurn htop hturn hfree hdata) (by simp)⟩

theorem Works.serving {o : Fin n} {request : Request} {sample : Option I64} {turn : Bool}
    (hserving : (s.owners o).position = .serving request sample turn) :
    (∃ fatal, Fails setup s fatal) ∨ ∃ events s', Works setup s events s' := by
  cases sample with
  | none => exact .inr ⟨_, _, .owner (.sample hserving) (by simp)⟩
  | some nowMs =>
      cases hexecute : executeLocal (s.owners o).shard .insertionOrder request.operation nowMs with
      | error fatal => exact .inl ⟨fatal, .execute hserving hexecute⟩
      | ok result =>
          refine .inr ⟨_, _, .owner (.execute hserving hexecute) ?_⟩
          rw [(Quiet.answer ..).position o]
          simp only [System.setOwner_owners, Function.update_self]
          split <;> simp

theorem Works.ticking {o : Fin n} {sample : Option I64}
    (hticking : (s.owners o).position = .ticking sample) :
    (∃ fatal, Fails setup s fatal) ∨ ∃ events s', Works setup s events s' := by
  cases sample with
  | none => exact .inr ⟨_, _, .owner (.sampleTick hticking) (by simp)⟩
  | some nowMs =>
      cases hexpire : (s.owners o).shard.expireDue nowMs setup.expiryBatch with
      | error panic => exact .inl ⟨_, .runTick hticking hexpire⟩
      | ok result => exact .inr ⟨_, _, .owner (.runTick hticking hexpire) (by simp)⟩

theorem Works.controls {o : Fin n} {message : Control} {rest : List Control}
    (hselect : (s.owners o).position = .select) (hrunning : (s.owners o).stopping = false)
    (hcontrols : (s.owners o).controls = message :: rest) :
    (∃ fatal, Fails setup s fatal) ∨ ∃ events s', Works setup s events s' := by
  cases hhandle : { s.owners o with controls := rest, position := .top }.handle .insertionOrder
      message with
  | error fatal => exact .inl ⟨fatal, .control hselect hrunning hcontrols hhandle⟩
  | ok result =>
      obtain ⟨-, -, -, hposition, -⟩ := Owner.handle_frame hhandle
      exact .inr ⟨_, _, .owner (.control hselect hrunning hcontrols hhandle) (by simp [hposition])⟩

/-- An owner that can do nothing waits in `select!` or is gone. -/
theorem waits_of_rests (hrests : Rests (Works setup) s) (hsound : ∀ fatal, ¬ Fails setup s fatal)
    {o : Fin n} (halive : (s.owners o).position ≠ .exited) :
    (s.owners o).Waits ∧ ((s.owners o).reservation = none → ¬ s.disconnected) := by
  have hstuck : ¬ ((∃ fatal, Fails setup s fatal) ∨ ∃ events s', Works setup s events s') := by
    rintro (⟨fatal, hfails⟩ | ⟨events, s', hworks⟩)
    · exact hsound fatal hfails
    · exact hrests events s' hworks
  cases hposition : (s.owners o).position with
  | exited => exact absurd hposition halive
  | top => exact absurd (.inr (Works.at_top hposition)) hstuck
  | serving request sample turn => exact absurd (Works.serving hposition) hstuck
  | ticking sample => exact absurd (Works.ticking hposition) hstuck
  | select =>
      have hdata : (s.owners o).reservation = none → (s.owners o).data = [] := by
        intro hfree
        cases hdata : (s.owners o).data with
        | nil => rfl
        | cons request rest =>
            exact absurd (.inr ⟨_, _, .owner (.takeData hposition hfree hdata) (by simp)⟩) hstuck
      have hopen : (s.owners o).reservation = none →
          ¬ ((s.owners o).dataClosed = true ∨ s.disconnected) := by
        intro hfree hclosed
        exact hstuck (.inr ⟨_, _, .owner (.exit hposition hfree (hdata hfree) hclosed) (by simp)⟩)
      refine ⟨⟨hposition, ?_, fun hfree => ⟨hdata hfree, ?_⟩⟩, fun hfree h => hopen hfree (.inr h)⟩
      · cases hrunning : (s.owners o).stopping with
        | true => exact .inl rfl
        | false =>
            cases hcontrols : (s.owners o).controls with
            | nil => exact .inr rfl
            | cons message rest =>
                exact absurd (Works.controls hposition hrunning hcontrols) hstuck
      · have hnot := hopen hfree
        simpa using fun hclosed => hnot (.inl hclosed)

theorem Works.idle {request : Request} {rest : List CrossRequest} (hidle : s.coordinator = .idle)
    (hcross : s.cross = .execute request :: rest) :
    (∃ fatal, Fails setup s fatal) ∨ ∃ events s', Works setup s events s' := by
  by_cases hid : s.lastId < usizeMax
  · cases hsplit : split setup.route request.operation with
    | error fatal => exact .inl ⟨fatal, .split hidle hcross hid hsplit⟩
    | ok parts => exact .inr ⟨_, _, .coordinator (.coordinate hidle hcross hid hsplit)⟩
  · exact .inl ⟨_, .identity hidle hcross (Nat.le_of_not_lt hid)⟩

/-- The end of a loop of `coordinate` leads to the next. -/
theorem Works.loop_done {job : Job n} (hworking : s.coordinator = .working job)
    (htodo : job.todo = []) :
    (∃ fatal, Fails setup s fatal) ∨ ∃ events s', Works setup s events s' := by
  cases hphase : job.phase with
  | reserve => exact .inr ⟨_, _, .coordinator (.reserved hworking htodo hphase)⟩
  | apply nowMs reply => exact .inr ⟨_, _, .coordinator (.applied hworking htodo hphase)⟩
  | release reply => exact .inr ⟨_, _, .coordinator (.released hworking htodo hphase)⟩
  | prepare nowMs results =>
      cases results with
      | error failure => exact .inr ⟨_, _, .coordinator (.failed hworking htodo hphase)⟩
      | ok results =>
          cases hcombine : combine job.request.operation job.parts results with
          | error fatal => exact .inl ⟨fatal, .combine hworking htodo hphase hcombine⟩
          | ok reply =>
              right
              cases hexceeds : reply.exceeds setup.maxReplyBytes with
              | true =>
                  exact ⟨_, _, .coordinator (.oversized hworking htodo hphase hcombine hexceeds)⟩
              | false =>
                  exact ⟨_, _, .coordinator (.decided hworking htodo hphase hcombine hexceeds)⟩

/-- As long as the coordinator works, an owner that rests has an empty control queue. -/
theorem Invariant.controls_of_rests {base : Shards n} (h : Invariant setup trace base s)
    (hrests : Rests (Works setup) s) (hsound : ∀ fatal, ¬ Fails setup s fatal)
    (hworking : s.coordinator ≠ .finished) (o : Fin n) : (s.owners o).controls = [] := by
  have htold := h.ordered.not_told hworking o
  simp only [Owner.Told, not_or, Bool.not_eq_true] at htold
  obtain ⟨hwaits, -⟩ := waits_of_rests hrests hsound htold.2.2.2
  exact hwaits.controls.resolve_left (by simp [htold.2.1])

theorem Invariant.coordinator_rests {base : Shards n} (h : Invariant setup trace base s)
    (hrests : Rests (Works setup) s) (hsound : ∀ fatal, ¬ Fails setup s fatal) :
    s.coordinator = .finished ∨
      s.coordinator = .idle ∧ s.cross = [] ∧ s.crossClosed = false ∧ s.stage ≠ .abandoned := by
  have hstuck : ¬ ((∃ fatal, Fails setup s fatal) ∨ ∃ events s', Works setup s events s') := by
    rintro (⟨fatal, hfails⟩ | ⟨events, s', hworks⟩)
    · exact hsound fatal hfails
    · exact hrests events s' hworks
  cases hcoordinator : s.coordinator with
  | finished => exact .inl rfl
  | idle =>
      right
      cases hcross : s.cross with
      | cons message rest =>
          cases message with
          | stop => exact absurd (.inr ⟨_, _, .coordinator (.closeCross hcoordinator hcross)⟩) hstuck
          | execute request => exact absurd (Works.idle hcoordinator hcross) hstuck
      | nil =>
          have hopen : ¬ (s.crossClosed = true ∨ s.stage = .abandoned) := fun hclosed =>
            hstuck (.inr ⟨_, _, .coordinator (.finish hcoordinator hcross hclosed)⟩)
          rw [not_or, Bool.not_eq_true] at hopen
          exact ⟨rfl, rfl, hopen⟩
  | working job =>
      exfalso
      cases htodo : job.todo with
      | nil => exact hstuck (Works.loop_done hcoordinator htodo)
      | cons part rest =>
          have hcontrols := h.controls_of_rests hrests hsound (by simp [hcoordinator]) part.owner
          cases hawaiting : job.awaiting with
          | true =>
              obtain ⟨-, -, -, hmessages⟩ := h.awaited hcoordinator hawaiting htodo
              rw [hcontrols] at hmessages
              cases hmessages
          | false =>
              refine hstuck (.inr ⟨_, _, .coordinator (.instruct hcoordinator hawaiting htodo ?_ ?_)⟩)
              · exact fun hexited => hsound _ (.instruct hcoordinator hawaiting htodo hexited)
              · simp [hcontrols, controlCapacity]

theorem Invariant.not_working {base : Shards n} (h : Invariant setup trace base s)
    (hrests : Rests (Works setup) s) (hsound : ∀ fatal, ¬ Fails setup s fatal) (job : Job n) :
    s.coordinator ≠ .working job := by
  rcases h.coordinator_rests hrests hsound with hfinished | ⟨hidle, -⟩
  · simp [hfinished]
  · simp [hidle]

theorem Protocol.free_of_idle {base : Shards n} (h : Protocol setup base s)
    (hidle : ∀ job, s.coordinator ≠ .working job) (o : Fin n) :
    (s.owners o).reservation = none := by
  have hengages := h.engages
  cases hcoordinator : s.coordinator with
  | working job => exact absurd hcoordinator (hidle job)
  | idle | finished =>
      rw [hcoordinator] at hengages
      exact (hengages o).1

/-- A shutdown that rests is done, and so is an engine that was abandoned. -/
theorem Reaches.shutdown_rests (hreaches : Reaches setup shards trace s)
    (hcapacity : 0 < setup.queueCapacity) (hrests : Rests (Works setup) s)
    (hsound : ∀ fatal, ¬ Fails setup s fatal) (hbegun : s.stage ≠ .running) :
    s.coordinator = .finished ∧ (∀ o, (s.owners o).position = .exited) ∧
      (s.stage = .stopped ∨ s.stage = .abandoned) := by
  obtain ⟨base, h, -⟩ := hreaches.invariant
  have hheard := hreaches.heard
  have hcoordinator := h.coordinator_rests hrests hsound
  have hfree := h.protocol.free_of_idle (h.not_working hrests hsound)
  have hnone : ∀ s', ¬ ShutdownStep setup s s' := fun s' hstep =>
    hrests _ _ (.shutdown hstep hbegun)
  cases hstage : s.stage with
  | running => exact absurd hstage hbegun
  | closing =>
      exfalso
      have hclosed := h.ordered.closed
      simp only [hstage, Stage.stopSent, imp_false, not_or, Bool.not_eq_true] at hclosed
      rcases hcoordinator with hfinished | ⟨hidle, hcross, -, -⟩
      · rcases h.ordered.finished hfinished with hclose | habandoned
        · rw [hclosed.1] at hclose
          cases hclose
        · rw [hstage] at habandoned
          cases habandoned
      · refine hnone _ (.sendStop hstage ?_ (by simpa [hcross] using hcapacity))
        simp [System.rejects, hclosed.1, hidle]
  | draining =>
      exfalso
      rcases hcoordinator with hfinished | ⟨-, hcross, hopen, -⟩
      · exact hnone _ (.joinCoordinator hstage hfinished)
      · have hstop := hheard.cross (by simp [hstage, Stage.stopSent])
        simp [hcross, hopen] at hstop
  | stopping remaining =>
      exfalso
      have htold := h.ordered.told
      simp only [System.disconnected, hstage, reduceCtorEq, false_and, false_or] at htold
      cases remaining with
      | cons o remaining =>
          have halive : (s.owners o).position ≠ .exited := fun hexited =>
            hsound _ (.stopOwner hstage hexited)
          obtain ⟨hwaits, -⟩ := waits_of_rests hrests hsound halive
          refine hnone _ (.stopOwner hstage halive ?_)
          rcases hwaits.controls with hstopping | hcontrols
          · exact absurd List.mem_cons_self (htold o (.inr (.inl hstopping)))
          · simp [hcontrols, controlCapacity]
      | nil =>
          refine hnone _ (.joinOwners hstage fun o => ?_)
          by_contra halive
          obtain ⟨hwaits, -⟩ := waits_of_rests hrests hsound halive
          have hopen := (hwaits.data (hfree o)).2
          rcases hheard.owners o (by simp [hstage, Stage.told]) with hstop | hclosed | hexited
          · rcases hwaits.controls with hstopping | hcontrols
            · rw [hheard.closed o hstopping] at hopen
              cases hopen
            · rw [hcontrols] at hstop
              cases hstop
          · rw [hclosed] at hopen
            cases hopen
          · exact halive hexited
  | stopped =>
      exact ⟨h.ordered.joined (by simp [hstage, Stage.joined]), hreaches.stopped hstage, .inl rfl⟩
  | abandoned =>
      have hfinished : s.coordinator = .finished :=
        hcoordinator.resolve_right fun hidle => hidle.2.2.2 hstage
      refine ⟨hfinished, fun o => ?_, .inr rfl⟩
      by_contra halive
      exact (waits_of_rests hrests hsound halive).2 (hfree o) ⟨hstage, hfinished⟩

/-- Nothing is left of what was accepted once the engine rests. -/
theorem Invariant.held_of_rests {base : Shards n} (h : Invariant setup trace base s)
    (hrests : Rests (Works setup) s) (hsound : ∀ fatal, ¬ Fails setup s fatal)
    (place : Destination n) : s.held place = [] := by
  have hcoordinator := h.coordinator_rests hrests hsound
  cases place with
  | nowhere => rfl
  | cross =>
      rcases hcoordinator with hfinished | ⟨hidle, hcross, -, -⟩
      · exact h.queues.drained .cross hfinished
      · simp [System.held, hidle, hcross]
  | owner o =>
      by_cases hexited : (s.owners o).position = .exited
      · exact h.queues.drained (.owner o) hexited
      · obtain ⟨hwaits, -⟩ := waits_of_rests hrests hsound hexited
        have hfree := h.protocol.free_of_idle (h.not_working hrests hsound) o
        simp [System.held, Owner.held, hwaits.select, (hwaits.data hfree).1]

theorem ShutdownStep.stage_ne_running (hstep : ShutdownStep setup s s') : s'.stage ≠ .running := by
  cases hstep <;> nofun

theorem OwnerStep.stage_eq {o : Fin n} (hstep : OwnerStep setup s o events s') :
    s'.stage = s.stage := by
  cases hstep with
  | execute => exact (Quiet.answer ..).stage
  | _ => rfl

theorem CoordinatorStep.stage_eq (hstep : CoordinatorStep setup s events s') :
    s'.stage = s.stage := by
  cases hstep with
  | released => exact (Quiet.answer ..).stage
  | _ => rfl

theorem Works.stage_ne_running (hworks : Works setup s events s') (hbegun : s.stage ≠ .running) :
    s'.stage ≠ .running := by
  cases hworks with
  | owner hstep => exact hstep.stage_eq ▸ hbegun
  | coordinator hstep => exact hstep.stage_eq ▸ hbegun
  | shutdown hstep => exact hstep.stage_ne_running

/-- From every state the engine is brought to rest by its own steps, however they are chosen, and at
rest nothing that was accepted is unanswered, nobody waits for a reply and no owner is reserved. A
shutdown that had begun is complete. The exceptions are the two counters the program stops at. -/
theorem accepted_completes (hcapacity : 0 < setup.queueCapacity)
    (hreaches : Reaches setup shards trace s) :
    (∃ taken events t, Alone (Works setup) taken s events t ∧ Rests (Works setup) t) ∧
    ∀ taken events t, Alone (Works setup) taken s events t → taken ≤ s.work ∧
      (Rests (Works setup) t →
        (∃ fatal, Fails setup t fatal ∧
          (fatal = .panic .revisionExhausted ∨ fatal = .identityExhausted)) ∨
        (∀ request ∈ acceptedIn (trace ++ events),
          (commandsIn (trace ++ events)).count request = 1 ∧
          (completedIn (trace ++ events)).count request = 1) ∧
        (∀ call, t.calls call ≠ .waiting) ∧ (∀ o, (t.owners o).reservation = none) ∧
        (s.stage ≠ .running → t.coordinator = .finished ∧
          (∀ o, (t.owners o).position = .exited) ∧ (t.stage = .stopped ∨ t.stage = .abandoned))) := by
  refine ⟨exists_rests (fun _ _ _ hworks => hworks.work_lt) s, fun taken events t halone => ⟨?_, ?_⟩⟩
  · have hle := halone.alone_le fun _ _ _ hworks => hworks.work_lt
    omega
  intro hrests
  have hreached : Reaches setup shards (trace ++ events) t ∧
      (s.stage ≠ .running → t.stage ≠ .running) :=
    halone.alone_invariant
      (fun trace t => Reaches setup shards trace t ∧ (s.stage ≠ .running → t.stage ≠ .running))
      (fun trace t events u hbefore hworks => ⟨hbefore.1.step hworks.step,
        fun hbegun => hworks.stage_ne_running (hbefore.2 hbegun)⟩) ⟨hreaches, id⟩
  obtain ⟨base, h, -⟩ := hreached.1.invariant
  by_cases hsound : ∃ fatal, Fails setup t fatal
  · obtain ⟨fatal, hfails⟩ := hsound
    exact .inl ⟨fatal, hfails, h.fails hfails⟩
  right
  rw [not_exists] at hsound
  have hheld := h.held_of_rests hrests hsound
  refine ⟨fun request haccepted => ?_, fun call hwaiting => ?_,
    h.protocol.free_of_idle (h.not_working hrests hsound), fun hbegun => ?_⟩
  · have hfifo := h.queues.fifo (destination setup.route request.operation)
    have hprogress := h.queues.progress (destination setup.route request.operation)
    have hunderway : t.underway (destination setup.route request.operation) = [] := by
      have hprefix := t.underway_prefix (destination setup.route request.operation)
      rwa [hheld, List.prefix_nil] at hprefix
    rw [hheld, List.append_nil] at hfifo
    rw [hunderway, List.append_nil] at hprogress
    exact ⟨count_of_bound (hprogress.trans hfifo.symm) h.calls.distinct.of_map haccepted,
      count_of_bound hfifo.symm h.calls.distinct.of_map haccepted⟩
  · obtain ⟨place, request, hmem, -⟩ := held_of_waiting h.queues h.calls hwaiting
    rw [hheld] at hmem
    cases hmem
  · exact hreached.1.shutdown_rests hcapacity hrests hsound (hreached.2 hbegun)

/-- A command in the queue of its owner is answered once the engine rests. -/
theorem accepted_completes_sample : ∃ shards trace s, Reaches lonelySetup shards trace s ∧
    acceptedIn trace = [lonelyRequest] ∧ completedIn trace = [] ∧
    ∃ taken events t, Alone (Works lonelySetup) taken s events t ∧ taken ≤ s.work ∧
      ((∃ fatal, Fails lonelySetup t fatal ∧
          (fatal = .panic .revisionExhausted ∨ fatal = .identityExhausted)) ∨
        (completedIn (trace ++ events)).count lonelyRequest = 1) := by
  have hplace : destination lonelySetup.route lonelyRequest.operation = .owner 0 := by decide
  have hcharge : charge lonelyRequest.operation ≤ 4096 := by decide
  have hstart : Reaches lonelySetup
      (fun _ => ⟨∅, .empty, sampleShardLimits, 0, 0, 0, 0⟩) [] (.start _ 4096 0) :=
    .start fun _ => rfl
  have hsubmit := @Reaches.submit _ _ _ _ _ hstart lonelyRequest _ rfl nofun
    (lonelyRequest_admission rfl)
  have hacquire := hsubmit.step (.call (@CallStep.acquire _ _ _ 0 lonelyRequest.operation
    (.owner 0) rfl hplace hcharge))
  have hsend := hacquire.step (.call (@CallStep.send _ _ _ 0 lonelyRequest.operation (.owner 0) rfl
    hplace (by rintro (h | h) <;> cases h) (by decide)))
  obtain ⟨⟨taken, events, t, halone, hrests⟩, hall⟩ := accepted_completes (by decide) hsend
  obtain ⟨hle, hdone⟩ := hall taken events t halone
  refine ⟨_, _, _, hsend, rfl, rfl, taken, events, t, halone, hle, ?_⟩
  refine (hdone hrests).imp_right fun hanswered => (hanswered.1 lonelyRequest ?_).2
  rw [acceptedIn_append]
  exact List.mem_append_left _ List.mem_cons_self

end Recall.Engine
