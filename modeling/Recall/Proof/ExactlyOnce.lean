import Recall.Proof.Answers
import Recall.Proof.Safety

/-!
# Exactly-once completion

Accepted requests are executed and answered once each, in the order their destination accepted them,
before the owners and the coordinator return, and a call that was told `BUSY` left no trace.
-/

namespace Recall.Engine

open Interleaving

variable {n : Nat} {setup : Setup n} {shards base : Shards n} {trace events : List (Event n)}
  {s s' : System n}

/-! ### Recorded replies -/

/-- The reply is what the request's execution came to. -/
def Recorded (trace : List (Event n)) (request : Request) (reply : Reply) : Prop :=
  ∃ nowMs, .executed (commandEffect request nowMs reply) ∈ trace

theorem Recorded.append {request : Request} {reply : Reply} (h : Recorded trace request reply) :
    Recorded (trace ++ events) request reply := by
  obtain ⟨nowMs, hmem⟩ := h
  exact ⟨nowMs, List.mem_append_left _ hmem⟩

structure Records (trace : List (Event n)) (s : System n) : Prop where
  completed : ∀ request reply, .completed request reply ∈ trace → Recorded trace request reply
  releasing : ∀ job reply, s.coordinator = .working job → job.phase = .release reply →
    Recorded trace job.request reply

namespace Records

/-- Steps that answer nobody and leave the released command, if any, as it is. -/
theorem keep (h : Records trace s)
    (hevents : ∀ request reply, .completed request reply ∉ events)
    (hcoordinator : ∀ job reply, s'.coordinator = .working job → job.phase = .release reply →
      Recorded (trace ++ events) job.request reply) : Records (trace ++ events) s' where
  completed request reply hmem := by
    rcases List.mem_append.mp hmem with hmem | hmem
    · exact (h.completed request reply hmem).append
    · exact absurd hmem (hevents request reply)
  releasing := hcoordinator

theorem keep_coordinator (h : Records trace s)
    (hevents : ∀ request reply, .completed request reply ∉ events)
    (hcoordinator : s'.coordinator = s.coordinator) : Records (trace ++ events) s' :=
  h.keep hevents fun job reply hworking hphase =>
    (h.releasing job reply (hcoordinator ▸ hworking) hphase).append

end Records

theorem Job.receive_release {job : Job n} {completion : Completion} {reply : Reply}
    (hphase : (job.receive completion).phase = .release reply) : job.phase = .release reply := by
  unfold receive at hphase
  split at hphase
  · cases hphase
  · cases hphase
  · exact hphase

theorem Step.records (h : Records trace s) (hstep : Step setup s events s') :
    Records (trace ++ events) s' := by
  cases hstep with
  | call hstep =>
      refine h.keep_coordinator ?_ hstep.quiet.coordinator
      cases hstep <;> simp
  | shutdown hstep => cases hstep <;> exact h.keep_coordinator (by simp) rfl
  | advance | stats | abandon => exact h.keep_coordinator (by simp) rfl
  | owner hstep =>
      cases hstep with
      | @control message rest seed owner completion hselect hrunning hcontrols hhandle =>
          refine h.keep (by simp) fun job reply hworking hphase => ?_
          simp only at hworking
          obtain hsame | ⟨before, answer, hbefore, -, -, hnext⟩ :=
            s.coordinator.complete_cases _ message completion
          · exact (h.releasing job reply (hsame.symm.trans hworking) hphase).append
          · obtain rfl : before.receive answer = job := by
              simpa using hnext.symm.trans hworking
            rw [Job.receive_request]
            exact (h.releasing before reply hbefore (Job.receive_release hphase)).append
      | @execute request nowMs turn seed shard reply hserving hexecute =>
          refine ⟨fun request' reply' hmem => ?_, fun job reply' hworking hphase => ?_⟩
          · rcases List.mem_append.mp hmem with hmem | hmem
            · exact (h.completed request' reply' hmem).append
            · obtain ⟨rfl, rfl⟩ : request' = request ∧ reply' = reply := by simpa using hmem
              exact ⟨nowMs, List.mem_append_right _ List.mem_cons_self⟩
          · rw [(Quiet.answer ..).coordinator] at hworking
            exact (h.releasing job reply' hworking hphase).append
      | _ => exact h.keep_coordinator (by simp) rfl
  | coordinator hstep =>
      cases hstep with
      | closeCross => exact h.keep_coordinator (by simp) rfl
      | finish =>
          refine h.keep (by simp) fun job reply hworking hphase => ?_
          cases hworking
      | coordinate | reserved | decided =>
          refine h.keep (by simp) fun job reply hworking hphase => ?_
          cases hworking
          cases hphase
      | instruct hworking =>
          refine h.keep (by simp) fun job reply hnext hphase => ?_
          cases hnext
          exact (h.releasing _ reply hworking hphase).append
      | failed hworking | oversized hworking | applied hworking =>
          refine h.keep (by simp) fun job reply hnext hphase => ?_
          cases hnext
          cases hphase
          exact ⟨_, List.mem_append_right _ (List.mem_singleton_self _)⟩
      | @released job reply hworking htodo hphase =>
          refine ⟨fun request' reply' hmem => ?_, fun job reply' hnext hphase => ?_⟩
          · rcases List.mem_append.mp hmem with hmem | hmem
            · exact (h.completed request' reply' hmem).append
            · obtain ⟨rfl, rfl⟩ : request' = job.request ∧ reply' = reply := by simpa using hmem
              exact (h.releasing job reply' hworking hphase).append
          · rw [(Quiet.answer ..).coordinator] at hnext
            cases hnext

theorem Reaches.records (hreaches : Reaches setup shards trace s) : Records trace s := by
  induction hreaches with
  | start hnew => exact ⟨by simp, fun job reply hworking => by cases hworking⟩
  | step _ hstep ih => exact hstep.records ih

/-! ### The end of a shutdown -/

theorem OwnerStep.not_exited {o : Fin n} (hstep : OwnerStep setup s o events s') :
    (s.owners o).position ≠ .exited := by
  intro hexited
  cases hstep <;> simp_all

theorem Step.exited {o : Fin n} (hexited : (s.owners o).position = .exited)
    (hstep : Step setup s events s') : (s'.owners o).position = .exited := by
  cases hstep with
  | call hstep => rw [hstep.quiet.position, hexited]
  | @owner p events s' hstep =>
      have hne : o ≠ p := by
        rintro rfl
        exact hstep.not_exited hexited
      cases hstep with
      | execute hserving hexecute =>
          rw [(Quiet.answer ..).position]
          simpa [hne] using hexited
      | _ => simpa [hne] using hexited
  | coordinator hstep =>
      cases hstep with
      | @instruct job part rest hworking hready htodo halive hroom =>
          have hne : o ≠ part.owner := by
            rintro rfl
            exact halive hexited
          simpa [hne] using hexited
      | released hworking htodo hphase =>
          rw [(Quiet.answer ..).position]
          exact hexited
      | _ => exact hexited
  | shutdown hstep =>
      cases hstep with
      | @stopOwner p remaining hstage halive hroom =>
          have hne : o ≠ p := by
            rintro rfl
            exact halive hexited
          simpa [hne] using hexited
      | _ => exact hexited
  | advance | abandon => exact hexited
  | @stats p hhandle halive hroom =>
      have hne : o ≠ p := by
        rintro rfl
        exact halive hexited
      simpa [hne] using hexited

theorem Step.stage_eq_stopped (hstep : Step setup s events s') (hstage : s'.stage = .stopped) :
    s.stage = .stopped ∨ ∀ o, (s'.owners o).position = .exited := by
  cases hstep with
  | call hstep => exact .inl (hstep.quiet.stage ▸ hstage)
  | owner hstep =>
      cases hstep with
      | execute =>
          rw [(Quiet.answer ..).stage] at hstage
          exact .inl hstage
      | _ => exact .inl hstage
  | coordinator hstep =>
      cases hstep with
      | released =>
          rw [(Quiet.answer ..).stage] at hstage
          exact .inl hstage
      | _ => exact .inl hstage
  | shutdown hstep =>
      cases hstep with
      | joinOwners _ hexited => exact .inr hexited
      | _ => cases hstage
  | advance | stats => exact .inl hstage
  | abandon => cases hstage

theorem Reaches.stopped (hreaches : Reaches setup shards trace s) (hstage : s.stage = .stopped)
    (o : Fin n) : (s.owners o).position = .exited := by
  induction hreaches with
  | start hnew => cases hstage
  | step _ hstep ih =>
      rcases hstep.stage_eq_stopped hstage with hbefore | hexited
      · exact hstep.exited (ih hbefore)
      · exact hexited o

/-! ### Refusals -/

theorem not_busy_of_answers {reply : Reply} {limit : Nat} (h : reply.Answers limit) :
    isBusy reply = false := by
  rcases h.known with hcarries | ⟨failure, rfl⟩
  · cases hcarries <;> rfl
  · cases failure <;> decide

theorem performs_of_runs {effects : List (Effect n)} {before after : Shards n}
    (hruns : Runs (Performs setup) before effects after) {effect : Effect n}
    (heffect : effect ∈ effects) : ∃ middle later, Performs setup middle effect later := by
  induction hruns with
  | nil => cases heffect
  | cons hstep _ ih =>
      rcases List.mem_cons.mp heffect with rfl | heffect
      · exact ⟨_, _, hstep⟩
      · exact ih heffect

theorem mem_executedIn {effect : Effect n} :
    effect ∈ executedIn trace ↔ .executed effect ∈ trace := by
  simp only [executedIn, List.mem_filterMap]
  constructor
  · rintro ⟨event, hevent, hsome⟩
    cases event <;> simp_all
  · exact fun hevent => ⟨_, hevent, rfl⟩

theorem mem_commandsIn {request : Request} :
    request ∈ commandsIn trace ↔
      ∃ effect, .executed effect ∈ trace ∧ effect.mark.subject = .command request := by
  simp only [commandsIn, List.mem_filterMap]
  constructor
  · rintro ⟨event, hevent, hsome⟩
    split at hsome
    · cases hsome
      exact ⟨_, hevent, rfl⟩
    · cases hsome
  · rintro ⟨⟨⟨subject, nowMs⟩, reply⟩, hevent, rfl⟩
    exact ⟨_, hevent, rfl⟩

/-! ### Exactly once -/

theorem System.underway_prefix (s : System n) (place : Destination n) :
    s.underway place <+: s.held place := by
  cases place with
  | nowhere | owner o => exact List.nil_prefix
  | cross =>
      cases hcoordinator : s.coordinator with
      | idle | finished => simp [underway, hcoordinator]
      | working job =>
          cases hphase : job.phase <;> simp [underway, held, hcoordinator, Job.underway, hphase]

theorem System.underway_of_terminated {place : Destination n} (hterminated : s.terminated place) :
    s.underway place = [] := by
  cases place with
  | nowhere | owner o => rfl
  | cross =>
      have hfinished : s.coordinator = .finished := hterminated
      simp [underway, hfinished]

theorem Queues.commands_prefix (h : Queues setup trace s) (place : Destination n) :
    boundFor setup place (commandsIn trace) <+: boundFor setup place (acceptedIn trace) := by
  rw [h.progress, h.fifo]
  exact (List.prefix_append_right_inj _).mpr (s.underway_prefix place)

theorem Queues.accepted_of_executed (h : Queues setup trace s) {request : Request}
    (hexecuted : request ∈ commandsIn trace) : request ∈ acceptedIn trace := by
  have hbound := (h.commands_prefix (destination setup.route request.operation)).subset
    (mem_boundFor.mpr ⟨hexecuted, rfl⟩)
  exact (mem_boundFor.mp hbound).1

/-- Requests without a destination are refused on submission. -/
theorem Reaches.routed (hreaches : Reaches setup shards trace s) {request : Request}
    (haccepted : request ∈ acceptedIn trace) :
    destination setup.route request.operation ≠ .nowhere := by
  induction hreaches with
  | start hnew => cases haccepted
  | step hbefore hstep ih =>
      rw [acceptedIn_append] at haccepted
      rcases List.mem_append.mp haccepted with haccepted | haccepted
      · exact ih haccepted
      · cases hstep with
        | call hstep =>
            cases hstep with
            | send hcall hplace hopen hroom =>
                obtain ⟨base, hinvariant, -⟩ := hbefore.invariant
                obtain rfl := List.mem_singleton.mp haccepted
                exact hinvariant.calls.routed hcall
            | _ => cases haccepted
        | owner hstep => cases hstep <;> cases haccepted
        | coordinator hstep => cases hstep <;> cases haccepted
        | shutdown hstep => cases haccepted
        | advance | stats | abandon => cases haccepted

/-- Completions carry what commands answer with. -/
theorem Reaches.answers (hreaches : Reaches setup shards trace s) {request : Request} {reply : Reply}
    (hcompleted : .completed request reply ∈ trace) : ∃ limit, reply.Answers limit := by
  obtain ⟨base, h, hruns⟩ := hreaches.invariant
  obtain ⟨nowMs, hexecuted⟩ := hreaches.records.completed request reply hcompleted
  obtain ⟨middle, later, hperforms⟩ := performs_of_runs hruns (mem_executedIn.mpr hexecuted)
  have hrouted := hreaches.routed
    (h.queues.accepted_of_completed (mem_completedIn.mpr ⟨reply, hcompleted⟩))
  cases hperforms with
  | command hexecute =>
      rcases executeSharded_answers hrouted hexecute with hanswers | ⟨o, hanswers⟩
      · exact ⟨_, hanswers⟩
      · exact ⟨_, hanswers⟩

theorem count_of_bound {requests accepted : List Request} {request : Request}
    (hsame : boundFor setup (destination setup.route request.operation) requests =
      boundFor setup (destination setup.route request.operation) accepted)
    (hnodup : accepted.Nodup) (hmem : request ∈ accepted) : requests.count request = 1 := by
  have hcount : ∀ list : List Request, list.count request =
      (boundFor setup (destination setup.route request.operation) list).count request := by
    intro list
    exact (List.count_filter (by simp)).symm
  rw [hcount, hsame, ← hcount]
  exact List.count_eq_one_of_mem hnodup hmem

theorem exactly_once (hreaches : Reaches setup shards trace s) :
    ((acceptedIn trace).map Request.call).Nodup ∧
    (∀ place,
      boundFor setup place (completedIn trace) <+: boundFor setup place (commandsIn trace) ∧
      boundFor setup place (commandsIn trace) <+: boundFor setup place (acceptedIn trace)) ∧
    (∀ request ∈ acceptedIn trace, s.terminated (destination setup.route request.operation) →
      (commandsIn trace).count request = 1 ∧ (completedIn trace).count request = 1) ∧
    (s.stage = .stopped → ∀ request ∈ acceptedIn trace,
      s.terminated (destination setup.route request.operation)) ∧
    (∀ call reply, .returned call reply ∈ trace → isBusy reply = true →
      ∀ request, request.call = call → request ∉ acceptedIn trace ∧ request ∉ commandsIn trace) ∧
    ∀ fatal, Fails setup s fatal →
      fatal = .panic .revisionExhausted ∨ fatal = .identityExhausted := by
  obtain ⟨base, h, -⟩ := hreaches.invariant
  refine ⟨h.calls.distinct, fun place => ⟨?_, h.queues.commands_prefix place⟩,
    fun request haccepted hterminated => ?_, fun hstage request haccepted => ?_,
    fun call reply hreturned hbusy request hcall => ?_, fun fatal hfails => h.fails hfails⟩
  · rw [h.queues.progress]
    exact List.prefix_append _ _
  · have hheld := h.queues.drained _ hterminated
    have hfifo := h.queues.fifo (destination setup.route request.operation)
    have hprogress := h.queues.progress (destination setup.route request.operation)
    rw [hheld, List.append_nil] at hfifo
    rw [System.underway_of_terminated hterminated, List.append_nil] at hprogress
    exact ⟨count_of_bound (hprogress.trans hfifo.symm) h.calls.distinct.of_map haccepted,
      count_of_bound hfifo.symm h.calls.distinct.of_map haccepted⟩
  · have hrouted := hreaches.routed haccepted
    cases hplace : destination setup.route request.operation with
    | nowhere => exact absurd hplace hrouted
    | owner o => exact hreaches.stopped hstage o
    | cross => exact h.ordered.joined (by simp [hstage, Stage.joined])
  · have hunaccepted : request ∉ acceptedIn trace := by
      intro haccepted
      rcases h.calls.returned call reply hreturned with
        ⟨hnot, -⟩ | ⟨answered, hanswered, hcompleted⟩
      · exact hnot ⟨request, haccepted, hcall⟩
      · obtain ⟨limit, hanswers⟩ := hreaches.answers hcompleted
        rw [not_busy_of_answers hanswers] at hbusy
        cases hbusy
    exact ⟨hunaccepted, fun hexecuted => hunaccepted (h.queues.accepted_of_executed hexecuted)⟩

def lonelySetup : Setup 1 := ⟨fun _ => 0, fun _ => sampleShardLimits, 4, 4096, 4, 64⟩

def lonelyRequest : Request := ⟨0, .exists [ascii "a"]⟩

theorem lonelyRequest_admission {setup : Setup n} (hbytes : setup.queueBytes = 4096) :
    admission setup false lonelyRequest.operation = .acquiring lonelyRequest.operation := by
  unfold admission
  rw [hbytes, if_neg (by decide), if_neg (by decide), if_neg (by decide)]

theorem lonelyRequest_executes : ∃ shard reply,
    executeLocal ⟨∅, .empty, sampleShardLimits, 0, 0, 0, 0⟩ .insertionOrder lonelyRequest.operation 0 =
      .ok (shard, reply) := by
  obtain ⟨⟨shard, reply⟩, hlocal, -⟩ := @exists_of_okAnd _ _
    (executeLocal ⟨∅, .empty, sampleShardLimits, 0, 0, 0, 0⟩ .insertionOrder
      lonelyRequest.operation 0) (fun _ => true) (by decide +kernel)
  exact ⟨shard, reply, hlocal⟩

/-- The owner has nothing to do. -/
structure Resting (owner : Owner) : Prop where
  top : owner.position = .top
  empty : owner.data = []
  silent : owner.controls = []
  free : owner.reservation = none
  turn : owner.dataTurn = false
  running : owner.stopping = false

theorem lonelyRequest_served : ∃ shards trace s, Reaches lonelySetup shards trace s ∧
    acceptedIn trace = [lonelyRequest] ∧ s.calls 1 = .unused ∧ Resting (s.owners 0) ∧
    s.coordinator = .idle ∧ s.cross = [] ∧ s.crossClosed = false ∧ s.stage = .running := by
  have hplace : destination lonelySetup.route lonelyRequest.operation = .owner 0 := by decide
  have hcharge : charge lonelyRequest.operation ≤ 4096 := by decide
  obtain ⟨shard, reply, hlocal⟩ := lonelyRequest_executes
  have hstart : Reaches lonelySetup
      (fun _ => ⟨∅, .empty, sampleShardLimits, 0, 0, 0, 0⟩) [] (.start _ 4096 0) :=
    .start fun _ => rfl
  have hsubmit := @Reaches.submit _ _ _ _ _ hstart lonelyRequest _ rfl nofun
    (lonelyRequest_admission rfl)
  have hacquire := hsubmit.step (.call (@CallStep.acquire _ _ _ 0 lonelyRequest.operation
    (.owner 0) rfl hplace hcharge))
  have hsend := hacquire.step (.call (@CallStep.send _ _ _ 0 lonelyRequest.operation (.owner 0) rfl
    hplace (by rintro (h | h) <;> cases h) (by decide)))
  have hskip := hsend.step (.owner (o := 0) (.skipTurn rfl (.inl rfl)))
  have htake := hskip.step (.owner (o := 0) (.takeData rfl rfl rfl))
  have hsample := htake.step (.owner (o := 0) (.sample rfl))
  have hexecute := hsample.step (.owner (o := 0) (.execute rfl hlocal))
  exact ⟨_, _, _, hexecute, rfl, rfl, ⟨rfl, rfl, rfl, rfl, rfl, rfl⟩, rfl, rfl, rfl, rfl⟩

theorem Resting.stops {setup : Setup 1} {shards : Shards 1} {trace : List (Event 1)}
    {s : System 1} (h : Resting (s.owners 0)) (hreaches : Reaches setup shards trace s)
    (hstage : s.stage = .stopping [0]) :
    ∃ s', s'.stage = .stopped ∧ Reaches setup shards trace s' := by
  have htold := hreaches.step (.shutdown (.stopOwner hstage (by simp [h.top])
    (by simp [h.silent, controlCapacity])))
  have hselect := htold.step (.owner (o := 0) (.skipTurn h.top (.inl h.turn)))
  have hcontrols : (s.owners 0).controls ++ [.stop] = [.stop] := by
    rw [h.silent, List.nil_append]
  have hclosed := hselect.step (.owner (o := 0) (@OwnerStep.control _ _ _ _ _ _ .insertionOrder
    { s.owners 0 with controls := [], position := .top, dataClosed := true, stopping := true }
    none rfl h.running hcontrols (by simp [Owner.handle, h.free])))
  have hagain := hclosed.step (.owner (o := 0) (.skipTurn rfl (.inl h.turn)))
  have hexit := hagain.step (.owner (o := 0) (.exit rfl h.free h.empty (.inl rfl)))
  have hjoined := hexit.step (.shutdown (.joinOwners rfl fun o => by
    rw [Subsingleton.elim o 0]
    rfl))
  simp only [List.append_nil] at hjoined
  exact ⟨_, rfl, hjoined⟩

/-- A request is served, shutdown begins, the next call is told so, and the engine stops. -/
theorem exactly_once_sample : ∃ shards trace s, Reaches lonelySetup shards trace s ∧
    s.stage = .stopped ∧ lonelyRequest ∈ acceptedIn trace ∧
    (commandsIn trace).count lonelyRequest = 1 ∧ (completedIn trace).count lonelyRequest = 1 ∧
    .returned 1 shuttingDown ∈ trace ∧ ⟨1, lonelyRequest.operation⟩ ∉ acceptedIn trace := by
  obtain ⟨shards, trace, s, hserved, haccepted, hunused, hresting, hidle, hcross, hopen, hstage⟩ :=
    lonelyRequest_served
  have hclosing := hserved.step (.shutdown (.beginShutdown hstage))
  have hsubmitted := @Reaches.submit _ _ _ _ _ hclosing ⟨1, lonelyRequest.operation⟩ _ hunused
    nofun rfl
  have hreturned := hsubmitted.step (.call (@CallStep.refuse _ _ _ 1 shuttingDown rfl))
  have hserving : ¬ s.rejects .cross := by
    simp [System.rejects, hopen, hidle]
  have hroom : s.cross.length < lonelySetup.queueCapacity := by
    rw [hcross]
    exact Nat.zero_lt_succ 3
  have hstop := hreturned.step (.shutdown (.sendStop rfl hserving hroom))
  have hlast : s.cross ++ [.stop] = [.stop] := by rw [hcross, List.nil_append]
  have hfinish := (hstop.step (.coordinator (.closeCross hidle hlast))).step
    (.coordinator (.finish hidle rfl (.inl rfl)))
  have hstopping := hfinish.step (.shutdown (.joinCoordinator rfl rfl))
  obtain ⟨s', hstopped, hreaches⟩ := Resting.stops (by exact hresting) hstopping rfl
  simp only [List.append_nil] at hreaches
  obtain ⟨-, -, honce, hdone, hbusy, -⟩ := exactly_once hreaches
  have hmem : lonelyRequest ∈ acceptedIn (trace ++ [.submitted ⟨1, lonelyRequest.operation⟩] ++
      [.returned 1 shuttingDown]) := by
    rw [acceptedIn_append, acceptedIn_append, haccepted]
    exact List.mem_singleton_self _
  have hcounts := honce _ hmem (hdone hstopped _ hmem)
  refine ⟨shards, _, s', hreaches, hstopped, hmem, hcounts.1, hcounts.2, by simp, ?_⟩
  exact (hbusy 1 shuttingDown (by simp) (by decide) _ rfl).1

end Recall.Engine
