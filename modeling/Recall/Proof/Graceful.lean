import Recall.Proof.Attended
import Recall.Proof.Evolution

/-!
# A graceful end

Shutdown interrupts socket reads, not operations that were admitted. The connections are joined
before the engine is told to stop, so no client ever meets an engine that is shutting down, and when
`Server::run` returns every call of every connection has its reply.
-/

namespace Recall.Server

open Engine (System Setup)

variable {n : Nat} {config : Config} {setup : Setup n} {s s' : State n} {id : Nat} {task : Task n}
  {trace events : List (Event n)}

/-! ### The engine outlives the connections -/

structure Phased (s : State n) : Prop where
  running : s.loop ≠ .stopping → s.loop ≠ .returned → s.engine.stage = .running
  ended : s.loop = .stopping ∨ s.loop = .returned →
    ∀ id task, s.tasks id = some task → task.activity = .ended
  stopped : s.loop = .returned → s.engine.stage = .stopped

theorem TaskStep.not_ended (hstep : TaskStep config setup s id task events s') :
    task.activity ≠ .ended := by
  cases hstep with
  | stop hactivity | begin hactivity | finish hactivity | malformed hactivity | askFails hactivity
  | ask hactivity | sampleLost hactivity | informed hactivity | leave hactivity
  | release hactivity | wait hactivity | fail hactivity | writeFails hactivity | serve hactivity
  | returned hactivity | sample hactivity | write hactivity =>
      rw [hactivity]
      nofun

theorem Moves.stage_eq (hmoves : Moves setup s s' events) (hloop : s'.loop ≠ .stopping) :
    s'.engine.stage = s.engine.stage := by
  cases hmoves with
  | rests hengine => rw [hengine]
  | works hstep hsame hcalls hstage => exact hstage.resolve_right fun hshutdown => hloop hshutdown.1
  | submits hcalls hevents hengine => rw [hengine]; rfl
  | returns hcalls hevents hreturn =>
      rw [(CallStep.returned_cases hreturn).1]
      rfl

namespace Phased

theorem start (shards : Shards config.workers) (clock : I64) :
    Phased (.start config shards clock) where
  running _ _ := rfl
  ended h := by rcases h with h | h <;> cases h
  stopped h := by cases h

theorem not_shutting (h : Phased s) (htask : s.tasks id = some task)
    (hactive : task.activity ≠ .ended) : s.loop ≠ .stopping ∧ s.loop ≠ .returned := by
  constructor
  · exact fun hloop => hactive (h.ended (.inl hloop) id task htask)
  · exact fun hloop => hactive (h.ended (.inr hloop) id task htask)

theorem stage_running (h : Phased s) (htask : s.tasks id = some task)
    (hactive : task.activity ≠ .ended) : s.engine.stage = .running :=
  h.running (h.not_shutting htask hactive).1 (h.not_shutting htask hactive).2

/-- The accept loop goes on. -/
theorem accepting (h : Phased s) (hbefore : s.loop ≠ .stopping ∧ s.loop ≠ .returned)
    (hafter : s'.loop ≠ .stopping ∧ s'.loop ≠ .returned)
    (hstage : s'.engine.stage = s.engine.stage) : Phased s' where
  running _ _ := hstage.trans (h.running hbefore.1 hbefore.2)
  ended hloop := (hloop.elim hafter.1 hafter.2).elim
  stopped hloop := (hafter.2 hloop).elim

theorem loopStep (h : Phased s) (hstep : LoopStep config s events s') : Phased s' := by
  cases hstep with
  | accept hloop | number hloop | spawn hloop | stop hloop =>
      exact h.accepting (by rw [hloop]; exact ⟨nofun, nofun⟩) ⟨nofun, nofun⟩ rfl
  | reject hloop =>
      have hgoes : s.loop ≠ .stopping ∧ s.loop ≠ .returned := by rw [hloop]; exact ⟨nofun, nofun⟩
      exact h.accepting hgoes hgoes rfl
  | joined hloop hstage hended => exact ⟨fun hne => (hne rfl).elim, fun _ => hended, nofun⟩
  | return_ hloop hstopped =>
      exact ⟨fun _ hne => (hne rfl).elim, fun _ => h.ended (.inl hloop), fun _ => hstopped⟩

theorem engineStep (h : Phased s) {events : List (Engine.Event n)} {engine : System n}
    (hstep : EngineStep setup s events engine) : Phased { s with engine } := by
  rcases hstep.keepsStage with hsame | ⟨hloop, -⟩
  · refine ⟨fun hstopping hreturned => ?_, h.ended, fun hreturned => ?_⟩
    · exact hsame.trans (h.running hstopping hreturned)
    · exact hsame.trans (h.stopped hreturned)
  · refine ⟨fun hstopping => absurd hloop hstopping, h.ended, fun hreturned => ?_⟩
    rw [hloop] at hreturned
    cases hreturned

theorem step (h : Phased s) (hfounded : Founded s) (hstep : Step config setup s events s') :
    Phased s' := by
  cases hstep with
  | loop hstep => exact h.loopStep hstep
  | engine hstep => exact h.engineStep hstep
  | task htask hstep =>
      have hbefore := h.not_shutting htask hstep.not_ended
      obtain ⟨next, hcontinues⟩ := hstep.continues
      have hafter : s'.loop ≠ .stopping ∧ s'.loop ≠ .returned := by rwa [hcontinues.loop]
      exact h.accepting hbefore hafter ((hstep.moves hfounded).stage_eq hafter.1)

end Phased

/-! ### Nobody is told that the server is shutting down -/

theorem rejects_of_running {e : System n} (hordered : Engine.Ordered e) (hrunning : e.stage = .running)
    (place : Destination n) : ¬ e.rejects place := by
  have htold : ∀ o, ¬ (e.owners o).Told := by
    intro o hold
    rcases hordered.told o hold with hdisconnected | hstage
    · rw [Engine.System.disconnected, hrunning] at hdisconnected
      cases hdisconnected.1
    · rw [hrunning] at hstage
      exact hstage
  have hopen : e.crossClosed ≠ true := by
    intro hclosed
    have hsent := hordered.closed (.inl hclosed)
    rw [hrunning] at hsent
    exact hsent
  cases place with
  | nowhere => exact id
  | owner o =>
      rintro (hclosed | hexited)
      · exact htold o (.inr (.inr (.inl hclosed)))
      · exact htold o (.inr (.inr (.inr hexited)))
  | cross =>
      rintro (hclosed | hfinished)
      · exact hopen hclosed
      · rcases hordered.finished hfinished with hclosed | habandoned
        · exact hopen hclosed
        · rw [hrunning] at habandoned
          cases habandoned

theorem respond_refused {call : Engine.Call} {reply refusal : Reply}
    (h : call.respond reply = .refused refusal) : call = .refused refusal := by
  cases call with
  | waiting => cases h
  | _ => exact h

theorem answer_refused {e e' : System n} (hcalls : e'.calls = e.calls) {request : Engine.Request}
    {reply refusal : Reply} {call : Nat}
    (h : (e'.answer setup request reply).calls call = .refused refusal) :
    e.calls call = .refused refusal := by
  rw [Engine.System.answer_calls, hcalls] at h
  by_cases hcall : call = request.call
  · subst hcall
    rw [Function.update_self] at h
    exact respond_refused h
  · rwa [Function.update_of_ne hcall] at h

theorem setCall_refused {e e' : System n} {call other : Nat} {state : Engine.Call} {refusal : Reply}
    (h : (e'.setCall other state).calls call = .refused refusal) (hcalls : e'.calls = e.calls)
    (hstate : state ≠ .refused refusal) : e.calls call = .refused refusal := by
  rw [Engine.System.setCall_calls, hcalls] at h
  by_cases hcall : call = other
  · subst hcall
    rw [Function.update_self] at h
    exact absurd h hstate
  · rwa [Function.update_of_ne hcall] at h

theorem admission_running {operation : Operation} (hkeys : operation.keys ≠ []) {refusal : Reply}
    (h : Engine.admission setup false operation = .refused refusal) : refusal = Engine.tooLarge := by
  unfold Engine.admission at h
  rw [if_neg Bool.false_ne_true, if_neg hkeys] at h
  split at h
  · cases h
    rfl
  · cases h

/-- The refusals a client can meet. -/
def refusalsMet : List Reply := [Engine.tooLarge, Engine.deadlineExceeded]

theorem OwnerStep.refused {e e' : System n} {o : Fin n} {events : List (Engine.Event n)}
    (hstep : Engine.OwnerStep setup e o events e') {call : Nat} {refusal : Reply}
    (h : e'.calls call = .refused refusal) : e.calls call = .refused refusal := by
  cases hstep with
  | execute => exact answer_refused (by rfl) h
  | _ => exact h

/-- A step of the engine, its calls awaited, refuses a call only for its deadline. -/
theorem EngineStep.refused {events : List (Engine.Event n)} {engine : System n}
    (hopen : ∀ call, Pending (s.engine.calls call) → ∀ place, ¬ s.engine.rejects place)
    (hstep : EngineStep setup s events engine) {call : Nat} {refusal : Reply}
    (h : engine.calls call = .refused refusal) :
    s.engine.calls call = .refused refusal ∨ refusal = Engine.deadlineExceeded := by
  cases hstep with
  | owner hstep => exact .inl (OwnerStep.refused hstep h)
  | coordinator hstep =>
      cases hstep with
      | released => exact .inl (answer_refused (by rfl) h)
      | _ => exact .inl h
  | call hstep hsubmitted hpending =>
      cases hstep with
      | submit hunused =>
          have hunused' := hsubmitted _ hunused
          rw [Engine.System.setCall_calls, Function.update_self] at hunused'
          exact absurd hunused' admission_pending.1
      | acquire | send | dropSending => exact .inl (setCall_refused h (by simp) nofun)
      | refuse | deliver | dropAcquiring | dropWaiting | dropReplied =>
          exact .inl (setCall_refused h rfl nofun)
      | reject hcall hclosed =>
          exact absurd hclosed (hopen _ (by rw [hcall]; exact ⟨nofun, nofun⟩) _)
      | timeOutAcquiring | timeOutSending =>
          by_cases hrefusal : refusal = Engine.deadlineExceeded
          · exact .inr hrefusal
          · refine .inl (setCall_refused h (by simp) ?_)
            intro heq
            cases heq
            exact hrefusal rfl
  | shutdown hloop hstep =>
      rw [ShutdownStep.calls_eq hstep] at h
      exact .inl h
  | advance => exact .inl h

theorem TaskStep.refused (hrunning : s.engine.stage = .running)
    (hstep : TaskStep config setup s id task events s') {call : Nat} {refusal : Reply}
    (h : s'.engine.calls call = .refused refusal) :
    s.engine.calls call = .refused refusal ∨ refusal = Engine.tooLarge := by
  cases hstep with
  | serve hreading hstop hnext hserve =>
      cases hserve with
      | execute hparse hdispatch =>
          obtain ⟨rfl, -⟩ := dispatch_execute hdispatch
          rw [State.setTask_engine, Engine.System.setCall_calls, hrunning] at h
          by_cases hcall : call = s.nextCall
          · subst hcall
            rw [Function.update_self] at h
            exact .inr (admission_running (keys_ne_nil hparse) h)
          · rw [Function.update_of_ne hcall] at h
            exact .inl h
      | _ => exact .inl h
  | returned hcalling hreturn =>
      rw [State.setTask_engine, (CallStep.returned_cases hreturn).1] at h
      exact .inl (setCall_refused h rfl nofun)
  | sample hsampling hselect hcontrols hstep => exact .inl (OwnerStep.refused hstep h)
  | fail | writeFails =>
      obtain ⟨count, hcount⟩ := s.countTimeout_cases _
      rw [hcount] at h
      exact .inl h
  | _ => exact .inl h

section

variable {route : Bytes → Fin config.workers} {shards : Shards config.workers}
  {trace : List (Event config.workers)} {s : State config.workers}

theorem Reaches.phased (hreaches : Reaches config route shards trace s) : Phased s := by
  induction hreaches with
  | start hnew => exact .start ..
  | step hbefore hstep ih => exact ih.step hbefore.founded hstep

/-- Whoever waits for a call keeps the engine running. -/
theorem Reaches.running_of_pending (hreaches : Reaches config route shards trace s) {call : Nat}
    (hpending : Pending (s.engine.calls call)) : s.engine.stage = .running := by
  obtain ⟨id, hawaited⟩ := hreaches.attended.attended call hpending
  obtain ⟨task, htask, hcall⟩ := Option.bind_eq_some_iff.mp hawaited
  refine hreaches.phased.stage_running htask fun hended => ?_
  rw [hended] at hcall
  cases hcall

theorem Reaches.refused (hreaches : Reaches config route shards trace s) {call : Nat}
    {refusal : Reply} (h : s.engine.calls call = .refused refusal) : refusal ∈ refusalsMet := by
  induction hreaches with
  | start hnew => cases h
  | @step trace events s s' hbefore hstep ih =>
      obtain ⟨base, hinvariant, -⟩ := hbefore.engine.invariant
      cases hstep with
      | loop hstep =>
          refine ih ?_
          cases hstep <;> exact h
      | engine hstep =>
          have hopen : ∀ call, Pending (s.engine.calls call) → ∀ place, ¬ s.engine.rejects place :=
            fun call hpending => rejects_of_running hinvariant.ordered
              (hbefore.running_of_pending hpending)
          rcases hstep.refused hopen h with hold | rfl
          · exact ih hold
          · simp [refusalsMet]
      | task htask hstep =>
          rcases hstep.refused (hbefore.phased.stage_running htask hstep.not_ended) h with
            hold | rfl
          · exact ih hold
          · simp [refusalsMet]

theorem Reaches.returned_met (hreaches : Reaches config route shards trace s) {call : Nat}
    {reply : Reply} (hreturned : .returned call reply ∈ engineIn trace) :
    reply ∈ refusalsMet ∨ Engine.Answered (engineIn trace) call reply := by
  induction hreaches with
  | start hnew => cases hreturned
  | @step trace events s s' hbefore hstep ih =>
      rw [engineIn_append] at hreturned ⊢
      rcases List.mem_append.mp hreturned with hold | hnew
      · exact (ih hold).imp_right Engine.Answered.append
      · cases hstep.turn hbefore.accounted with
        | keeps hawaited hsame hnext hevents => exact absurd hnew (hevents.returned call reply)
        | calls htask hreading hauthenticated hparse hawaited hengine hnext hevents =>
            rw [hevents] at hnew
            simp [engineIn] at hnew
        | returns hwaits hawaited hreturn hnext hevents =>
            rw [hevents] at hnew
            obtain ⟨rfl, rfl⟩ : call = _ ∧ reply = _ := by simpa [engineIn] using hnew
            rcases (CallStep.returned_cases hreturn).2 with hrefused | hreplied
            · exact .inl (hbefore.refused hrefused)
            · obtain ⟨base, hinvariant, -⟩ := hbefore.engine.invariant
              have hfits := hinvariant.calls.fits call
              rw [hreplied] at hfits
              exact .inr hfits.2.append

/-- What a connection learns about a request: it was refused and left no trace, or it took effect
exactly once, with this reply. -/
def Outcome (trace : List (Engine.Event n)) (request : Engine.Request) (reply : Reply) : Prop :=
  reply ∈ refusalsMet ∧ request ∉ Engine.commandsIn trace ∨
    .completed request reply ∈ trace ∧ (Engine.commandsIn trace).count request = 1

theorem Reaches.outcome (hreaches : Reaches config route shards trace s) {request : Engine.Request}
    (hcalled : request ∈ calledIn id trace) {reply : Reply}
    (hreturned : .returned request.call reply ∈ engineIn trace) :
    Outcome (engineIn trace) request reply := by
  have hengine := hreaches.engine
  obtain ⟨base, hinvariant, -⟩ := hengine.invariant
  -- The call belongs to this request alone.
  have hsame : ∀ other ∈ Engine.acceptedIn (engineIn trace), other.call = request.call →
      other = request := by
    intro other haccepted hcall
    obtain ⟨id', hcalled'⟩ :=
      (hreaches.attended.submitted other).mp (hengine.sourced.accepted other haccepted)
    exact (hreaches.attended.unique id' id other hcalled' request hcalled hcall).2
  have hanswered : Engine.Answered (engineIn trace) request.call reply →
      Outcome (engineIn trace) request reply := by
    rintro ⟨other, hcall, hcompleted⟩
    obtain rfl := hsame other (hinvariant.queues.accepted_of_completed
      (Engine.mem_completedIn.mpr ⟨reply, hcompleted⟩)) hcall
    obtain ⟨nowMs, hexecuted⟩ := hengine.records.completed other reply hcompleted
    refine .inr ⟨hcompleted, List.count_eq_one_of_mem hinvariant.commands_nodup ?_⟩
    exact Engine.mem_commandsIn.mpr ⟨_, hexecuted, rfl⟩
  rcases hreaches.returned_met hreturned with hmet | hanswers
  · rcases hinvariant.calls.returned _ _ hreturned with ⟨hunaccepted, -⟩ | hanswers
    · refine .inl ⟨hmet, fun hexecuted => hunaccepted ?_⟩
      exact ⟨request, hinvariant.queues.accepted_of_executed hexecuted, rfl⟩
    · exact hanswered hanswers
  · exact hanswered hanswers

theorem graceful_shutdown (hreaches : Reaches config route shards trace s) :
    (∀ id task, s.tasks id = some task → task.activity ≠ .ended → s.engine.stage = .running) ∧
      (s.engine.stage ≠ .running →
        ∀ call, s.engine.calls call = .unused ∨ s.engine.calls call = .finished) ∧
      (∀ call, .returned call Engine.shuttingDown ∉ engineIn trace) ∧
      (∀ id, ∀ request ∈ calledIn id trace, ∀ reply,
        .returned request.call reply ∈ engineIn trace →
          Outcome (engineIn trace) request reply) ∧
      (s.loop = .returned →
        (∀ o, (s.engine.owners o).position = .exited) ∧ s.engine.coordinator = .finished ∧
          ∀ id, ∀ request ∈ calledIn id trace,
            ∃ reply, .returned request.call reply ∈ engineIn trace) := by
  have hengine := hreaches.engine
  obtain ⟨base, hinvariant, -⟩ := hengine.invariant
  refine ⟨fun id task => hreaches.phased.stage_running, fun hstage call => ?_, fun call hreturned => ?_,
    fun id request hcalled reply => hreaches.outcome hcalled, fun hloop => ?_⟩
  · by_contra hpending
    rw [not_or] at hpending
    exact hstage (hreaches.running_of_pending hpending)
  · rcases hreaches.returned_met hreturned with hmet | ⟨request, -, hcompleted⟩
    · revert hmet
      decide
    · obtain ⟨limit, hanswers⟩ := hengine.answers hcompleted
      have hbusy := Engine.not_busy_of_answers hanswers
      revert hbusy
      decide
  · have hstopped := hreaches.phased.stopped hloop
    refine ⟨hengine.stopped hstopped, hinvariant.ordered.joined ?_, fun id request hcalled => ?_⟩
    · rw [hstopped]
      trivial
    · rcases hreaches.attended.settled id request hcalled with hawaited | hreturned
      · obtain ⟨task, htask, hcall⟩ := Option.bind_eq_some_iff.mp hawaited
        rw [hreaches.phased.ended (.inr hloop) id task htask] at hcall
        cases hcall
      · exact Engine.mem_returnedIn.mp hreturned

end

/-! ### A sample run

The client of the sample stream is served, and then the server is told to stop. -/

theorem EngineStep.ofCall {events : List (Engine.Event n)} {engine : System n} {call : Nat}
    {state : Engine.Call}
    (hstep : Engine.CallStep setup s.engine events engine)
    (hcalls : engine.calls = Function.update s.engine.calls call state)
    (hbefore : s.engine.calls call ≠ .unused) (hafter : state ≠ .finished) :
    EngineStep setup s events engine := by
  refine .call hstep (fun other hother => ?_) (fun other hother => ?_)
  · rw [hcalls, Function.update_of_ne]
    · exact hother
    · rintro rfl
      exact hbefore hother
  · rw [hcalls] at hother
    by_cases hcall : other = call
    · subst hcall
      rw [Function.update_self] at hother
      exact absurd hother hafter
    · rwa [Function.update_of_ne hcall] at hother

theorem ServeStep.admitted {arguments : List Bytes} {operation : Operation} {state : Engine.Call}
    (hparse : parse arguments config.commands = .ok (.data operation))
    (hdispatch : task.session.dispatch config (.data operation) = .execute operation)
    (hadmission : Engine.admission setup s.engine.stage.isClosing operation = state) :
    ServeStep config setup s id task arguments
      [.requested id arguments, .called id s.nextCall operation,
        .engine (.submitted ⟨s.nextCall, operation⟩)]
      ({ s.countCommand with
        nextCall := s.nextCall + 1
        engine := s.engine.setCall s.nextCall state }.setTask id
        { task with activity := .calling s.nextCall }) := by
  rw [← hadmission]
  exact .execute hparse hdispatch

def sampleArguments : List Bytes := [ascii "SET", ascii "a", ascii "1"]

def NextRequest.arguments? : NextRequest → Option (List Bytes)
  | .request arguments => some arguments
  | _ => none

theorem next_of_arguments {arrivals : List Arrival} {reader : Reader} {arguments : List Bytes}
    (harguments : NextRequest.arguments? (reader.nextRequest config arrivals).1 = some arguments) :
    ∃ after, reader.nextRequest config arrivals = (.request arguments, after) := by
  generalize reader.nextRequest config arrivals = result at harguments ⊢
  obtain ⟨next, after⟩ := result
  cases next with
  | request arguments =>
      cases harguments
      exact ⟨after, rfl⟩
  | _ => cases harguments

theorem sample_next : ∃ reader, Reader.nextRequest Engine.oneWorker [.ready 63]
    ⟨sampleDecoder, [], sampleStream⟩ = (.request sampleArguments, reader) :=
  next_of_arguments (by decide +kernel)

def sampleTask (reader : Reader) (activity : Activity Engine.oneWorker.workers) :
    Task Engine.oneWorker.workers := ⟨reader, .new 1 Engine.oneWorker, activity⟩

/-- The client is answered before the server stops. -/
theorem sample_served : ∃ trace s, Reaches Engine.oneWorker Engine.onlyWorker sampleShards trace s ∧
    s.loop = .returned ∧ calledIn 1 trace = [Engine.setRequest] ∧
    .returned 0 .ok ∈ engineIn trace ∧ openedIn trace = [1] ∧
    requestsIn 1 trace = [sampleArguments] ∧ writtenIn 1 trace = [.ok] := by
  obtain ⟨reader, hnext⟩ := sample_next
  have hparse : parse sampleArguments Engine.oneWorker.commands =
      .ok (.data Engine.setRequest.operation) := by decide +kernel
  have hadmission : Engine.admission (.ofConfig Engine.oneWorker Engine.onlyWorker) false
      Engine.setRequest.operation = .acquiring Engine.setRequest.operation := by
    unfold Engine.admission
    rw [if_neg (by decide), if_neg (by decide), if_neg (by decide +kernel)]
  have hplace : destination Engine.onlyWorker Engine.setRequest.operation =
      .owner (Engine.onlyWorker []) := by decide
  have hcharge : Engine.charge Engine.setRequest.operation ≤ Engine.oneWorker.queueBytes := by
    decide +kernel
  obtain ⟨⟨shard, reply⟩, hlocal, hreply⟩ := @exists_of_okAnd _ _
    (executeLocal ⟨∅, .empty, Engine.oneWorker.shardLimits 0, 0, 0, 0, 0⟩ .insertionOrder
      Engine.setRequest.operation 0) (fun result => result.2 = .ok) (by decide +kernel)
  obtain rfl : reply = .ok := by simpa using hreply
  have hbegin := (sampleOpened_reaches sampleStream).step (@Step.task _ _ _ _ 1
    (sampleTask ⟨sampleDecoder, [], sampleStream⟩ .top) _ _ rfl (.begin rfl rfl))
  have hcalled := hbegin.step (@Step.task _ _ _ _ 1
    (sampleTask ⟨sampleDecoder, [], sampleStream⟩ .reading) _ _ rfl
    (.serve rfl (by simp) hnext (.admitted hparse rfl hadmission)))
  have hacquire := hcalled.step (.engine (.ofCall (@Engine.CallStep.acquire _ _ _ 0
    Engine.setRequest.operation (.owner (Engine.onlyWorker [])) rfl hplace hcharge) rfl
    (by intro h; cases h) (by intro h; cases h)))
  have hsend := hacquire.step (.engine (.ofCall (@Engine.CallStep.send _ _ _ 0
    Engine.setRequest.operation (.owner (Engine.onlyWorker [])) rfl hplace
    (by rintro (h | h) <;> cases h) (Nat.zero_lt_succ 255)) rfl
    (by intro h; cases h) (by intro h; cases h)))
  have hskip := hsend.step (.engine (.owner (o := Engine.onlyWorker []) (.skipTurn rfl (.inl rfl))))
  have htake := hskip.step (.engine (.owner (o := Engine.onlyWorker []) (.takeData rfl rfl rfl)))
  have hsample := htake.step (.engine (.owner (o := Engine.onlyWorker []) (.sample rfl)))
  have hexecute := hsample.step (.engine (.owner (o := Engine.onlyWorker []) (.execute rfl hlocal)))
  have hreturned := hexecute.step (@Step.task _ _ _ _ 1 (sampleTask reader (.calling 0)) _ _ rfl
    (.returned rfl (.deliver rfl)))
  have hwritten := hreturned.step (@Step.task _ _ _ _ 1 (sampleTask reader (.writing .ok false)) _ _
    rfl (.write rfl))
  have hstop := hwritten.step (.loop (.stop rfl))
  have hclosing := hstop.step (@Step.task _ _ _ _ 1 (sampleTask reader .top) _ _ rfl (.stop rfl rfl))
  have hleaving := hclosing.step (@Step.task _ _ _ _ 1 (sampleTask reader .closing) _ _ rfl
    (.leave rfl))
  have hended := hleaving.step (@Step.task _ _ _ _ 1 (sampleTask reader .leaving) _ _ rfl
    (.release rfl))
  have hjoined := hended.step (.loop (.joined rfl rfl fun id task htask => by
    by_cases hid : id = 1
    · subst hid
      cases htask
      rfl
    · simp [hid, sampleOpened, State.start, State.countCommand] at htask))
  have hsent := hjoined.step (.engine (.shutdown rfl (.sendStop rfl
    (by rintro (h | h) <;> cases h) (Nat.zero_lt_succ 255))))
  have hfinished := (hsent.step (.engine (.coordinator (.closeCross rfl rfl)))).step
    (.engine (.coordinator (.finish rfl rfl (.inl rfl))))
  have htold := (hfinished.step (.engine (.shutdown rfl (.joinCoordinator rfl rfl)))).step
    (.engine (.shutdown rfl (@Engine.ShutdownStep.stopOwner _ _ _ (Engine.onlyWorker []) [] rfl
      (by intro h; cases h) (Nat.zero_lt_succ 7))))
  have hselect := htold.step (.engine (.owner (o := Engine.onlyWorker []) (.skipTurn rfl (.inl rfl))))
  have hclosed := hselect.step (.engine (.owner (o := Engine.onlyWorker [])
    (@Engine.OwnerStep.control _ _ _ _ _ _ .insertionOrder _ _ rfl rfl rfl rfl)))
  have hexited := (hclosed.step (.engine (.owner (o := Engine.onlyWorker [])
    (.skipTurn rfl (.inl rfl))))).step (.engine (.owner (o := Engine.onlyWorker [])
      (.exit rfl rfl rfl (.inl rfl))))
  have hall : ∀ o : Fin Engine.oneWorker.workers, o = Engine.onlyWorker [] := by
    rintro ⟨o, ho⟩
    exact Fin.ext (Nat.lt_one_iff.mp ho)
  have hstopped := hexited.step (.engine (.shutdown rfl (.joinOwners rfl fun o => by
    rw [hall o]
    rfl)))
  have hreturn := hstopped.step (.loop (.return_ rfl rfl))
  have hfits : writeReply Engine.oneWorker .ok = .ok := by decide +kernel
  refine ⟨_, _, hreturn, rfl, ?_, by simp [engineIn], by simp [openedIn], by simp [requestsIn],
    by simp [writtenIn, hfits]⟩
  simp [calledIn, sampleOpened, State.start, Engine.setRequest]

/-- Its command took effect once, and nobody is left to answer. -/
theorem graceful_shutdown_sample : ∃ trace s,
    Reaches Engine.oneWorker Engine.onlyWorker sampleShards trace s ∧ s.loop = .returned ∧
      Outcome (engineIn trace) Engine.setRequest .ok ∧ s.engine.coordinator = .finished := by
  obtain ⟨trace, s, hreaches, hloop, hcalled, hreturned, -⟩ := sample_served
  obtain ⟨-, -, -, houtcome, hend⟩ := graceful_shutdown hreaches
  exact ⟨trace, s, hreaches, hloop,
    houtcome 1 Engine.setRequest (by rw [hcalled]; simp) .ok hreturned, (hend hloop).2.1⟩

end Recall.Server
