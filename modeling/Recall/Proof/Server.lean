import Recall.Server
import Recall.Proof.Progress
import Recall.Proof.Session

/-!
# The server over its engine

A run of the server is a run of the engine with the calls of its connections. So everything that
holds of the engine in every run holds of it behind the server, and what is left to say is which
calls there are: each belongs to one connection, which waits for it.
-/

namespace Recall.Server

open Engine (System Setup)

variable {n : Nat} {config : Config} {setup : Setup n} {s s' : State n} {id : Nat} {task : Task n}
  {trace events : List (Event n)}

/-! ### Frames -/

namespace State

@[simp] theorem setTask_tasks (s : State n) (id : Nat) (task : Task n) :
    (s.setTask id task).tasks = Function.update s.tasks id (some task) := rfl

@[simp] theorem setTask_engine (s : State n) (id : Nat) (task : Task n) :
    (s.setTask id task).engine = s.engine := rfl

@[simp] theorem setTask_loop (s : State n) (id : Nat) (task : Task n) :
    (s.setTask id task).loop = s.loop := rfl

@[simp] theorem setTask_stopping (s : State n) (id : Nat) (task : Task n) :
    (s.setTask id task).stopping = s.stopping := rfl

@[simp] theorem setTask_permits (s : State n) (id : Nat) (task : Task n) :
    (s.setTask id task).permits = s.permits := rfl

@[simp] theorem setTask_metrics (s : State n) (id : Nat) (task : Task n) :
    (s.setTask id task).metrics = s.metrics := rfl

@[simp] theorem setTask_nextCall (s : State n) (id : Nat) (task : Task n) :
    (s.setTask id task).nextCall = s.nextCall := rfl

/-- Counting a timeout touches the counter and nothing else. -/
theorem countTimeout_cases (s : State n) (timedOut : Bool) : ∃ count,
    s.countTimeout timedOut = { s with metrics := { s.metrics with ioTimeouts := count } } := by
  unfold countTimeout
  cases timedOut with
  | true => exact ⟨_, rfl⟩
  | false => exact ⟨s.metrics.ioTimeouts, rfl⟩

end State

@[simp] theorem engineIn_nil : engineIn ([] : List (Event n)) = [] := rfl

@[simp] theorem engineIn_append (a b : List (Event n)) :
    engineIn (a ++ b) = engineIn a ++ engineIn b := List.filterMap_append

@[simp] theorem engineIn_map (events : List (Engine.Event n)) :
    engineIn (events.map Event.engine) = events := by
  simp [engineIn, List.filterMap_map, Function.comp_def]

theorem mem_engineIn {event : Engine.Event n} : event ∈ engineIn trace ↔ .engine event ∈ trace := by
  rw [engineIn, List.mem_filterMap]
  constructor
  · rintro ⟨other, hmem, hother⟩
    cases other with
    | engine other =>
        cases hother
        exact hmem
    | _ => cases hother
  · exact fun hmem => ⟨_, hmem, rfl⟩

/-! ### Calls -/

/-- A call that was submitted and has not returned. -/
def Pending (call : Engine.Call) : Prop := call ≠ .unused ∧ call ≠ .finished

theorem respond_unused (call : Engine.Call) (reply : Reply) :
    call.respond reply = .unused ↔ call = .unused := by
  cases call <;> simp [Engine.Call.respond]

theorem respond_finished (call : Engine.Call) (reply : Reply) :
    call.respond reply = .finished ↔ call = .finished := by
  cases call <;> simp [Engine.Call.respond]

/-- The calls that were not submitted, and those that are over, are the same in both. -/
structure SameCalls (e e' : System n) : Prop where
  unused : ∀ call, e'.calls call = .unused ↔ e.calls call = .unused
  finished : ∀ call, e'.calls call = .finished ↔ e.calls call = .finished

namespace SameCalls

variable {e e' : System n}

theorem of_eq (hcalls : e'.calls = e.calls) : SameCalls e e' where
  unused call := by rw [hcalls]
  finished call := by rw [hcalls]

theorem answer (hcalls : e'.calls = e.calls) (request : Engine.Request) (reply : Reply) :
    SameCalls e (e'.answer setup request reply) where
  unused call := by
    rw [Engine.System.answer_calls, hcalls]
    by_cases hcall : call = request.call
    · subst hcall
      rw [Function.update_self, respond_unused]
    · rw [Function.update_of_ne hcall]
  finished call := by
    rw [Engine.System.answer_calls, hcalls]
    by_cases hcall : call = request.call
    · subst hcall
      rw [Function.update_self, respond_finished]
    · rw [Function.update_of_ne hcall]

theorem pending (h : SameCalls e e') (call : Nat) :
    Pending (e'.calls call) ↔ Pending (e.calls call) := by
  simp only [Pending, ne_eq, h.unused call, h.finished call]

end SameCalls

/-- A call never becomes one that was not submitted, and never leaves its end. -/
theorem CallStep.calls {e e' : System n} {events : List (Engine.Event n)}
    (hstep : Engine.CallStep setup e events e') (call : Nat) :
    (e'.calls call = .unused → e.calls call = .unused) ∧
      (e.calls call = .finished → e'.calls call = .finished) := by
  have hset : ∀ (t : System n) (other : Nat) (state : Engine.Call), t.calls = e.calls →
      state ≠ .unused → e.calls other ≠ .finished →
      ((t.setCall other state).calls call = .unused → e.calls call = .unused) ∧
        (e.calls call = .finished → (t.setCall other state).calls call = .finished) := by
    intro t other state hcalls hstate hother
    rw [Engine.System.setCall_calls, hcalls]
    by_cases hcall : call = other
    · subst hcall
      rw [Function.update_self]
      exact ⟨fun h => absurd h hstate, fun h => absurd h hother⟩
    · rw [Function.update_of_ne hcall]
      exact ⟨id, id⟩
  cases hstep with
  | submit hunused hhandle =>
      refine hset _ _ _ rfl ?_ (by simp [hunused])
      unfold Engine.admission
      split
      · nofun
      · split
        · nofun
        · split <;> nofun
  | acquire hcall | timeOutSending hcall | dropSending hcall | reject hcall =>
      exact hset _ _ _ (by simp) nofun (by simp [hcall])
  | send hcall => exact hset _ _ _ (by simp) nofun (by simp [hcall])
  | timeOutAcquiring hcall | refuse hcall | deliver hcall | dropAcquiring hcall | dropWaiting hcall
  | dropReplied hcall => exact hset _ _ _ rfl nofun (by simp [hcall])

theorem OwnerStep.sameCalls {e e' : System n} {o : Fin n} {events : List (Engine.Event n)}
    (hstep : Engine.OwnerStep setup e o events e') : SameCalls e e' := by
  cases hstep with
  | execute => exact .answer (by rfl) _ _
  | _ => exact .of_eq rfl

theorem CoordinatorStep.sameCalls {e e' : System n} {events : List (Engine.Event n)}
    (hstep : Engine.CoordinatorStep setup e events e') : SameCalls e e' := by
  cases hstep with
  | released => exact .answer (by rfl) _ _
  | _ => exact .of_eq rfl

theorem ShutdownStep.calls_eq {e e' : System n} (hstep : Engine.ShutdownStep setup e e') :
    e'.calls = e.calls := by
  cases hstep <;> rfl

theorem EngineStep.sameCalls {events : List (Engine.Event n)} {engine : System n}
    (hstep : EngineStep setup s events engine) : SameCalls s.engine engine := by
  cases hstep with
  | owner hstep => exact OwnerStep.sameCalls hstep
  | coordinator hstep => exact CoordinatorStep.sameCalls hstep
  | call hstep hsubmitted hpending =>
      exact ⟨fun call => ⟨(CallStep.calls hstep call).1, hsubmitted call⟩,
        fun call => ⟨hpending call, (CallStep.calls hstep call).2⟩⟩
  | shutdown hloop hstep => exact .of_eq (ShutdownStep.calls_eq hstep)
  | advance => exact .of_eq rfl

theorem EngineStep.step {events : List (Engine.Event n)} {engine : System n}
    (hstep : EngineStep setup s events engine) : Engine.Step setup s.engine events engine := by
  cases hstep with
  | owner hstep => exact .owner hstep
  | coordinator hstep => exact .coordinator hstep
  | call hstep => exact .call hstep
  | shutdown hloop hstep => exact .shutdown hstep
  | advance hle => exact .advance hle

/-! ### The engine behind the server -/

/-- The next call is a fresh one, and the server holds on to the engine. -/
structure Founded (s : State n) : Prop where
  fresh : ∀ call, s.nextCall ≤ call → s.engine.calls call = .unused
  held : s.engine.stage ≠ .abandoned

theorem Founded.start (shards : Shards config.workers) (clock : I64) :
    Founded (.start config shards clock) := ⟨fun _ _ => rfl, nofun⟩

/-- The engine's stage changes only while the server shuts it down. -/
def KeepsStage (s s' : State n) : Prop :=
  s'.engine.stage = s.engine.stage ∨ s'.loop = .stopping ∧ s'.engine.stage ≠ .abandoned

theorem ShutdownStep.stage_ne_abandoned {e e' : System n} (hstep : Engine.ShutdownStep setup e e') :
    e'.stage ≠ .abandoned := by
  cases hstep <;> nofun

theorem EngineStep.keepsStage {events : List (Engine.Event n)} {engine : System n}
    (hstep : EngineStep setup s events engine) : KeepsStage s { s with engine } := by
  cases hstep with
  | owner hstep => exact .inl hstep.stage_eq
  | coordinator hstep => exact .inl hstep.stage_eq
  | call hstep => exact .inl hstep.quiet.stage
  | shutdown hloop hstep => exact .inr ⟨hloop, ShutdownStep.stage_ne_abandoned hstep⟩
  | advance => exact .inl rfl

/-- A step of the server moves the engine by one of its steps, with the events that say so, or does
not touch it. -/
inductive Moves (setup : Setup n) (s s' : State n) (events : List (Event n)) : Prop
  | rests (hengine : s'.engine = s.engine) (hcalls : s'.nextCall = s.nextCall)
      (hevents : engineIn events = [])
  | works (hstep : Engine.Step setup s.engine (engineIn events) s'.engine)
      (hsame : SameCalls s.engine s'.engine) (hcalls : s'.nextCall = s.nextCall)
      (hstage : KeepsStage s s')
  | submits {operation : Operation} (hcalls : s'.nextCall = s.nextCall + 1)
      (hevents : engineIn events = [.submitted ⟨s.nextCall, operation⟩])
      (hengine : s'.engine = s.engine.setCall s.nextCall
        (Engine.admission setup s.engine.stage.isClosing operation))
  | returns {call : Nat} {reply : Reply} (hcalls : s'.nextCall = s.nextCall)
      (hevents : engineIn events = [.returned call reply])
      (hreturn : Engine.CallStep setup s.engine [.returned call reply] s'.engine)

theorem LoopStep.moves (hstep : LoopStep config s events s') : Moves setup s s' events := by
  cases hstep with
  | joined hloop hstage hended =>
      exact .works (.shutdown (.beginShutdown hstage)) (.of_eq rfl) rfl (.inr ⟨rfl, nofun⟩)
  | _ => exact .rests rfl rfl rfl

theorem ServeStep.moves {arguments : List Bytes}
    (hstep : ServeStep config setup s id task arguments events s') : Moves setup s s' events := by
  cases hstep with
  | execute => exact .submits rfl rfl rfl
  | _ => exact .rests rfl rfl rfl

theorem TaskStep.moves (h : Founded s) (hstep : TaskStep config setup s id task events s') :
    Moves setup s s' events := by
  cases hstep with
  | serve hreading hstop hnext hserve => exact hserve.moves
  | returned hcalling hreturn => exact .returns rfl rfl hreturn
  | ask hsampling halive hroom =>
      exact .works (.stats h.held halive hroom) (.of_eq rfl) rfl (.inl rfl)
  | sample hsampling hselect hcontrols hstep =>
      exact .works (by simpa using .owner hstep) (OwnerStep.sameCalls hstep) rfl
        (.inl hstep.stage_eq)
  | fail | writeFails =>
      obtain ⟨count, hcount⟩ := s.countTimeout_cases _
      rw [hcount]
      exact .rests rfl rfl rfl
  | _ => exact .rests rfl rfl rfl

theorem Step.moves (h : Founded s) (hstep : Step config setup s events s') :
    Moves setup s s' events := by
  cases hstep with
  | loop hstep => exact hstep.moves
  | engine hstep =>
      exact .works (by simpa using hstep.step) hstep.sameCalls rfl hstep.keepsStage
  | task htask hstep => exact hstep.moves h

theorem CallStep.returned_cases {e e' : System n} {call : Nat} {reply : Reply}
    (hstep : Engine.CallStep setup e [.returned call reply] e') :
    e' = e.setCall call .finished ∧
      (e.calls call = .refused reply ∨ e.calls call = .replied reply) := by
  cases hstep with
  | refuse hcall => exact ⟨rfl, .inl hcall⟩
  | deliver hcall => exact ⟨rfl, .inr hcall⟩

theorem Moves.founded (h : Founded s) (hmoves : Moves setup s s' events) : Founded s' := by
  cases hmoves with
  | rests hengine hcalls hevents =>
      constructor
      · rw [hengine, hcalls]
        exact h.fresh
      · rw [hengine]
        exact h.held
  | works hstep hsame hcalls hstage =>
      constructor
      · intro call hcall
        rw [hcalls] at hcall
        exact (hsame.unused call).mpr (h.fresh call hcall)
      · rcases hstage with hsame | ⟨-, hheld⟩
        · rw [hsame]
          exact h.held
        · exact hheld
  | submits hcalls hevents hengine =>
      constructor
      · intro call hcall
        rw [hcalls] at hcall
        rw [hengine, Engine.System.setCall_calls, Function.update_of_ne (by omega)]
        exact h.fresh call (by omega)
      · rw [hengine]
        exact h.held
  | @returns call reply hcalls hevents hreturn =>
      obtain ⟨hengine, hcall⟩ := CallStep.returned_cases hreturn
      constructor
      · intro other hother
        rw [hcalls] at hother
        have hne : other ≠ call := by
          rintro rfl
          rw [h.fresh other hother] at hcall
          rcases hcall with hcall | hcall <;> cases hcall
        rw [hengine, Engine.System.setCall_calls, Function.update_of_ne hne]
        exact h.fresh other hother
      · rw [hengine]
        exact h.held

theorem Moves.reaches {shards : Shards n} {before : List (Engine.Event n)} (h : Founded s)
    (hreaches : Engine.Reaches setup shards before s.engine) (hmoves : Moves setup s s' events) :
    Engine.Reaches setup shards (before ++ engineIn events) s'.engine := by
  cases hmoves with
  | rests hengine hcalls hevents =>
      rw [hengine, hevents, List.append_nil]
      exact hreaches
  | works hstep => exact hreaches.step hstep
  | @submits operation hcalls hevents hengine =>
      rw [hengine, hevents]
      exact @Engine.Reaches.submit _ _ _ _ _ hreaches ⟨s.nextCall, operation⟩ _
        (h.fresh _ le_rfl) h.held rfl
  | returns hcalls hevents hreturn =>
      rw [hevents]
      exact hreaches.step (.call hreturn)

section

variable {route : Bytes → Fin config.workers} {shards : Shards config.workers}
  {trace events : List (Event config.workers)} {s s' : State config.workers}

theorem Reaches.founded (hreaches : Reaches config route shards trace s) : Founded s := by
  induction hreaches with
  | start hnew => exact .start ..
  | step hbefore hstep ih => exact (hstep.moves ih).founded ih

/-- The engine behind a server is in a state it reaches by itself. -/
theorem Reaches.engine (hreaches : Reaches config route shards trace s) :
    Engine.Reaches (.ofConfig config route) shards (engineIn trace) s.engine := by
  induction hreaches with
  | start hnew => exact .start hnew
  | step hbefore hstep ih =>
      rw [engineIn_append]
      exact (hstep.moves hbefore.founded).reaches hbefore.founded ih

end

end Recall.Server
