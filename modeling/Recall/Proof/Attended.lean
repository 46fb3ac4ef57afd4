import Recall.Proof.Connections
import Recall.Proof.Linearizable
import Recall.Proof.Metadata

/-!
# Calls are attended

A call into the engine belongs to one connection, which does nothing else until it returns. So the
calls of a connection follow each other, none is left behind when the connections are joined, and
the engine is shut down only when nobody calls it any more.
-/

namespace Recall.Server

open Engine (System Setup)

variable {n : Nat} {config : Config} {setup : Setup n} {s s' : State n} {id : Nat} {task : Task n}
  {trace events : List (Event n)}

/-! ### What a connection waits for -/

def Activity.call? : Activity n → Option Nat
  | .calling call => some call
  | _ => none

def State.awaited (s : State n) (id : Nat) : Option Nat :=
  (s.tasks id).bind fun task => task.activity.call?

theorem State.awaited_update {next : Task n} {call : Option Nat}
    (htasks : s'.tasks = Function.update s.tasks id (some next))
    (hcall : next.activity.call? = call) : s'.awaited = Function.update s.awaited id call := by
  subst hcall
  funext other
  simp only [State.awaited, htasks]
  by_cases hother : other = id
  · subst hother
    simp
  · rw [Function.update_of_ne hother, Function.update_of_ne hother]
    rfl

theorem State.awaited_of_task (htask : s.tasks id = some task) :
    s.awaited id = task.activity.call? := by
  rw [awaited, htask]
  rfl

/-- A connection that waits for no call, before and after. -/
theorem State.awaited_keep {next : Task n}
    (htasks : s'.tasks = Function.update s.tasks id (some next)) (hbefore : s.awaited id = none)
    (hafter : next.activity.call? = none) : s'.awaited = s.awaited := by
  rw [State.awaited_update htasks hafter, Function.update_eq_self_iff, hbefore]

@[simp] theorem calledIn_append (id : Nat) (a b : List (Event n)) :
    calledIn id (a ++ b) = calledIn id a ++ calledIn id b := List.filterMap_append

/-- The events say nothing about calls. -/
structure Uncalled (events : List (Event n)) : Prop where
  called : ∀ id, calledIn id events = []
  submitted : ∀ request, .submitted request ∉ engineIn events
  returned : ∀ call reply, .returned call reply ∉ engineIn events

theorem Uncalled.silent (hcalled : ∀ id, calledIn id events = []) (hengine : engineIn events = []) :
    Uncalled events where
  called := hcalled
  submitted request h := by simp [hengine] at h
  returned call reply h := by simp [hengine] at h

theorem Uncalled.engine {events : List (Engine.Event n)}
    (hsubmitted : ∀ request, .submitted request ∉ events)
    (hreturned : ∀ call reply, .returned call reply ∉ events) :
    Uncalled (events.map Event.engine) where
  called _ := filterMap_engine _ fun _ => rfl
  submitted := by simpa using hsubmitted
  returned := by simpa using hreturned

theorem OwnerStep.uncalled {e e' : System n} {o : Fin n} {events : List (Engine.Event n)}
    (hstep : Engine.OwnerStep setup e o events e') : Uncalled (events.map Event.engine) := by
  cases hstep <;> exact .engine (by simp) (by simp)

theorem EngineStep.uncalled {events : List (Engine.Event n)} {engine : System n}
    (hstep : EngineStep setup s events engine) : Uncalled (events.map Event.engine) := by
  cases hstep with
  | owner hstep => exact OwnerStep.uncalled hstep
  | coordinator hstep => cases hstep <;> exact .engine (by simp) (by simp)
  | call hstep hsubmitted hpending =>
      cases hstep with
      | submit hunused =>
          have hunused' := hsubmitted _ hunused
          rw [Engine.System.setCall_calls, Function.update_self] at hunused'
          unfold Engine.admission at hunused'
          split at hunused'
          · cases hunused'
          · split at hunused'
            · cases hunused'
            · split at hunused' <;> cases hunused'
      | @refuse call reply hcall | @deliver call reply hcall =>
          have hfinished := hpending call (by simp)
          rw [hcall] at hfinished
          cases hfinished
      | _ => exact .engine (by simp) (by simp)
  | shutdown | advance => exact .engine (by simp) (by simp)

/-! ### Steps -/

theorem dispatch_execute {session : Session} {command : Command} {operation : Operation}
    (hdispatch : session.dispatch config command = .execute operation) :
    command = .data operation ∧ session.authenticated = true := by
  cases command with
  | data other =>
      simp only [Session.dispatch] at hdispatch
      split at hdispatch
      · next hauthenticated =>
          cases hdispatch
          exact ⟨rfl, hauthenticated⟩
      · cases hdispatch
  | info section_ =>
      simp only [Session.dispatch] at hdispatch
      split at hdispatch <;> cases hdispatch
  | _ => cases hdispatch

/-- A step begins a call, ends one or leaves them to the engine. -/
inductive Turn (config : Config) (setup : Setup n) (s s' : State n) (events : List (Event n)) :
    Prop
  | keeps (hawaited : s'.awaited = s.awaited) (hsame : SameCalls s.engine s'.engine)
      (hnext : s'.nextCall = s.nextCall) (hevents : Uncalled events)
  | calls {id : Nat} {task : Task n} {arguments : List Bytes} {operation : Operation}
      (htask : s.tasks id = some task) (hreading : task.activity = .reading)
      (hauthenticated : task.session.authenticated = true)
      (hparse : parse arguments config.commands = .ok (.data operation))
      (hawaited : s'.awaited = Function.update s.awaited id (some s.nextCall))
      (hengine : s'.engine = s.engine.setCall s.nextCall
        (Engine.admission setup s.engine.stage.isClosing operation))
      (hnext : s'.nextCall = s.nextCall + 1)
      (hevents : events = [.requested id arguments, .called id s.nextCall operation,
        .engine (.submitted ⟨s.nextCall, operation⟩)])
  | returns {id call : Nat} {reply : Reply} (hwaits : s.awaited id = some call)
      (hawaited : s'.awaited = Function.update s.awaited id none)
      (hreturn : Engine.CallStep setup s.engine [.returned call reply] s'.engine)
      (hnext : s'.nextCall = s.nextCall)
      (hevents : events = [.engine (.returned call reply), .answered id reply])

theorem ServeStep.turn {arguments : List Bytes} {reader : Reader} (htask : s.tasks id = some task)
    (hreading : task.activity = .reading)
    (hstep : ServeStep config setup s id { task with reader } arguments events s') :
    Turn config setup s s' events := by
  have hcall : s.awaited id = none := by rw [State.awaited_of_task htask, hreading]; rfl
  cases hstep with
  | execute hparse hdispatch =>
      obtain ⟨rfl, hauthenticated⟩ := dispatch_execute hdispatch
      exact .calls htask hreading hauthenticated hparse (State.awaited_update rfl rfl) rfl rfl rfl
  | _ =>
      exact .keeps (State.awaited_keep rfl hcall rfl) (.of_eq rfl) rfl
        (.silent (fun _ => rfl) rfl)

theorem TaskStep.turn (htask : s.tasks id = some task)
    (hstep : TaskStep config setup s id task events s') : Turn config setup s s' events := by
  have hawaited := State.awaited_of_task htask
  cases hstep with
  | serve hreading hstop hnext hserve => exact hserve.turn htask hreading
  | returned hcalling hreturn =>
      rw [hcalling] at hawaited
      exact .returns hawaited (State.awaited_update rfl rfl) hreturn rfl rfl
  | stop hactivity | begin hactivity | finish hactivity | malformed hactivity | askFails hactivity
  | ask hactivity | sampleLost hactivity | informed hactivity | leave hactivity
  | release hactivity =>
      rw [hactivity] at hawaited
      exact .keeps (State.awaited_keep rfl hawaited rfl) (.of_eq rfl) rfl
        (.silent (fun _ => rfl) rfl)
  | wait hreading =>
      rw [hreading] at hawaited
      exact .keeps (State.awaited_keep rfl hawaited (by rw [hreading]; rfl)) (.of_eq rfl) rfl
        (.silent (fun _ => rfl) rfl)
  | fail hactivity | writeFails hactivity =>
      rw [hactivity] at hawaited
      obtain ⟨count, hcount⟩ := s.countTimeout_cases _
      rw [hcount]
      exact .keeps (State.awaited_keep rfl hawaited rfl) (.of_eq rfl) rfl
        (.silent (fun _ => rfl) rfl)
  | sample hsampling hselect hcontrols hstep =>
      rw [hsampling] at hawaited
      exact .keeps (State.awaited_keep rfl hawaited rfl) (OwnerStep.sameCalls hstep) rfl
        (OwnerStep.uncalled hstep)
  | @write reply close hwriting =>
      rw [hwriting] at hawaited
      exact .keeps (State.awaited_keep rfl hawaited (by cases close <;> rfl)) (.of_eq rfl) rfl
        (.silent (fun _ => rfl) rfl)

theorem LoopStep.turn (h : Accounted config trace s) (hstep : LoopStep config s events s') :
    Turn config setup s s' events := by
  cases hstep with
  | spawn hloop hdecoder hactivity =>
      refine .keeps (State.awaited_keep rfl ?_ ?_) (.of_eq rfl) rfl (.silent (fun _ => rfl) rfl)
      · rw [State.awaited, h.numbered_none hloop]
        rfl
      · rcases hactivity with rfl | rfl <;> rfl
  | _ => exact .keeps rfl (.of_eq rfl) rfl (.silent (fun _ => rfl) rfl)

theorem Step.turn (h : Accounted config trace s) (hstep : Step config setup s events s') :
    Turn config setup s s' events := by
  cases hstep with
  | loop hstep => exact hstep.turn h
  | engine hstep => exact .keeps rfl hstep.sameCalls rfl hstep.uncalled
  | task htask hstep => exact hstep.turn htask

/-! ### The calls of a run -/

structure Attended (trace : List (Event n)) (s : State n) : Prop where
  pending : ∀ id call, s.awaited id = some call → Pending (s.engine.calls call)
  attended : ∀ call, Pending (s.engine.calls call) → ∃ id, s.awaited id = some call
  alone : ∀ id other call, s.awaited id = some call → s.awaited other = some call → id = other
  settled : ∀ id, ∀ request ∈ calledIn id trace,
    s.awaited id = some request.call ∨ request.call ∈ Engine.returnedIn (engineIn trace)
  submitted : ∀ request, .submitted request ∈ engineIn trace ↔ ∃ id, request ∈ calledIn id trace
  numbered : ∀ id, ∀ request ∈ calledIn id trace, request.call < s.nextCall
  unique : ∀ id other, ∀ request ∈ calledIn id trace, ∀ request' ∈ calledIn other trace,
    request.call = request'.call → id = other ∧ request = request'
  ordered : ∀ id, (calledIn id trace).Pairwise (Engine.Precedes (engineIn trace))

theorem Precedes.append {before : List (Engine.Event n)} {earlier later : Engine.Request}
    (h : Engine.Precedes before earlier later) (more : List (Engine.Event n)) :
    Engine.Precedes (before ++ more) earlier later := by
  obtain ⟨passed, after, reply, htrace, hreturned⟩ := h
  exact ⟨passed, after ++ more, reply, by rw [htrace, List.append_assoc, List.cons_append],
    hreturned⟩

theorem not_pending_setCall {e : System n} {call other : Nat} :
    Pending ((e.setCall call .finished).calls other) ↔ other ≠ call ∧ Pending (e.calls other) := by
  rw [Engine.System.setCall_calls]
  by_cases hother : other = call
  · subst hother
    simp [Pending]
  · simp [hother]

theorem admission_pending {closing : Bool} {operation : Operation} :
    Pending (Engine.admission setup closing operation) := by
  unfold Engine.admission Pending
  split
  · simp
  · split
    · simp
    · split <;> simp

namespace Attended

theorem start (shards : Shards config.workers) (clock : I64) :
    Attended [] (.start config shards clock) where
  pending id call h := by cases h
  attended call h := absurd rfl h.1
  alone id other call h := by cases h
  settled id request h := by cases h
  submitted request := by simp [calledIn]
  numbered id request h := by cases h
  unique id other request h := by cases h
  ordered id := .nil

theorem keeps (h : Attended trace s) (hawaited : s'.awaited = s.awaited)
    (hsame : SameCalls s.engine s'.engine) (hnext : s'.nextCall = s.nextCall)
    (hevents : Uncalled events) : Attended (trace ++ events) s' := by
  have hcalled : ∀ id, calledIn id (trace ++ events) = calledIn id trace := by
    intro id
    rw [calledIn_append, hevents.called, List.append_nil]
  constructor
  · intro id call hcall
    rw [hawaited] at hcall
    exact (hsame.pending call).mpr (h.pending id call hcall)
  · intro call hpending
    rw [hawaited]
    exact h.attended call ((hsame.pending call).mp hpending)
  · rw [hawaited]
    exact h.alone
  · intro id request hrequest
    rw [hcalled] at hrequest
    rw [hawaited, engineIn_append, Engine.returnedIn_append]
    exact (h.settled id request hrequest).imp_right (List.mem_append_left _)
  · intro request
    simp only [hcalled, engineIn_append, List.mem_append, hevents.submitted, or_false]
    exact h.submitted request
  · intro id request hrequest
    rw [hcalled] at hrequest
    rw [hnext]
    exact h.numbered id request hrequest
  · intro id other request hrequest request' hrequest'
    rw [hcalled] at hrequest hrequest'
    exact h.unique id other request hrequest request' hrequest'
  · intro id
    rw [hcalled, engineIn_append]
    exact (h.ordered id).imp fun hprecedes => Precedes.append hprecedes _

theorem calls (h : Attended trace s) (hfounded : Founded s) {arguments : List Bytes}
    {operation : Operation} (hidle : s.awaited id = none)
    (hawaited : s'.awaited = Function.update s.awaited id (some s.nextCall))
    (hengine : s'.engine = s.engine.setCall s.nextCall
      (Engine.admission setup s.engine.stage.isClosing operation))
    (hnext : s'.nextCall = s.nextCall + 1) :
    Attended (trace ++ [.requested id arguments, .called id s.nextCall operation,
      .engine (.submitted ⟨s.nextCall, operation⟩)]) s' := by
  have hfresh : ¬ Pending (s.engine.calls s.nextCall) := by
    rw [hfounded.fresh _ le_rfl]
    exact fun hpending => hpending.1 rfl
  have hcalled : ∀ other, calledIn other (trace ++ [.requested id arguments,
      .called id s.nextCall operation, .engine (.submitted ⟨s.nextCall, operation⟩)]) =
        calledIn other trace ++ if other = id then [⟨s.nextCall, operation⟩] else [] := by
    intro other
    rw [calledIn_append]
    by_cases hother : other = id
    · subst hother
      simp [calledIn]
    · simp [calledIn, hother, Ne.symm hother]
  have hmem : ∀ other request, request ∈ (if other = id then
      [(⟨s.nextCall, operation⟩ : Engine.Request)] else []) →
        other = id ∧ request = ⟨s.nextCall, operation⟩ := by
    intro other request hrequest
    by_cases hother : other = id
    · rw [if_pos hother, List.mem_singleton] at hrequest
      exact ⟨hother, hrequest⟩
    · rw [if_neg hother] at hrequest
      cases hrequest
  have hthis : engineIn (trace ++ [.requested id arguments, .called id s.nextCall operation,
      .engine (.submitted ⟨s.nextCall, operation⟩)]) =
        engineIn trace ++ [.submitted ⟨s.nextCall, operation⟩] := by
    rw [engineIn_append]
    rfl
  constructor
  · intro other call hcall
    rw [hawaited] at hcall
    rw [hengine, Engine.System.setCall_calls]
    by_cases hother : other = id
    · subst hother
      rw [Function.update_self] at hcall
      cases hcall
      rw [Function.update_self]
      exact admission_pending
    · rw [Function.update_of_ne hother] at hcall
      have hpending := h.pending other call hcall
      rw [Function.update_of_ne (by rintro rfl; exact hfresh hpending)]
      exact hpending
  · intro call hpending
    rw [hengine, Engine.System.setCall_calls] at hpending
    by_cases hcall : call = s.nextCall
    · exact ⟨id, by rw [hawaited, Function.update_self, hcall]⟩
    · rw [Function.update_of_ne hcall] at hpending
      obtain ⟨other, hother⟩ := h.attended call hpending
      refine ⟨other, ?_⟩
      rw [hawaited, Function.update_of_ne]
      · exact hother
      · rintro rfl
        rw [hidle] at hother
        cases hother
  · intro one other call hone hother
    rw [hawaited] at hone hother
    by_cases hid : one = id <;> by_cases hid' : other = id
    · rw [hid, hid']
    · subst hid
      rw [Function.update_self] at hone
      rw [Function.update_of_ne hid'] at hother
      cases hone
      exact absurd (h.pending other _ hother) hfresh
    · subst hid'
      rw [Function.update_self] at hother
      rw [Function.update_of_ne hid] at hone
      cases hother
      exact absurd (h.pending one _ hone) hfresh
    · rw [Function.update_of_ne hid] at hone
      rw [Function.update_of_ne hid'] at hother
      exact h.alone one other call hone hother
  · intro other request hrequest
    rw [hcalled] at hrequest
    rw [hthis, Engine.returnedIn_append, hawaited]
    rcases List.mem_append.mp hrequest with hold | hnew
    · rcases h.settled other request hold with hwaits | hreturned
      · left
        rw [Function.update_of_ne]
        · exact hwaits
        · rintro rfl
          rw [hidle] at hwaits
          cases hwaits
      · exact .inr (List.mem_append_left _ hreturned)
    · obtain ⟨rfl, rfl⟩ := hmem other request hnew
      exact .inl (Function.update_self ..)
  · intro request
    rw [hthis, List.mem_append, h.submitted]
    simp only [hcalled, List.mem_append, List.mem_singleton, Engine.Event.submitted.injEq]
    constructor
    · rintro (⟨other, hother⟩ | rfl)
      · exact ⟨other, .inl hother⟩
      · exact ⟨id, .inr (by simp)⟩
    · rintro ⟨other, hother | hnew⟩
      · exact .inl ⟨other, hother⟩
      · exact .inr (hmem other request hnew).2
  · intro other request hrequest
    rw [hcalled] at hrequest
    rw [hnext]
    rcases List.mem_append.mp hrequest with hold | hnew
    · exact Nat.lt_succ_of_lt (h.numbered other request hold)
    · rw [(hmem other request hnew).2]
      exact Nat.lt_succ_self _
  · intro one other request hrequest request' hrequest' hcall
    rw [hcalled] at hrequest hrequest'
    rcases List.mem_append.mp hrequest with hold | hnew <;>
      rcases List.mem_append.mp hrequest' with hold' | hnew'
    · exact h.unique one other request hold request' hold' hcall
    · have hlt := h.numbered one request hold
      rw [hcall, (hmem other request' hnew').2] at hlt
      exact absurd hlt (Nat.lt_irrefl _)
    · have hlt := h.numbered other request' hold'
      rw [← hcall, (hmem one request hnew).2] at hlt
      exact absurd hlt (Nat.lt_irrefl _)
    · obtain ⟨rfl, rfl⟩ := hmem one request hnew
      obtain ⟨rfl, rfl⟩ := hmem other request' hnew'
      exact ⟨rfl, rfl⟩
  · intro other
    rw [hcalled, hthis]
    refine List.pairwise_append.mpr ⟨(h.ordered other).imp fun hprecedes =>
      Precedes.append hprecedes _, ?_, fun earlier hearlier later hlater => ?_⟩
    · split
      · exact List.pairwise_singleton ..
      · exact .nil
    · obtain ⟨rfl, rfl⟩ := hmem other later hlater
      rcases h.settled other earlier hearlier with hwaits | hreturned
      · rw [hidle] at hwaits
        cases hwaits
      · obtain ⟨reply, hreply⟩ := Engine.mem_returnedIn.mp hreturned
        exact ⟨engineIn trace, [], reply, rfl, hreply⟩

theorem returns (h : Attended trace s) {call : Nat} {reply : Reply}
    (hwaits : s.awaited id = some call)
    (hawaited : s'.awaited = Function.update s.awaited id none)
    (hreturn : Engine.CallStep setup s.engine [.returned call reply] s'.engine)
    (hnext : s'.nextCall = s.nextCall) :
    Attended (trace ++ [.engine (.returned call reply), .answered id reply]) s' := by
  obtain ⟨hengine, -⟩ := CallStep.returned_cases hreturn
  have hcalled : ∀ other, calledIn other (trace ++ [.engine (.returned call reply),
      .answered id reply]) = calledIn other trace := by
    intro other
    rw [calledIn_append]
    exact List.append_nil _
  have hthis : engineIn (trace ++ [.engine (.returned call reply), .answered id reply]) =
      engineIn trace ++ [.returned call reply] := by
    rw [engineIn_append]
    rfl
  have hother : ∀ other call', s'.awaited other = some call' →
      other ≠ id ∧ s.awaited other = some call' := by
    intro other call' hcall'
    rw [hawaited] at hcall'
    by_cases hid : other = id
    · subst hid
      rw [Function.update_self] at hcall'
      cases hcall'
    · rw [Function.update_of_ne hid] at hcall'
      exact ⟨hid, hcall'⟩
  constructor
  · intro other call' hcall'
    obtain ⟨hid, hcall'⟩ := hother other call' hcall'
    rw [hengine, not_pending_setCall]
    refine ⟨?_, h.pending other call' hcall'⟩
    rintro rfl
    exact hid (h.alone other id _ hcall' hwaits)
  · intro call' hpending
    rw [hengine, not_pending_setCall] at hpending
    obtain ⟨other, hcall'⟩ := h.attended call' hpending.2
    refine ⟨other, ?_⟩
    rw [hawaited, Function.update_of_ne]
    · exact hcall'
    · rintro rfl
      rw [hwaits] at hcall'
      cases hcall'
      exact hpending.1 rfl
  · intro one other call' hone hother'
    exact h.alone one other call' (hother one call' hone).2 (hother other call' hother').2
  · intro other request hrequest
    rw [hcalled] at hrequest
    rw [hthis, Engine.returnedIn_append, hawaited]
    rcases h.settled other request hrequest with hcall' | hreturned
    · by_cases hid : other = id
      · subst hid
        rw [hwaits] at hcall'
        cases hcall'
        exact .inr (List.mem_append_right _ (by simp [Engine.returnedIn]))
      · left
        rw [Function.update_of_ne hid]
        exact hcall'
    · exact .inr (List.mem_append_left _ hreturned)
  · intro request
    simp only [hcalled, hthis, List.mem_append, List.mem_singleton, reduceCtorEq, or_false]
    exact h.submitted request
  · intro other request hrequest
    rw [hcalled] at hrequest
    rw [hnext]
    exact h.numbered other request hrequest
  · intro one other request hrequest request' hrequest'
    rw [hcalled] at hrequest hrequest'
    exact h.unique one other request hrequest request' hrequest'
  · intro other
    rw [hcalled, hthis]
    exact (h.ordered other).imp fun hprecedes => Precedes.append hprecedes _

theorem step (h : Attended trace s) (haccounted : Accounted config trace s) (hfounded : Founded s)
    (hstep : Step config setup s events s') : Attended (trace ++ events) s' := by
  cases hstep.turn haccounted with
  | keeps hawaited hsame hnext hevents => exact h.keeps hawaited hsame hnext hevents
  | calls htask hreading hauthenticated hparse hawaited hengine hnext hevents =>
      rw [hevents]
      refine h.calls hfounded ?_ hawaited hengine hnext
      rw [State.awaited_of_task htask, hreading]
      rfl
  | returns hwaits hawaited hreturn hnext hevents =>
      rw [hevents]
      exact h.returns hwaits hawaited hreturn hnext

end Attended

/-! ### What the parser lets through -/

theorem keyPositions_ne_nil {spec : CommandSpec} (hspec : spec ∈ specs)
    (hfirst : spec.firstKey.val ≠ 0) {count : Nat} (harity : checkArity spec count = .ok ()) :
    spec.keyPositions count ≠ [] := by
  have hshape : ∀ entry ∈ specs, entry.firstKey.val ≠ 0 → entry.firstKey.val = 1 ∧
      (entry.lastKey.val = 1 ∨ entry.lastKey.val = -1) ∧
      (entry.keyStep.val = 1 ∨ entry.keyStep.val = 2) ∧ 2 ≤ leastArguments entry.name := by
    decide
  obtain ⟨hone, hlast, hstep, hleast⟩ := hshape spec hspec hfirst
  have hcount := hleast.trans (leastArguments_le hspec harity)
  have hpositive : 0 < ((spec.lastPosition count - spec.firstKey.val) / spec.keyStep.val + 1) := by
    unfold CommandSpec.lastPosition
    rw [hone]
    rcases hlast with hlast | hlast <;> rcases hstep with hstep | hstep <;>
      rw [hlast, hstep] <;> split <;> omega
  intro hnil
  rw [CommandSpec.keyPositions, List.map_eq_nil_iff, List.range_eq_nil] at hnil
  omega

/-- An operation that was parsed has a key. -/
theorem keys_ne_nil {arguments : List Bytes} {limits : ParseLimits} {operation : Operation}
    (hparse : parse arguments limits = .ok (.data operation)) : operation.keys ≠ [] := by
  obtain ⟨name, rest, spec, rfl, hfind, harity, hnamed, -⟩ := parse_spec hparse
  have hspec := List.mem_of_find?_eq_some hfind
  have hfirst : spec.firstKey.val ≠ 0 := fun hzero => parseNamed_ne_data hspec hzero hnamed
  obtain ⟨described, heq, hdescribed⟩ := described_of_parseNamed hspec hfirst hnamed
  cases heq
  intro hnil
  have hkeys := hdescribed.keys
  rw [hnil, List.map_nil, eq_comm, List.map_eq_nil_iff] at hkeys
  exact keyPositions_ne_nil hspec hfirst harity hkeys

section

variable {route : Bytes → Fin config.workers} {shards : Shards config.workers}
  {trace : List (Event config.workers)} {s : State config.workers}

theorem Reaches.attended (hreaches : Reaches config route shards trace s) : Attended trace s := by
  induction hreaches with
  | start hnew => exact .start ..
  | step hbefore hstep ih => exact ih.step hbefore.accounted hbefore.founded hstep

/-- The engine is called with what the parser read. -/
theorem Reaches.parsed (hreaches : Reaches config route shards trace s) {request : Engine.Request}
    (hcalled : request ∈ calledIn id trace) :
    ∃ arguments, parse arguments config.commands = .ok (.data request.operation) := by
  induction hreaches with
  | start hnew => cases hcalled
  | step hbefore hstep ih =>
      rw [calledIn_append] at hcalled
      rcases List.mem_append.mp hcalled with hold | hnew
      · exact ih hold
      · cases hstep.turn hbefore.accounted with
        | keeps hawaited hsame hnext hevents =>
            rw [hevents.called] at hnew
            cases hnew
        | calls htask hreading hauthenticated hparse hawaited hengine hnext hevents =>
            rw [hevents] at hnew
            simp only [calledIn, List.filterMap_cons, List.filterMap_nil] at hnew
            split at hnew
            · cases hnew
            · next heq =>
                split at heq
                · cases heq
                  rw [List.mem_singleton.mp hnew]
                  exact ⟨_, hparse⟩
                · cases heq
        | returns hwaits hawaited hreturn hnext hevents =>
            rw [hevents] at hnew
            cases hnew

end

end Recall.Server
