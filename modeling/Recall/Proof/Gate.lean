import Recall.Proof.Conversation

/-!
# The password guards the engine

With a password configured, a connection reaches the engine only after a request of its own that
presented it. Until then its session is as it was, its replies are read off its requests, and as
long as no connection has presented the password the owners store nothing.
-/

namespace Recall.Server

open Engine (System Setup)

variable {n : Nat} {config : Config} {setup : Setup n} {s s' : State n} {id : Nat} {task : Task n}
  {trace events : List (Event n)} {password : Bytes}

/-- One of the requests of the connection presented the password. -/
def Presented (config : Config) (password : Bytes) (id : Nat) (trace : List (Event n)) : Prop :=
  ∃ arguments ∈ requestsIn id trace, Presents config.commands password arguments

/-- What may happen after `before`. -/
def Allowed (config : Config) (password : Bytes) (before : List (Event n)) : Event n → Prop
  | .called id _ _ | .sampled id _ => Presented config password id before
  | .engine (.submitted request) =>
      ∃ id, request ∈ calledIn id before ∧ Presented config password id before
  | _ => True

def Guarded (config : Config) (password : Bytes) (trace : List (Event n)) : Prop :=
  ∀ before event after, trace = before ++ event :: after → Allowed config password before event

/-- The event has nothing to do with the engine's callers. -/
def Event.Free : Event n → Prop
  | .called .. | .sampled .. | .engine (.submitted _) => False
  | _ => True

theorem Event.Free.allowed {event : Event n} (hfree : event.Free) (before : List (Event n)) :
    Allowed config password before event := by
  cases event with
  | engine event => cases event <;> first | exact hfree.elim | trivial
  | called | sampled => exact hfree.elim
  | _ => trivial

theorem Event.free_engine {event : Engine.Event n}
    (hsubmitted : ∀ request, event ≠ .submitted request) : (Event.engine event).Free := by
  cases event with
  | submitted request => exact absurd rfl (hsubmitted request)
  | _ => trivial

theorem Uncalled.free_map {events : List (Engine.Event n)}
    (h : Uncalled (events.map Event.engine)) : ∀ event ∈ events.map Event.engine, event.Free := by
  intro event hevent
  obtain ⟨event, hmem, rfl⟩ := List.mem_map.mp hevent
  refine Event.free_engine fun request hrequest => h.submitted request ?_
  rw [engineIn_map, ← hrequest]
  exact hmem

theorem Presented.append (more : List (Event n)) (h : Presented config password id trace) :
    Presented config password id (trace ++ more) := by
  obtain ⟨arguments, hmem, hpresents⟩ := h
  exact ⟨arguments, by rw [requestsIn_append]; exact List.mem_append_left _ hmem, hpresents⟩

theorem Presented.prepend (earlier : List (Event n)) (h : Presented config password id events) :
    Presented config password id (earlier ++ events) := by
  obtain ⟨arguments, hmem, hpresents⟩ := h
  exact ⟨arguments, by rw [requestsIn_append]; exact List.mem_append_right _ hmem, hpresents⟩

@[simp] theorem answeredIn_append (id : Nat) (a b : List (Event n)) :
    answeredIn id (a ++ b) = answeredIn id a ++ answeredIn id b := List.filterMap_append

theorem Guarded.append (h : Guarded config password trace)
    (hevents : ∀ before event after, events = before ++ event :: after →
      Allowed config password (trace ++ before) event) :
    Guarded config password (trace ++ events) := by
  intro before event after hsplit
  rcases List.append_eq_append_iff.mp hsplit with ⟨rest, rfl, hrest⟩ | ⟨rest, htrace, hrest⟩
  · exact hevents rest event after hrest
  · cases rest with
    | nil =>
        rw [List.append_nil] at htrace
        subst htrace
        simpa using hevents [] event after hrest.symm
    | cons first rest =>
        obtain ⟨rfl, -⟩ := List.cons.inj hrest
        exact h before event rest htrace

/-! ### A connection that has not presented it -/

/-- The task does nothing that needs the engine. -/
def Activity.Outside : Activity n → Prop
  | .calling _ | .sampling .. => False
  | _ => True

structure Barred (config : Config) (id : Nat) (task : Task n) : Prop where
  session : task.session = .new id config
  activity : task.activity.Outside

theorem Barred.unauthenticated (hpassword : config.password = some password)
    (h : Barred config id task) : task.session.authenticated = false := by
  rw [h.session, Session.new, hpassword]
  rfl

theorem dispatch_refused {session next : Session} {command : Command} {reply : Reply} {close : Bool}
    (hpassword : config.password = some password) (hsession : session.authenticated = false)
    (hpresents : ¬ command.Presents password)
    (hdispatch : session.dispatch config command = .answer next reply close) :
    next = session ∧ reply = Session.refusal command := by
  have hexecute := Session.execute_refused hpassword hsession hpresents noEngine ⟨0, 0, 0, 0, 0, 0⟩ ()
  cases command with
  | data | info =>
      rw [Session.dispatch, hsession] at hdispatch
      cases hdispatch
      exact ⟨rfl, rfl⟩
  | _ =>
      simp only [Session.dispatch, hexecute] at hdispatch
      cases hdispatch
      exact ⟨rfl, rfl⟩

/-- What a step of a task does at the gate. -/
structure Proceeds (config : Config) (password : Bytes) (id : Nat) (task next : Task n)
    (events : List (Event n)) : Prop where
  barred : Barred config id task → ¬ Presented config password id events → Barred config id next ∧
    answeredIn id events = (requestsIn id events).map (Session.refusalOf config.commands)
  allowed : (∀ event ∈ events, event.Free) ∨ ¬ Barred config id task ∧
    ∀ earlier, Presented config password id earlier → ∀ before event after,
      events = before ++ event :: after → Allowed config password (earlier ++ before) event

theorem Proceeds.quiet {next : Task n} (hsession : next.session = task.session)
    (hactivity : next.activity.Outside) (hanswered : answeredIn id events = [])
    (hrequests : requestsIn id events = []) (hfree : ∀ event ∈ events, event.Free) :
    Proceeds config password id task next events where
  barred h _ := ⟨⟨hsession.trans h.session, hactivity⟩, by rw [hanswered, hrequests]; rfl⟩
  allowed := .inl hfree

/-- A task that is already inside. -/
theorem Proceeds.inside {next : Task n} (hactivity : ¬ task.activity.Outside)
    (hfree : ∀ event ∈ events, event.Free) : Proceeds config password id task next events where
  barred h := absurd h.activity hactivity
  allowed := .inl hfree

theorem ServeStep.proceeds {arguments : List Bytes} (hpassword : config.password = some password)
    (houtside : task.activity.Outside) (hstep : ServeStep config setup s id task arguments events s') :
    ∃ next, s'.tasks = Function.update s.tasks id (some next) ∧
      Proceeds config password id task next events := by
  have hunauthenticated := fun h : Barred config id task => h.unauthenticated hpassword
  cases hstep with
  | refuse hparse =>
      refine ⟨_, rfl, fun h _ => ⟨⟨h.session, trivial⟩, ?_⟩, .inl ?_⟩
      · simp [answeredIn, requestsIn, Session.refusalOf, hparse]
      · simp [Event.Free]
  | @answer command session reply close hparse hdispatch =>
      refine ⟨_, rfl, fun h hpresented => ?_, .inl (by simp [Event.Free])⟩
      have hpresents : ¬ command.Presents password := by
        intro hcommand
        refine hpresented ⟨arguments, by simp [requestsIn], ?_⟩
        rw [Presents, hparse]
        exact hcommand
      obtain ⟨rfl, rfl⟩ := dispatch_refused hpassword (hunauthenticated h) hpresents hdispatch
      refine ⟨⟨h.session, trivial⟩, ?_⟩
      simp [answeredIn, requestsIn, Session.refusalOf, hparse]
  | execute hparse hdispatch =>
      have hinside : ¬ Barred config id task := by
        intro h
        have := hunauthenticated h
        rw [(dispatch_execute hdispatch).2] at this
        cases this
      refine ⟨_, rfl, fun h => absurd h hinside, .inr ⟨hinside, fun earlier hearlier => ?_⟩⟩
      intro before event after hsplit
      rcases before with _ | ⟨first, _ | ⟨second, _ | ⟨third, before⟩⟩⟩
      · cases hsplit
        trivial
      · cases hsplit
        exact hearlier.append _
      · cases hsplit
        exact ⟨id, by simp [calledIn], hearlier.append _⟩
      · simp at hsplit
  | info hparse hdispatch hmemory | infoHead hparse hdispatch hmemory =>
      have hinside : ¬ Barred config id task := by
        intro h
        have := hunauthenticated h
        rw [(dispatch_info hdispatch).2] at this
        cases this
      exact ⟨_, rfl, fun h => absurd h hinside, .inl (by simp [Event.Free])⟩

theorem TaskStep.proceeds (hpassword : config.password = some password)
    (hstep : TaskStep config setup s id task events s') :
    ∃ next, s'.tasks = Function.update s.tasks id (some next) ∧
      Proceeds config password id task next events := by
  cases hstep with
  | stop | begin | finish | leave =>
      exact ⟨_, rfl, .quiet rfl trivial rfl rfl (by simp)⟩
  | wait hreading =>
      exact ⟨_, rfl, .quiet rfl (by rw [hreading]; trivial) rfl rfl (by simp)⟩
  | fail | writeFails =>
      obtain ⟨count, hcount⟩ := s.countTimeout_cases _
      rw [hcount]
      exact ⟨_, rfl, .quiet rfl trivial rfl rfl (by simp)⟩
  | malformed | release =>
      exact ⟨_, rfl, .quiet rfl trivial rfl rfl (by simp [Event.Free])⟩
  | serve hreading hstop hnext hserve =>
      obtain ⟨next, htasks, h⟩ := hserve.proceeds hpassword (by rw [hreading]; trivial)
      refine ⟨next, htasks, fun hbarred => h.barred ⟨hbarred.session, hbarred.activity⟩, ?_⟩
      exact h.allowed.imp_right fun hallowed =>
        ⟨fun hbarred => hallowed.1 ⟨hbarred.session, hbarred.activity⟩, hallowed.2⟩
  | returned hcalling =>
      exact ⟨_, rfl, .inside (by rw [hcalling]; exact not_false) (by simp [Event.Free])⟩
  | ask hsampling | askFails hsampling | sampleLost hsampling =>
      exact ⟨_, rfl, .inside (by rw [hsampling]; exact not_false) (by simp)⟩
  | sample hsampling hselect hcontrols howner =>
      exact ⟨_, rfl, .inside (by rw [hsampling]; exact not_false) (OwnerStep.uncalled howner).free_map⟩
  | informed hsampling =>
      have hinside : ¬ Barred config id task := by
        intro h
        have := h.activity
        rw [hsampling] at this
        exact this
      refine ⟨_, rfl, fun h => absurd h hinside, .inr ⟨hinside, fun earlier hearlier => ?_⟩⟩
      intro before event after hsplit
      rcases before with _ | ⟨first, _ | ⟨second, before⟩⟩
      · cases hsplit
        exact hearlier.append _
      · cases hsplit
        trivial
      · simp at hsplit
  | @write reply close hwriting =>
      refine ⟨_, rfl, .quiet rfl ?_ rfl rfl (by simp [Event.Free])⟩
      cases close <;> trivial

/-! ### Runs -/

structure Gated (config : Config) (password : Bytes) (trace : List (Event n)) (s : State n) :
    Prop where
  guarded : Guarded config password trace
  barred : ∀ id task, s.tasks id = some task → ¬ Presented config password id trace →
    Barred config id task
  refused : ∀ id, ¬ Presented config password id trace →
    answeredIn id trace = (requestsIn id trace).map (Session.refusalOf config.commands)

/-- The events are about other connections. -/
structure Apart (id : Nat) (events : List (Event n)) : Prop where
  requests : requestsIn id events = []
  answered : answeredIn id events = []

theorem TaskStep.apart {other : Nat} (hother : id ≠ other)
    (hstep : TaskStep config setup s id task events s') : Apart other events := by
  cases hstep with
  | serve hreading hstop hnext hserve =>
      cases hserve <;> exact ⟨by simp [requestsIn, hother], by simp [answeredIn, hother]⟩
  | sample => exact ⟨filterMap_engine _ fun _ => rfl, filterMap_engine _ fun _ => rfl⟩
  | returned | informed => exact ⟨rfl, by simp [answeredIn, hother]⟩
  | _ => exact ⟨rfl, rfl⟩

namespace Gated

theorem start (shards : Shards config.workers) (clock : I64) :
    Gated config password [] (.start config shards clock) where
  guarded before event after hsplit := by simp at hsplit
  barred id task htask := by cases htask
  refused id _ := rfl

theorem refused_apart (h : Gated config password trace s) (hevents : Apart id events)
    (hpresented : ¬ Presented config password id (trace ++ events)) :
    answeredIn id (trace ++ events) =
      (requestsIn id (trace ++ events)).map (Session.refusalOf config.commands) := by
  rw [answeredIn_append, requestsIn_append, hevents.requests, hevents.answered, List.append_nil,
    List.append_nil]
  exact h.refused id fun hbefore => hpresented (hbefore.append events)

theorem keep (h : Gated config password trace s)
    (htasks : ∀ id task, s'.tasks id = some task → s.tasks id = some task ∨ Barred config id task)
    (hevents : ∀ id, Apart id events) (hfree : ∀ event ∈ events, event.Free) :
    Gated config password (trace ++ events) s' where
  guarded := by
    refine h.guarded.append fun before event after hsplit => (hfree event ?_).allowed _
    rw [hsplit]
    exact List.mem_append_right _ List.mem_cons_self
  barred id task htask hpresented := by
    rcases htasks id task htask with hbefore | hbarred
    · exact h.barred id task hbefore fun hearlier => hpresented (hearlier.append events)
    · exact hbarred
  refused id hpresented := h.refused_apart (hevents id) hpresented

theorem taskStep (hpassword : config.password = some password) (h : Gated config password trace s)
    (htask : s.tasks id = some task) (hstep : TaskStep config setup s id task events s') :
    Gated config password (trace ++ events) s' := by
  obtain ⟨next, htasks, hproceeds⟩ := hstep.proceeds hpassword
  -- What the connection has not presented so far it has not presented before either.
  have hearlier : ¬ Presented config password id (trace ++ events) → Barred config id task ∧
      ¬ Presented config password id events := fun hpresented =>
    ⟨h.barred id task htask fun hbefore => hpresented (hbefore.append events),
      fun hnow => hpresented (hnow.prepend trace)⟩
  refine ⟨?_, fun other task' htask' hpresented => ?_, fun other hpresented => ?_⟩
  · refine h.guarded.append fun before event after hsplit => ?_
    rcases hproceeds.allowed with hfree | ⟨hinside, hallowed⟩
    · refine (hfree event ?_).allowed _
      rw [hsplit]
      exact List.mem_append_right _ List.mem_cons_self
    · refine hallowed trace ?_ before event after hsplit
      by_contra hbefore
      exact hinside (h.barred id task htask hbefore)
  · rw [htasks] at htask'
    by_cases hother : other = id
    · subst hother
      rw [Function.update_self] at htask'
      cases htask'
      obtain ⟨hbarred, hnow⟩ := hearlier hpresented
      exact (hproceeds.barred hbarred hnow).1
    · rw [Function.update_of_ne hother] at htask'
      exact h.barred other task' htask' fun hbefore => hpresented (hbefore.append events)
  · by_cases hother : other = id
    · subst hother
      obtain ⟨hbarred, hnow⟩ := hearlier hpresented
      rw [answeredIn_append, requestsIn_append, List.map_append, (hproceeds.barred hbarred hnow).2,
        h.refused other fun hbefore => hpresented (hbefore.append events)]
    · exact h.refused_apart (hstep.apart (Ne.symm hother)) hpresented

theorem step (hpassword : config.password = some password) (h : Gated config password trace s)
    (hstep : Step config setup s events s') : Gated config password (trace ++ events) s' := by
  cases hstep with
  | loop hstep =>
      cases hstep with
      | @spawn stream id decoder activity hloop hdecoder hactivity =>
          refine h.keep (fun other task htask => ?_) (fun _ => ⟨rfl, rfl⟩) (by simp [Event.Free])
          rw [State.setTask_tasks] at htask
          by_cases hother : other = id
          · subst hother
            rw [Function.update_self] at htask
            cases htask
            refine .inr ⟨rfl, ?_⟩
            rcases hactivity with rfl | rfl <;> trivial
          · rw [Function.update_of_ne hother] at htask
            exact .inl htask
      | reject => exact h.keep (fun _ _ => .inl) (fun _ => ⟨rfl, rfl⟩) (by simp [Event.Free])
      | _ => exact h.keep (fun _ _ => .inl) (fun _ => ⟨rfl, rfl⟩) (by simp)
  | engine hstep =>
      exact h.keep (fun _ _ => .inl)
        (fun _ => ⟨filterMap_engine _ fun _ => rfl, filterMap_engine _ fun _ => rfl⟩)
        hstep.uncalled.free_map
  | task htask hstep => exact h.taskStep hpassword htask hstep

end Gated

section

variable {route : Bytes → Fin config.workers} {shards : Shards config.workers}
  {trace : List (Event config.workers)} {s : State config.workers}

theorem Reaches.gated (hpassword : config.password = some password)
    (hreaches : Reaches config route shards trace s) : Gated config password trace s := by
  induction hreaches with
  | start hnew => exact .start ..
  | step hbefore hstep ih => exact ih.step hpassword hstep

theorem empty_kept (setup : Setup n) :
    Engine.Kept setup (fun _ => False) fun _ shard => ∀ key, shard.entries.lookup key = none where
  tick hempty hwf hexpire key := by
    rcases (Shard.expireDue_wellFormed hwf hexpire).2.entries key with hsame | ⟨hgone, -⟩
    · rw [hsame]
      exact hempty key
    · exact hgone
  apply _ _ hallowed := hallowed.elim
  split hallowed := hallowed.elim

theorem password_guards (hpassword : config.password = some password)
    (hreaches : Reaches config route shards trace s) :
    (∀ before event after, trace = before ++ event :: after →
        Allowed config password before event) ∧
      (∀ id, ¬ Presented config password id trace →
        answeredIn id trace = (requestsIn id trace).map (Session.refusalOf config.commands)) ∧
      ((∀ id, ¬ Presented config password id trace) →
        ∀ o key, (s.engine.owners o).shard.entries.lookup key = none) := by
  have h := hreaches.gated hpassword
  refine ⟨h.guarded, h.refused, fun hnobody o => ?_⟩
  refine (hreaches.engine.kept (empty_kept _) (fun o shard hnew key => ?_) (fun request hmem => ?_)
    o).shard
  · rw [Shard.eq_of_new hnew]
    exact Finmap.lookup_empty key
  · -- A submitted request belongs to a connection that presented the password earlier.
    obtain ⟨before, after, hsplit⟩ := List.append_of_mem (mem_engineIn.mp hmem)
    obtain ⟨id, -, hpresented⟩ := h.guarded before _ after hsplit
    refine hnobody id ?_
    rw [hsplit]
    exact hpresented.append _

end

/-! A client that sends `SET a 1` and no password. -/

def guardedWorker : Config := { Engine.oneWorker with password := some (ascii "secret") }

theorem guarded_next : ∃ reader, Reader.nextRequest guardedWorker [.ready 63]
    ⟨sampleDecoder, [], sampleStream⟩ = (.request sampleArguments, reader) :=
  next_of_arguments (by decide +kernel)

theorem guarded_reaches : ∃ s, Reaches guardedWorker Engine.onlyWorker sampleShards
    [.opened 1 sampleStream, .requested 1 sampleArguments, .answered 1 noAuth] s := by
  obtain ⟨reader, hnext⟩ := guarded_next
  have hparse : parse sampleArguments guardedWorker.commands =
      .ok (.data Engine.setRequest.operation) := by decide +kernel
  have hstart : Reaches guardedWorker Engine.onlyWorker sampleShards []
      (.start guardedWorker sampleShards 0) :=
    .start fun o => by
      obtain ⟨o, ho⟩ := o
      obtain rfl : o = 0 := Nat.lt_one_iff.mp ho
      rfl
  have haccept := hstart.step (.loop (@LoopStep.accept _ _ _ sampleStream rfl (by decide)))
  have hnumber := haccept.step (.loop (.number rfl (Nat.zero_lt_succ _)))
  have hspawn := hnumber.step (.loop (@LoopStep.spawn _ _ _ sampleStream 1 sampleDecoder .top rfl
    (by decide) (.inl rfl)))
  have hbegin := hspawn.step (@Step.task _ _ _ _ 1
    ⟨⟨sampleDecoder, [], sampleStream⟩, .new 1 guardedWorker, .top⟩ _ _ rfl (.begin rfl rfl))
  exact ⟨_, hbegin.step (@Step.task _ _ _ _ 1
    ⟨⟨sampleDecoder, [], sampleStream⟩, .new 1 guardedWorker, .reading⟩ _ _ rfl
    (.serve rfl (by simp) hnext (.answer hparse rfl)))⟩

/-- It is told to authenticate, and nothing is stored. -/
theorem password_guards_sample : ∃ trace s,
    Reaches guardedWorker Engine.onlyWorker sampleShards trace s ∧
      requestsIn 1 trace = [sampleArguments] ∧ answeredIn 1 trace = [noAuth] ∧
      ∀ o key, (s.engine.owners o).shard.entries.lookup key = none := by
  obtain ⟨s, hreaches⟩ := guarded_reaches
  have hpassword : guardedWorker.password = some (ascii "secret") := rfl
  obtain ⟨-, -, hempty⟩ := password_guards hpassword hreaches
  refine ⟨_, s, hreaches, rfl, rfl, hempty fun id => ?_⟩
  rintro ⟨arguments, hmem, hpresents⟩
  obtain ⟨-, rfl⟩ : 1 = id ∧ sampleArguments = arguments := by simpa [requestsIn] using hmem
  revert hpresents
  decide +kernel

end Recall.Server
