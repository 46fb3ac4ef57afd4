import Recall.Engine
import Recall.Proof.Store

/-!
# Frames of the engine's steps

What the small updates of a system leave alone, and what an owner does with each control message.
-/

namespace Recall.Engine

variable {n : Nat} {setup : Setup n} {s s' : System n}

/-! ### Updates -/

namespace System

@[simp] theorem setOwner_owners (s : System n) (o : Fin n) (owner : Owner) :
    (s.setOwner o owner).owners = Function.update s.owners o owner := rfl

/-- What holds of the new owner and of all owners before holds of all owners now. -/
theorem forall_setOwner {o : Fin n} {owner : Owner} {P : Fin n → Owner → Prop} (hown : P o owner)
    (hothers : ∀ p, P p (s.owners p)) (p : Fin n) : P p ((s.setOwner o owner).owners p) := by
  by_cases hp : p = o
  · subst hp
    simpa using hown
  · simpa [hp] using hothers p

@[simp] theorem setOwner_coordinator (s : System n) (o : Fin n) (owner : Owner) :
    (s.setOwner o owner).coordinator = s.coordinator := rfl

@[simp] theorem setOwner_cross (s : System n) (o : Fin n) (owner : Owner) :
    (s.setOwner o owner).cross = s.cross := rfl

@[simp] theorem setOwner_crossClosed (s : System n) (o : Fin n) (owner : Owner) :
    (s.setOwner o owner).crossClosed = s.crossClosed := rfl

@[simp] theorem setOwner_lastId (s : System n) (o : Fin n) (owner : Owner) :
    (s.setOwner o owner).lastId = s.lastId := rfl

@[simp] theorem setOwner_calls (s : System n) (o : Fin n) (owner : Owner) :
    (s.setOwner o owner).calls = s.calls := rfl

@[simp] theorem setOwner_clock (s : System n) (o : Fin n) (owner : Owner) :
    (s.setOwner o owner).clock = s.clock := rfl

@[simp] theorem setOwner_stage (s : System n) (o : Fin n) (owner : Owner) :
    (s.setOwner o owner).stage = s.stage := rfl

@[simp] theorem setCredits_calls (s : System n) (credits : Nat) (place : Destination n) :
    (s.setCredits credits place).calls = s.calls := by
  cases place <;> rfl

@[simp] theorem returnCredits_calls (s : System n) (setup : Setup n) (operation : Operation) :
    (s.returnCredits setup operation).calls = s.calls := setCredits_calls ..

@[simp] theorem setCall_calls (s : System n) (call : Nat) (state : Call) :
    (s.setCall call state).calls = Function.update s.calls call state := rfl

@[simp] theorem answer_calls (s : System n) (setup : Setup n) (request : Request)
    (reply : Reply) :
    (s.answer setup request reply).calls =
      Function.update s.calls request.call ((s.calls request.call).respond reply) := by
  simp [answer]

@[simp] theorem push_calls (s : System n) (request : Request) (place : Destination n) :
    (s.push request place).calls = s.calls := by
  cases place <;> rfl

end System

/-- An owner without its queue of requests and its credits. -/
def Owner.core (owner : Owner) : Owner := { owner with data := [], credits := 0 }

/-- Only queues of requests, credits and calls differ. -/
structure Quiet (s s' : System n) : Prop where
  owners : ∀ o, (s'.owners o).core = (s.owners o).core
  coordinator : s'.coordinator = s.coordinator
  lastId : s'.lastId = s.lastId
  stop : .stop ∈ s'.cross ↔ .stop ∈ s.cross
  crossClosed : s'.crossClosed = s.crossClosed
  clock : s'.clock = s.clock
  stage : s'.stage = s.stage

namespace Quiet

theorem refl (s : System n) : Quiet s s := ⟨fun _ => rfl, rfl, rfl, Iff.rfl, rfl, rfl, rfl⟩

theorem trans {s t u : System n} (hst : Quiet s t) (htu : Quiet t u) : Quiet s u where
  owners o := (htu.owners o).trans (hst.owners o)
  coordinator := htu.coordinator.trans hst.coordinator
  lastId := htu.lastId.trans hst.lastId
  stop := htu.stop.trans hst.stop
  crossClosed := htu.crossClosed.trans hst.crossClosed
  clock := htu.clock.trans hst.clock
  stage := htu.stage.trans hst.stage

theorem setOwner {o : Fin n} {owner : Owner} (hcore : owner.core = (s.owners o).core) :
    Quiet s (s.setOwner o owner) where
  owners := System.forall_setOwner (P := fun p owner => owner.core = (s.owners p).core) hcore
    fun _ => rfl
  coordinator := rfl
  lastId := rfl
  stop := Iff.rfl
  crossClosed := rfl
  clock := rfl
  stage := rfl

theorem setCall (s : System n) (call : Nat) (state : Call) : Quiet s (s.setCall call state) :=
  ⟨fun _ => rfl, rfl, rfl, Iff.rfl, rfl, rfl, rfl⟩

theorem setCredits (s : System n) (credits : Nat) (place : Destination n) :
    Quiet s (s.setCredits credits place) := by
  cases place with
  | nowhere => exact refl s
  | owner o => exact setOwner rfl
  | cross => exact ⟨fun _ => rfl, rfl, rfl, Iff.rfl, rfl, rfl, rfl⟩

theorem push (s : System n) (request : Request) (place : Destination n) :
    Quiet s (s.push request place) := by
  cases place with
  | nowhere => exact refl s
  | owner o => exact setOwner rfl
  | cross => exact ⟨fun _ => rfl, rfl, rfl, by simp [System.push], rfl, rfl, rfl⟩

theorem answer (s : System n) (setup : Setup n) (request : Request) (reply : Reply) :
    Quiet s (s.answer setup request reply) :=
  (setCredits s _ _).trans (setCall _ _ _)

theorem shard (hquiet : Quiet s s') (o : Fin n) : (s'.owners o).shard = (s.owners o).shard := by
  simpa [Owner.core] using congrArg Owner.shard (hquiet.owners o)

theorem controls (hquiet : Quiet s s') (o : Fin n) :
    (s'.owners o).controls = (s.owners o).controls := by
  simpa [Owner.core] using congrArg Owner.controls (hquiet.owners o)

theorem reservation (hquiet : Quiet s s') (o : Fin n) :
    (s'.owners o).reservation = (s.owners o).reservation := by
  simpa [Owner.core] using congrArg Owner.reservation (hquiet.owners o)

theorem stopping (hquiet : Quiet s s') (o : Fin n) :
    (s'.owners o).stopping = (s.owners o).stopping := by
  simpa [Owner.core] using congrArg Owner.stopping (hquiet.owners o)

theorem dataClosed (hquiet : Quiet s s') (o : Fin n) :
    (s'.owners o).dataClosed = (s.owners o).dataClosed := by
  simpa [Owner.core] using congrArg Owner.dataClosed (hquiet.owners o)

theorem position (hquiet : Quiet s s') (o : Fin n) :
    (s'.owners o).position = (s.owners o).position := by
  simpa [Owner.core] using congrArg Owner.position (hquiet.owners o)

end Quiet

theorem CallStep.quiet {events : List (Event n)} (hstep : CallStep setup s events s') :
    Quiet s s' := by
  cases hstep with
  | submit | timeOutAcquiring | refuse | deliver | dropAcquiring | dropWaiting | dropReplied =>
      exact .setCall ..
  | acquire | reject | timeOutSending | dropSending =>
      exact (Quiet.setCredits ..).trans (.setCall ..)
  | send => exact (Quiet.push ..).trans (.setCall ..)

/-! ### Control messages -/

namespace Owner

variable {owner owner' : Owner} {seed : HashSeed} {completion : Option Completion}

theorem handle_reserve {id : Nat}
    (hhandle : owner.handle seed (.reserve id) = .ok (owner', completion)) :
    owner.reservation = none ∧ owner' = { owner with reservation := some ⟨id, none⟩ } ∧
      completion = some .done := by
  unfold handle at hhandle
  cases hreserved : owner.reservation with
  | some active => simp [hreserved] at hhandle
  | none =>
      simp only [hreserved, Except.ok.injEq, Prod.mk.injEq] at hhandle
      exact ⟨rfl, hhandle.1.symm, hhandle.2.symm⟩

theorem handle_prepare {id : Nat} {operation : Operation} {nowMs : I64}
    (hhandle : owner.handle seed (.prepare id operation nowMs) = .ok (owner', completion)) :
    owner.reservation = some ⟨id, none⟩ ∧
      ((∃ failure, owner.shard.prepare seed operation nowMs = .ok (.error failure) ∧
          owner' = owner ∧ completion = some (.prepared (.error failure))) ∨
        ∃ prepared, owner.shard.prepare seed operation nowMs = .ok (.ok prepared) ∧
          owner' = { owner with reservation := some ⟨id, some prepared⟩ } ∧
          completion = some (.prepared (.ok prepared.response))) := by
  unfold handle at hhandle
  cases hreserved : owner.reservation with
  | none => simp [hreserved] at hhandle
  | some active =>
      obtain ⟨id', prepared⟩ := active
      cases prepared with
      | some prepared => simp [hreserved] at hhandle; split at hhandle <;> cases hhandle
      | none =>
          by_cases hid : id' = id
          · subst hid
            cases hprepare : owner.shard.prepare seed operation nowMs with
            | error panic => simp [hreserved, hprepare, abortOnPanic, bind, Except.bind] at hhandle
            | ok result =>
                cases result with
                | error failure =>
                    simp [hreserved, hprepare, abortOnPanic, bind, Except.bind, pure,
                      Except.pure] at hhandle
                    exact ⟨rfl, .inl ⟨failure, rfl, hhandle.1.symm, hhandle.2.symm⟩⟩
                | ok prepared =>
                    simp [hreserved, hprepare, abortOnPanic, bind, Except.bind, pure,
                      Except.pure] at hhandle
                    exact ⟨rfl, .inr ⟨prepared, rfl, hhandle.1.symm, hhandle.2.symm⟩⟩
          · simp [hreserved, hid] at hhandle

theorem handle_apply {id : Nat}
    (hhandle : owner.handle seed (.apply id) = .ok (owner', completion)) :
    ∃ prepared shard reply, owner.reservation = some ⟨id, some prepared⟩ ∧
      owner.shard.apply prepared = .ok (shard, reply) ∧
      owner' = { owner with shard, reservation := some ⟨id, none⟩ } ∧
      completion = some .done := by
  unfold handle at hhandle
  cases hreserved : owner.reservation with
  | none => simp [hreserved] at hhandle
  | some active =>
      obtain ⟨id', prepared⟩ := active
      by_cases hid : id' = id
      · subst hid
        cases prepared with
        | none => simp [hreserved] at hhandle
        | some prepared =>
            cases happly : owner.shard.apply prepared with
            | error panic => simp [hreserved, happly, abortOnPanic, bind, Except.bind] at hhandle
            | ok result =>
                obtain ⟨shard, reply⟩ := result
                simp [hreserved, happly, abortOnPanic, bind, Except.bind, pure,
                  Except.pure] at hhandle
                exact ⟨prepared, shard, reply, rfl, happly, hhandle.1.symm, hhandle.2.symm⟩
      · simp [hreserved, hid] at hhandle

theorem handle_release {id : Nat}
    (hhandle : owner.handle seed (.release id) = .ok (owner', completion)) :
    (∃ prepared, owner.reservation = some ⟨id, prepared⟩) ∧
      owner' = { owner with reservation := none, dataTurn := true } ∧
      completion = some .done := by
  unfold handle at hhandle
  cases hreserved : owner.reservation with
  | none => simp [hreserved] at hhandle
  | some active =>
      obtain ⟨id', prepared⟩ := active
      by_cases hid : id' = id
      · subst hid
        simp only [hreserved, ne_eq, not_true_eq_false, ↓reduceIte, Except.ok.injEq,
          Prod.mk.injEq] at hhandle
        exact ⟨⟨prepared, rfl⟩, hhandle.1.symm, hhandle.2.symm⟩
      · simp [hreserved, hid] at hhandle

theorem handle_stats (hhandle : owner.handle seed .stats = .ok (owner', completion)) :
    owner' = { owner with dataTurn := true } ∧ completion = none := by
  simp only [handle, Except.ok.injEq, Prod.mk.injEq] at hhandle
  exact ⟨hhandle.1.symm, hhandle.2.symm⟩

theorem handle_stop (hhandle : owner.handle seed .stop = .ok (owner', completion)) :
    owner.reservation = none ∧ owner' = { owner with dataClosed := true, stopping := true } ∧
      completion = none := by
  unfold handle at hhandle
  cases hreserved : owner.reservation with
  | some active => simp [hreserved] at hhandle
  | none =>
      simp only [hreserved, Except.ok.injEq, Prod.mk.injEq] at hhandle
      exact ⟨rfl, hhandle.1.symm, hhandle.2.symm⟩

/-- No message touches the queues or the place in the loop. -/
theorem handle_frame {message : Control}
    (hhandle : owner.handle seed message = .ok (owner', completion)) :
    owner'.data = owner.data ∧ owner'.credits = owner.credits ∧
      owner'.controls = owner.controls ∧ owner'.position = owner.position ∧
      (message ≠ .stop → owner'.stopping = owner.stopping ∧
        owner'.dataClosed = owner.dataClosed) := by
  cases message with
  | reserve id =>
      obtain ⟨-, rfl, -⟩ := handle_reserve hhandle
      simp
  | prepare id operation nowMs =>
      obtain ⟨-, ⟨failure, -, rfl, -⟩ | ⟨prepared, -, rfl, -⟩⟩ := handle_prepare hhandle <;> simp
  | apply id =>
      obtain ⟨prepared, shard, reply, -, -, rfl, -⟩ := handle_apply hhandle
      simp
  | release id =>
      obtain ⟨-, rfl, -⟩ := handle_release hhandle
      simp
  | stats =>
      obtain ⟨rfl, -⟩ := handle_stats hhandle
      simp
  | stop =>
      obtain ⟨-, rfl, -⟩ := handle_stop hhandle
      simp

end Owner

end Recall.Engine
