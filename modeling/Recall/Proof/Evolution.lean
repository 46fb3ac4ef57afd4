import Recall.Proof.ExactlyOnce

/-!
# What a step does to a shard

The steps that change an owner's shard or give it a preparation, and the properties of shards that
hold in every reachable state because these steps keep them.
-/

namespace Recall.Engine

variable {n : Nat} {setup : Setup n} {shards base : Shards n} {trace events : List (Event n)}
  {s s' : System n} {o : Fin n}

/-- What one step can do to the shard and the preparation of an owner. -/
inductive Evolves (setup : Setup n) (s : System n) (o : Fin n) (owner : Owner) : Prop
  | still (hshard : owner.shard = (s.owners o).shard)
      (hprepared : ∀ id prepared, owner.reservation = some ⟨id, some prepared⟩ →
        (s.owners o).reservation = some ⟨id, some prepared⟩)
  | ticked {nowMs : I64} {removed : Nat} (hreservation : owner.reservation = (s.owners o).reservation)
      (hticking : (s.owners o).position = .ticking (some nowMs))
      (hexpire : (s.owners o).shard.expireDue nowMs setup.expiryBatch = .ok (owner.shard, removed))
  | served {request : Request} {nowMs : I64} {turn : Bool} {seed : HashSeed} {reply : Reply}
      (hreservation : owner.reservation = (s.owners o).reservation)
      (hserving : (s.owners o).position = .serving request (some nowMs) turn)
      (hexecute : executeLocal (s.owners o).shard seed request.operation nowMs =
        .ok (owner.shard, reply))
  | prepared {id : Nat} {operation : Operation} {nowMs : I64} {seed : HashSeed} {ready : Prepared}
      (hmessage : .prepare id operation nowMs ∈ (s.owners o).controls)
      (hshard : owner.shard = (s.owners o).shard)
      (hprepare : owner.shard.prepare seed operation nowMs = .ok (.ok ready))
      (hreservation : owner.reservation = some ⟨id, some ready⟩)
  | applied {id : Nat} {ready : Prepared} {reply : Reply}
      (hreserved : (s.owners o).reservation = some ⟨id, some ready⟩)
      (happly : (s.owners o).shard.apply ready = .ok (owner.shard, reply))
      (hreservation : owner.reservation = some ⟨id, none⟩)

namespace Evolves

theorem of_eq {owner : Owner} (hshard : owner.shard = (s.owners o).shard)
    (hreservation : owner.reservation = (s.owners o).reservation) : Evolves setup s o owner :=
  .still hshard fun _ _ h => hreservation ▸ h

theorem setOwner {p : Fin n} {owner : Owner} (howner : o = p → Evolves setup s o owner) :
    Evolves setup s o ((s.setOwner p owner).owners o) := by
  by_cases ho : o = p
  · subst ho
    simpa using howner rfl
  · have hsame : Evolves setup s o (s.owners o) := of_eq rfl rfl
    simpa [ho] using hsame

theorem congr {owner owner' : Owner} (h : Evolves setup s o owner)
    (hshard : owner'.shard = owner.shard) (hreservation : owner'.reservation = owner.reservation) :
    Evolves setup s o owner' := by
  cases h with
  | still hsame hprepared =>
      exact .still (hshard.trans hsame) fun id prepared h => hprepared id prepared (hreservation ▸ h)
  | ticked hkept hticking hexpire =>
      exact .ticked (hreservation.trans hkept) hticking (hshard ▸ hexpire)
  | served hkept hserving hexecute =>
      exact .served (hreservation.trans hkept) hserving (hshard ▸ hexecute)
  | prepared hmessage hsame hprepare hreserved =>
      exact .prepared hmessage (hshard.trans hsame) (hshard ▸ hprepare)
        (hreservation.trans hreserved)
  | applied hreserved happly hkept =>
      exact .applied hreserved (hshard ▸ happly) (hreservation.trans hkept)

theorem handle {message : Control} {rest : List Control} {seed : HashSeed} {owner : Owner}
    {completion : Option Completion} (hcontrols : (s.owners o).controls = message :: rest)
    (hhandle : { s.owners o with controls := rest, position := .top }.handle seed message =
      .ok (owner, completion)) : Evolves setup s o owner := by
  cases message with
  | reserve id =>
      obtain ⟨-, rfl, -⟩ := Owner.handle_reserve hhandle
      exact .still rfl fun _ _ h => by cases h
  | prepare id operation nowMs =>
      obtain ⟨-, ⟨failure, -, rfl, -⟩ | ⟨ready, hprepare, rfl, -⟩⟩ := Owner.handle_prepare hhandle
      · exact of_eq rfl rfl
      · exact .prepared (by rw [hcontrols]; exact List.mem_cons_self) rfl hprepare rfl
  | apply id =>
      obtain ⟨ready, shard, reply, hreserved, happly, rfl, -⟩ := Owner.handle_apply hhandle
      exact .applied hreserved happly rfl
  | release id =>
      obtain ⟨-, rfl, -⟩ := Owner.handle_release hhandle
      exact .still rfl fun _ _ h => by cases h
  | stats =>
      obtain ⟨rfl, -⟩ := Owner.handle_stats hhandle
      exact of_eq rfl rfl
  | stop =>
      obtain ⟨-, rfl, -⟩ := Owner.handle_stop hhandle
      exact of_eq rfl rfl

end Evolves

theorem Quiet.evolves {t : System n} (hquiet : Quiet t s') (h : Evolves setup s o (t.owners o)) :
    Evolves setup s o (s'.owners o) :=
  h.congr (hquiet.shard o) (hquiet.reservation o)

theorem Step.evolves (hstep : Step setup s events s') (o : Fin n) :
    Evolves setup s o (s'.owners o) := by
  cases hstep with
  | call hstep => exact hstep.quiet.evolves (.of_eq rfl rfl)
  | @owner p events s' hstep =>
      cases hstep with
      | control hselect hrunning hcontrols hhandle =>
          refine .setOwner fun ho => ?_
          subst ho
          exact .handle hcontrols hhandle
      | runTick hticking hexpire =>
          refine .setOwner fun ho => ?_
          subst ho
          exact .ticked rfl hticking hexpire
      | execute hserving hexecute =>
          refine (Quiet.answer ..).evolves (.setOwner fun ho => ?_)
          subst ho
          exact .served rfl hserving hexecute
      | _ =>
          refine .setOwner fun ho => ?_
          subst ho
          exact .of_eq rfl rfl
  | coordinator hstep =>
      cases hstep with
      | instruct =>
          refine .setOwner fun ho => ?_
          subst ho
          exact .of_eq rfl rfl
      | released => exact (Quiet.answer ..).evolves (.of_eq rfl rfl)
      | _ => exact .of_eq rfl rfl
  | shutdown hstep =>
      cases hstep with
      | stopOwner =>
          refine .setOwner fun ho => ?_
          subst ho
          exact .of_eq rfl rfl
      | _ => exact .of_eq rfl rfl
  | advance | abandon => exact .of_eq rfl rfl
  | stats =>
      refine .setOwner fun ho => ?_
      subst ho
      exact .of_eq rfl rfl

/-! ### Operations in the system were submitted -/

/-- The operation of a call that has sent nothing yet. -/
def Call.operation? : Call → Option Operation
  | acquiring operation | sending operation => some operation
  | _ => none

/-- The charge of the operation passed the admission check. -/
def Affordable (setup : Setup n) (operation : Operation) : Prop :=
  charge operation ≤ setup.queueBytes ∧ charge operation ≤ 4294967295

/-- Operations enter with a submission that passes the admission check, and what is accepted was
the operation of its call. -/
structure Passes (setup : Setup n) (events : List (Event n)) (s s' : System n) : Prop where
  calls : ∀ call operation, (s'.calls call).operation? = some operation →
    (s.calls call).operation? = some operation ∨
      .submitted ⟨call, operation⟩ ∈ events ∧ Affordable setup operation
  accepted : ∀ request ∈ acceptedIn events,
    (s.calls request.call).operation? = some request.operation

namespace Passes

variable {t : System n}

/-- A call goes on with the operation it has, or without one. -/
theorem setCall {call : Nat} {state : Call} (hcalls : t.calls = s.calls)
    (hstate : ∀ operation, state.operation? = some operation →
      (s.calls call).operation? = some operation)
    (haccepted : ∀ request ∈ acceptedIn events,
      (s.calls request.call).operation? = some request.operation) :
    Passes setup events s (t.setCall call state) where
  calls other operation hother := by
    rw [System.setCall_calls, hcalls] at hother
    by_cases hsame : other = call
    · subst hsame
      rw [Function.update_self] at hother
      exact .inl (hstate operation hother)
    · rw [Function.update_of_ne hsame] at hother
      exact .inl hother
  accepted := haccepted

theorem keep (hcalls : t.calls = s.calls) (haccepted : acceptedIn events = []) :
    Passes setup events s t where
  calls call operation hstate := .inl (hcalls ▸ hstate)
  accepted := by simp [haccepted]

theorem answer {request : Request} {reply : Reply} (hcalls : t.calls = s.calls)
    (haccepted : acceptedIn events = []) :
    Passes setup events s (t.answer setup request reply) := by
  refine setCall (by rw [System.returnCredits_calls, hcalls]) (fun operation hstate => ?_)
    (by simp [haccepted])
  rw [hcalls] at hstate
  cases hbefore : s.calls request.call <;> simp_all [Call.respond, Call.operation?]

end Passes

theorem admission_operation {closing : Bool} {operation operation' : Operation}
    (hadmission : (admission setup closing operation).operation? = some operation') :
    operation' = operation ∧ Affordable setup operation := by
  unfold admission at hadmission
  split at hadmission
  · cases hadmission
  · split at hadmission
    · cases hadmission
    · split at hadmission
      · cases hadmission
      · rename_i haffordable
        rw [not_or, Nat.not_lt, Nat.not_lt] at haffordable
        exact ⟨(Option.some.inj hadmission).symm, haffordable⟩

theorem CallStep.passes (hstep : CallStep setup s events s') : Passes setup events s s' := by
  cases hstep with
  | @submit request hunused hhandle =>
      refine ⟨fun call operation hstate => ?_, by simp [acceptedIn]⟩
      by_cases hcall : call = request.call
      · subst hcall
        rw [System.setCall_calls, Function.update_self] at hstate
        obtain ⟨rfl, haffordable⟩ := admission_operation hstate
        exact .inr ⟨List.mem_singleton_self _, haffordable⟩
      · rw [System.setCall_calls, Function.update_of_ne hcall] at hstate
        exact .inl hstate
  | @acquire call operation place hcall hplace hcredits =>
      refine .setCall (System.setCredits_calls ..) (fun operation' hstate => ?_)
        (by simp [acceptedIn])
      rw [hcall]
      exact hstate
  | @send call operation place hcall hplace hopen hroom =>
      refine .setCall (System.push_calls ..) (fun operation' hstate => by cases hstate) ?_
      intro request hrequest
      rw [List.mem_singleton.mp hrequest, hcall]
      rfl
  | reject | timeOutSending | dropSending =>
      exact .setCall (System.returnCredits_calls ..) (fun operation' hstate => by cases hstate)
        (by simp [acceptedIn])
  | timeOutAcquiring | refuse | deliver | dropAcquiring | dropWaiting | dropReplied =>
      exact .setCall rfl (fun operation' hstate => by cases hstate) (by simp [acceptedIn])

theorem Step.passes (hstep : Step setup s events s') : Passes setup events s s' := by
  cases hstep with
  | call hstep => exact hstep.passes
  | owner hstep =>
      cases hstep with
      | execute => exact .answer rfl rfl
      | _ => exact .keep rfl rfl
  | coordinator hstep =>
      cases hstep with
      | released => exact .answer rfl rfl
      | _ => exact .keep rfl rfl
  | shutdown hstep => cases hstep <;> exact .keep rfl rfl
  | advance | stats | abandon => exact .keep rfl rfl

structure Sourced (trace : List (Event n)) (s : System n) : Prop where
  calls : ∀ call operation, (s.calls call).operation? = some operation →
    .submitted ⟨call, operation⟩ ∈ trace
  accepted : ∀ request ∈ acceptedIn trace, .submitted request ∈ trace

theorem Step.sourced (h : Sourced trace s) (hstep : Step setup s events s') :
    Sourced (trace ++ events) s' where
  calls call operation hstate := by
    rcases hstep.passes.calls call operation hstate with hbefore | ⟨hnew, -⟩
    · exact List.mem_append_left _ (h.calls call operation hbefore)
    · exact List.mem_append_right _ hnew
  accepted request hrequest := by
    rw [acceptedIn_append] at hrequest
    rcases List.mem_append.mp hrequest with hbefore | hnew
    · exact List.mem_append_left _ (h.accepted request hbefore)
    · exact List.mem_append_left _ (h.calls _ _ (hstep.passes.accepted request hnew))

theorem Reaches.sourced (hreaches : Reaches setup shards trace s) : Sourced trace s := by
  induction hreaches with
  | start hnew => exact ⟨fun call operation hstate => (by cases hstate), by simp [acceptedIn]⟩
  | step _ hstep ih => exact hstep.sourced ih

theorem Reaches.submitted_of_held (hreaches : Reaches setup shards trace s) {place : Destination n}
    {request : Request} (hheld : request ∈ s.held place) : .submitted request ∈ trace := by
  obtain ⟨base, h, -⟩ := hreaches.invariant
  have hmem : request ∈ boundFor setup place (acceptedIn trace) := by
    rw [h.queues.fifo]
    exact List.mem_append_right _ hheld
  exact hreaches.sourced.accepted request (mem_boundFor.mp hmem).1

/-! ### What every shard keeps -/

/-- A property of shards that ticks and allowed operations keep. -/
structure Kept (setup : Setup n) (allowed : Operation → Prop) (P : Fin n → Shard → Prop) :
    Prop where
  tick : ∀ {o : Fin n} {shard after : Shard} {nowMs : I64} {removed : Nat}, P o shard →
    shard.WellFormed → shard.expireDue nowMs setup.expiryBatch = .ok (after, removed) → P o after
  apply : ∀ {o : Fin n} {shard after : Shard} {seed : HashSeed} {operation : Operation} {nowMs : I64}
    {ready : Prepared} {reply : Reply}, P o shard → shard.WellFormed → allowed operation →
    shard.prepare seed operation nowMs = .ok (.ok ready) → shard.apply ready = .ok (after, reply) →
    P o after
  split : ∀ {operation : Operation} {parts : List (Part n)}, allowed operation →
    Recall.split setup.route operation = .ok parts → ∀ part ∈ parts, allowed part.operation

/-- Every message to prepare carries a part of a submitted command. -/
theorem Reaches.prepare_message (hreaches : Reaches setup shards trace s) {id : Nat}
    {operation : Operation} {nowMs : I64}
    (hmessage : .prepare id operation nowMs ∈ (s.owners o).controls) :
    ∃ request parts part, .submitted request ∈ trace ∧
      split setup.route request.operation = .ok parts ∧ part ∈ parts ∧
      part.operation = operation := by
  obtain ⟨base, h, -⟩ := hreaches.invariant
  have hcoordinated : .prepare id operation nowMs ∈
      (s.owners o).controls.filter Control.coordinated :=
    List.mem_filter.mpr ⟨hmessage, rfl⟩
  rw [h.protocol.messages] at hcoordinated
  have hengages := h.protocol.engages
  cases hcoordinator : s.coordinator with
  | idle | finished => simp [hcoordinator, Coordinator.outbound] at hcoordinated
  | working job =>
      rw [hcoordinator] at hcoordinated hengages
      obtain ⟨seeds, prepared, hengaged⟩ := hengages
      simp only [Coordinator.outbound, Job.outbound] at hcoordinated
      split at hcoordinated
      · next part rest htodo =>
          split at hcoordinated
          · have hpart : part ∈ job.parts :=
              hengaged.suffix.subset (htodo ▸ List.mem_cons_self)
            have hheld : job.request ∈ s.held .cross := by
              simp [System.held, hcoordinator]
            refine ⟨job.request, job.parts, part, hreaches.submitted_of_held hheld,
              hengaged.split, hpart, ?_⟩
            have hmessage := List.mem_singleton.mp hcoordinated
            cases hphase : job.phase <;> simp_all [Job.message]
          · cases hcoordinated
      · cases hcoordinated

/-- What the shard and the preparation of an owner satisfy. -/
structure Holds (allowed : Operation → Prop) (P : Fin n → Shard → Prop) (o : Fin n)
    (owner : Owner) : Prop where
  shard : P o owner.shard
  prepared : ∀ id ready, owner.reservation = some ⟨id, some ready⟩ →
    ∃ seed operation nowMs, allowed operation ∧
      owner.shard.prepare seed operation nowMs = .ok (.ok ready)

theorem Evolves.holds {allowed : Operation → Prop} {P : Fin n → Shard → Prop} {owner : Owner}
    (hkept : Kept setup allowed P) (hreaches : Reaches setup shards trace s)
    (hallowed : ∀ request, .submitted request ∈ trace → allowed request.operation)
    (h : Holds allowed P o (s.owners o)) (hevolves : Evolves setup s o owner) :
    Holds allowed P o owner := by
  obtain ⟨base, hinvariant, -⟩ := hreaches.invariant
  have hwf := hinvariant.protocol.wellFormed o
  cases hevolves with
  | still hshard hprepared =>
      refine ⟨hshard ▸ h.shard, fun id ready hreserved => ?_⟩
      rw [hshard]
      exact h.prepared id ready (hprepared id ready hreserved)
  | ticked hreservation hticking hexpire =>
      refine ⟨hkept.tick h.shard hwf hexpire, fun id ready hreserved => ?_⟩
      rw [hreservation, hinvariant.protocol.free_of_busy hticking (by simp) (by simp)] at hreserved
      cases hreserved
  | @served request nowMs turn seed reply hreservation hserving hexecute =>
      refine ⟨?_, fun id ready hreserved => ?_⟩
      · have hheld : request ∈ s.held (.owner o) := by
          simp [System.held, Owner.held, hserving]
        have hsubmitted := hreaches.submitted_of_held hheld
        rcases executeLocal_cases hexecute with ⟨hsame, -⟩ | ⟨ready, hprepare, happly⟩
        · rw [hsame]
          exact h.shard
        · exact hkept.apply h.shard hwf (hallowed request hsubmitted) hprepare happly
      · rw [hreservation, hinvariant.protocol.free_of_busy hserving (by simp) (by simp)] at hreserved
        cases hreserved
  | @prepared id operation nowMs seed ready hmessage hshard hprepare hreservation =>
      refine ⟨hshard ▸ h.shard, fun id' ready' hreserved => ?_⟩
      rw [hreservation] at hreserved
      cases hreserved
      obtain ⟨request, parts, part, hsubmitted, hsplit, hpart, rfl⟩ :=
        hreaches.prepare_message hmessage
      exact ⟨seed, _, nowMs, hkept.split (hallowed request hsubmitted) hsplit part hpart, hprepare⟩
  | @applied id ready reply hreserved happly hreservation =>
      obtain ⟨seed, operation, nowMs, hoperation, hprepare⟩ := h.prepared id ready hreserved
      refine ⟨hkept.apply h.shard hwf hoperation hprepare happly, fun id' ready' hkeeps => ?_⟩
      rw [hreservation] at hkeeps
      cases hkeeps

theorem Reaches.kept {allowed : Operation → Prop} {P : Fin n → Shard → Prop}
    (hkept : Kept setup allowed P)
    (hnew : ∀ o shard, Shard.new (setup.shardLimits o) = .ok shard → P o shard)
    (hreaches : Reaches setup shards trace s)
    (hallowed : ∀ request, .submitted request ∈ trace → allowed request.operation) (o : Fin n) :
    Holds allowed P o (s.owners o) := by
  induction hreaches with
  | start hstart => exact ⟨hnew o _ (hstart o), fun id ready hreserved => by cases hreserved⟩
  | step hbefore hstep ih =>
      have hearlier := fun request hsubmitted =>
        hallowed request (List.mem_append_left _ hsubmitted)
      exact (hstep.evolves o).holds hkept hbefore hearlier (ih hearlier)

end Recall.Engine
