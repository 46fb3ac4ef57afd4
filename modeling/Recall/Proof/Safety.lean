import Recall.Proof.Reservation

/-!
# What can stop the engine

The invariants of every reachable state together. Of all the ways the engine stops the process two
are left: a shard has used up its revisions, or the coordinator its identities.
-/

namespace Recall.Engine

open Interleaving Shard

variable {n : Nat} {setup : Setup n} {shards base : Shards n} {trace : List (Event n)}
  {s s' : System n}

structure Invariant (setup : Setup n) (trace : List (Event n)) (base : Shards n) (s : System n) :
    Prop where
  ordered : Ordered s
  queues : Queues setup trace s
  calls : Calls setup trace s
  protocol : Protocol setup base s

theorem Invariant.start {clock : I64}
    (hnew : ∀ o, Shard.new (setup.shardLimits o) = .ok (shards o)) :
    Invariant setup [] shards (.start shards setup.queueBytes clock) where
  ordered := .start ..
  queues := .start ..
  calls := .start ..
  protocol := .start (fun o => wellFormed_new (hnew o)) ..

theorem Invariant.step {events : List (Event n)} (h : Invariant setup trace base s)
    (hstep : Step setup s events s') :
    ∃ base', Invariant setup (trace ++ events) base' s' ∧
      Runs (Performs setup) base (executedIn events) base' := by
  obtain ⟨base', hprotocol, hruns⟩ := hstep.simulates h.ordered h.queues h.protocol
  refine ⟨base', ⟨hstep.ordered h.ordered, ?_, hstep.calls h.queues h.calls, hprotocol⟩, hruns⟩
  exact hstep.queues (fun call operation => h.calls.routed) h.queues

/-- In every reachable state the owners stand for shards on which the effects of the trace took
place one at a time. -/
theorem Reaches.invariant (hreaches : Reaches setup shards trace s) :
    ∃ base, Invariant setup trace base s ∧
      Runs (Performs setup) shards (executedIn trace) base := by
  induction hreaches with
  | start hnew => exact ⟨shards, .start hnew, .nil shards⟩
  | step _ hstep ih =>
      obtain ⟨base, hinvariant, hruns⟩ := ih
      obtain ⟨base', hnext, hmore⟩ := hinvariant.step hstep
      refine ⟨base', hnext, ?_⟩
      rw [executedIn_append]
      exact hruns.append hmore

/-! ### Assertions -/

theorem Owner.handle_reserve_error {owner : Owner} {seed : HashSeed} {id : Nat} {fatal : Fatal}
    (hfree : owner.reservation = none) : owner.handle seed (.reserve id) ≠ .error fatal := by
  simp [handle, hfree]

theorem Owner.handle_prepare_error {owner : Owner} {seed : HashSeed} {id : Nat}
    {operation : Operation} {nowMs : I64} {fatal : Fatal} (hwf : owner.shard.WellFormed)
    (hreserved : owner.reservation = some ⟨id, none⟩) :
    owner.handle seed (.prepare id operation nowMs) ≠ .error fatal := by
  cases hrefusal : owner.shard.refusal operation nowMs with
  | some failure =>
      simp [handle, hreserved, prepare_of_refusal hwf hrefusal, abortOnPanic, bind, Except.bind,
        pure, Except.pure]
  | none =>
      obtain ⟨_, _, ready, -, hprepare, -⟩ := prepare_of_refusal_none hwf hrefusal seed
      simp [handle, hreserved, hprepare, abortOnPanic, bind, Except.bind, pure, Except.pure]

theorem Owner.handle_apply_error {owner : Owner} {seed : HashSeed} {id : Nat} {ready : Prepared}
    {fatal : Fatal} (hwf : owner.shard.WellFormed) (hdescribes : owner.shard.Describes ready)
    (hreserved : owner.reservation = some ⟨id, some ready⟩)
    (hhandle : owner.handle seed (.apply id) = .error fatal) :
    fatal = .panic .revisionExhausted := by
  rcases apply_spec hwf hdescribes with ⟨-, hpanic⟩ | ⟨after, hok, -⟩
  · simp [handle, hreserved, hpanic, abortOnPanic, bind, Except.bind] at hhandle
    exact hhandle.symm
  · simp [handle, hreserved, hok, abortOnPanic, bind, Except.bind, pure, Except.pure] at hhandle

theorem Owner.handle_release_error {owner : Owner} {seed : HashSeed} {id : Nat}
    {kept : Option Prepared} {fatal : Fatal} (hreserved : owner.reservation = some ⟨id, kept⟩) :
    owner.handle seed (.release id) ≠ .error fatal := by
  simp [handle, hreserved]

theorem Owner.handle_stop_error {owner : Owner} {seed : HashSeed} {fatal : Fatal}
    (hfree : owner.reservation = none) : owner.handle seed .stop ≠ .error fatal := by
  simp [handle, hfree]

/-- The message the coordinator sent finds its owner in the state it expects. -/
theorem Engaged.handle_error {seeds : Fin n → HashSeed} {prepared : Fin n → Prepared} {job : Job n}
    {owners : Fin n → Owner} (h : Engaged setup base seeds prepared job owners)
    {part : Part n} {rest : List (Part n)} (htodo : job.todo = part :: rest)
    {owner : Owner} (hreservation : owner.reservation = (owners part.owner).reservation)
    (hshard : owner.shard = (owners part.owner).shard) (hwf : owner.shard.WellFormed)
    (hdescribed : ∀ id ready, owner.reservation = some ⟨id, some ready⟩ →
      owner.shard.Describes ready) {seed : HashSeed} {fatal : Fatal}
    (hhandle : owner.handle seed (job.message part) = .error fatal) :
    fatal = .panic .revisionExhausted := by
  have hstands := h.stands part.owner (h.mem_participants (by simp [htodo]))
  rw [show job.pending part.owner = true by simp [Job.pending, htodo], ← hreservation,
    ← hshard] at hstands
  unfold Job.message at hhandle
  generalize hr : owner.reservation = reservation at hstands
  generalize owner.shard = shard at hstands
  cases hphase : job.phase with
  | reserve =>
      simp only [hphase] at hhandle hstands
      cases hstands
      exact absurd hhandle (Owner.handle_reserve_error hr)
  | prepare nowMs results =>
      simp only [hphase] at hhandle hstands
      cases results with
      | error failure =>
          have hcomputed := h.computed
          unfold Job.Computed at hcomputed
          rw [hphase, htodo] at hcomputed
          cases hcomputed.1
      | ok results =>
          cases hstands
          exact absurd hhandle (Owner.handle_prepare_error hwf hr)
  | apply nowMs reply =>
      simp only [hphase] at hhandle hstands
      cases hstands
      exact Owner.handle_apply_error hwf (hdescribed _ _ hr) hr hhandle
  | release reply =>
      simp only [hphase] at hhandle hstands
      cases hstands
      exact absurd hhandle (Owner.handle_release_error hr)

theorem Invariant.handle_error (h : Invariant setup trace base s) {o : Fin n} {message : Control}
    {rest : List Control} {seed : HashSeed} {fatal : Fatal}
    (hcontrols : (s.owners o).controls = message :: rest)
    (hhandle : { s.owners o with controls := rest, position := .top }.handle seed message =
      .error fatal) : fatal = .panic .revisionExhausted := by
  cases hmessage : message.coordinated with
  | true =>
      obtain ⟨job, part, todo, hworking, htodo, -, rfl, rfl, -⟩ :=
        h.protocol.message_spec hcontrols hmessage
      have hengages := h.protocol.engages
      rw [hworking] at hengages
      obtain ⟨seeds, prepared, hengaged⟩ := hengages
      exact hengaged.handle_error htodo (by rfl) (by rfl) (by exact h.protocol.wellFormed part.owner)
        (by exact h.protocol.described part.owner) hhandle
  | false =>
      cases message with
      | reserve | prepare | apply | release => cases hmessage
      | stats => simp [Owner.handle] at hhandle
      | stop =>
          have hfinished : s.coordinator = .finished := by
            by_contra hworking
            exact h.ordered.not_told hworking o (.inl (by simp [hcontrols]))
          have hengages := h.protocol.engages
          rw [hfinished] at hengages
          exact absurd hhandle (Owner.handle_stop_error (hengages o).1)

/-! ### Combining -/

/-- The preparations of all the parts combine to a reply. -/
theorem Engaged.combine {seeds : Fin n → HashSeed} {prepared : Fin n → Prepared} {job : Job n}
    {owners : Fin n → Owner} (h : Engaged setup base seeds prepared job owners)
    (hwf : ∀ o, (owners o).shard.WellFormed)
    (hplace : destination setup.route job.request.operation = .cross) {nowMs : I64}
    {results : List Reply} (htodo : job.todo = [])
    (hphase : job.phase = .prepare nowMs (.ok results)) :
    ∃ reply, Recall.combine job.request.operation job.parts results = .ok reply := by
  obtain ⟨hresults, hready⟩ := h.ready htodo hphase
  obtain ⟨single, hmerges⟩ := exists_merges setup.route base
  obtain ⟨parts, reply, effects, hsplit, -, ⟨pieces⟩⟩ :=
    pieces_of_cross hmerges (le_refl 64) hplace nowMs
  rw [h.split] at hsplit
  cases hsplit
  refine ⟨reply, ?_⟩
  have hresponses : results = job.parts.map pieces.respond := by
    rw [hresults]
    refine List.map_congr_left fun part hpart => ?_
    have hstands := h.stands part.owner (List.mem_map_of_mem hpart)
    rw [hphase] at hstands
    have hbase : (base part.owner).WellFormed := by
      rw [← hstands.shard_of_prepare]
      exact hwf part.owner
    obtain ⟨touched, heval, -⟩ := prepare_spec hbase (hready part hpart)
    rw [pieces.evaluate part hpart] at heval
    simp only [Except.ok.injEq, Prod.mk.injEq] at heval
    exact heval.1.symm
  rw [hresponses]
  exact pieces.combine

/-! ### Every way to fail -/

theorem Invariant.split (h : Invariant setup trace base s) {request : Request}
    {rest : List CrossRequest} (hcross : s.cross = .execute request :: rest)
    (hidle : s.coordinator = .idle) :
    ∃ parts, Recall.split setup.route request.operation = .ok parts := by
  have hplace : destination setup.route request.operation = .cross :=
    h.queues.destination_of_held (by simp [System.held, hidle, hcross, CrossRequest.request?])
  obtain ⟨single, hmerges⟩ := exists_merges setup.route base
  obtain ⟨parts, reply, effects, hsplit, -⟩ :=
    pieces_of_cross hmerges (le_refl 64) hplace 0
  exact ⟨parts, hsplit⟩

theorem Invariant.fails (h : Invariant setup trace base s) {fatal : Fatal}
    (hfails : Fails setup s fatal) :
    fatal = .panic .revisionExhausted ∨ fatal = .identityExhausted := by
  have hprotocol := h.protocol
  have hengages := hprotocol.engages
  cases hfails with
  | control hselect hrunning hcontrols hhandle => exact .inl (h.handle_error hcontrols hhandle)
  | @controlsClosed o hselect hrunning hcontrols hdisconnected hreserved =>
      rw [hdisconnected.2] at hengages
      rw [(hengages o).1] at hreserved
      cases hreserved
  | @runTick o nowMs panic hticking hexpire =>
      rw [expireDue_error (hprotocol.wellFormed o) hexpire]
      exact .inl rfl
  | @execute o request nowMs turn seed fatal hserving hexecute =>
      rcases executeLocal_spec (⟨hprotocol.wellFormed o, rfl, le_refl _⟩ : Steady _ _ _) seed
          request.operation nowMs with
        ⟨failure, -, hok⟩ | ⟨-, hpanic⟩ | ⟨response, effects, later, -, -, hok, -⟩
      · rw [hok] at hexecute
        cases hexecute
      · rw [hpanic] at hexecute
        cases hexecute
        exact .inl rfl
      · rw [hok] at hexecute
        cases hexecute
  | identity hidle hcross hid => exact .inr rfl
  | split hidle hcross hid hsplit =>
      obtain ⟨parts, hok⟩ := h.split hcross hidle
      rw [hok] at hsplit
      cases hsplit
  | @instruct job part rest hworking hready htodo hexited =>
      exact absurd (.inr (.inr (.inr hexited))) (h.ordered.not_told (by simp [hworking]) part.owner)
  | @completion job part rest hworking hawaiting htodo hlost =>
      have hmessages := hprotocol.messages part.owner
      simp only [hworking, Coordinator.outbound, Job.outbound, htodo, hawaiting, and_self,
        ↓reduceIte] at hmessages
      have hmem : job.message part ∈
          (s.owners part.owner).controls.filter Control.coordinated := by
        rw [hmessages]
        exact List.mem_singleton_self _
      exact absurd (List.mem_filter.mp hmem).1 hlost
  | @combine job nowMs results fatal hworking htodo hphase hcombine =>
      rw [hworking] at hengages
      obtain ⟨seeds, prepared, hengaged⟩ := hengages
      obtain ⟨reply, hok⟩ := hengaged.combine hprotocol.wellFormed
        (h.queues.destination_of_working hworking) htodo hphase
      rw [hok] at hcombine
      cases hcombine
  | @reply call hcall hlost =>
      obtain ⟨place, request, hheld, hrequest⟩ := held_of_waiting h.queues h.calls hcall
      exact absurd hrequest (hlost place request hheld)
  | sendStop hstage hclosed =>
      have hopen : s.crossClosed ≠ true := fun hclosed => by
        have hsent := h.ordered.closed (.inl hclosed)
        rw [hstage] at hsent
        exact hsent
      rcases hclosed with hclosed | hfinished
      · exact absurd hclosed hopen
      · rcases h.ordered.finished hfinished with hclosed | habandoned
        · exact absurd hclosed hopen
        · rw [hstage] at habandoned
          cases habandoned
  | @stopOwner o remaining hstage hexited =>
      rcases h.ordered.told o (.inr (.inr (.inr hexited))) with hdisconnected | htold
      · rw [hdisconnected.1] at hstage
        cases hstage
      · rw [hstage] at htold
        exact absurd List.mem_cons_self htold

/-! ### Waiting for an owner -/

/-- Owner `o`, going on by itself, brings the system to a state with the property, unless it stops
the process on the way. -/
def Settles (setup : Setup n) (o : Fin n) (goal : System n → Prop) (s : System n) : Prop :=
  ∃ s', Relation.ReflTransGen (fun a b => ∃ events, OwnerStep setup a o events b) s s' ∧
    (goal s' ∨ ∃ fatal, Fails setup s' fatal)

namespace Settles

variable {o : Fin n} {goal : System n → Prop}

theorem fails {fatal : Fatal} (hfails : Fails setup s fatal) : Settles setup o goal s :=
  ⟨s, .refl, .inr ⟨fatal, hfails⟩⟩

theorem step {events : List (Event n)} (hstep : OwnerStep setup s o events s')
    (h : Settles setup o goal s') : Settles setup o goal s := by
  obtain ⟨later, hmoves, hgoal⟩ := h
  exact ⟨later, .head ⟨events, hstep⟩ hmoves, hgoal⟩

end Settles

/-- What an owner leaves alone until it handles its next control message. -/
structure Unmoved (o : Fin n) (s s' : System n) : Prop where
  controls : (s'.owners o).controls = (s.owners o).controls
  coordinator : s'.coordinator = s.coordinator

theorem Unmoved.setOwner {o : Fin n} {owner : Owner}
    (hcontrols : owner.controls = (s.owners o).controls) : Unmoved o s (s.setOwner o owner) := by
  constructor <;> simp [hcontrols]

theorem Unmoved.trans {o : Fin n} {s t u : System n} (hst : Unmoved o s t)
    (htu : Unmoved o t u) : Unmoved o s u :=
  ⟨htu.controls.trans hst.controls, htu.coordinator.trans hst.coordinator⟩

/-- Later states from which the owner still has the same messages before it. -/
structure Onward (setup : Setup n) (shards : Shards n) (o : Fin n) (s s' : System n) : Prop where
  reaches : ∃ trace, Reaches setup shards trace s'
  unmoved : Unmoved o s s'

theorem Onward.step {o : Fin n} {t : System n} {events : List (Event n)}
    (h : Onward setup shards o s t) (hstep : OwnerStep setup t o events s')
    (hunmoved : Unmoved o t s') : Onward setup shards o s s' := by
  obtain ⟨trace, hreaches⟩ := h.reaches
  exact ⟨⟨trace ++ events, .step hreaches (.owner hstep)⟩, h.unmoved.trans hunmoved⟩

section

variable {o : Fin n} {goal : System n → Prop} {t : System n}

theorem settles_sampled (request : Request) (nowMs : I64) (turn : Bool)
    (h : Onward setup shards o s t)
    (hserving : (t.owners o).position = .serving request (some nowMs) turn)
    (hnext : ∀ u, Onward setup shards o s u →
      (u.owners o).position = (if turn then .select else .top) → Settles setup o goal u) :
    Settles setup o goal t := by
  cases hexecute : executeLocal (t.owners o).shard .insertionOrder request.operation nowMs with
  | error fatal => exact .fails (.execute hserving hexecute)
  | ok result =>
      obtain ⟨shard, reply⟩ := result
      have hstep : OwnerStep setup t o _ _ := .execute hserving hexecute
      have hanswer := Quiet.answer (t.setOwner o { t.owners o with
        shard, position := if turn then .select else .top }) setup request reply
      refine .step hstep (hnext _ (h.step hstep ⟨?_, ?_⟩) ?_)
      · rw [hanswer.controls]
        simp
      · rw [hanswer.coordinator]
        rfl
      · rw [hanswer.position]
        simp

theorem settles_serving (request : Request) (turn : Bool) (h : Onward setup shards o s t)
    (hserving : (t.owners o).position = .serving request none turn)
    (hnext : ∀ u, Onward setup shards o s u →
      (u.owners o).position = (if turn then .select else .top) → Settles setup o goal u) :
    Settles setup o goal t := by
  have hstep : OwnerStep setup t o _ _ := .sample hserving
  exact .step hstep (settles_sampled request t.clock turn (h.step hstep (.setOwner rfl)) (by simp)
    hnext)

theorem settles_top (h : Onward setup shards o s t) (htop : (t.owners o).position = .top)
    (hnext : ∀ u, Onward setup shards o s u → (u.owners o).position = .select →
      Settles setup o goal u) : Settles setup o goal t := by
  by_cases hskip : (t.owners o).dataTurn = false ∨ (t.owners o).reservation.isSome
  · have hstep : OwnerStep setup t o _ _ := .skipTurn htop hskip
    exact .step hstep (hnext _ (h.step hstep (.setOwner rfl)) (by simp))
  · simp only [not_or, Bool.not_eq_false, Option.not_isSome_iff_eq_none] at hskip
    cases hdata : (t.owners o).data with
    | nil =>
        have hstep : OwnerStep setup t o _ _ := .emptyTurn htop hskip.1 hskip.2 hdata
        exact .step hstep (hnext _ (h.step hstep (.setOwner rfl)) (by simp))
    | cons request rest =>
        have hstep : OwnerStep setup t o _ _ := .takeTurn htop hskip.1 hskip.2 hdata
        exact .step hstep (settles_serving request true (h.step hstep (.setOwner rfl)) (by simp)
          hnext)

theorem settles_ticked (nowMs : I64) (h : Onward setup shards o s t)
    (hticking : (t.owners o).position = .ticking (some nowMs))
    (hnext : ∀ u, Onward setup shards o s u → (u.owners o).position = .select →
      Settles setup o goal u) : Settles setup o goal t := by
  cases hexpire : (t.owners o).shard.expireDue nowMs setup.expiryBatch with
  | error panic => exact .fails (.runTick hticking hexpire)
  | ok result =>
      obtain ⟨shard, removed⟩ := result
      have hstep : OwnerStep setup t o _ _ := .runTick hticking hexpire
      exact .step hstep (settles_top (h.step hstep (.setOwner rfl)) (by simp) hnext)

/-- An owner that has not returned comes to its `select!`. -/
theorem settles_select (h : Onward setup shards o s t)
    (halive : (t.owners o).position ≠ .exited)
    (hnext : ∀ u, Onward setup shards o s u → (u.owners o).position = .select →
      Settles setup o goal u) : Settles setup o goal t := by
  cases hposition : (t.owners o).position with
  | exited => exact absurd hposition halive
  | select => exact hnext t h hposition
  | top => exact settles_top h hposition hnext
  | ticking sample =>
      cases sample with
      | some nowMs => exact settles_ticked nowMs h hposition hnext
      | none =>
          have hstep : OwnerStep setup t o _ _ := .sampleTick hposition
          exact .step hstep (settles_ticked t.clock (h.step hstep (.setOwner rfl)) (by simp) hnext)
  | serving request sample turn =>
      have hserved : ∀ u, Onward setup shards o s u →
          (u.owners o).position = (if turn then .select else .top) → Settles setup o goal u := by
        intro u hu hplace
        cases turn with
        | true => exact hnext u hu hplace
        | false => exact settles_top hu hplace hnext
      cases sample with
      | none => exact settles_serving request turn h hposition hserved
      | some nowMs => exact settles_sampled request nowMs turn h hposition hserved

end

/-- The coordinator waits for an owner that serves its control queue, where the message is. -/
theorem Invariant.awaited (h : Invariant setup trace base s) {job : Job n} {part : Part n}
    {rest : List (Part n)} (hworking : s.coordinator = .working job)
    (hawaiting : job.awaiting = true) (htodo : job.todo = part :: rest) :
    (s.owners part.owner).position ≠ .exited ∧ (s.owners part.owner).stopping = false ∧
      .stop ∉ (s.owners part.owner).controls ∧
      (s.owners part.owner).controls.filter Control.coordinated = [job.message part] := by
  have hnot := h.ordered.not_told (by simp [hworking]) part.owner
  simp only [Owner.Told, not_or, Bool.not_eq_true] at hnot
  refine ⟨hnot.2.2.2, hnot.2.1, hnot.1, ?_⟩
  rw [h.protocol.messages, hworking]
  simp [Coordinator.outbound, Job.outbound, htodo, hawaiting]

theorem Owner.handle_coordinated {owner owner' : Owner} {seed : HashSeed} {message : Control}
    {completion : Option Completion} (hmessage : message.coordinated = true)
    (hhandle : owner.handle seed message = .ok (owner', completion)) :
    ∃ answer, completion = some answer := by
  cases message with
  | stats | stop => cases hmessage
  | reserve id =>
      obtain ⟨-, -, rfl⟩ := handle_reserve hhandle
      exact ⟨_, rfl⟩
  | prepare id operation nowMs =>
      obtain ⟨-, ⟨failure, -, -, rfl⟩ | ⟨ready, -, -, rfl⟩⟩ := handle_prepare hhandle <;>
        exact ⟨_, rfl⟩
  | apply id =>
      obtain ⟨ready, shard, reply, -, -, -, rfl⟩ := handle_apply hhandle
      exact ⟨_, rfl⟩
  | release id =>
      obtain ⟨-, -, rfl⟩ := handle_release hhandle
      exact ⟨_, rfl⟩

/-- The awaited owner answers: it has at most requests for statistics to handle before. -/
theorem Reaches.answered (hreaches : Reaches setup shards trace s) {job : Job n} {part : Part n}
    {rest : List (Part n)} (hworking : s.coordinator = .working job)
    (hawaiting : job.awaiting = true) (htodo : job.todo = part :: rest) :
    Settles setup part.owner
      (fun s' => ∃ answer, s'.coordinator = .working (job.receive answer)) s := by
  induction hlength : (s.owners part.owner).controls.length generalizing s trace with
  | zero =>
      obtain ⟨base, hinvariant, -⟩ := hreaches.invariant
      obtain ⟨-, -, -, hmessages⟩ := hinvariant.awaited hworking hawaiting htodo
      rw [List.eq_nil_of_length_eq_zero hlength] at hmessages
      cases hmessages
  | succ count ih =>
      obtain ⟨base, hinvariant, -⟩ := hreaches.invariant
      obtain ⟨halive, -, -, -⟩ := hinvariant.awaited hworking hawaiting htodo
      refine settles_select ⟨⟨trace, hreaches⟩, rfl, rfl⟩ halive fun t ht hselect => ?_
      obtain ⟨trace', htreaches⟩ := ht.reaches
      rw [← ht.unmoved.coordinator] at hworking
      rw [← ht.unmoved.controls] at hlength
      obtain ⟨base', htinvariant, -⟩ := htreaches.invariant
      obtain ⟨-, hrunning, hstop, hmessages⟩ := htinvariant.awaited hworking hawaiting htodo
      obtain ⟨message, others, hcontrols⟩ := List.exists_cons_of_length_eq_add_one hlength
      cases hhandle : { t.owners part.owner with
          controls := others, position := .top }.handle .insertionOrder message with
      | error fatal => exact .fails (.control hselect hrunning hcontrols hhandle)
      | ok result =>
          obtain ⟨owner, completion⟩ := result
          have hstep : OwnerStep setup t part.owner _ _ :=
            .control hselect hrunning hcontrols hhandle
          refine .step hstep ?_
          cases hmessage : message.coordinated with
          | true =>
              obtain ⟨answer, rfl⟩ := Owner.handle_coordinated hmessage hhandle
              have hsent : message = job.message part := by
                rw [hcontrols, List.filter_cons_of_pos hmessage] at hmessages
                exact (List.cons.inj hmessages).1
              refine ⟨_, .refl, .inl ⟨answer, ?_⟩⟩
              simp [Coordinator.complete, hworking, Job.awaits, hawaiting, htodo, hsent]
          | false =>
              obtain ⟨-, -, hkept, -, -⟩ := Owner.handle_frame hhandle
              obtain ⟨-, -, rfl⟩ := Owner.handle_uncoordinated hmessage hhandle
              refine ih (htreaches.step (.owner hstep)) (by exact hworking) ?_
              simpa [hkept, hcontrols] using hlength

/-! ### The protocol is safe -/

/-- No step executes a local request or a tick on a reserved owner. -/
theorem Invariant.untouched (h : Invariant setup trace base s) {events : List (Event n)}
    (hstep : Step setup s events s') {o : Fin n} (hreserved : (s.owners o).reservation ≠ none)
    {effect : Effect n} (heffect : effect ∈ executedIn events) :
    effect.mark.subject ≠ .tick o ∧ ∀ request, effect.mark.subject = .command request →
      destination setup.route request.operation ≠ .owner o := by
  cases hstep with
  | call hstep => cases hstep <;> cases heffect
  | shutdown hstep => cases heffect
  | advance | stats | abandon => cases heffect
  | @owner p events s' hstep =>
      cases hstep with
      | runTick hticking hexpire =>
          obtain rfl := List.mem_singleton.mp heffect
          refine ⟨fun htick => ?_, fun request hcommand => by cases hcommand⟩
          cases htick
          exact hreserved (h.protocol.free_of_busy hticking (by simp) (by simp))
      | @execute request nowMs turn seed shard reply hserving hexecute =>
          have hplace : destination setup.route request.operation = .owner p :=
            h.queues.destination_of_held (by simp [System.held, Owner.held, hserving])
          obtain rfl := List.mem_singleton.mp heffect
          refine ⟨fun htick => (by cases htick), fun request' hcommand hdestination => ?_⟩
          cases hcommand
          rw [hplace] at hdestination
          cases hdestination
          exact hreserved (h.protocol.free_of_busy hserving (by simp) (by simp))
      | _ => cases heffect
  | coordinator hstep =>
      have hcross : ∀ job nowMs reply, s.coordinator = .working job →
          effect = commandEffect job.request nowMs reply →
          effect.mark.subject ≠ .tick o ∧ ∀ request, effect.mark.subject = .command request →
            destination setup.route request.operation ≠ .owner o := by
        rintro job nowMs reply hworking rfl
        refine ⟨fun htick => (by cases htick), fun request hcommand hdestination => ?_⟩
        cases hcommand
        rw [h.queues.destination_of_working hworking] at hdestination
        cases hdestination
      cases hstep with
      | failed hworking htodo hphase | oversized hworking htodo hphase
      | applied hworking htodo hphase =>
          exact hcross _ _ _ hworking (List.mem_singleton.mp heffect)
      | _ => cases heffect

theorem reservation_safety (hreaches : Reaches setup shards trace s) :
    (∀ o reservation, (s.owners o).reservation = some reservation →
      (∃ job, s.coordinator = .working job ∧ job.id = reservation.id ∧ o ∈ job.participants) ∧
      (∀ prepared, reservation.prepared = some prepared →
        prepared.revision = (s.owners o).shard.revision) ∧
      ((s.owners o).position = .top ∨ (s.owners o).position = .select) ∧
      ∀ events s', Step setup s events s' → ∀ effect ∈ executedIn events,
        effect.mark.subject ≠ .tick o ∧ ∀ request, effect.mark.subject = .command request →
          destination setup.route request.operation ≠ .owner o) ∧
    (s.coordinator = .idle → ∀ o, (s.owners o).reservation = none) ∧
    (∀ fatal, Fails setup s fatal →
      fatal = .panic .revisionExhausted ∨ fatal = .identityExhausted) ∧
    ∀ job part rest, s.coordinator = .working job → job.awaiting = true →
      job.todo = part :: rest →
      (s.owners part.owner).position ≠ .exited ∧ (s.owners part.owner).stopping = false ∧
      job.message part ∈ (s.owners part.owner).controls ∧
      Settles setup part.owner
        (fun s' => ∃ answer, s'.coordinator = .working (job.receive answer)) s := by
  obtain ⟨base, h, -⟩ := hreaches.invariant
  have hengages := h.protocol.engages
  refine ⟨fun o reservation hreserved => ⟨?_, fun prepared hprepared => ?_, ?_, ?_⟩, ?_,
    fun fatal hfails => h.fails hfails, fun job part rest hworking hawaiting htodo => ?_⟩
  · cases hcoordinator : s.coordinator with
    | idle | finished =>
        rw [hcoordinator] at hengages
        rw [(hengages o).1] at hreserved
        cases hreserved
    | working job =>
        rw [hcoordinator] at hengages
        obtain ⟨seeds, prepared, hengaged⟩ := hengages
        by_cases ho : o ∈ job.participants
        · have hstands := hengaged.stands o ho
          rw [hreserved] at hstands
          exact ⟨job, rfl, hstands.id_eq.symm, ho⟩
        · rw [(hengaged.apart o ho).1] at hreserved
          cases hreserved
  · obtain ⟨id, kept⟩ := reservation
    obtain rfl : kept = some prepared := hprepared
    exact (h.protocol.described o id prepared hreserved).revision
  · exact h.protocol.resting o (by simp [hreserved])
  · intro events s' hstep effect heffect
    exact h.untouched hstep (by simp [hreserved]) heffect
  · intro hidle o
    rw [hidle] at hengages
    exact (hengages o).1
  · obtain ⟨halive, hrunning, -, hmessages⟩ := h.awaited hworking hawaiting htodo
    refine ⟨halive, hrunning, ?_, hreaches.answered hworking hawaiting htodo⟩
    have hmem : job.message part ∈
        (s.owners part.owner).controls.filter Control.coordinated := by
      rw [hmessages]
      exact List.mem_singleton_self _
    exact (List.mem_filter.mp hmem).1

theorem Step.submit {request : Request} {state : Call}
    (hunused : s.calls request.call = .unused) (hhandle : s.stage ≠ .abandoned)
    (hadmission : admission setup s.stage.isClosing request.operation = state) :
    Step setup s [.submitted request] (s.setCall request.call state) :=
  hadmission ▸ .call (.submit hunused hhandle)

theorem Reaches.submit (hreaches : Reaches setup shards trace s) {request : Request} {state : Call}
    (hunused : s.calls request.call = .unused) (hhandle : s.stage ≠ .abandoned)
    (hadmission : admission setup s.stage.isClosing request.operation = state) :
    Reaches setup shards (trace ++ [.submitted request]) (s.setCall request.call state) :=
  .step hreaches (.submit hunused hhandle hadmission)

def sampleSetup : Setup 2 := ⟨sampleRoute, fun _ => sampleShardLimits, 4, 4096, 4, 64⟩

/-- A request over both owners. -/
def sampleRequest : Request := ⟨0, .multiGet [ascii "a", ascii "b"]⟩

/-- The coordinator's first message was handled: owner 0 is reserved and owner 1 is not. -/
theorem reservation_safety_sample : ∃ shards trace s, Reaches sampleSetup shards trace s ∧
    (s.owners 0).reservation = some ⟨1, none⟩ ∧ (s.owners 1).reservation = none ∧
    ∃ job, s.coordinator = .working job ∧ job.id = 1 ∧ (0 : Fin 2) ∈ job.participants := by
  have hadmission : admission sampleSetup false sampleRequest.operation =
      .acquiring sampleRequest.operation := by
    unfold admission
    rw [if_neg (by decide), if_neg (by decide), if_neg (by decide)]
  have hplace : destination sampleSetup.route sampleRequest.operation = .cross := by decide
  have hcharge : charge sampleRequest.operation ≤ 4096 := by decide
  have hstart : Reaches sampleSetup
      (fun _ => ⟨∅, .empty, sampleShardLimits, 0, 0, 0, 0⟩) [] (.start _ 4096 0) :=
    .start fun _ => rfl
  have hsubmit := @Reaches.submit _ _ _ _ _ hstart sampleRequest _ rfl nofun hadmission
  have hacquire := hsubmit.step (.call (@CallStep.acquire _ _ _ 0 sampleRequest.operation .cross
    rfl hplace hcharge))
  have hsend := hacquire.step (.call (@CallStep.send _ _ _ 0 sampleRequest.operation .cross rfl
    hplace (by rintro (h | h) <;> cases h) (by decide)))
  have hcoordinate := hsend.step (.coordinator (.coordinate rfl rfl (by decide) rfl))
  have hinstruct := hcoordinate.step (.coordinator (.instruct rfl rfl rfl nofun (by decide)))
  have hskip := hinstruct.step (.owner (o := 0) (.skipTurn rfl (.inl rfl)))
  have hreserve := hskip.step (.owner (o := 0) (@OwnerStep.control _ _ _ _ _ _
    .insertionOrder _ _ rfl rfl rfl rfl))
  refine ⟨_, _, _, hreserve, rfl, rfl, ?_⟩
  exact ((reservation_safety hreserve).1 0 ⟨1, none⟩ rfl).1

end Recall.Engine
