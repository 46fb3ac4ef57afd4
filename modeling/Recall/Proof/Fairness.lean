import Recall.Proof.ExactlyOnce

/-!
# Local work between reservations

What an owner does is told by the places of its loop. Whatever sets `data_turn` leaves the loop at
its top and unreserved, so its next round begins with the oldest waiting request.
-/

namespace Recall.Engine

variable {n : Nat} {setup : Setup n} {shards : Shards n} {trace events : List (Event n)}
  {s t : System n} {o : Fin n}

inductive Act where
  | began (waiting : List Request)
  | handled (message : Control) (reserved : Bool)
  | ticked
  | executed (request : Request)
deriving DecidableEq

/-- What the loop of an owner did between two of its states: it began a round with these requests
in its queue, handled a message, finished a tick or executed a request. -/
def Owner.act (before after : Owner) : Option Act :=
  match before.position, after.position with
  | .top, .select | .top, .serving _ _ _ => some (.began before.data)
  | .select, .top =>
      before.controls.head?.map fun message => .handled message before.reservation.isSome
  | .ticking (some _), .top => some .ticked
  | .serving request (some _) _, .top | .serving request (some _) _, .select =>
      some (.executed request)
  | _, _ => none

/-- A run of the engine with what one owner did on the way. -/
inductive Path (setup : Setup n) (o : Fin n) : System n → List Act → System n → Prop
  | nil (s : System n) : Path setup o s [] s
  | cons {s t u : System n} {events : List (Event n)} {acts : List Act}
      (hstep : Step setup s events t) (hrest : Path setup o t acts u) :
      Path setup o s (((s.owners o).act (t.owners o)).toList ++ acts) u

/-! ### Steps of the owner and of the others -/

/-- The owner did nothing. -/
structure Paused (before after : Owner) : Prop where
  position : after.position = before.position
  dataTurn : after.dataTurn = before.dataTurn
  reservation : after.reservation = before.reservation

theorem Paused.act {before after : Owner} (h : Paused before after) : before.act after = none := by
  unfold Owner.act
  rw [h.position]
  cases before.position with
  | serving request sample turn => cases sample <;> rfl
  | ticking sample => cases sample <;> rfl
  | _ => rfl

theorem Paused.quiet {before : Owner} (h : Paused before (s.owners o)) (hquiet : Quiet s t) :
    Paused before (t.owners o) where
  position := (hquiet.position o).trans h.position
  dataTurn := by
    have hturn : (t.owners o).dataTurn = (s.owners o).dataTurn := by
      simpa [Owner.core] using congrArg Owner.dataTurn (hquiet.owners o)
    exact hturn.trans h.dataTurn
  reservation := (hquiet.reservation o).trans h.reservation

theorem Paused.setOwner {p : Fin n} {owner : Owner} (howner : o = p → Paused (s.owners o) owner) :
    Paused (s.owners o) ((s.setOwner p owner).owners o) := by
  by_cases ho : o = p
  · subst ho
    simpa using howner rfl
  · have hsame : Paused (s.owners o) (s.owners o) := ⟨rfl, rfl, rfl⟩
    simpa [ho] using hsame

theorem OwnerStep.paused {p : Fin n} (hstep : OwnerStep setup s p events t) (ho : o ≠ p) :
    Paused (s.owners o) (t.owners o) := by
  cases hstep with
  | execute hserving hexecute =>
      exact (Paused.setOwner fun h => absurd h ho).quiet (Quiet.answer ..)
  | _ => exact .setOwner fun h => absurd h ho

/-- The owner takes the step, or it does nothing. -/
theorem Step.acts (hstep : Step setup s events t) (o : Fin n) :
    Paused (s.owners o) (t.owners o) ∨ OwnerStep setup s o events t := by
  cases hstep with
  | call hstep => exact .inl (Paused.quiet ⟨rfl, rfl, rfl⟩ hstep.quiet)
  | @owner p events t hstep =>
      by_cases ho : o = p
      · subst ho
        exact .inr hstep
      · exact .inl (hstep.paused ho)
  | coordinator hstep =>
      left
      cases hstep with
      | instruct =>
          refine .setOwner fun ho => ?_
          subst ho
          exact ⟨rfl, rfl, rfl⟩
      | released =>
          exact Paused.quiet (s := { s with coordinator := .idle }) ⟨rfl, rfl, rfl⟩ (Quiet.answer ..)
      | _ => exact ⟨rfl, rfl, rfl⟩
  | shutdown hstep =>
      left
      cases hstep with
      | stopOwner =>
          refine .setOwner fun ho => ?_
          subst ho
          exact ⟨rfl, rfl, rfl⟩
      | _ => exact ⟨rfl, rfl, rfl⟩
  | advance | abandon => exact .inl ⟨rfl, rfl, rfl⟩
  | stats =>
      left
      refine .setOwner fun ho => ?_
      subst ho
      exact ⟨rfl, rfl, rfl⟩

/-! ### The next round -/

/-- The next round begins with the oldest request, if there is one. -/
structure Due (owner : Owner) : Prop where
  top : owner.position = .top
  turn : owner.dataTurn = true
  free : owner.reservation = none

theorem Due.step (h : Due (s.owners o)) (hstep : Step setup s events t) :
    (Due (t.owners o) ∧ (s.owners o).act (t.owners o) = none) ∨
      ∃ waiting, (s.owners o).act (t.owners o) = some (.began waiting) ∧
        ∀ request more, waiting = request :: more →
          (t.owners o).position = .serving request none true := by
  rcases hstep.acts o with hpaused | hstep
  · refine .inl ⟨⟨?_, ?_, ?_⟩, hpaused.act⟩
    · rw [hpaused.position, h.top]
    · rw [hpaused.dataTurn, h.turn]
    · rw [hpaused.reservation, h.free]
  · right
    cases hstep with
    | skipTurn htop hskip => simp [h.turn, h.free] at hskip
    | emptyTurn htop hturn hfree hempty =>
        refine ⟨[], ?_, by simp⟩
        simp [Owner.act, htop, hempty]
    | @takeTurn request rest htop hturn hfree hdata =>
        refine ⟨request :: rest, ?_, ?_⟩
        · simp [Owner.act, htop, hdata]
        · intro oldest more hwaiting
          cases hwaiting
          simp
    | _ =>
        have htop := h.top
        simp_all

/-- A request taken by its turn is executed next. -/
theorem serving_step {request : Request} {sample : Option I64} {turn : Bool}
    (hserving : (s.owners o).position = .serving request sample turn)
    (hstep : Step setup s events t) :
    (∃ sample', (t.owners o).position = .serving request sample' turn ∧
        (s.owners o).act (t.owners o) = none) ∨
      (s.owners o).act (t.owners o) = some (.executed request) := by
  rcases hstep.acts o with hpaused | hstep
  · exact .inl ⟨sample, by rw [hpaused.position, hserving], hpaused.act⟩
  · cases hstep with
    | sample hunsampled =>
        rw [hserving, Position.serving.injEq] at hunsampled
        obtain ⟨rfl, rfl, rfl⟩ := hunsampled
        refine .inl ⟨some s.clock, by simp, ?_⟩
        simp [Owner.act, hserving]
    | @execute request nowMs turn seed shard reply hsampled hexecute =>
        rw [hserving, Position.serving.injEq] at hsampled
        obtain ⟨rfl, rfl, rfl⟩ := hsampled
        right
        have hposition := (Quiet.answer (s.setOwner o { s.owners o with
          shard, position := if turn then .select else .top }) setup request reply).position o
        simp only [Owner.act, hserving, hposition]
        cases turn <;> simp
    | _ => simp_all

/-! ### What gives data its turn -/

def Act.givesTurn : Act → Bool
  | handled (.release _) _ | handled .stats false | ticked => true
  | _ => false

theorem act_control {message : Control} {rest : List Control} {seed : HashSeed} {owner : Owner}
    {completion : Option Completion} (hselect : (s.owners o).position = .select)
    (hcontrols : (s.owners o).controls = message :: rest)
    (hhandle : { s.owners o with controls := rest, position := .top }.handle seed message =
      .ok (owner, completion)) :
    (s.owners o).act owner = some (.handled message (s.owners o).reservation.isSome) := by
  obtain ⟨-, -, -, hposition, -⟩ := Owner.handle_frame hhandle
  simp [Owner.act, hselect, hposition, hcontrols]

/-- The step behind an act. -/
theorem Step.act_cases {act : Act} (hstep : Step setup s events t)
    (hact : (s.owners o).act (t.owners o) = some act) :
    (∃ waiting, act = .began waiting) ∨ (∃ request, act = .executed request) ∨
      (∃ message rest seed completion, act = .handled message (s.owners o).reservation.isSome ∧
        { s.owners o with controls := rest, position := .top }.handle seed message =
          .ok (t.owners o, completion)) ∨
      ∃ nowMs shard, act = .ticked ∧ (s.owners o).position = .ticking (some nowMs) ∧
        t.owners o = { s.owners o with shard, dataTurn := true, position := .top } := by
  rcases hstep.acts o with hpaused | howner
  · rw [hpaused.act] at hact
    cases hact
  · cases howner with
    | skipTurn htop hskip | emptyTurn htop hturn hfree hempty | takeTurn htop hturn hfree hdata =>
        refine .inl ⟨(s.owners o).data, ?_⟩
        simpa [Owner.act, htop] using hact.symm
    | @control message rest seed owner completion hselect hrunning hcontrols hhandle =>
        have howner : (s.setOwner o owner).owners o = owner := by simp
        simp only [howner] at hact ⊢
        rw [act_control hselect hcontrols hhandle, Option.some.injEq] at hact
        exact .inr (.inr (.inl ⟨message, rest, seed, completion, hact.symm, hhandle⟩))
    | @runTick nowMs shard removed hticking hexpire =>
        refine .inr (.inr (.inr ⟨nowMs, shard, ?_, hticking, by simp⟩))
        simpa [Owner.act, hticking] using hact.symm
    | execute hserving hexecute =>
        rcases serving_step hserving hstep with ⟨sample, -, hnone⟩ | hexecuted
        · rw [hnone] at hact
          cases hact
        · rw [hexecuted, Option.some.injEq] at hact
          exact .inr (.inl ⟨_, hact.symm⟩)
    | _ => simp_all [Owner.act]

theorem Step.handled {message : Control} {reserved : Bool} (hstep : Step setup s events t)
    (hact : (s.owners o).act (t.owners o) = some (.handled message reserved)) :
    ∃ rest seed completion, reserved = (s.owners o).reservation.isSome ∧
      { s.owners o with controls := rest, position := .top }.handle seed message =
        .ok (t.owners o, completion) := by
  rcases hstep.act_cases hact with ⟨_, hother⟩ | ⟨_, hother⟩ |
    ⟨message, rest, seed, completion, hsame, hhandle⟩ | ⟨_, _, hother, -⟩
  · cases hother
  · cases hother
  · cases hsame
    exact ⟨rest, seed, completion, rfl, hhandle⟩
  · cases hother

theorem Step.ticked (hstep : Step setup s events t)
    (hact : (s.owners o).act (t.owners o) = some .ticked) :
    ∃ nowMs shard, (s.owners o).position = .ticking (some nowMs) ∧
      t.owners o = { s.owners o with shard, dataTurn := true, position := .top } := by
  rcases hstep.act_cases hact with ⟨_, hother⟩ | ⟨_, hother⟩ | ⟨_, _, _, _, hother, -⟩ |
    ⟨nowMs, shard, -, hticking, howner⟩
  · cases hother
  · cases hother
  · cases hother
  · exact ⟨nowMs, shard, hticking, howner⟩

theorem due_of_act (hreaches : Reaches setup shards trace s) (hstep : Step setup s events t)
    {act : Act} (hact : (s.owners o).act (t.owners o) = some act) (hgives : act.givesTurn = true) :
    Due (t.owners o) := by
  cases act with
  | handled message reserved =>
      obtain ⟨rest, seed, completion, hreserved, hhandle⟩ := hstep.handled hact
      cases message with
      | release id =>
          obtain ⟨-, howner, -⟩ := Owner.handle_release hhandle
          rw [howner]
          exact ⟨rfl, rfl, rfl⟩
      | stats =>
          obtain ⟨howner, -⟩ := Owner.handle_stats hhandle
          rw [howner]
          cases reserved with
          | true => cases hgives
          | false => exact ⟨rfl, rfl, Option.isNone_iff_eq_none.mp (by simpa using hreserved.symm)⟩
      | reserve | prepare | apply | stop => cases hgives
  | ticked =>
      obtain ⟨nowMs, shard, hticking, howner⟩ := hstep.ticked hact
      obtain ⟨base, h, -⟩ := hreaches.invariant
      rw [howner]
      exact ⟨rfl, rfl, h.protocol.free_of_busy hticking nofun nofun⟩
  | began | executed => cases hgives

/-! ### Runs -/

theorem Reaches.path {acts : List Act} (hreaches : Reaches setup shards trace s)
    (hpath : Path setup o s acts t) : ∃ trace', Reaches setup shards trace' t := by
  induction hpath generalizing trace with
  | nil s => exact ⟨trace, hreaches⟩
  | cons hstep _ ih => exact ih (hreaches.step hstep)

theorem Path.snoc {u : System n} {acts : List Act} (hpath : Path setup o s acts t)
    (hstep : Step setup t events u) :
    Path setup o s (acts ++ ((t.owners o).act (u.owners o)).toList) u := by
  induction hpath with
  | nil s => simpa using Path.cons hstep (.nil u)
  | cons hfirst _ ih =>
      rw [List.append_assoc]
      exact .cons hfirst (ih hstep)

/-- A run up to an act of the owner, the step that acts, and the rest. -/
theorem Path.split {acts before after : List Act} {act : Act} (hpath : Path setup o s acts t)
    (hacts : acts = before ++ act :: after) :
    ∃ u events v, Path setup o s before u ∧ Step setup u events v ∧
      (u.owners o).act (v.owners o) = some act ∧ Path setup o v after t := by
  induction hpath generalizing before with
  | nil s => simp at hacts
  | @cons s u t events rest hstep hrest ih =>
      cases hact : (s.owners o).act (u.owners o) with
      | none =>
          rw [hact, Option.toList_none, List.nil_append] at hacts
          obtain ⟨v, events', w, hbefore, hmove, hacted, hafter⟩ := ih hacts
          refine ⟨v, events', w, ?_, hmove, hacted, hafter⟩
          have hlonger := Path.cons hstep hbefore
          rwa [hact, Option.toList_none, List.nil_append] at hlonger
      | some first =>
          rw [hact, Option.toList_some, List.singleton_append] at hacts
          cases before with
          | nil =>
              rw [List.nil_append, List.cons.injEq] at hacts
              obtain ⟨rfl, rfl⟩ := hacts
              exact ⟨s, events, u, .nil s, hstep, hact, hrest⟩
          | cons second before =>
              rw [List.cons_append, List.cons.injEq] at hacts
              obtain ⟨rfl, hacts⟩ := hacts
              obtain ⟨v, events', w, hbefore, hmove, hacted, hafter⟩ := ih hacts
              refine ⟨v, events', w, ?_, hmove, hacted, hafter⟩
              have hlonger := Path.cons hstep hbefore
              rwa [hact, Option.toList_some, List.singleton_append] at hlonger

theorem Path.serving {acts : List Act} {request : Request} {sample : Option I64} {turn : Bool}
    (hpath : Path setup o s acts t)
    (hserving : (s.owners o).position = .serving request sample turn) :
    acts = [] ∨ ∃ rest, acts = .executed request :: rest := by
  induction hpath generalizing sample with
  | nil s => exact .inl rfl
  | cons hstep hrest ih =>
      rcases serving_step hserving hstep with ⟨sample', hstill, hnone⟩ | hexecuted
      · rw [hnone]
        exact ih hstill
      · rw [hexecuted]
        exact .inr ⟨_, rfl⟩

/-- The round begins, and if a request waits then the oldest is executed before anything else. -/
theorem Path.due {acts : List Act} (hpath : Path setup o s acts t) (hdue : Due (s.owners o)) :
    acts = [] ∨ ∃ waiting rest, acts = .began waiting :: rest ∧
      ∀ request more, waiting = request :: more →
        rest = [] ∨ ∃ rest', rest = .executed request :: rest' := by
  induction hpath with
  | nil s => exact .inl rfl
  | cons hstep hrest ih =>
      rcases hdue.step hstep with ⟨hstill, hnone⟩ | ⟨waiting, hbegan, hserving⟩
      · rw [hnone]
        exact ih hstill
      · rw [hbegan]
        refine .inr ⟨waiting, _, rfl, fun request more hwaiting => ?_⟩
        exact hrest.serving (hserving request more hwaiting)

/-- The first thing done is a round of the loop, and the next, if a request waits when it begins, is
the execution of the oldest. -/
def Served (acts : List Act) : Prop :=
  ∃ waiting rest, acts = .began waiting :: rest ∧
    ∀ request more, waiting = request :: more → ∃ rest', rest = .executed request :: rest'

theorem Path.served {acts before between after : List Act} {act next : Act}
    (hreaches : Reaches setup shards trace s) (hpath : Path setup o s acts t)
    (hacts : acts = before ++ act :: (between ++ next :: after)) (hgives : act.givesTurn = true)
    (hbegan : ∀ waiting, next ≠ .began waiting) (hexecuted : ∀ request, next ≠ .executed request) :
    Served between := by
  obtain ⟨u, events, v, hbefore, hstep, hact, hafter⟩ := hpath.split hacts
  obtain ⟨trace', hreaches'⟩ := hreaches.path hbefore
  rcases hafter.due (due_of_act hreaches' hstep hact hgives) with
    hnil | ⟨waiting, rest, hrest, hserved⟩
  · simp at hnil
  · cases between with
    | nil =>
        rw [List.nil_append, List.cons.injEq] at hrest
        exact absurd hrest.1 (hbegan waiting)
    | cons first between =>
        rw [List.cons_append, List.cons.injEq] at hrest
        obtain ⟨rfl, rfl⟩ := hrest
        refine ⟨waiting, between, rfl, fun request more hwaiting => ?_⟩
        rcases hserved request more hwaiting with hnil | ⟨rest', hrest'⟩
        · simp at hnil
        · cases between with
          | nil =>
              rw [List.nil_append, List.cons.injEq] at hrest'
              exact absurd hrest'.1 (hexecuted request)
          | cons second between =>
              rw [List.cons_append, List.cons.injEq] at hrest'
              exact ⟨between, by rw [hrest'.1]⟩

/-- A reserved owner is not reserved again before it is released. -/
theorem reserved_step (hreserved : (s.owners o).reservation.isSome)
    (hstep : Step setup s events t) :
    ((t.owners o).reservation.isSome ∧
        ∀ id reserved, (s.owners o).act (t.owners o) ≠ some (.handled (.reserve id) reserved)) ∨
      ∃ id reserved, (s.owners o).act (t.owners o) = some (.handled (.release id) reserved) := by
  rcases hstep.acts o with hpaused | howner
  · exact .inl ⟨by rwa [hpaused.reservation], by simp [hpaused.act]⟩
  · cases howner with
    | @control message rest seed owner completion hselect hrunning hcontrols hhandle =>
        have hsame : (s.setOwner o owner).owners o = owner := by simp
        simp only [hsame]
        rw [act_control hselect hcontrols hhandle]
        cases message with
        | reserve id =>
            rw [(Owner.handle_reserve hhandle).1] at hreserved
            cases hreserved
        | prepare id operation nowMs =>
            left
            obtain ⟨-, ⟨failure, -, rfl, -⟩ | ⟨ready, -, rfl, -⟩⟩ := Owner.handle_prepare hhandle
            · exact ⟨hreserved, by simp⟩
            · exact ⟨rfl, by simp⟩
        | apply id =>
            obtain ⟨ready, shard, reply, -, -, rfl, -⟩ := Owner.handle_apply hhandle
            exact .inl ⟨rfl, by simp⟩
        | release id => exact .inr ⟨id, _, rfl⟩
        | stats =>
            obtain ⟨rfl, -⟩ := Owner.handle_stats hhandle
            exact .inl ⟨hreserved, by simp⟩
        | stop =>
            rw [(Owner.handle_stop hhandle).1] at hreserved
            cases hreserved
    | execute hserving hexecute =>
        refine .inl ⟨?_, fun id reserved => ?_⟩
        · rw [(Quiet.answer ..).reservation o]
          simpa using hreserved
        · rcases serving_step hserving hstep with ⟨sample, -, hnone⟩ | hexecuted
          · simp [hnone]
          · simp [hexecuted]
    | _ =>
        left
        simp_all [Owner.act]

theorem Path.released {acts between after : List Act} {id : Nat} {reserved : Bool}
    (hpath : Path setup o s acts t) (hreserved : (s.owners o).reservation.isSome)
    (hacts : acts = between ++ .handled (.reserve id) reserved :: after) :
    ∃ first released kept second, between = first ++ .handled (.release released) kept :: second := by
  induction hpath generalizing between with
  | nil s => simp at hacts
  | @cons s u t events rest hstep hrest ih =>
      rcases reserved_step hreserved hstep with ⟨hstill, hother⟩ | ⟨released, kept, hreleased⟩
      · cases hact : (s.owners o).act (u.owners o) with
        | none =>
            rw [hact, Option.toList_none, List.nil_append] at hacts
            exact ih hstill hacts
        | some act =>
            rw [hact, Option.toList_some, List.singleton_append] at hacts
            cases between with
            | nil =>
                rw [List.nil_append, List.cons.injEq] at hacts
                exact absurd (hact.trans (by rw [hacts.1])) (hother id reserved)
            | cons head between =>
                rw [List.cons_append, List.cons.injEq] at hacts
                obtain ⟨first, released, kept, second, rfl⟩ := ih hstill hacts.2
                exact ⟨head :: first, released, kept, second, rfl⟩
      · rw [hreleased, Option.toList_some, List.singleton_append] at hacts
        cases between with
        | nil =>
            rw [List.nil_append, List.cons.injEq] at hacts
            cases hacts.1
        | cons head between =>
            rw [List.cons_append, List.cons.injEq] at hacts
            exact ⟨[], released, kept, between, by rw [← hacts.1]; rfl⟩

theorem reserved_of_act {id : Nat} {reserved : Bool} (hstep : Step setup s events t)
    (hact : (s.owners o).act (t.owners o) = some (.handled (.reserve id) reserved)) :
    (t.owners o).reservation.isSome := by
  obtain ⟨rest, seed, completion, -, hhandle⟩ := hstep.handled hact
  obtain ⟨-, howner, -⟩ := Owner.handle_reserve hhandle
  rw [howner]
  rfl

/-- Between two reservations of an owner, between two of its ticks and between two statistics it
gives while it is not reserved, the oldest waiting request is executed first. -/
theorem coordination_fair {acts : List Act} (hreaches : Reaches setup shards trace s)
    (hpath : Path setup o s acts t) :
    (∀ before between after id next reserved reserved',
      acts = before ++ .handled (.reserve id) reserved ::
        (between ++ .handled (.reserve next) reserved' :: after) →
      (∃ first released kept second,
        between = first ++ .handled (.release released) kept :: second) ∧
      ∀ first released kept second,
        between = first ++ .handled (.release released) kept :: second → Served second) ∧
    (∀ before between after, acts = before ++ .ticked :: (between ++ .ticked :: after) →
      Served between) ∧
    ∀ before between after, acts = before ++ .handled .stats false ::
      (between ++ .handled .stats false :: after) → Served between := by
  refine ⟨fun before between after id next reserved reserved' hacts => ⟨?_, ?_⟩,
    fun before between after hacts => ?_, fun before between after hacts => ?_⟩
  · obtain ⟨u, events, v, -, hstep, hact, hafter⟩ := hpath.split hacts
    exact hafter.released (reserved_of_act hstep hact) rfl
  · rintro first released kept second rfl
    have hlast : acts = (before ++ .handled (.reserve id) reserved :: first) ++
        .handled (.release released) kept ::
          (second ++ .handled (.reserve next) reserved' :: after) := by
      rw [hacts]
      simp
    exact hpath.served hreaches hlast rfl (by simp) (by simp)
  · exact hpath.served hreaches hacts rfl (by simp) (by simp)
  · exact hpath.served hreaches hacts rfl (by simp) (by simp)

def lonelyShards : Shards 1 := fun _ => ⟨∅, .empty, sampleShardLimits, 0, 0, 0, 0⟩

/-- A request arrives after a tick; the next round of the loop executes it before the next tick. -/
theorem coordination_fair_sample : ∃ acts t,
    Reaches lonelySetup lonelyShards [] (.start lonelyShards 4096 0) ∧
    Path lonelySetup 0 (.start lonelyShards 4096 0) acts t ∧
    acts = [.began []] ++ .ticked ::
      ([.began [lonelyRequest], .executed lonelyRequest] ++ .ticked :: []) ∧
    Served [.began [lonelyRequest], .executed lonelyRequest] := by
  have hadmission : admission lonelySetup false lonelyRequest.operation =
      .acquiring lonelyRequest.operation := lonelyRequest_admission rfl
  have hplace : destination lonelySetup.route lonelyRequest.operation = .owner 0 := by decide
  have hcharge : charge lonelyRequest.operation ≤ 4096 := by decide
  obtain ⟨⟨shard, reply⟩, hlocal, hlater⟩ := @exists_of_okAnd _ _
    (executeLocal (lonelyShards 0) .insertionOrder lonelyRequest.operation 0)
    (fun outcome => okAnd (fun _ => true) (outcome.1.expireDue 0 4)) (by decide +kernel)
  obtain ⟨⟨last, removed⟩, hexpire, -⟩ := exists_of_okAnd hlater
  have hstart : Reaches lonelySetup lonelyShards [] (.start lonelyShards 4096 0) :=
    .start fun _ => rfl
  have hnil : Path lonelySetup 0 (.start lonelyShards 4096 0) [] (.start lonelyShards 4096 0) :=
    .nil _
  have hskip := hnil.snoc (.owner (o := 0) (.skipTurn rfl (.inl rfl)))
  have htick := hskip.snoc (.owner (o := 0) (.tick rfl rfl rfl))
  have hsampleTick := htick.snoc (.owner (o := 0) (.sampleTick rfl))
  have hticked := hsampleTick.snoc (.owner (o := 0) (@OwnerStep.runTick _ _ _ _ _ (lonelyShards 0) 0
    rfl rfl))
  have hsubmit := hticked.snoc (@Step.submit _ _ _ lonelyRequest _ rfl nofun hadmission)
  have hacquire := hsubmit.snoc (.call (@CallStep.acquire _ _ _ 0 lonelyRequest.operation
    (.owner 0) rfl hplace hcharge))
  have hsend := hacquire.snoc (.call (@CallStep.send _ _ _ 0 lonelyRequest.operation (.owner 0) rfl
    hplace (by rintro (h | h) <;> cases h) (by decide)))
  have htake := hsend.snoc (.owner (o := 0) (.takeTurn rfl rfl rfl rfl))
  have hsample := htake.snoc (.owner (o := 0) (.sample rfl))
  have hexecute := hsample.snoc (.owner (o := 0) (.execute rfl hlocal))
  have hagain := hexecute.snoc (.owner (o := 0) (.tick rfl rfl rfl))
  have hsampleAgain := hagain.snoc (.owner (o := 0) (.sampleTick rfl))
  have hpath := hsampleAgain.snoc (.owner (o := 0) (.runTick rfl hexpire))
  exact ⟨_, _, hstart, hpath, rfl, (coordination_fair hstart hpath).2.1 [.began []] _ [] rfl⟩

end Recall.Engine
