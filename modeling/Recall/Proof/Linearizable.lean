import Recall.Proof.ExactlyOnce

/-!
# Linearizability

The commands and ticks of a run take effect in the order of their clock samples. A step that runs
after its sample was overtaken by others shares no owner with them, so the run of the engine agrees
with one that performs every command and tick at the time it sampled.
-/

namespace Recall

/-! ### What a command depends on -/

variable {n : Nat} {route : Bytes → Fin n} {limit : Nat} {shards after other : Shards n}
  {seeds : Fin n → HashSeed} {operation : Operation} {nowMs : I64} {reply : Reply}

theorem applyParts_frame {pairs : List (Part n × Prepared)}
    (happly : applyParts shards pairs = .ok after) {o : Fin n}
    (ho : ∀ pair ∈ pairs, pair.1.owner ≠ o) : after o = shards o := by
  induction pairs generalizing shards with
  | nil =>
      cases happly
      rfl
  | cons pair pairs ih =>
      obtain ⟨part, prepared⟩ := pair
      rw [applyParts] at happly
      obtain ⟨⟨shard, response⟩, -, happly⟩ := bind_eq_ok.mp happly
      rw [ih happly fun later hlater => ho later (List.mem_cons_of_mem _ hlater)]
      exact Function.update_of_ne (ho _ List.mem_cons_self).symm _ _

theorem applyParts_transfer {pairs : List (Part n × Prepared)}
    (happly : applyParts shards pairs = .ok after)
    (hagree : ∀ pair ∈ pairs, other pair.1.owner = shards pair.1.owner) :
    ∃ result, applyParts other pairs = .ok result ∧
      ∀ o, other o = shards o → result o = after o := by
  induction pairs generalizing shards other with
  | nil =>
      cases happly
      exact ⟨other, rfl, fun o ho => ho⟩
  | cons pair pairs ih =>
      obtain ⟨part, prepared⟩ := pair
      rw [applyParts] at happly ⊢
      obtain ⟨⟨shard, response⟩, hshard, happly⟩ := bind_eq_ok.mp happly
      have hupdate : ∀ o, other o = shards o →
          Function.update other part.owner shard o = Function.update shards part.owner shard o := by
        intro o ho
        by_cases heq : o = part.owner
        · subst heq
          simp
        · simp [heq, ho]
      obtain ⟨result, hresult, hsame⟩ := ih happly fun later hlater =>
        hupdate _ (hagree later (List.mem_cons_of_mem _ hlater))
      refine ⟨result, ?_, fun o ho => hsame o (hupdate o ho)⟩
      rw [hagree _ List.mem_cons_self, hshard]
      exact hresult

theorem owner_of_zip {parts : List (Part n)} {prepared : List Prepared}
    (hsplit : split route operation = .ok parts) {pair : Part n × Prepared}
    (hpair : pair ∈ parts.zip prepared) : ∃ key ∈ operation.keys, route key = pair.1.owner :=
  ((split_owners hsplit).2 _).mp (List.mem_map_of_mem (List.of_mem_zip hpair).1)

theorem executeCross_frame
    (hexecute : executeCross route limit shards seeds operation nowMs = .ok (after, reply))
    {o : Fin n} (ho : ¬ ∃ key ∈ operation.keys, route key = o) : after o = shards o := by
  rw [executeCross] at hexecute
  obtain ⟨parts, hsplit, hexecute⟩ := bind_eq_ok.mp hexecute
  obtain ⟨prepared, hprepare, hexecute⟩ := bind_eq_ok.mp hexecute
  cases prepared with
  | error failure =>
      cases hexecute
      rfl
  | ok prepared =>
      obtain ⟨combined, hcombine, hexecute⟩ := bind_eq_ok.mp hexecute
      split at hexecute
      · cases hexecute
        rfl
      · obtain ⟨applied, happly, hexecute⟩ := bind_eq_ok.mp hexecute
        cases hexecute
        refine applyParts_frame happly fun pair hpair heq => ho ?_
        rw [← heq]
        exact owner_of_zip hsplit hpair

/-- A cross-owner command reads and changes the shards of its own keys only. -/
theorem executeCross_transfer
    (hexecute : executeCross route limit shards seeds operation nowMs = .ok (after, reply))
    (hagree : ∀ o, (∃ key ∈ operation.keys, route key = o) → other o = shards o) :
    ∃ result, executeCross route limit other seeds operation nowMs = .ok (result, reply) ∧
      ∀ o, other o = shards o → result o = after o := by
  rw [executeCross] at hexecute ⊢
  obtain ⟨parts, hsplit, hexecute⟩ := bind_eq_ok.mp hexecute
  obtain ⟨prepared, hprepare, hexecute⟩ := bind_eq_ok.mp hexecute
  have hparts : ∀ part ∈ parts, other part.owner = shards part.owner := fun part hpart =>
    hagree _ (((split_owners hsplit).2 _).mp (List.mem_map_of_mem hpart))
  simp only [hsplit, Engine.prepareParts_congr hparts, hprepare, bind, Except.bind]
  cases prepared with
  | error failure =>
      cases hexecute
      exact ⟨other, rfl, fun o ho => ho⟩
  | ok prepared =>
      obtain ⟨combined, hcombine, hexecute⟩ := bind_eq_ok.mp hexecute
      simp only [hcombine]
      split at hexecute
      · next hexceeds =>
          cases hexecute
          exact ⟨other, by rw [if_pos hexceeds]; rfl, fun o ho => ho⟩
      · next hfits =>
          obtain ⟨applied, happly, hexecute⟩ := bind_eq_ok.mp hexecute
          cases hexecute
          obtain ⟨result, hresult, hsame⟩ := applyParts_transfer happly fun pair hpair =>
            hparts _ (List.of_mem_zip hpair).1
          exact ⟨result, by rw [if_neg hfits, hresult]; rfl, hsame⟩

namespace Engine

open Interleaving

variable {setup : Setup n} {base : Shards n} {trace events : List (Event n)} {s s' : System n}

/-- The owners a command or a tick has to do with. -/
def touches (setup : Setup n) : Subject n → Set (Fin n)
  | .command request => {o | ∃ key ∈ request.operation.keys, setup.route key = o}
  | .tick o => {o}

theorem touches_local {request : Request} {o : Fin n}
    (hplace : destination setup.route request.operation = .owner o) :
    touches setup (.command request) = {o} := by
  ext p
  refine ⟨fun ⟨key, hkey, hroute⟩ => ?_, ?_⟩
  · exact hroute.symm.trans (destination_owner hplace key hkey)
  · rintro rfl
    cases hkeys : request.operation.keys with
    | nil => simp [destination, hkeys] at hplace
    | cons key keys =>
        have hkey : key ∈ request.operation.keys := by simp [hkeys]
        exact ⟨key, hkey, destination_owner hplace key hkey⟩

theorem performs_local (setup : Setup n) :
    Local (Performs setup) fun effect => touches setup effect.mark.subject where
  frame {before after effect} hperforms o ho := by
    cases hperforms with
    | tick hexpire => exact Function.update_of_ne ho _ _
    | @command request nowMs seeds _ reply hexecute =>
        rw [executeSharded] at hexecute
        split at hexecute
        · cases hexecute
          rfl
        · next p hplace =>
            obtain ⟨⟨shard, response⟩, -, hexecute⟩ := bind_eq_ok.mp hexecute
            cases hexecute
            refine Function.update_of_ne (fun heq => ho ?_) _ _
            subst heq
            exact (touches_local hplace).symm ▸ Set.mem_singleton o
        · exact executeCross_frame hexecute ho
  transfer {before after other effect} hperforms hagree := by
    cases hperforms with
    | @tick o nowMs shard removed hexpire =>
        rw [← hagree o (Set.mem_singleton o)] at hexpire
        refine ⟨Function.update other o shard, .tick hexpire, fun p hp => ?_⟩
        obtain rfl := Set.mem_singleton_iff.mp hp
        simp
    | @command request nowMs seeds _ reply hexecute =>
        rw [executeSharded] at hexecute
        split at hexecute
        · next hplace =>
            cases hexecute
            have hother : executeSharded setup.route setup.maxReplyBytes other seeds
                request.operation nowMs = .ok (other, .errorText "ERR empty key set") := by
              rw [executeSharded, hplace]
            exact ⟨other, .command hother, hagree⟩
        · next p hplace =>
            obtain ⟨⟨shard, response⟩, hlocal, hexecute⟩ := bind_eq_ok.mp hexecute
            cases hexecute
            have howned : touches setup (.command request) = {p} := touches_local hplace
            have hshard : other p = before p := hagree p (howned ▸ Set.mem_singleton p)
            have hother : executeSharded setup.route setup.maxReplyBytes other seeds
                request.operation nowMs = .ok (Function.update other p shard, reply) := by
              simp only [executeSharded, hplace, hshard, hlocal]
              rfl
            refine ⟨Function.update other p shard, .command hother, fun q hq => ?_⟩
            obtain rfl : q = p := by
              rw [← Set.mem_singleton_iff, ← howned]
              exact hq
            simp
        · next hplace =>
            obtain ⟨result, hresult, hsame⟩ := executeCross_transfer hexecute hagree
            have hother : executeSharded setup.route setup.maxReplyBytes other seeds
                request.operation nowMs = .ok (result, reply) := by
              rw [executeSharded, hplace]
              exact hresult
            exact ⟨result, .command hother, fun o ho => hsame o (hagree o ho)⟩

/-! ### Clock samples -/

/-- The sample the position goes on to use on owner `o`. -/
def Position.sampled (o : Fin n) : Position → Option (Mark n)
  | .serving request (some nowMs) _ => some ⟨.command request, nowMs⟩
  | .ticking (some nowMs) => some ⟨.tick o, nowMs⟩
  | _ => none

def Coordinator.sampled : Coordinator n → Option (Mark n)
  | .working job =>
      match job.phase with
      | .prepare nowMs _ | .apply nowMs _ => some ⟨.command job.request, nowMs⟩
      | .reserve | .release _ => none
  | _ => none

/-- What has sampled the clock and not taken effect yet. -/
def System.sampled (s : System n) : Destination n → Option (Mark n)
  | .nowhere => none
  | .owner o => (s.owners o).position.sampled o
  | .cross => s.coordinator.sampled

theorem System.sampled_setOwner (s : System n) (o : Fin n) (owner : Owner) :
    (s.setOwner o owner).sampled =
      Function.update s.sampled (.owner o) (owner.position.sampled o) := by
  funext place
  cases place with
  | nowhere => simp [sampled]
  | owner p =>
      by_cases hp : p = o
      · subst hp
        simp [sampled]
      · simp [sampled, hp]
  | cross => simp [sampled]

theorem System.sampled_setOwner_of_eq {o : Fin n} {owner : Owner}
    (hposition : owner.position.sampled o = (s.owners o).position.sampled o) :
    (s.setOwner o owner).sampled = s.sampled := by
  rw [sampled_setOwner, hposition]
  exact Function.update_eq_self (.owner o) s.sampled

theorem System.sampled_setCoordinator (s : System n) (coordinator : Coordinator n) :
    { s with coordinator }.sampled = Function.update s.sampled .cross coordinator.sampled := by
  funext place
  cases place <;> simp [sampled]

theorem System.sampled_setCoordinator_of_eq {coordinator : Coordinator n}
    (hsampled : coordinator.sampled = s.coordinator.sampled) :
    { s with coordinator }.sampled = s.sampled := by
  rw [sampled_setCoordinator, hsampled]
  exact Function.update_eq_self Destination.cross s.sampled

theorem Quiet.sampled (hquiet : Quiet s s') : s'.sampled = s.sampled := by
  funext place
  cases place with
  | nowhere => rfl
  | owner o => simp [System.sampled, hquiet.position]
  | cross => simp [System.sampled, hquiet.coordinator]

theorem Job.receive_sampled (job : Job n) (completion : Completion) :
    (Coordinator.working (job.receive completion)).sampled =
      (Coordinator.working job).sampled := by
  unfold receive
  split <;> simp_all [Coordinator.sampled]

theorem Coordinator.complete_sampled (coordinator : Coordinator n) (o : Fin n) (message : Control)
    (completion : Option Completion) :
    (coordinator.complete o message completion).sampled = coordinator.sampled := by
  obtain hsame | ⟨job, answer, hjob, -, -, hnext⟩ :=
    coordinator.complete_cases o message completion
  · rw [hsame]
  · rw [hnext, hjob, Job.receive_sampled]

/-- A step samples the clock for a command or tick, or performs one that was sampled, or neither. -/
inductive Samples (s : System n) (events : List (Event n)) (s' : System n) : Prop
  | silent (hexecuted : executedIn events = []) (hsampled : s'.sampled = s.sampled)
  | sample (place : Destination n) {mark : Mark n} (hexecuted : executedIn events = [])
      (hnow : mark.nowMs = s.clock)
      (hsampled : s'.sampled = Function.update s.sampled place (some mark))
  | perform (place : Destination n) {effect : Effect n} (hexecuted : executedIn events = [effect])
      (hmark : s.sampled place = some effect.mark)
      (hsampled : s'.sampled = Function.update s.sampled place none)

theorem OwnerStep.samples {o : Fin n} (hstep : OwnerStep setup s o events s') :
    Samples s events s' := by
  cases hstep with
  | skipTurn hposition | emptyTurn hposition | takeTurn hposition | controlsClosed hposition
  | tick hposition | takeData hposition | exit hposition =>
      refine .silent rfl (System.sampled_setOwner_of_eq ?_)
      rw [hposition]
      rfl
  | @control message rest seed owner completion hselect hrunning hcontrols hhandle =>
      have hposition : owner.position = .top := (Owner.handle_frame hhandle).2.2.2.1
      refine .silent rfl ((System.sampled_setCoordinator_of_eq (s := s.setOwner o owner) ?_).trans
        (System.sampled_setOwner_of_eq ?_))
      · exact s.coordinator.complete_sampled o message completion
      · rw [hposition, hselect]
        rfl
  | sampleTick hticking => exact .sample (.owner o) rfl rfl (s.sampled_setOwner o _)
  | sample hserving => exact .sample (.owner o) rfl rfl (s.sampled_setOwner o _)
  | runTick hticking hexpire =>
      refine .perform (.owner o) rfl ?_ (s.sampled_setOwner o _)
      simp [System.sampled, hticking, Position.sampled, tickEffect]
  | @execute request nowMs turn seed shard reply hserving hexecute =>
      refine .perform (.owner o) rfl ?_ ((Quiet.answer ..).sampled.trans ?_)
      · simp [System.sampled, hserving, Position.sampled, commandEffect]
      · rw [System.sampled_setOwner]
        cases turn <;> rfl

theorem CoordinatorStep.samples (hstep : CoordinatorStep setup s events s') :
    Samples s events s' := by
  cases hstep with
  | closeCross hidle => exact .silent rfl (System.sampled_setCoordinator_of_eq rfl)
  | coordinate hidle | finish hidle =>
      refine .silent rfl (System.sampled_setCoordinator_of_eq ?_)
      rw [hidle]
      rfl
  | @instruct job part rest hworking =>
      refine .silent rfl ((System.sampled_setCoordinator_of_eq (s := s.setOwner part.owner _)
        ?_).trans (System.sampled_setOwner_of_eq rfl))
      simp [hworking, Coordinator.sampled]
  | reserved hworking htodo hphase =>
      exact .sample .cross rfl rfl (System.sampled_setCoordinator s _)
  | failed hworking htodo hphase | oversized hworking htodo hphase
  | applied hworking htodo hphase =>
      refine .perform .cross rfl ?_ (System.sampled_setCoordinator s _)
      simp [System.sampled, hworking, Coordinator.sampled, hphase, commandEffect]
  | decided hworking htodo hphase =>
      refine .silent rfl (System.sampled_setCoordinator_of_eq ?_)
      simp [hworking, Coordinator.sampled, hphase, Job.enter]
  | released hworking htodo hphase =>
      refine .silent rfl ((Quiet.answer ..).sampled.trans (System.sampled_setCoordinator_of_eq ?_))
      simp [hworking, Coordinator.sampled, hphase]

theorem Step.samples (hstep : Step setup s events s') : Samples s events s' := by
  cases hstep with
  | call hstep =>
      refine .silent ?_ hstep.quiet.sampled
      cases hstep <;> rfl
  | owner hstep => exact hstep.samples
  | coordinator hstep => exact hstep.samples
  | shutdown hstep =>
      refine .silent rfl ?_
      cases hstep with
      | stopOwner => exact System.sampled_setOwner_of_eq rfl
      | _ => rfl
  | stats => exact .silent rfl (System.sampled_setOwner_of_eq rfl)
  | advance | abandon => exact .silent rfl rfl

theorem Step.clock_le (hstep : Step setup s events s') : s.clock ≤ s'.clock := by
  cases hstep with
  | call hstep => exact hstep.quiet.clock.ge
  | owner hstep =>
      cases hstep with
      | execute => exact (Quiet.answer ..).clock.ge
      | _ => exact le_rfl
  | coordinator hstep =>
      cases hstep with
      | released => exact (Quiet.answer ..).clock.ge
      | _ => exact le_rfl
  | shutdown hstep => cases hstep <;> exact le_rfl
  | advance hle => exact hle
  | stats | abandon => exact le_rfl

theorem Samples.kept (h : Samples s events s') {place : Destination n} {mark : Mark n}
    (hmark : s'.sampled place = some mark) :
    s.sampled place = some mark ∨ mark.nowMs = s.clock := by
  cases h with
  | silent hexecuted hsampled => exact .inl (hsampled ▸ hmark)
  | sample other hexecuted hnow hsampled =>
      rw [hsampled, Function.update_apply] at hmark
      split at hmark
      · cases hmark
        exact .inr hnow
      · exact .inl hmark
  | perform other hexecuted _ hsampled =>
      rw [hsampled, Function.update_apply] at hmark
      split at hmark
      · cases hmark
      · exact .inl hmark

theorem Samples.performed (h : Samples s events s') {effect : Effect n}
    (heffect : effect ∈ executedIn events) :
    executedIn events = [effect] ∧ ∃ place, s.sampled place = some effect.mark ∧
      s'.sampled = Function.update s.sampled place none := by
  cases h with
  | silent hexecuted | sample _ hexecuted =>
      rw [hexecuted] at heffect
      cases heffect
  | perform place hexecuted hmark hsampled =>
      rw [hexecuted] at heffect
      obtain rfl := List.mem_singleton.mp heffect
      exact ⟨hexecuted, place, hmark, hsampled⟩

/-! ### Who may overtake whom -/

theorem Coordinator.sampled_eq_some {coordinator : Coordinator n} {mark : Mark n}
    (hmark : coordinator.sampled = some mark) :
    ∃ job, coordinator = .working job ∧ mark.subject = .command job.request ∧
      job.phase ≠ .reserve ∧ ∀ reply, job.phase ≠ .release reply := by
  cases coordinator with
  | idle | finished => cases hmark
  | working job =>
      refine ⟨job, rfl, ?_⟩
      simp only [sampled] at hmark
      split at hmark
      · next hphase =>
          cases hmark
          simp [hphase]
      · next hphase =>
          cases hmark
          simp [hphase]
      · cases hmark
      · cases hmark

theorem System.held_of_sampled {place : Destination n} {request : Request} {nowMs : I64}
    (hmark : s.sampled place = some ⟨.command request, nowMs⟩) : request ∈ s.held place := by
  cases place with
  | nowhere => cases hmark
  | owner o =>
      simp only [sampled] at hmark
      unfold Position.sampled at hmark
      split at hmark
      · next hposition =>
          cases hmark
          simp [held, Owner.held, hposition]
      · cases hmark
      · cases hmark
  | cross =>
      obtain ⟨job, hworking, hsubject, -⟩ := Coordinator.sampled_eq_some hmark
      cases hsubject
      simp [held, hworking]

/-- An owner that has sampled the clock is not reserved, and works on its own shard only. -/
theorem Invariant.touches_owner (h : Invariant setup trace base s) {o : Fin n} {mark : Mark n}
    (hmark : s.sampled (.owner o) = some mark) :
    touches setup mark.subject = {o} ∧ (s.owners o).reservation = none := by
  have hbusy : (s.owners o).position ≠ .top ∧ (s.owners o).position ≠ .select := by
    constructor <;> intro hposition <;> simp [System.sampled, hposition, Position.sampled] at hmark
  refine ⟨?_, h.protocol.free_of_busy rfl hbusy.1 hbusy.2⟩
  obtain ⟨subject, nowMs⟩ := mark
  cases subject with
  | command request =>
      exact touches_local (h.queues.destination_of_held (System.held_of_sampled hmark))
  | tick p =>
      obtain rfl : o = p := by
        simp only [System.sampled] at hmark
        unfold Position.sampled at hmark
        split at hmark <;> simp_all
      rfl

/-- A coordinated command samples the clock while all its owners are reserved. -/
theorem Invariant.touches_cross (h : Invariant setup trace base s) {mark : Mark n}
    (hmark : s.sampled .cross = some mark) {o : Fin n} (ho : o ∈ touches setup mark.subject) :
    (s.owners o).reservation ≠ none := by
  obtain ⟨job, hworking, hsubject, hreserve, hrelease⟩ := Coordinator.sampled_eq_some hmark
  have hengages := h.protocol.engages
  rw [hworking] at hengages
  obtain ⟨seeds, prepared, hengaged⟩ := hengages
  rw [hsubject] at ho
  have hstands := hengaged.stands o (((split_owners hengaged.split).2 o).mpr ho)
  intro hfree
  rw [hfree] at hstands
  rcases hstands.phase_of_free with hphase | ⟨reply, hphase⟩
  · exact hreserve hphase
  · exact hrelease reply hphase

/-- What has sampled the clock in two places has nothing in common. -/
theorem Invariant.apart (h : Invariant setup trace base s) {place other : Destination n}
    {mark second : Mark n} (hne : place ≠ other) (hmark : s.sampled place = some mark)
    (hsecond : s.sampled other = some second) :
    Disjoint (touches setup mark.subject) (touches setup second.subject) := by
  cases place with
  | nowhere => cases hmark
  | owner o =>
      obtain ⟨howned, hfree⟩ := h.touches_owner hmark
      rw [howned, Set.disjoint_singleton_left]
      cases other with
      | nowhere => cases hsecond
      | owner p =>
          rw [(h.touches_owner hsecond).1]
          exact fun heq => hne (congrArg Destination.owner (Set.mem_singleton_iff.mp heq))
      | cross => exact fun ho => h.touches_cross hsecond ho hfree
  | cross =>
      cases other with
      | nowhere => cases hsecond
      | owner p =>
          obtain ⟨howned, hfree⟩ := h.touches_owner hsecond
          rw [howned, Set.disjoint_singleton_right]
          exact fun hp => h.touches_cross hmark hp hfree
      | cross => exact absurd rfl hne

/-! ### The events around a submission -/

theorem Step.events_cases (hstep : Step setup s events s') :
    events = [] ∨ (∃ event, events = [event]) ∨
      ∃ effect request reply, events = [.executed effect, .completed request reply] := by
  cases hstep with
  | call hstep => cases hstep <;> simp
  | owner hstep => cases hstep <;> simp
  | coordinator hstep => cases hstep <;> simp
  | shutdown | advance | stats | abandon => exact .inl rfl

/-- The state in which an event of a run happened, the sending of a reply apart. -/
theorem Reaches.at_event {before after : List (Event n)} {event : Event n}
    (hreaches : Reaches setup shards (before ++ event :: after) s)
    (hevent : ∀ request reply, event ≠ .completed request reply) :
    ∃ t events t', Reaches setup shards before t ∧ Step setup t (event :: events) t' := by
  generalize htrace : before ++ event :: after = trace at hreaches
  induction hreaches generalizing before after with
  | start hnew => simp at htrace
  | @step trace events t t' hbefore hstep ih =>
      rcases List.append_eq_append_iff.mp htrace with
        ⟨rest, htrace, hrest⟩ | ⟨missing, hbefore', hevents⟩
      · cases rest with
        | nil =>
            rw [List.append_nil] at htrace
            subst htrace
            rw [List.nil_append] at hrest
            exact ⟨t, after, t', hbefore, hrest ▸ hstep⟩
        | cons first rest =>
            obtain ⟨rfl, hrest⟩ := List.cons.inj hrest
            exact ih htrace.symm
      · cases missing with
        | nil =>
            rw [List.append_nil] at hbefore'
            subst hbefore'
            rw [List.nil_append] at hevents
            exact ⟨t, after, t', hbefore, hevents ▸ hstep⟩
        | cons first missing =>
            -- Only a completion stands behind another event of the same step.
            rcases hstep.events_cases with
              hnil | ⟨single, hsingle⟩ | ⟨effect, request, reply, hpair⟩
            · simp [hnil] at hevents
            · simp [hsingle] at hevents
            · rw [hpair] at hevents
              cases missing with
              | nil =>
                  simp only [List.cons_append, List.nil_append, List.cons.injEq] at hevents
                  exact absurd hevents.2.1.symm (hevent request reply)
              | cons second missing => simp at hevents

theorem Step.submitted (hstep : Step setup s events s') {request : Request}
    (hsubmitted : .submitted request ∈ events) :
    events = [.submitted request] ∧ s.calls request.call = .unused := by
  cases hstep with
  | call hstep =>
      cases hstep with
      | submit hunused =>
          cases List.mem_singleton.mp hsubmitted
          exact ⟨rfl, hunused⟩
      | _ => simp at hsubmitted
  | owner hstep => cases hstep <;> simp at hsubmitted
  | coordinator hstep => cases hstep <;> simp at hsubmitted
  | shutdown | advance | stats | abandon => simp at hsubmitted

/-- A request that was accepted is not submitted again. -/
theorem Invariant.not_submitted (h : Invariant setup trace base s)
    (hstep : Step setup s events s') {request : Request}
    (haccepted : Accepted (trace ++ events) request.call) : .submitted request ∉ events := by
  intro hsubmitted
  obtain ⟨rfl, hunused⟩ := hstep.submitted hsubmitted
  have hfits := h.calls.fits request.call
  rw [hunused] at hfits
  rcases accepted_append.mp haccepted with hold | ⟨other, hnew, -⟩
  · exact hfits.1 hold
  · cases hnew

theorem Invariant.accepted_of_sampled (h : Invariant setup trace base s) {place : Destination n}
    {mark : Mark n} {request : Request} (hmark : s.sampled place = some mark)
    (hsubject : mark.subject = .command request) : Accepted trace request.call := by
  obtain ⟨subject, nowMs⟩ := mark
  cases hsubject
  exact (unanswered_of_held h.queues h.calls (System.held_of_sampled hmark)).1

theorem Invariant.accepted_of_effect (h : Invariant setup trace base s) {effect : Effect n}
    {request : Request} (heffect : effect ∈ executedIn trace)
    (hsubject : effect.mark.subject = .command request) : request ∈ acceptedIn trace :=
  h.queues.accepted_of_executed
    (mem_commandsIn.mpr ⟨effect, mem_executedIn.mp heffect, hsubject⟩)

/-! ### Samples and the clock -/

/-- The sample was taken after everything that took effect before the request was submitted. -/
def Late (trace : List (Event n)) (mark : Mark n) : Prop :=
  ∀ request before after, mark.subject = .command request →
    trace = before ++ .submitted request :: after →
      ∀ effect ∈ executedIn before, effect.mark.nowMs ≤ mark.nowMs

theorem Late.append {mark : Mark n} (h : Late trace mark)
    (hevents : ∀ request, mark.subject = .command request → .submitted request ∉ events) :
    Late (trace ++ events) mark := by
  intro request before after hsubject htrace
  have hnot := hevents request hsubject
  rcases List.append_eq_append_iff.mp htrace with
    ⟨missing, hbefore, hafter⟩ | ⟨missing, htrace, hafter⟩
  · rw [hafter] at hnot
    simp at hnot
  · cases missing with
    | nil =>
        rw [← List.nil_append events, ← hafter] at hnot
        simp at hnot
    | cons first missing =>
        obtain ⟨rfl, -⟩ := List.cons.inj hafter
        exact h request before missing hsubject htrace

theorem late_of_le {mark : Mark n}
    (h : ∀ effect ∈ executedIn trace, effect.mark.nowMs ≤ mark.nowMs) : Late trace mark := by
  rintro request before after - rfl effect heffect
  refine h effect ?_
  rw [executedIn_append]
  exact List.mem_append_left _ heffect

structure Clocked (setup : Setup n) (trace : List (Event n)) (s : System n) : Prop where
  executed : ∀ effect ∈ executedIn trace, effect.mark.nowMs ≤ s.clock
  sampled : ∀ place mark, s.sampled place = some mark → mark.nowMs ≤ s.clock
  apart : ∀ place mark, s.sampled place = some mark → ∀ effect ∈ executedIn trace,
    mark.nowMs < effect.mark.nowMs →
      Disjoint (touches setup effect.mark.subject) (touches setup mark.subject)
  overtaken : (executedIn trace).Pairwise fun first second =>
    second.mark.nowMs < first.mark.nowMs →
      Disjoint (touches setup first.mark.subject) (touches setup second.mark.subject)
  sampledLate : ∀ place mark, s.sampled place = some mark → Late trace mark
  executedLate : ∀ effect ∈ executedIn trace, Late trace effect.mark

namespace Clocked

theorem start (setup : Setup n) (shards : Shards n) (queueBytes : Nat) (clock : I64) :
    Clocked setup [] (.start shards queueBytes clock) := by
  have hnone : ∀ place mark, (System.start shards queueBytes clock).sampled place ≠ some mark := by
    intro place mark hmark
    cases place <;> cases hmark
  exact ⟨by simp [executedIn], fun place mark hmark => absurd hmark (hnone place mark),
    fun place mark hmark => absurd hmark (hnone place mark), .nil,
    fun place mark hmark => absurd hmark (hnone place mark), by simp [executedIn]⟩

theorem step {base' : Shards n} (h : Clocked setup trace s) (hbefore : Invariant setup trace base s)
    (hafter : Invariant setup (trace ++ events) base' s') (hstep : Step setup s events s') :
    Clocked setup (trace ++ events) s' := by
  have hsamples := hstep.samples
  have hpast : ∀ effect ∈ executedIn (trace ++ events), effect.mark.nowMs ≤ s.clock := by
    intro effect heffect
    rw [executedIn_append] at heffect
    rcases List.mem_append.mp heffect with hold | hnew
    · exact h.executed effect hold
    · obtain ⟨-, place, hmark, -⟩ := hsamples.performed hnew
      exact h.sampled place effect.mark hmark
  refine ⟨fun effect heffect => (hpast effect heffect).trans hstep.clock_le,
    fun place mark hmark => ?_, fun place mark hmark effect heffect hlt => ?_, ?_,
    fun place mark hmark => ?_, fun effect heffect => ?_⟩
  · rcases hsamples.kept hmark with hold | hnow
    · exact (h.sampled place mark hold).trans hstep.clock_le
    · exact hnow.le.trans hstep.clock_le
  · rcases hsamples.kept hmark with hold | hnow
    · rw [executedIn_append] at heffect
      rcases List.mem_append.mp heffect with hpassed | hnew
      · exact h.apart place mark hold effect hpassed hlt
      · obtain ⟨-, other, hother, hsampled⟩ := hsamples.performed hnew
        refine hbefore.apart (fun heq => ?_) hother hold
        rw [hsampled, ← heq, Function.update_self] at hmark
        cases hmark
    · exact absurd (hpast effect heffect) (not_le.mpr (hnow ▸ hlt))
  · rw [executedIn_append]
    refine List.pairwise_append.mpr ⟨h.overtaken, ?_, fun first hfirst second hsecond hlt => ?_⟩
    · cases hnew : executedIn events with
      | nil => exact .nil
      | cons effect effects =>
          have hsingle := (hsamples.performed (hnew ▸ List.mem_cons_self)).1
          rw [← hnew, hsingle]
          exact List.pairwise_singleton ..
    · obtain ⟨-, place, hmark, -⟩ := hsamples.performed hsecond
      exact h.apart place second.mark hmark first hfirst hlt
  · rcases hsamples.kept hmark with hold | hnow
    · refine (h.sampledLate place mark hold).append fun request hsubject => ?_
      exact hbefore.not_submitted hstep (hafter.accepted_of_sampled hmark hsubject)
    · refine late_of_le fun effect heffect => ?_
      rw [hnow]
      exact hpast effect heffect
  · have hlate : Late trace effect.mark := by
      rw [executedIn_append] at heffect
      rcases List.mem_append.mp heffect with hold | hnew
      · exact h.executedLate effect hold
      · obtain ⟨-, place, hmark, -⟩ := hsamples.performed hnew
        exact h.sampledLate place effect.mark hmark
    refine hlate.append fun request hsubject => ?_
    exact hbefore.not_submitted hstep
      ⟨request, hafter.accepted_of_effect heffect hsubject, rfl⟩

end Clocked

theorem Reaches.clocked (hreaches : Reaches setup shards trace s) : Clocked setup trace s := by
  induction hreaches with
  | start hnew => exact .start ..
  | step hbefore hstep ih =>
      obtain ⟨base, h, -⟩ := hbefore.invariant
      obtain ⟨base', h', -⟩ := h.step hstep
      exact ih.step h h' hstep

/-! ### Real time -/

/-- The first call got its reply before the second request was submitted. -/
def Precedes (trace : List (Event n)) (earlier later : Request) : Prop :=
  ∃ before after reply, trace = before ++ .submitted later :: after ∧
    .returned earlier.call reply ∈ before

/-- Nothing takes effect for a call that has returned. -/
theorem Reaches.executed_of_returned {before after : List (Event n)} {effect : Effect n}
    {request : Request} (hreaches : Reaches setup shards (before ++ after) s)
    (hsubject : effect.mark.subject = .command request)
    (hreturned : request.call ∈ returnedIn before) : effect ∉ executedIn after := by
  intro heffect
  obtain ⟨passed, rest, hafter⟩ := List.append_of_mem (mem_executedIn.mp heffect)
  rw [hafter, ← List.append_assoc] at hreaches
  obtain ⟨t, events, t', hprefix, hstep⟩ := hreaches.at_event (by simp)
  obtain ⟨base, h, -⟩ := hprefix.invariant
  obtain ⟨-, place, hmark, -⟩ := hstep.samples.performed (mem_executedIn.mpr List.mem_cons_self)
  obtain ⟨⟨subject, nowMs⟩, reply⟩ := effect
  cases hsubject
  have hunreturned := (unanswered_of_held h.queues h.calls (System.held_of_sampled hmark)).2.2
  rw [returnedIn_append] at hunreturned
  exact hunreturned (List.mem_append_left _ hreturned)

/-- Nothing takes effect for a request that was not submitted. -/
theorem Reaches.executed_of_submitted {before after : List (Event n)} {effect : Effect n}
    {request : Request} (hreaches : Reaches setup shards (before ++ .submitted request :: after) s)
    (hsubject : effect.mark.subject = .command request) : effect ∉ executedIn before := by
  intro heffect
  obtain ⟨t, events, t', hprefix, hstep⟩ := hreaches.at_event (by simp)
  obtain ⟨base, h, -⟩ := hprefix.invariant
  have hfits := h.calls.fits request.call
  rw [(hstep.submitted List.mem_cons_self).2] at hfits
  exact hfits.1 ⟨request, h.accepted_of_effect heffect hsubject, rfl⟩

theorem Reaches.schedule_precedes (hreaches : Reaches setup shards trace s)
    {earlier later : Request} (hprecedes : Precedes trace earlier later) {first second : Effect n}
    (hfirst : first ∈ executedIn trace) (hsecond : second ∈ executedIn trace)
    (hearlier : first.mark.subject = .command earlier)
    (hlater : second.mark.subject = .command later) :
    [first, second].Sublist (schedule (fun effect => effect.mark.nowMs) (executedIn trace)) := by
  obtain ⟨before, after, reply, rfl, hreturned⟩ := hprecedes
  have hbefore : first ∈ executedIn before := by
    rw [executedIn_append] at hfirst
    refine (List.mem_append.mp hfirst).resolve_right ?_
    exact hreaches.executed_of_returned hearlier (mem_returnedIn.mpr ⟨reply, hreturned⟩)
  have hle : first.mark.nowMs ≤ second.mark.nowMs :=
    hreaches.clocked.executedLate second hsecond later before after hlater rfl first hbefore
  rw [executedIn_append] at hsecond ⊢
  refine schedule_keeps hbefore ((List.mem_append.mp hsecond).resolve_left ?_) hle
  exact hreaches.executed_of_submitted hlater

/-! ### One order for everything -/

def Effect.request? (effect : Effect n) : Option Request :=
  match effect.mark.subject with
  | .command request => some request
  | .tick _ => none

theorem commandsIn_eq (trace : List (Event n)) :
    commandsIn trace = (executedIn trace).filterMap Effect.request? := by
  rw [commandsIn, executedIn, List.filterMap_filterMap]
  congr 1
  funext event
  cases event with
  | executed effect =>
      obtain ⟨⟨subject, nowMs⟩, reply⟩ := effect
      cases subject <;> rfl
  | _ => rfl

theorem Invariant.commands_nodup (h : Invariant setup trace base s) : (commandsIn trace).Nodup := by
  refine List.nodup_iff_count_le_one.mpr fun request => ?_
  have hbound : (boundFor setup (destination setup.route request.operation)
      (commandsIn trace)).Nodup :=
    (h.queues.commands_prefix _).sublist.nodup (h.calls.distinct.of_map.filter _)
  calc
    (commandsIn trace).count request = (boundFor setup (destination setup.route request.operation)
        (commandsIn trace)).count request := (List.count_filter (by simp)).symm
    _ ≤ 1 := List.nodup_iff_count_le_one.mp hbound request

theorem linearizable (hreaches : Reaches setup shards trace s) :
    ∃ order final,
      order.Perm (executedIn trace) ∧
      (order.filterMap Effect.request?).Nodup ∧
      (∀ earlier later, Precedes trace earlier later → ∀ first ∈ order, ∀ second ∈ order,
        first.mark.subject = .command earlier → second.mark.subject = .command later →
          [first, second].Sublist order) ∧
      (order.Pairwise fun first second => first.mark.nowMs ≤ second.mark.nowMs) ∧
      Runs (Performs setup) shards order final ∧
      (∀ request reply, .completed request reply ∈ trace →
        ∃ nowMs, commandEffect request nowMs reply ∈ order) ∧
      (∀ call reply, .returned call reply ∈ trace →
        (reply ∈ refusals ∧
          ∀ effect ∈ order, ∀ request, effect.mark.subject = .command request →
            request.call ≠ call) ∨
        ∃ request nowMs, request.call = call ∧ commandEffect request nowMs reply ∈ order) ∧
      ((∀ job, s.coordinator ≠ .working job) → s.shards = final) := by
  obtain ⟨base, h, hruns⟩ := hreaches.invariant
  have hclocked := hreaches.clocked
  have hperm := schedule_perm (fun effect : Effect n => effect.mark.nowMs) (executedIn trace)
  refine ⟨schedule (fun effect => effect.mark.nowMs) (executedIn trace), base, hperm, ?_,
    fun earlier later hprecedes first hfirst second hsecond => ?_, schedule_sorted ..,
    hruns.schedule (performs_local setup) hclocked.overtaken, fun request reply hcompleted => ?_,
    fun call reply hreturned => ?_, fun hidle => ?_⟩
  · rw [(hperm.filterMap _).nodup_iff, ← commandsIn_eq]
    exact h.commands_nodup
  · exact hreaches.schedule_precedes hprecedes (hperm.mem_iff.mp hfirst) (hperm.mem_iff.mp hsecond)
  · obtain ⟨nowMs, hexecuted⟩ := hreaches.records.completed request reply hcompleted
    exact ⟨nowMs, hperm.mem_iff.mpr (mem_executedIn.mpr hexecuted)⟩
  · rcases h.calls.returned call reply hreturned with
      ⟨hunaccepted, hrefusal⟩ | ⟨request, hcall, hcompleted⟩
    · refine .inl ⟨hrefusal, fun effect heffect request hsubject hcall => hunaccepted ?_⟩
      exact ⟨request, h.accepted_of_effect (hperm.mem_iff.mp heffect) hsubject, hcall⟩
    · obtain ⟨nowMs, hexecuted⟩ := hreaches.records.completed request reply hcompleted
      exact .inr ⟨request, nowMs, hcall, hperm.mem_iff.mpr (mem_executedIn.mpr hexecuted)⟩
  · have hengages := h.protocol.engages
    funext o
    cases hcoordinator : s.coordinator with
    | working job => exact absurd hcoordinator (hidle job)
    | idle | finished =>
        rw [hcoordinator] at hengages
        exact (hengages o).2

theorem eq_pair_of_sorted {order : List (Effect n)} {first second : Effect n}
    (hperm : order.Perm [second, first])
    (hsorted : order.Pairwise fun first second => first.mark.nowMs ≤ second.mark.nowMs)
    (hlt : first.mark.nowMs < second.mark.nowMs) : order = [first, second] := by
  have hswap := hperm.trans (.swap first second [])
  refine hswap.eq_of_pairwise (fun a b ha hb hab hba => ?_) hsorted (by simp [hlt.le])
  have hmem := hswap.mem_iff.mp ha
  simp only [List.mem_cons, List.not_mem_nil, or_false] at hmem hb
  rcases hmem with rfl | rfl <;> rcases hb with rfl | rfl
  · rfl
  · exact absurd hba (not_le.mpr hlt)
  · exact absurd hab (not_le.mpr hlt)
  · rfl

/-- A command has sampled the clock when the tick of the other owner overtakes it. -/
theorem linearizable_sample : ∃ shards trace s reply, Reaches sampleSetup shards trace s ∧
    executedIn trace = [tickEffect 1 1, commandEffect lonelyRequest 0 reply] ∧
    .returned 0 reply ∈ trace ∧
    Runs (Performs sampleSetup) shards [commandEffect lonelyRequest 0 reply, tickEffect 1 1]
      s.shards := by
  have hplace : destination sampleSetup.route lonelyRequest.operation = .owner 0 := by decide
  have hcharge : charge lonelyRequest.operation ≤ 4096 := by decide
  obtain ⟨shard, reply, hlocal⟩ := lonelyRequest_executes
  obtain ⟨⟨ticked, removed⟩, hexpire, -⟩ := @exists_of_okAnd _ _
    (Shard.expireDue ⟨∅, .empty, sampleShardLimits, 0, 0, 0, 0⟩ 1 4) (fun _ => true)
    (by decide +kernel)
  have hstart : Reaches sampleSetup
      (fun _ => ⟨∅, .empty, sampleShardLimits, 0, 0, 0, 0⟩) [] (.start _ 4096 0) :=
    .start fun _ => rfl
  have hsubmit := @Reaches.submit _ _ _ _ _ hstart lonelyRequest _ rfl nofun
    (lonelyRequest_admission rfl)
  have hacquire := hsubmit.step (.call (@CallStep.acquire _ _ _ 0 lonelyRequest.operation
    (.owner 0) rfl hplace hcharge))
  have hsend := hacquire.step (.call (@CallStep.send _ _ _ 0 lonelyRequest.operation (.owner 0) rfl
    hplace (by rintro (h | h) <;> cases h) (by decide)))
  have hskip := hsend.step (.owner (o := 0) (.skipTurn rfl (.inl rfl)))
  have htake := hskip.step (.owner (o := 0) (.takeData rfl rfl rfl))
  have hsample := htake.step (.owner (o := 0) (.sample rfl))
  have hadvance := hsample.step (@Step.advance _ _ _ 1 (by decide))
  have hother := hadvance.step (.owner (o := 1) (.skipTurn rfl (.inl rfl)))
  have htick := (hother.step (.owner (o := 1) (.tick rfl rfl rfl))).step
    (.owner (o := 1) (.sampleTick rfl))
  have hticked := htick.step (.owner (o := 1) (.runTick rfl hexpire))
  have hexecute := hticked.step (.owner (o := 0) (.execute rfl hlocal))
  have hreaches := hexecute.step (.call (@CallStep.deliver _ _ _ 0 reply rfl))
  obtain ⟨order, final, hperm, -, -, hsorted, hruns, -, -, hidle⟩ := linearizable hreaches
  refine ⟨_, _, _, reply, hreaches, rfl, by simp, ?_⟩
  have hlt : (0 : I64) < 1 := by decide
  have horder : order = [commandEffect lonelyRequest 0 reply, tickEffect 1 1] :=
    eq_pair_of_sorted hperm hsorted hlt
  rw [hidle (fun job => nofun), ← horder]
  exact hruns

end Engine

end Recall
