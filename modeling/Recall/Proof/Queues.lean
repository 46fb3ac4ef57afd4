import Recall.Proof.Shutdown

/-!
# What becomes of accepted requests

Every destination works off its requests in the order it accepted them: what it accepted is what it
completed followed by what it still holds. A call is accepted at most once, and one that still waits
for its reply is held somewhere.
-/

namespace Recall.Engine

variable {n : Nat} {setup : Setup n} {s s' : System n} {trace events : List (Event n)}

@[simp] theorem executedIn_append (a b : List (Event n)) :
    executedIn (a ++ b) = executedIn a ++ executedIn b := List.filterMap_append ..

@[simp] theorem commandsIn_append (a b : List (Event n)) :
    commandsIn (a ++ b) = commandsIn a ++ commandsIn b := List.filterMap_append ..

@[simp] theorem acceptedIn_append (a b : List (Event n)) :
    acceptedIn (a ++ b) = acceptedIn a ++ acceptedIn b := List.filterMap_append ..

@[simp] theorem completedIn_append (a b : List (Event n)) :
    completedIn (a ++ b) = completedIn a ++ completedIn b := List.filterMap_append ..

@[simp] theorem boundFor_append (place : Destination n) (a b : List Request) :
    boundFor setup place (a ++ b) = boundFor setup place a ++ boundFor setup place b :=
  List.filter_append ..

@[simp] theorem boundFor_nil (place : Destination n) : boundFor setup place [] = [] := rfl

theorem mem_boundFor {place : Destination n} {requests : List Request} {request : Request} :
    request ∈ boundFor setup place requests ↔
      request ∈ requests ∧ destination setup.route request.operation = place := by
  simp [boundFor]

theorem boundFor_singleton (place : Destination n) (request : Request) :
    boundFor setup place [request] =
      if destination setup.route request.operation = place then [request] else [] := by
  by_cases h : destination setup.route request.operation = place <;> simp [boundFor, h]

theorem mem_completedIn {request : Request} :
    request ∈ completedIn trace ↔ ∃ reply, .completed request reply ∈ trace := by
  simp only [completedIn, List.mem_filterMap]
  constructor
  · rintro ⟨event, hevent, hrequest⟩
    cases event <;> simp_all
    exact ⟨_, hevent⟩
  · exact fun ⟨reply, hevent⟩ => ⟨_, hevent, rfl⟩

/-! ### First in, first out -/

/-- The coordinated command that has taken effect and is not answered yet. -/
def Job.underway (job : Job n) : List Request :=
  match job.phase with
  | .release _ => [job.request]
  | _ => []

def System.underway (s : System n) : Destination n → List Request
  | .cross =>
      match s.coordinator with
      | .working job => job.underway
      | _ => []
  | _ => []

structure Queues (setup : Setup n) (trace : List (Event n)) (s : System n) : Prop where
  fifo : ∀ place, boundFor setup place (acceptedIn trace) =
    boundFor setup place (completedIn trace) ++ s.held place
  progress : ∀ place, boundFor setup place (commandsIn trace) =
    boundFor setup place (completedIn trace) ++ s.underway place
  drained : ∀ place, s.terminated place → s.held place = []

/-- What a step adds to and takes from the requests in hand is what its events say. -/
structure Balanced (setup : Setup n) (events : List (Event n)) (s s' : System n) : Prop where
  held : ∀ place, s.held place ++ boundFor setup place (acceptedIn events) =
    boundFor setup place (completedIn events) ++ s'.held place
  underway : ∀ place, s.underway place ++ boundFor setup place (commandsIn events) =
    boundFor setup place (completedIn events) ++ s'.underway place

theorem Queues.step (h : Queues setup trace s) (hbalanced : Balanced setup events s s')
    (hdrained : ∀ place, s'.terminated place → s'.held place = [] ∨
      s.terminated place ∧ boundFor setup place (acceptedIn events) = []) :
    Queues setup (trace ++ events) s' where
  fifo place := by
    rw [acceptedIn_append, completedIn_append, boundFor_append, boundFor_append, h.fifo,
      List.append_assoc, hbalanced.held, List.append_assoc]
  progress place := by
    rw [commandsIn_append, completedIn_append, boundFor_append, boundFor_append, h.progress,
      List.append_assoc, hbalanced.underway, List.append_assoc]
  drained place hterminated := by
    rcases hdrained place hterminated with hheld | ⟨hbefore, haccepted⟩
    · exact hheld
    · have hbalance := hbalanced.held place
      rw [h.drained place hbefore, haccepted] at hbalance
      exact (List.append_eq_nil_iff.mp hbalance.symm).2

theorem Queues.destination_of_held (h : Queues setup trace s) {place : Destination n}
    {request : Request} (hheld : request ∈ s.held place) :
    destination setup.route request.operation = place := by
  have hmem : request ∈ boundFor setup place (acceptedIn trace) := by
    rw [h.fifo]
    exact List.mem_append_right _ hheld
  exact (mem_boundFor.mp hmem).2

namespace System

@[simp] theorem held_setCall (s : System n) (call : Nat) (state : Call) :
    (s.setCall call state).held = s.held := rfl

@[simp] theorem underway_setCall (s : System n) (call : Nat) (state : Call) :
    (s.setCall call state).underway = s.underway := rfl

theorem held_setOwner (s : System n) (o : Fin n) (owner : Owner) :
    (s.setOwner o owner).held = Function.update s.held (.owner o) owner.held := by
  funext place
  cases place with
  | nowhere => simp [held]
  | owner p =>
      by_cases hp : p = o
      · subst hp
        simp [held]
      · simp [held, hp]
  | cross => simp [held]

theorem held_setOwner_of_eq {o : Fin n} {owner : Owner} (hheld : owner.held = (s.owners o).held) :
    (s.setOwner o owner).held = s.held := by
  rw [held_setOwner, hheld]
  exact Function.update_eq_self ..

@[simp] theorem underway_setOwner (s : System n) (o : Fin n) (owner : Owner) :
    (s.setOwner o owner).underway = s.underway := rfl

@[simp] theorem held_setCredits (s : System n) (credits : Nat) (place : Destination n) :
    (s.setCredits credits place).held = s.held := by
  cases place with
  | nowhere => rfl
  | owner o => exact held_setOwner_of_eq rfl
  | cross => rfl

@[simp] theorem underway_setCredits (s : System n) (credits : Nat) (place : Destination n) :
    (s.setCredits credits place).underway = s.underway := by
  cases place <;> rfl

@[simp] theorem held_returnCredits (s : System n) (setup : Setup n) (operation : Operation) :
    (s.returnCredits setup operation).held = s.held := held_setCredits ..

@[simp] theorem underway_returnCredits (s : System n) (setup : Setup n) (operation : Operation) :
    (s.returnCredits setup operation).underway = s.underway := underway_setCredits ..

@[simp] theorem held_answer (s : System n) (setup : Setup n) (request : Request) (reply : Reply) :
    (s.answer setup request reply).held = s.held := held_returnCredits ..

@[simp] theorem underway_answer (s : System n) (setup : Setup n) (request : Request)
    (reply : Reply) : (s.answer setup request reply).underway = s.underway :=
  underway_returnCredits ..

@[simp] theorem underway_push (s : System n) (request : Request) (place : Destination n) :
    (s.push request place).underway = s.underway := by
  cases place <;> rfl

theorem held_push (s : System n) (request : Request) {place : Destination n}
    (hplace : place ≠ .nowhere) :
    (s.push request place).held =
      Function.update s.held place (s.held place ++ [request]) := by
  cases place with
  | nowhere => exact absurd rfl hplace
  | owner o =>
      rw [push, held_setOwner]
      congr 1
      simp only [held, Owner.held]
      split <;> simp
  | cross =>
      funext q
      cases q with
      | nowhere => simp [held]
      | owner p => simp [held, push]
      | cross =>
          simp only [held, push, Function.update_self, List.filterMap_append]
          split <;> rfl

end System

theorem Balanced.silent (hheld : s'.held = s.held) (hunderway : s'.underway = s.underway)
    (haccepted : acceptedIn events = []) (hcompleted : completedIn events = [])
    (hcommands : commandsIn events = []) : Balanced setup events s s' := by
  constructor <;> intro place <;> simp [*]

theorem Job.receive_request (job : Job n) (completion : Completion) :
    (job.receive completion).request = job.request := by
  unfold receive
  split <;> rfl

theorem Job.receive_underway (job : Job n) (completion : Completion) :
    (job.receive completion).underway = job.underway := by
  unfold receive
  split <;> simp_all [underway]

theorem Coordinator.complete_cases (coordinator : Coordinator n) (o : Fin n) (message : Control)
    (completion : Option Completion) :
    coordinator.complete o message completion = coordinator ∨
      ∃ job answer, coordinator = .working job ∧ completion = some answer ∧
        job.awaits o message = true ∧
        coordinator.complete o message completion = .working (job.receive answer) := by
  unfold complete
  cases completion with
  | none => exact .inl rfl
  | some answer =>
      cases coordinator with
      | idle | finished => exact .inl rfl
      | working job =>
          by_cases hawaits : job.awaits o message = true
          · exact .inr ⟨job, answer, rfl, rfl, hawaits, by simp [hawaits]⟩
          · exact .inl (by simp [hawaits])

theorem System.held_setJob {job next : Job n} (hworking : s.coordinator = .working job)
    (hrequest : next.request = job.request) :
    { s with coordinator := .working next }.held = s.held := by
  funext place
  cases place with
  | nowhere | owner p => rfl
  | cross => simp [held, hworking, hrequest]

theorem System.underway_setJob {job next : Job n} (hworking : s.coordinator = .working job)
    (hunderway : next.underway = job.underway) :
    { s with coordinator := .working next }.underway = s.underway := by
  funext place
  cases place with
  | nowhere | owner p => rfl
  | cross => simp [underway, hworking, hunderway]

theorem System.held_complete (s : System n) (o : Fin n) (message : Control)
    (completion : Option Completion) :
    { s with coordinator := s.coordinator.complete o message completion }.held = s.held := by
  obtain hsame | ⟨job, answer, hworking, -, -, hnext⟩ :=
    s.coordinator.complete_cases o message completion
  · rw [hsame]
  · rw [hnext]
    exact held_setJob hworking (job.receive_request answer)

theorem System.underway_complete (s : System n) (o : Fin n) (message : Control)
    (completion : Option Completion) :
    { s with coordinator := s.coordinator.complete o message completion }.underway =
      s.underway := by
  obtain hsame | ⟨job, answer, hworking, -, -, hnext⟩ :=
    s.coordinator.complete_cases o message completion
  · rw [hsame]
  · rw [hnext]
    exact underway_setJob hworking (job.receive_underway answer)

/-! ### Every step is balanced -/

theorem CallStep.balanced
    (hrouted : ∀ call operation, s.calls call = .sending operation →
      destination setup.route operation ≠ .nowhere)
    (hstep : CallStep setup s events s') : Balanced setup events s s' := by
  cases hstep with
  | submit | refuse | deliver | acquire | reject | timeOutAcquiring | timeOutSending
  | dropAcquiring | dropSending | dropWaiting | dropReplied =>
      exact .silent (by simp) (by simp) rfl rfl rfl
  | @send call operation place hcall hplace hopen hroom =>
      have hknown : place ≠ .nowhere := hplace ▸ hrouted call operation hcall
      constructor <;> intro q
      · rw [System.held_setCall, System.held_push s _ hknown]
        change s.held q ++ boundFor setup q [⟨call, operation⟩] = _
        rw [boundFor_singleton, hplace]
        by_cases hq : place = q
        · subst hq
          simp [completedIn]
        · simp [completedIn, hq, Ne.symm hq]
      · simp [commandsIn, completedIn]

theorem OwnerStep.balanced {o : Fin n} (h : Queues setup trace s)
    (hstep : OwnerStep setup s o events s') : Balanced setup events s s' := by
  cases hstep with
  | skipTurn htop | emptyTurn htop =>
      refine .silent (System.held_setOwner_of_eq ?_) rfl rfl rfl rfl
      simp [Owner.held, htop]
  | takeTurn htop hturn hfree hdata =>
      refine .silent (System.held_setOwner_of_eq ?_) rfl rfl rfl rfl
      simp [Owner.held, htop, hdata]
  | control hselect hrunning hcontrols hhandle =>
      obtain ⟨hdata, -, -, hposition, -⟩ := Owner.handle_frame hhandle
      refine .silent ?_ (System.underway_complete (s.setOwner o _) ..) rfl rfl rfl
      refine (System.held_complete (s.setOwner o _) ..).trans (System.held_setOwner_of_eq ?_)
      simp [Owner.held, hdata, hposition, hselect]
  | controlsClosed hselect | tick hselect =>
      refine .silent (System.held_setOwner_of_eq ?_) rfl rfl rfl rfl
      simp [Owner.held, hselect]
  | sampleTick hticking | runTick hticking =>
      refine .silent (System.held_setOwner_of_eq ?_) rfl rfl rfl rfl
      simp [Owner.held, hticking]
  | takeData hselect hfree hdata =>
      refine .silent (System.held_setOwner_of_eq ?_) rfl rfl rfl rfl
      simp [Owner.held, hselect, hdata]
  | sample hserving =>
      refine .silent (System.held_setOwner_of_eq ?_) rfl rfl rfl rfl
      simp [Owner.held, hserving]
  | exit hselect hfree hdata hclosed =>
      refine .silent (System.held_setOwner_of_eq ?_) rfl rfl rfl rfl
      simp [Owner.held, hselect]
  | @execute request nowMs turn seed shard reply hserving hexecute =>
      have hheld : s.held (.owner o) = request :: (s.owners o).data := by
        simp [System.held, Owner.held, hserving]
      have hplace : destination setup.route request.operation = .owner o :=
        h.destination_of_held (by simp [hheld])
      have hnext : (if turn = true then Position.select else .top) = .select ∨
          (if turn = true then Position.select else .top) = .top := by
        cases turn <;> simp
      constructor <;> intro q
      · change s.held q ++ [] = boundFor setup q [request] ++ _
        rw [System.held_answer, System.held_setOwner, boundFor_singleton, hplace]
        by_cases hq : .owner o = q
        · subst hq
          rcases hnext with hnext | hnext <;> simp [hheld, Owner.held, hnext]
        · simp [hq, Ne.symm hq]
      · rw [System.underway_answer, System.underway_setOwner]
        change s.underway q ++ boundFor setup q [request] = boundFor setup q [request] ++ _
        cases q with
        | cross => simp [boundFor_singleton, hplace]
        | nowhere | owner p => simp [System.underway]

theorem Queues.destination_of_working (h : Queues setup trace s) {job : Job n}
    (hworking : s.coordinator = .working job) :
    destination setup.route job.request.operation = .cross :=
  h.destination_of_held (by simp [System.held, hworking])

/-- The step at which a coordinated command takes effect. -/
theorem Queues.balanced_release (h : Queues setup trace s) {job : Job n} {nowMs : I64}
    {reply : Reply} (hworking : s.coordinator = .working job) (hunderway : job.underway = []) :
    Balanced setup [.executed (commandEffect job.request nowMs reply)] s
      { s with coordinator := .working (job.enter (.release reply)) } := by
  have hplace := h.destination_of_working hworking
  constructor <;> intro place
  · rw [@System.held_setJob n s job (job.enter (.release reply)) hworking rfl]
    simp [acceptedIn, completedIn]
  · change s.underway place ++ boundFor setup place [job.request] = _
    rw [boundFor_singleton, hplace]
    cases place with
    | nowhere | owner p => simp [System.underway, completedIn]
    | cross =>
        simp only [System.underway, hworking, hunderway, completedIn]
        rfl

theorem CoordinatorStep.balanced (h : Queues setup trace s)
    (hstep : CoordinatorStep setup s events s') : Balanced setup events s s' := by
  cases hstep with
  | closeCross hidle hcross | coordinate hidle hcross | finish hidle hcross =>
      refine .silent ?_ ?_ rfl rfl rfl <;> funext place <;> cases place <;>
        simp [System.held, System.underway, hidle, hcross, List.filterMap_cons,
          CrossRequest.request?, Job.start,
          Job.underway]
  | @instruct job part rest hworking hready htodo halive hroom =>
      refine .silent ?_ ?_ rfl rfl rfl
      · refine (System.held_setJob (s := s.setOwner _ _) hworking rfl).trans ?_
        exact System.held_setOwner_of_eq rfl
      · exact System.underway_setJob (s := s.setOwner _ _) hworking rfl
  | reserved hworking htodo hphase | decided hworking htodo hphase =>
      refine .silent (System.held_setJob hworking rfl) (System.underway_setJob hworking ?_) rfl
        rfl rfl
      simp [Job.underway, Job.enter, hphase]
  | failed hworking htodo hphase | oversized hworking htodo hphase
  | applied hworking htodo hphase =>
      exact h.balanced_release hworking (by simp [Job.underway, hphase])
  | @released job reply hworking htodo hphase =>
      have hplace := h.destination_of_working hworking
      constructor <;> intro place
      · rw [System.held_answer]
        change s.held place ++ [] = boundFor setup place [job.request] ++ _
        rw [boundFor_singleton, hplace]
        cases place <;> simp [System.held, hworking]
      · rw [System.underway_answer]
        change s.underway place ++ [] = boundFor setup place [job.request] ++ _
        rw [boundFor_singleton, hplace]
        cases place <;> simp [System.underway, Job.underway, hworking, hphase]

theorem ShutdownStep.balanced (hstep : ShutdownStep setup s s') : Balanced setup [] s s' := by
  cases hstep with
  | beginShutdown | joinCoordinator | joinOwners => exact .silent rfl rfl rfl rfl rfl
  | sendStop hstage hopen hroom =>
      refine .silent ?_ rfl rfl rfl rfl
      funext place
      cases place with
      | nowhere | owner p => rfl
      | cross => simp [System.held, List.filterMap_cons, CrossRequest.request?]
  | stopOwner hstage halive hroom =>
      exact .silent (System.held_setOwner_of_eq (s := s) rfl) rfl rfl rfl rfl

theorem Quiet.terminated (hquiet : Quiet s s') (place : Destination n) :
    s'.terminated place ↔ s.terminated place := by
  cases place with
  | nowhere => exact Iff.rfl
  | owner o => simp [System.terminated, hquiet.position]
  | cross => simp [System.terminated, hquiet.coordinator]

theorem System.terminated_setOwner {o : Fin n} {owner : Owner}
    (hposition : owner.position ≠ .exited) (place : Destination n)
    (hterminated : (s.setOwner o owner).terminated place) : s.terminated place := by
  cases place with
  | nowhere => exact hterminated
  | owner p =>
      by_cases hp : p = o
      · subst hp
        exact absurd (by simpa [terminated] using hterminated) hposition
      · simpa [terminated, hp] using hterminated
  | cross => exact hterminated

theorem CallStep.queues
    (hrouted : ∀ call operation, s.calls call = .sending operation →
      destination setup.route operation ≠ .nowhere)
    (h : Queues setup trace s) (hstep : CallStep setup s events s') :
    Queues setup (trace ++ events) s' := by
  have hterminated := hstep.quiet.terminated
  refine h.step (hstep.balanced hrouted) fun place hafter => .inr ⟨(hterminated place).mp hafter, ?_⟩
  cases hstep with
  | @send call operation target hcall hplace hopen hroom =>
      change boundFor setup place [⟨call, operation⟩] = []
      rw [boundFor_singleton, hplace]
      refine if_neg ?_
      rintro rfl
      have hbefore := (hterminated target).mp hafter
      cases target with
      | nowhere => exact hbefore
      | owner o => exact hopen (.inr hbefore)
      | cross => exact hopen (.inr hbefore)
  | _ => rfl

theorem OwnerStep.queues {o : Fin n} (h : Queues setup trace s)
    (hstep : OwnerStep setup s o events s') : Queues setup (trace ++ events) s' := by
  refine h.step (hstep.balanced h) fun place hafter => ?_
  cases hstep with
  | skipTurn | emptyTurn | takeTurn | tick | sampleTick | runTick | takeData | sample
  | controlsClosed =>
      exact .inr ⟨System.terminated_setOwner (by simp) place hafter, rfl⟩
  | @control message rest seed owner completion hselect hrunning hcontrols hhandle =>
      obtain ⟨-, -, -, hposition, -⟩ := Owner.handle_frame hhandle
      refine .inr ⟨?_, rfl⟩
      cases place with
      | cross => exact (Coordinator.complete_eq_finished ..).mp hafter
      | nowhere => exact hafter
      | owner p =>
          exact @System.terminated_setOwner n s o owner (by simp [hposition]) (.owner p) hafter
  | execute hserving hexecute =>
      refine .inr ⟨System.terminated_setOwner ?_ place
        (((Quiet.answer ..).terminated place).mp hafter), rfl⟩
      simp only
      split <;> simp
  | exit hselect hfree hdata hclosed =>
      cases place with
      | nowhere => exact hafter.elim
      | cross => exact .inr ⟨hafter, rfl⟩
      | owner p =>
          by_cases hp : p = o
          · subst hp
            exact .inl (by simp [System.held, Owner.held, hdata])
          · exact .inr ⟨by simpa [System.terminated, hp] using hafter, rfl⟩

theorem CoordinatorStep.queues (h : Queues setup trace s)
    (hstep : CoordinatorStep setup s events s') : Queues setup (trace ++ events) s' := by
  refine h.step (hstep.balanced h) fun place hafter => ?_
  cases hstep with
  | closeCross | coordinate | reserved | failed | oversized | decided | applied =>
      cases place with
      | nowhere => exact hafter.elim
      | owner p => exact .inr ⟨hafter, rfl⟩
      | cross => simp_all [System.terminated]
  | finish hidle hcross hclosed =>
      cases place with
      | nowhere => exact hafter.elim
      | owner p => exact .inr ⟨hafter, rfl⟩
      | cross => exact .inl (by simp [System.held, hcross])
  | @instruct job part rest hworking hready htodo halive hroom =>
      cases place with
      | nowhere => exact hafter.elim
      | owner p =>
          refine .inr ⟨?_, rfl⟩
          by_cases hp : p = part.owner
          · subst hp
            exact absurd (by simpa [System.terminated] using hafter) halive
          · simpa [System.terminated, hp] using hafter
      | cross => simp [System.terminated] at hafter
  | released hworking htodo hphase =>
      have hbefore := ((Quiet.answer ..).terminated place).mp hafter
      cases place with
      | nowhere => exact hbefore.elim
      | owner p => exact .inr ⟨hbefore, rfl⟩
      | cross => simp [System.terminated] at hbefore

theorem ShutdownStep.queues (h : Queues setup trace s) (hstep : ShutdownStep setup s s') :
    Queues setup (trace ++ []) s' := by
  refine h.step hstep.balanced fun place hafter => .inr ⟨?_, rfl⟩
  cases hstep with
  | beginShutdown | sendStop | joinCoordinator | joinOwners => cases place <;> exact hafter
  | @stopOwner o remaining hstage halive hroom =>
      cases place with
      | nowhere => exact hafter
      | cross => exact hafter
      | owner p =>
          by_cases hp : p = o
          · subst hp
            exact absurd (by simpa [System.terminated] using hafter) halive
          · simpa [System.terminated, hp] using hafter

theorem Step.queues
    (hrouted : ∀ call operation, s.calls call = .sending operation →
      destination setup.route operation ≠ .nowhere)
    (h : Queues setup trace s) (hstep : Step setup s events s') :
    Queues setup (trace ++ events) s' := by
  cases hstep with
  | call hstep => exact hstep.queues hrouted h
  | owner hstep => exact hstep.queues h
  | coordinator hstep => exact hstep.queues h
  | shutdown hstep => exact hstep.queues h
  | advance | abandon =>
      exact h.step (.silent rfl rfl rfl rfl rfl) fun place hafter =>
        .inr ⟨by cases place <;> exact hafter, rfl⟩
  | stats hhandle halive hroom =>
      exact h.step (.silent (System.held_setOwner_of_eq rfl) rfl rfl rfl rfl) fun place hafter =>
        .inr ⟨System.terminated_setOwner (by exact halive) place hafter, rfl⟩

theorem Queues.start (setup : Setup n) (shards : Shards n) (queueBytes : Nat) (clock : I64) :
    Queues setup [] (.start shards queueBytes clock) where
  fifo place := by cases place <;> rfl
  progress place := by cases place <;> rfl
  drained place hterminated := by cases place <;> cases hterminated

end Recall.Engine
