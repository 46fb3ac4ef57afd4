import Recall.Proof.ExactlyOnce
import Recall.Lib.Draining
import Mathlib.Algebra.BigOperators.Group.Finset.Basic

/-!
# The engine's work in hand

Each step of the owners, the coordinator and a shutdown under way uses up some of the work they have
in hand. Work is counted in steps: what a message or a request costs is what its handling takes,
with the messages it leads to.
-/

namespace Recall.Engine

open Draining

variable {n : Nat} {setup : Setup n} {shards : Shards n} {trace events : List (Event n)}
  {s s' t : System n}

/-! ### Work in hand -/

/-- How many steps the loop takes from here until it is gone, if nothing is left to receive. -/
def Position.work : Position → Nat
  | .exited => 0
  | .select => 1
  | .top => 2
  | .serving _ none turn => if turn then 3 else 4
  | .serving _ (some _) turn => if turn then 2 else 3
  | .ticking none => 4
  | .ticking (some _) => 3

def Owner.work (owner : Owner) : Nat :=
  4 * owner.data.length + 2 * owner.controls.length + (if owner.stopping then 0 else 2) +
    owner.position.work

/-- What is left once the loop of this phase is done: a round over all the parts for each loop that
follows. -/
def Phase.work (parts : Nat) : Phase → Nat
  | .reserve => 12 * parts + 5
  | .prepare _ _ => 8 * parts + 4
  | .apply _ _ => 4 * parts + 3
  | .release _ => 2

/-- A part costs the sending of its message, the handling of it and the two steps that bring the
owner back to its queues. -/
def Job.work (job : Job n) : Nat :=
  4 * job.todo.length - (if job.awaiting then 3 else 0) + job.phase.work job.parts.length

def Coordinator.work : Coordinator n → Nat
  | .idle => 1
  | .working job => job.work
  | .finished => 0

/-- The work a cross-owner command brings if all owners take part. -/
def crossWork (n : Nat) : Nat := 16 * n + 5

def CrossRequest.work (n : Nat) : CrossRequest → Nat
  | .execute _ => crossWork n
  | .stop => 1

def Stage.work : Stage n → Nat
  | .closing => 3 * n + 4
  | .draining => 3 * n + 2
  | .stopping remaining => 3 * remaining.length + 1
  | .running | .stopped | .abandoned => 0

namespace System

def work (s : System n) : Nat :=
  ∑ o, (s.owners o).work + s.coordinator.work + (s.cross.map (CrossRequest.work n)).sum +
    s.stage.work

theorem sum_setOwner (s : System n) (o : Fin n) (owner : Owner) :
    ∑ p, ((s.setOwner o owner).owners p).work + (s.owners o).work =
      ∑ p, (s.owners p).work + owner.work := by
  have hupdate : (fun p => ((s.setOwner o owner).owners p).work) =
      Function.update (fun p => (s.owners p).work) o owner.work := by
    funext p
    by_cases hp : p = o <;> simp [hp]
  have hsum := Finset.add_sum_erase Finset.univ (fun p => (s.owners p).work) (Finset.mem_univ o)
  rw [hupdate, Finset.sum_update_of_mem (Finset.mem_univ o), Finset.sdiff_singleton_eq_erase]
  omega

theorem work_setOwner (s : System n) (o : Fin n) (owner : Owner) :
    (s.setOwner o owner).work + (s.owners o).work = s.work + owner.work := by
  have hsum := s.sum_setOwner o owner
  simp only [work, setOwner_coordinator, setOwner_cross, setOwner_stage]
  omega

theorem work_setOwner_lt {o : Fin n} {owner : Owner} (hless : owner.work < (s.owners o).work) :
    (s.setOwner o owner).work < s.work := by
  have hsum := s.work_setOwner o owner
  omega

theorem work_setOwner_le {o : Fin n} {owner : Owner} {more : Nat}
    (hle : owner.work ≤ (s.owners o).work + more) : (s.setOwner o owner).work ≤ s.work + more := by
  have hsum := s.work_setOwner o owner
  omega

/-- Sending a control message. -/
theorem work_send (s : System n) (o : Fin n) (message : Control) :
    (s.setOwner o { s.owners o with controls := (s.owners o).controls ++ [message] }).work =
      s.work + 2 := by
  have hsum := s.work_setOwner o { s.owners o with controls := (s.owners o).controls ++ [message] }
  have howner : Owner.work { s.owners o with controls := (s.owners o).controls ++ [message] } =
      (s.owners o).work + 2 := by
    simp only [Owner.work, List.length_append, List.length_singleton]
    omega
  rw [howner] at hsum
  omega

theorem work_setCall (s : System n) (call : Nat) (state : Call) :
    (s.setCall call state).work = s.work := rfl

theorem work_setCredits (s : System n) (credits : Nat) (place : Destination n) :
    (s.setCredits credits place).work = s.work := by
  cases place with
  | nowhere | cross => rfl
  | owner o =>
      have hsum := s.work_setOwner o { s.owners o with credits }
      have hsame : Owner.work { s.owners o with credits } = (s.owners o).work := rfl
      change (s.setOwner o { s.owners o with credits }).work = s.work
      omega

theorem work_answer (s : System n) (setup : Setup n) (request : Request) (reply : Reply) :
    (s.answer setup request reply).work = s.work := by
  rw [answer, work_setCall, returnCredits, work_setCredits]

end System

/-! ### Steps of the engine's own -/

/-- What the owners, the coordinator and a shutdown that has begun do by themselves. A tick is
begun by the timer. -/
inductive Works (setup : Setup n) (s : System n) : List (Event n) → System n → Prop
  | owner {o : Fin n} {events : List (Event n)} {s' : System n}
      (hstep : OwnerStep setup s o events s') (htick : (s'.owners o).position ≠ .ticking none) :
      Works setup s events s'
  | coordinator {events : List (Event n)} {s' : System n}
      (hstep : CoordinatorStep setup s events s') : Works setup s events s'
  | shutdown {s' : System n} (hstep : ShutdownStep setup s s') (hbegun : s.stage ≠ .running) :
      Works setup s [] s'

theorem Works.step (hworks : Works setup s events s') : Step setup s events s' := by
  cases hworks with
  | owner hstep => exact .owner hstep
  | coordinator hstep => exact .coordinator hstep
  | shutdown hstep => exact .shutdown hstep

theorem Job.work_receive (job : Job n) (completion : Completion) :
    (job.receive completion).work ≤ job.work := by
  have hparts : (job.receive completion).parts = job.parts := by
    unfold receive
    split <;> rfl
  have hphase : (job.receive completion).phase.work job.parts.length =
      job.phase.work job.parts.length := by
    unfold receive
    split <;> simp_all [Phase.work]
  have htodo : (job.receive completion).todo.length ≤ job.todo.length - 1 := by
    unfold receive
    split <;> simp
  unfold work
  rw [hparts, hphase, job.receive_awaiting completion]
  simp only [Bool.false_eq_true, ↓reduceIte]
  split <;> omega

theorem Coordinator.work_complete (coordinator : Coordinator n) (o : Fin n) (message : Control)
    (completion : Option Completion) :
    (coordinator.complete o message completion).work ≤ coordinator.work := by
  rcases coordinator.complete_cases o message completion with hsame | ⟨job, answer, rfl, -, -, hnext⟩
  · rw [hsame]
  · rw [hnext]
    exact job.work_receive answer

/-- An owner's step uses up some of its own work; the coordinator may be told of it. -/
theorem OwnerStep.work_lt {o : Fin n} (hstep : OwnerStep setup s o events s')
    (htick : (s'.owners o).position ≠ .ticking none) : s'.work < s.work := by
  cases hstep with
  | tick hselect hfree hrunning => simp at htick
  | skipTurn htop hskip | emptyTurn htop hturn hfree hempty =>
      apply System.work_setOwner_lt
      simp [Owner.work, htop, Position.work]
  | takeTurn htop hturn hfree hdata =>
      apply System.work_setOwner_lt
      simp only [Owner.work, htop, hdata, Position.work, List.length_cons, ↓reduceIte]
      omega
  | @control message rest seed owner completion hselect hrunning hcontrols hhandle =>
      obtain ⟨hdata, -, hkept, hposition, hstopping⟩ := Owner.handle_frame hhandle
      have hless : owner.work < (s.owners o).work := by
        simp only [Owner.work, hselect, hrunning, hcontrols, hdata, hkept, hposition,
          Position.work, List.length_cons, Bool.false_eq_true, ↓reduceIte]
        split <;> omega
      have hsum := System.work_setOwner_lt hless
      have hcoordinator := s.coordinator.work_complete o message completion
      simp only [System.work, System.setOwner_coordinator, System.setOwner_cross,
        System.setOwner_stage] at hsum ⊢
      omega
  | controlsClosed hselect hrunning hcontrols hdisconnected hfree =>
      apply System.work_setOwner_lt
      simp [Owner.work, hselect, hrunning, Position.work]
  | sampleTick hticking | runTick hticking hexpire =>
      apply System.work_setOwner_lt
      simp [Owner.work, hticking, Position.work]
  | takeData hselect hfree hdata =>
      apply System.work_setOwner_lt
      simp only [Owner.work, hselect, hdata, Position.work, List.length_cons, Bool.false_eq_true,
        ↓reduceIte]
      omega
  | @sample request turn hserving =>
      apply System.work_setOwner_lt
      cases turn <;> simp [Owner.work, hserving, Position.work]
  | @execute request nowMs turn seed shard reply hserving hexecute =>
      rw [System.work_answer]
      apply System.work_setOwner_lt
      cases turn <;> simp [Owner.work, hserving, Position.work]
  | exit hselect hfree hdata hclosed =>
      apply System.work_setOwner_lt
      simp only [Owner.work, hselect, hdata, Position.work, List.length_nil]
      omega

theorem length_le_of_split {operation : Operation} {parts : List (Part n)}
    (hsplit : split setup.route operation = .ok parts) : parts.length ≤ n := by
  have hnodup := (split_owners hsplit).1
  simpa using hnodup.length_le_card

theorem Job.work_enter_lt {job : Job n} {phase : Phase} (htodo : job.todo = [])
    (hless : 4 * job.parts.length + phase.work job.parts.length <
      job.phase.work job.parts.length) : (job.enter phase).work < job.work := by
  simp only [work, enter, htodo, List.length_nil]
  omega

theorem System.work_setJob_lt {job next : Job n} (hworking : s.coordinator = .working job)
    (hless : next.work < job.work) : { s with coordinator := .working next }.work < s.work := by
  simp only [System.work, hworking, Coordinator.work]
  omega

theorem CoordinatorStep.work_lt (hstep : CoordinatorStep setup s events s') : s'.work < s.work := by
  cases hstep with
  | closeCross hidle hcross =>
      simp only [System.work, hcross, List.map_cons, List.sum_cons, CrossRequest.work]
      omega
  | coordinate hidle hcross hid hsplit =>
      have hparts := length_le_of_split hsplit
      simp only [System.work, hidle, hcross, List.map_cons, List.sum_cons, CrossRequest.work,
        Coordinator.work, Job.work, Job.start, Phase.work, crossWork, Bool.false_eq_true, ↓reduceIte]
      omega
  | finish hidle hcross hclosed =>
      simp only [System.work, hidle, Coordinator.work]
      omega
  | @instruct job part rest hworking hready htodo halive hroom =>
      have hsum := s.work_send part.owner (job.message part)
      simp only [System.work, System.setOwner_coordinator, System.setOwner_cross,
        System.setOwner_stage, hworking, Coordinator.work, Job.work, hready, htodo,
        List.length_cons, Bool.false_eq_true, ↓reduceIte] at hsum ⊢
      omega
  | reserved hworking htodo hphase | decided hworking htodo hphase
  | failed hworking htodo hphase | oversized hworking htodo hphase
  | applied hworking htodo hphase =>
      refine System.work_setJob_lt hworking (Job.work_enter_lt htodo ?_)
      rw [hphase]
      simp only [Phase.work]
      omega
  | released hworking htodo hphase =>
      rw [System.work_answer]
      simp only [System.work, hworking, Coordinator.work, Job.work, hphase, Phase.work]
      omega

theorem ShutdownStep.work_lt (hstep : ShutdownStep setup s s') (hbegun : s.stage ≠ .running) :
    s'.work < s.work := by
  cases hstep with
  | beginShutdown hstage => exact absurd hstage hbegun
  | sendStop hstage hopen hroom =>
      simp only [System.work, hstage, List.map_append, List.map_cons, List.map_nil,
        List.sum_append, List.sum_cons, List.sum_nil, CrossRequest.work, Stage.work]
      omega
  | joinCoordinator hstage hfinished =>
      simp only [System.work, hstage, Stage.work, List.length_finRange]
      omega
  | @stopOwner o remaining hstage halive hroom =>
      have hsum := s.work_send o .stop
      simp only [System.work, System.setOwner_coordinator, System.setOwner_cross,
        System.setOwner_stage, hstage, Stage.work, List.length_cons] at hsum ⊢
      omega
  | joinOwners hstage hexited =>
      simp only [System.work, hstage, Stage.work, List.length_nil]
      omega

theorem Works.work_lt (hworks : Works setup s events s') : s'.work < s.work := by
  cases hworks with
  | owner hstep htick => exact hstep.work_lt htick
  | coordinator hstep => exact hstep.work_lt
  | shutdown hstep hbegun => exact hstep.work_lt hbegun

/-! ### What the surroundings add -/

theorem System.work_push_le (s : System n) (request : Request) (place : Destination n) :
    (s.push request place).work ≤ s.work + crossWork n := by
  cases place with
  | nowhere => exact Nat.le_add_right _ _
  | owner o =>
      apply work_setOwner_le
      simp only [Owner.work, List.length_append, List.length_singleton, crossWork]
      omega
  | cross =>
      simp only [System.work, System.push, List.map_append, List.map_cons, List.map_nil,
        List.sum_append, List.sum_cons, List.sum_nil, CrossRequest.work]
      omega

theorem CallStep.work_le (hstep : CallStep setup s events s') : s'.work ≤ s.work + crossWork n := by
  cases hstep with
  | send => exact System.work_push_le ..
  | acquire | reject | timeOutSending | dropSending =>
      rw [System.work_setCall]
      exact (System.work_setCredits ..).le.trans (Nat.le_add_right _ _)
  | _ => exact Nat.le_add_right _ _

/-- No step of the surroundings brings more work than a cross-owner command does. -/
theorem Step.work_le (hstep : Step setup s events s') : s'.work ≤ s.work + crossWork n := by
  cases hstep with
  | call hstep => exact hstep.work_le
  | @owner o events s' hstep =>
      by_cases htick : (s'.owners o).position = .ticking none
      · cases hstep with
        | tick hselect hfree hrunning =>
            apply System.work_setOwner_le
            simp only [Owner.work, hselect, Position.work, crossWork]
            omega
        | control hselect hrunning hcontrols hhandle =>
            obtain ⟨-, -, -, hposition, -⟩ := Owner.handle_frame hhandle
            simp [hposition] at htick
        | execute hserving hexecute =>
            rw [(Quiet.answer ..).position o] at htick
            simp at htick
            split at htick <;> cases htick
        | _ => simp at htick
      · exact (hstep.work_lt htick).le.trans (Nat.le_add_right _ _)
  | coordinator hstep => exact hstep.work_lt.le.trans (Nat.le_add_right _ _)
  | shutdown hstep =>
      by_cases hstage : s.stage = .running
      · cases hstep with
        | beginShutdown =>
            simp only [System.work, hstage, Stage.work, crossWork]
            omega
        | _ => simp_all
      · exact (hstep.work_lt hstage).le.trans (Nat.le_add_right _ _)
  | advance => exact Nat.le_add_right _ _
  | abandon hstage hcalls =>
      simp only [System.work, hstage, Stage.work]
      omega
  | @stats o hhandle halive hroom =>
      rw [s.work_send o .stats, crossWork]
      omega

theorem System.work_start (shards : Shards n) (queueBytes : Nat) (clock : I64) :
    (System.start shards queueBytes clock).work = 4 * n + 1 := by
  simp [System.work, System.start, Owner.start, Owner.work, Position.work, Coordinator.work,
    Stage.work, Nat.mul_comm]

/-- No run keeps the owners and the coordinator busy with nothing: of their steps, and those of a
shutdown, there are boundedly many for each thing that was asked of the engine. -/
theorem bounded_work {clock : I64} {taken given : Nat}
    (hrun : Run (Works setup) (Step setup) taken given (.start shards setup.queueBytes clock) trace
      s) : taken + s.work ≤ 4 * n + 1 + given * (16 * n + 5) := by
  have hle := hrun.taken_le (fun _ _ _ hworks => hworks.work_lt) fun _ _ _ hstep => hstep.work_le
  rwa [System.work_start] at hle

/-- A command on one owner: three steps of its caller and four of the owner. -/
theorem bounded_work_sample : ∃ shards trace s,
    Run (Works lonelySetup) (Step lonelySetup) 4 3 (.start shards 4096 0) trace s ∧
    completedIn trace = [lonelyRequest] ∧ 4 + s.work ≤ 4 * 1 + 1 + 3 * (16 * 1 + 5) := by
  have hplace : destination lonelySetup.route lonelyRequest.operation = .owner 0 := by decide
  have hcharge : charge lonelyRequest.operation ≤ 4096 := by decide
  obtain ⟨shard, reply, hlocal⟩ := lonelyRequest_executes
  have hstart : Run (Works lonelySetup) (Step lonelySetup) 0 0
      (System.start (fun _ => ⟨∅, .empty, sampleShardLimits, 0, 0, 0, 0⟩) 4096 0) []
      (System.start (fun _ => ⟨∅, .empty, sampleShardLimits, 0, 0, 0, 0⟩) 4096 0) := .nil _
  have hsubmit := hstart.other
    (@Step.submit _ lonelySetup _ lonelyRequest _ rfl nofun (lonelyRequest_admission rfl))
  have hacquire := hsubmit.other (.call (@CallStep.acquire _ _ _ 0 lonelyRequest.operation
    (.owner 0) rfl hplace hcharge))
  have hsend := hacquire.other (.call (@CallStep.send _ _ _ 0 lonelyRequest.operation (.owner 0) rfl
    hplace (by rintro (h | h) <;> cases h) (by decide)))
  have hskip := hsend.own (.owner (o := 0) (.skipTurn rfl (.inl rfl)) nofun)
  have htake := hskip.own (.owner (o := 0) (.takeData rfl rfl rfl) nofun)
  have hsample := htake.own (.owner (o := 0) (.sample rfl) nofun)
  have hexecute := hsample.own (.owner (o := 0) (.execute rfl hlocal) nofun)
  exact ⟨_, _, _, hexecute, rfl, bounded_work hexecute⟩

end Recall.Engine
