import Recall.Proof.Server
import Recall.Proof.Budgets
import Mathlib.Algebra.BigOperators.Group.Finset.Basic
import Mathlib.Algebra.Order.BigOperators.Group.Finset

/-!
# Connections are accounted for

Every permit is free, held by the accept loop or held by one task; the count of clients is the
number of tasks that have not counted themselves out. Identities are given in order and never twice.
-/

namespace Recall

/-! ### A session keeps its identity -/

namespace Session

variable {σ : Type}

theorem welcome_id (session : Session) (name : Option Bytes) :
    (session.welcome name).1.id = session.id := by
  unfold welcome
  split
  · rfl
  · cases name <;> rfl

theorem hello_id (session : Session) (config : Config) (protocol : Option I64)
    (auth : Option (Bytes × Bytes)) (name : Option Bytes) :
    (session.hello config protocol auth name).1.id = session.id := by
  unfold hello
  split
  · rfl
  · cases auth with
    | none => exact welcome_id session name
    | some credentials =>
        simp only
        cases authenticate config (some credentials.1) credentials.2 with
        | error reply => rfl
        | ok _ => exact welcome_id _ name

theorem executeGated_id (session : Session) (command : Command) (handle : EngineHandle σ)
    (metrics : Metrics) (engine : σ) :
    (session.executeGated command handle metrics engine).session.id = session.id := by
  cases command with
  | ping value => cases value <;> rfl
  | select index =>
      rw [executeGated]
      split <;> rfl
  | client command => rcases command with _ | name | ⟨_ | _, value⟩ <;> rfl
  | _ => rfl

theorem execute_id (session : Session) (command : Command) (handle : EngineHandle σ)
    (config : Config) (metrics : Metrics) (engine : σ) :
    (session.execute command handle config metrics engine).session.id = session.id := by
  cases command with
  | auth username supplied =>
      rw [execute]
      cases authenticate config username supplied <;> rfl
  | hello protocol auth name => exact hello_id session config protocol auth name
  | _ =>
      simp only [execute]
      split
      · rfl
      · exact executeGated_id ..

theorem dispatch_id {session next : Session} {config : Config} {command : Command} {reply : Reply}
    {close : Bool} (hdispatch : session.dispatch config command = .answer next reply close) :
    next.id = session.id := by
  cases command with
  | data operation | info section_ =>
      simp only [dispatch] at hdispatch
      split at hdispatch
      · cases hdispatch
      · cases hdispatch
        rfl
  | _ =>
      cases hdispatch
      exact execute_id ..

end Session

namespace Server

open Engine (System Setup)

variable {n : Nat} {config : Config} {setup : Setup n} {s s' : State n} {id : Nat} {task : Task n}
  {trace events : List (Event n)}

/-! ### What a task stands for -/

def Activity.ownsPermit : Activity n → Bool
  | .ended => false
  | _ => true

def Activity.isCounted : Activity n → Bool
  | .leaving | .ended => false
  | _ => true

/-- The connections whose tasks pass a test. -/
def State.connections (s : State n) (test : Activity n → Bool) : Finset Nat :=
  (Finset.range (s.metrics.totalConnections + 1)).filter fun id =>
    (s.tasks id).any fun task => test task.activity

def Loop.permit : Loop → Nat
  | .admitted _ | .numbered _ _ => 1
  | _ => 0

/-- Connections that were numbered and not yet spawned. -/
def Loop.waiting : Loop → Nat
  | .numbered _ _ => 1
  | _ => 0

theorem sum_move {ι : Type} [DecidableEq ι] {indices : Finset ι} (before after : ι → Nat) {i : ι}
    (hi : i ∈ indices) (hsame : ∀ j ≠ i, after j = before j) :
    ∑ j ∈ indices, after j + before i = ∑ j ∈ indices, before j + after i := by
  have hrest : ∑ j ∈ indices.erase i, after j = ∑ j ∈ indices.erase i, before j :=
    Finset.sum_congr rfl fun j hj => hsame j (Finset.ne_of_mem_erase hj)
  rw [← Finset.add_sum_erase indices after hi, ← Finset.add_sum_erase indices before hi, hrest]
  omega

theorem State.card_connections (s : State n) (test : Activity n → Bool) :
    (s.connections test).card = ∑ id ∈ Finset.range (s.metrics.totalConnections + 1),
      ((s.tasks id).any fun task => test task.activity).toNat := by
  rw [connections, Finset.card_filter]
  refine Finset.sum_congr rfl fun id _ => ?_
  cases (s.tasks id).any fun task => test task.activity <;> rfl

/-- One task changed. -/
theorem State.card_connections_update {next : Task n} (test : Activity n → Bool)
    (hid : id ≤ s.metrics.totalConnections)
    (htotal : s'.metrics.totalConnections = s.metrics.totalConnections)
    (htasks : s'.tasks = Function.update s.tasks id (some next)) :
    (s'.connections test).card + ((s.tasks id).any fun task => test task.activity).toNat =
      (s.connections test).card + (test next.activity).toNat := by
  have hmem : id ∈ Finset.range (s.metrics.totalConnections + 1) :=
    Finset.mem_range.mpr (by omega)
  have hsum := sum_move (fun id => ((s.tasks id).any fun task => test task.activity).toNat)
    (fun id => ((s'.tasks id).any fun task => test task.activity).toNat) hmem
    fun other hother => by simp only [htasks, Function.update_of_ne hother]
  rw [State.card_connections, State.card_connections, htotal, hsum, htasks]
  simp

/-- The next number belongs to no task yet. -/
theorem State.connections_number (test : Activity n → Bool)
    (hnone : s.tasks (s.metrics.totalConnections + 1) = none)
    (htotal : s'.metrics.totalConnections = s.metrics.totalConnections + 1)
    (htasks : s'.tasks = s.tasks) : s'.connections test = s.connections test := by
  rw [connections, connections, htotal, Finset.range_add_one, Finset.filter_insert, htasks, hnone]
  simp

/-! ### Steps of one task -/

/-- What a step of a task leaves alone, and how it moves the permits and the count. -/
structure Continues (s s' : State n) (id : Nat) (task next : Task n) : Prop where
  tasks : s'.tasks = Function.update s.tasks id (some next)
  identity : next.session.id = task.session.id
  loop : s'.loop = s.loop
  stopping : s'.stopping = s.stopping
  total : s'.metrics.totalConnections = s.metrics.totalConnections
  rejected : s'.metrics.rejectedConnections = s.metrics.rejectedConnections
  permits : s'.permits + next.activity.ownsPermit.toNat =
    s.permits + task.activity.ownsPermit.toNat
  active : s'.metrics.activeConnections = s.metrics.activeConnections +
    next.activity.isCounted.toNat - task.activity.isCounted.toNat

theorem Activity.ownsPermit_of_isCounted {activity : Activity n}
    (hcounted : activity.isCounted = true) : activity.ownsPermit = true := by
  cases activity with
  | ended => cases hcounted
  | _ => rfl

/-- A task that goes on as a counted connection. -/
theorem Continues.counted {next : Task n}
    (htasks : s'.tasks = Function.update s.tasks id (some next))
    (hidentity : next.session.id = task.session.id) (hloop : s'.loop = s.loop)
    (hstopping : s'.stopping = s.stopping)
    (htotal : s'.metrics.totalConnections = s.metrics.totalConnections)
    (hrejected : s'.metrics.rejectedConnections = s.metrics.rejectedConnections)
    (hpermits : s'.permits = s.permits)
    (hactive : s'.metrics.activeConnections = s.metrics.activeConnections)
    (hbefore : task.activity.isCounted = true) (hafter : next.activity.isCounted = true) :
    Continues s s' id task next where
  tasks := htasks
  identity := hidentity
  loop := hloop
  stopping := hstopping
  total := htotal
  rejected := hrejected
  permits := by
    rw [hpermits, Activity.ownsPermit_of_isCounted hbefore,
      Activity.ownsPermit_of_isCounted hafter]
  active := by rw [hactive, hbefore, hafter, Nat.add_sub_cancel]

theorem ServeStep.continues {arguments : List Bytes} (hreading : task.activity = .reading)
    (hstep : ServeStep config setup s id task arguments events s') :
    ∃ next, Continues s s' id task next := by
  have hcounted : task.activity.isCounted = true := by rw [hreading]; rfl
  cases hstep with
  | answer hparse hdispatch =>
      exact ⟨_, .counted rfl (Session.dispatch_id hdispatch) rfl rfl rfl rfl rfl rfl hcounted rfl⟩
  | _ => exact ⟨_, .counted rfl rfl rfl rfl rfl rfl rfl rfl hcounted rfl⟩

theorem TaskStep.continues (hstep : TaskStep config setup s id task events s') :
    ∃ next, Continues s s' id task next := by
  cases hstep with
  | stop htop | begin htop =>
      exact ⟨_, .counted rfl rfl rfl rfl rfl rfl rfl rfl (by rw [htop]; rfl) rfl⟩
  | wait hreading =>
      exact ⟨_, .counted rfl rfl rfl rfl rfl rfl rfl rfl (by rw [hreading]; rfl)
        (by rw [hreading]; rfl)⟩
  | finish hreading | malformed hreading =>
      exact ⟨_, .counted rfl rfl rfl rfl rfl rfl rfl rfl (by rw [hreading]; rfl) rfl⟩
  | fail hreading =>
      obtain ⟨count, hcount⟩ := s.countTimeout_cases _
      rw [hcount]
      exact ⟨_, .counted rfl rfl rfl rfl rfl rfl rfl rfl (by rw [hreading]; rfl) rfl⟩
  | serve hreading hstop hnext hserve =>
      obtain ⟨next, hcontinues⟩ := hserve.continues (by exact hreading)
      exact ⟨next, hcontinues.tasks, hcontinues.identity, hcontinues.loop, hcontinues.stopping,
        hcontinues.total, hcontinues.rejected, hcontinues.permits, hcontinues.active⟩
  | returned hcalling =>
      exact ⟨_, .counted rfl rfl rfl rfl rfl rfl rfl rfl (by rw [hcalling]; rfl) rfl⟩
  | ask hsampling | askFails hsampling | sample hsampling | sampleLost hsampling
  | informed hsampling =>
      exact ⟨_, .counted rfl rfl rfl rfl rfl rfl rfl rfl (by rw [hsampling]; rfl) rfl⟩
  | @write reply close hwriting =>
      exact ⟨_, .counted rfl rfl rfl rfl rfl rfl rfl rfl (by rw [hwriting]; rfl)
        (by cases close <;> rfl)⟩
  | writeFails hwriting =>
      obtain ⟨count, hcount⟩ := s.countTimeout_cases _
      rw [hcount]
      exact ⟨_, .counted rfl rfl rfl rfl rfl rfl rfl rfl (by rw [hwriting]; rfl) rfl⟩
  | leave hclosing =>
      refine ⟨_, rfl, rfl, rfl, rfl, rfl, rfl, ?_, ?_⟩ <;> rw [hclosing] <;> rfl
  | release hleaving =>
      refine ⟨_, rfl, rfl, rfl, rfl, rfl, rfl, ?_, ?_⟩ <;> rw [hleaving] <;> rfl

/-! ### What the trace counts -/

@[simp] theorem openedIn_append (a b : List (Event n)) :
    openedIn (a ++ b) = openedIn a ++ openedIn b := List.filterMap_append

@[simp] theorem rejectedIn_append (a b : List (Event n)) :
    rejectedIn (a ++ b) = rejectedIn a ++ rejectedIn b := List.filterMap_append

@[simp] theorem commandsIn_append (a b : List (Event n)) :
    commandsIn (a ++ b) = commandsIn a ++ commandsIn b := List.filterMap_append

theorem filterMap_engine {α : Type} {f : Event n → Option α} (events : List (Engine.Event n))
    (hf : ∀ event, f (.engine event) = none) : (events.map Event.engine).filterMap f = [] := by
  simp [List.filterMap_map, Function.comp_def, hf]

/-- A step of a task opens and rejects no connection, and counts the request it serves. -/
structure Tallies (s s' : State n) (events : List (Event n)) : Prop where
  opened : openedIn events = []
  rejected : rejectedIn events = []
  commands : s'.metrics.totalCommands =
    (s.metrics.totalCommands + (commandsIn events).length) % 18446744073709551616

theorem Tallies.silent (hbound : s.metrics.totalCommands < 18446744073709551616)
    (hcommands : s'.metrics.totalCommands = s.metrics.totalCommands)
    (hopened : openedIn events = []) (hrejected : rejectedIn events = [])
    (hnone : commandsIn events = []) : Tallies s s' events where
  opened := hopened
  rejected := hrejected
  commands := by rw [hcommands, hnone, List.length_nil, Nat.add_zero, Nat.mod_eq_of_lt hbound]

theorem ServeStep.tallies {arguments : List Bytes}
    (hstep : ServeStep config setup s id task arguments events s') : Tallies s s' events := by
  cases hstep <;> exact ⟨rfl, rfl, rfl⟩

theorem TaskStep.tallies (hbound : s.metrics.totalCommands < 18446744073709551616)
    (hstep : TaskStep config setup s id task events s') : Tallies s s' events := by
  cases hstep with
  | serve hreading hstop hnext hserve => exact hserve.tallies
  | sample =>
      exact .silent hbound rfl (filterMap_engine _ fun _ => rfl) (filterMap_engine _ fun _ => rfl)
        (filterMap_engine _ fun _ => rfl)
  | fail | writeFails =>
      obtain ⟨count, hcount⟩ := s.countTimeout_cases _
      rw [hcount]
      exact .silent hbound rfl rfl rfl rfl
  | _ => exact .silent hbound rfl rfl rfl rfl

/-! ### The accounts -/

structure Accounted (config : Config) (trace : List (Event n)) (s : State n) : Prop where
  permits : s.permits + s.loop.permit + (s.connections Activity.ownsPermit).card =
    config.maxConnections
  active : s.metrics.activeConnections = (s.connections Activity.isCounted).card
  identity : ∀ id task, s.tasks id = some task → task.session.id = id
  opened : openedIn trace = List.range' 1 (s.metrics.totalConnections - s.loop.waiting)
  spawned : ∀ id, (s.tasks id).isSome ↔ id ∈ openedIn trace
  numbered : ∀ stream id, s.loop = .numbered stream id →
    id = s.metrics.totalConnections ∧ 0 < id
  bounded : s.metrics.totalConnections ≤ lastConnection
  rejected : s.metrics.rejectedConnections =
    (rejectedIn trace).length % 18446744073709551616
  commands : s.metrics.totalCommands = (commandsIn trace).length % 18446744073709551616

namespace Accounted

theorem start (shards : Shards config.workers) (clock : I64) :
    Accounted config [] (.start config shards clock) where
  permits := by simp [State.start, Loop.permit, State.connections]
  active := by simp [State.start, State.connections]
  identity id task h := by cases h
  opened := rfl
  spawned id := by simp [State.start, openedIn]
  numbered stream id h := by cases h
  bounded := Nat.zero_le _
  rejected := rfl
  commands := rfl

theorem le_total (h : Accounted config trace s) (htask : s.tasks id = some task) :
    1 ≤ id ∧ id ≤ s.metrics.totalConnections := by
  have hmem := (h.spawned id).mp (by rw [htask]; rfl)
  rw [h.opened, List.mem_range'_1] at hmem
  omega

theorem next_none (h : Accounted config trace s) :
    s.tasks (s.metrics.totalConnections + 1) = none := by
  cases htask : s.tasks (s.metrics.totalConnections + 1) with
  | none => rfl
  | some task =>
      have hle := (h.le_total htask).2
      omega

theorem numbered_none (h : Accounted config trace s) {stream : Bytes}
    (hloop : s.loop = .numbered stream id) : s.tasks id = none := by
  obtain ⟨rfl, hpos⟩ := h.numbered stream id hloop
  cases htask : s.tasks s.metrics.totalConnections with
  | none => rfl
  | some task =>
      have hmem := (h.spawned s.metrics.totalConnections).mp (by rw [htask]; rfl)
      rw [h.opened, hloop, List.mem_range'_1, Loop.waiting] at hmem
      omega

theorem bump_mod {count length : Nat} (h : count = length % 18446744073709551616) (more : Nat) :
    (count + more) % 18446744073709551616 = (length + more) % 18446744073709551616 := by
  rw [h, Nat.mod_add_mod]

theorem taskStep (h : Accounted config trace s) (htask : s.tasks id = some task)
    (hstep : TaskStep config setup s id task events s') : Accounted config (trace ++ events) s' := by
  obtain ⟨next, hcontinues⟩ := hstep.continues
  have hbound : s.metrics.totalCommands < 18446744073709551616 := by
    rw [h.commands]
    exact Nat.mod_lt _ (by decide)
  have htallies := hstep.tallies hbound
  have hle := (h.le_total htask).2
  have howns := State.card_connections_update Activity.ownsPermit hle hcontinues.total
    hcontinues.tasks
  have hcounted := State.card_connections_update Activity.isCounted hle hcontinues.total
    hcontinues.tasks
  rw [htask, Option.any_some] at howns hcounted
  constructor
  · have hpermits := h.permits
    have hmoved := hcontinues.permits
    rw [hcontinues.loop]
    omega
  · have hactive := h.active
    have hmoved := hcontinues.active
    omega
  · intro other otherTask hother
    rw [hcontinues.tasks] at hother
    by_cases hid : other = id
    · subst hid
      rw [Function.update_self] at hother
      cases hother
      rw [hcontinues.identity]
      exact h.identity _ _ htask
    · rw [Function.update_of_ne hid] at hother
      exact h.identity other otherTask hother
  · rw [openedIn_append, htallies.opened, List.append_nil, hcontinues.total, hcontinues.loop]
    exact h.opened
  · intro other
    rw [openedIn_append, htallies.opened, List.append_nil, ← h.spawned, hcontinues.tasks]
    by_cases hid : other = id
    · subst hid
      simp [htask]
    · rw [Function.update_of_ne hid]
  · rw [hcontinues.loop, hcontinues.total]
    exact h.numbered
  · rw [hcontinues.total]
    exact h.bounded
  · rw [hcontinues.rejected, rejectedIn_append, htallies.rejected, List.append_nil]
    exact h.rejected
  · rw [htallies.commands, commandsIn_append, List.length_append]
    exact bump_mod h.commands _

theorem engineStep (h : Accounted config trace s) {engine : System n}
    (events : List (Engine.Event n)) :
    Accounted config (trace ++ events.map .engine) { s with engine } := by
  have hopened : openedIn (events.map Event.engine) = [] := filterMap_engine _ fun _ => rfl
  have hrejected : rejectedIn (events.map Event.engine) = [] := filterMap_engine _ fun _ => rfl
  have hcommands : commandsIn (events.map Event.engine) = [] := filterMap_engine _ fun _ => rfl
  refine ⟨h.permits, h.active, h.identity, ?_, fun id => ?_, h.numbered, h.bounded, ?_, ?_⟩
  · rw [openedIn_append, hopened, List.append_nil]
    exact h.opened
  · rw [openedIn_append, hopened, List.append_nil]
    exact h.spawned id
  · rw [rejectedIn_append, hrejected, List.append_nil]
    exact h.rejected
  · rw [commandsIn_append, hcommands, List.append_nil]
    exact h.commands

/-- The loop moves on with its permit. -/
theorem reloop (h : Accounted config trace s) (htasks : s'.tasks = s.tasks)
    (hmetrics : s'.metrics = s.metrics)
    (hpermits : s'.permits + s'.loop.permit = s.permits + s.loop.permit)
    (hwaiting : s'.loop.waiting = s.loop.waiting)
    (hnumbered : ∀ stream id, s'.loop ≠ .numbered stream id) :
    Accounted config (trace ++ []) s' := by
  have hsame : ∀ test, s'.connections test = s.connections test := by
    intro test
    simp only [State.connections, hmetrics, htasks]
  rw [List.append_nil]
  constructor
  · rw [hpermits, hsame]
    exact h.permits
  · rw [hmetrics, hsame]
    exact h.active
  · rw [htasks]
    exact h.identity
  · rw [hmetrics, hwaiting]
    exact h.opened
  · rw [htasks]
    exact h.spawned
  · exact fun stream id hloop => absurd hloop (hnumbered stream id)
  · rw [hmetrics]
    exact h.bounded
  · rw [hmetrics]
    exact h.rejected
  · rw [hmetrics]
    exact h.commands

theorem number (h : Accounted config trace s) {stream : Bytes} (hloop : s.loop = .admitted stream)
    (hid : s.metrics.totalConnections < lastConnection) (hpermits : s'.permits = s.permits)
    (hloop' : s'.loop = .numbered stream (s.metrics.totalConnections + 1))
    (htasks : s'.tasks = s.tasks)
    (hmetrics : s'.metrics =
      { s.metrics with totalConnections := s.metrics.totalConnections + 1 }) :
    Accounted config (trace ++ []) s' := by
  have htotal : s'.metrics.totalConnections = s.metrics.totalConnections + 1 := by rw [hmetrics]
  have hsame : ∀ test, s'.connections test = s.connections test := fun test =>
    State.connections_number test h.next_none htotal htasks
  rw [List.append_nil]
  constructor
  · have hbefore := h.permits
    rw [hloop] at hbefore
    rw [hsame, hloop', hpermits]
    exact hbefore
  · rw [hsame, hmetrics]
    exact h.active
  · rw [htasks]
    exact h.identity
  · rw [h.opened, hloop, hloop', htotal]
    rfl
  · rw [htasks]
    exact h.spawned
  · intro other id hnumbered
    rw [hloop'] at hnumbered
    cases hnumbered
    exact ⟨htotal.symm, Nat.succ_pos _⟩
  · rw [htotal]
    exact hid
  · rw [hmetrics]
    exact h.rejected
  · rw [hmetrics]
    exact h.commands

theorem spawn (h : Accounted config trace s) {stream : Bytes} {next : Task n}
    (hloop : s.loop = .numbered stream id) (hidentity : next.session.id = id)
    (hcounted : next.activity.isCounted = true) (hloop' : s'.loop = .accepting)
    (hpermits : s'.permits = s.permits)
    (hmetrics : s'.metrics =
      { s.metrics with activeConnections := s.metrics.activeConnections + 1 })
    (htasks : s'.tasks = Function.update s.tasks id (some next)) :
    Accounted config (trace ++ [.opened id stream]) s' := by
  have hnone := h.numbered_none hloop
  obtain ⟨rfl, hpos⟩ := h.numbered stream id hloop
  have htotal : s'.metrics.totalConnections = s.metrics.totalConnections := by rw [hmetrics]
  have hcard : ∀ test : Activity n → Bool, test next.activity = true →
      (s'.connections test).card = (s.connections test).card + 1 := by
    intro test htest
    have hupdate := State.card_connections_update test le_rfl htotal htasks
    rw [hnone, htest] at hupdate
    exact hupdate
  constructor
  · have hbefore := h.permits
    rw [hloop, Loop.permit] at hbefore
    rw [hcard _ (Activity.ownsPermit_of_isCounted hcounted), hloop', hpermits]
    simp only [Loop.permit]
    omega
  · rw [hcard _ hcounted, hmetrics]
    exact congrArg (· + 1) h.active
  · intro other task hother
    rw [htasks] at hother
    by_cases hid : other = s.metrics.totalConnections
    · subst hid
      rw [Function.update_self] at hother
      cases hother
      exact hidentity
    · rw [Function.update_of_ne hid] at hother
      exact h.identity other task hother
  · rw [openedIn_append, h.opened, hloop, hloop', htotal]
    simp only [Loop.waiting, Nat.sub_zero]
    obtain ⟨count, hcount⟩ := Nat.exists_eq_add_of_lt hpos
    rw [Nat.zero_add] at hcount
    rw [hcount, Nat.add_sub_cancel, List.range'_1_concat, Nat.add_comm 1 count]
    rfl
  · intro other
    rw [openedIn_append, List.mem_append, ← h.spawned, htasks]
    by_cases hid : other = s.metrics.totalConnections
    · subst hid
      simp [openedIn]
    · rw [Function.update_of_ne hid]
      simp [openedIn, hid]
  · intro other id hnumbered
    rw [hloop'] at hnumbered
    cases hnumbered
  · rw [htotal]
    exact h.bounded
  · rw [hmetrics, rejectedIn_append]
    exact (List.append_nil (rejectedIn trace)).symm ▸ h.rejected
  · rw [hmetrics, commandsIn_append]
    exact (List.append_nil (commandsIn trace)).symm ▸ h.commands

theorem loopStep (h : Accounted config trace s) (hstep : LoopStep config s events s') :
    Accounted config (trace ++ events) s' := by
  cases hstep with
  | accept hloop hpermit =>
      refine h.reloop rfl rfl ?_ (by rw [hloop]; rfl) nofun
      rw [hloop]
      simp only [Loop.permit]
      omega
  | stop hloop | joined hloop hstage hended | return_ hloop hstopped =>
      exact h.reloop rfl rfl (by rw [hloop]; rfl) (by rw [hloop]; rfl) nofun
  | reject hloop hfull =>
      refine ⟨h.permits, h.active, h.identity, ?_, fun id => ?_, h.numbered, h.bounded, ?_, ?_⟩
      · rw [openedIn_append]
        exact (List.append_nil (openedIn trace)).trans h.opened
      · rw [h.spawned, openedIn_append]
        simp [openedIn]
      · rw [rejectedIn_append, List.length_append]
        exact bump_mod h.rejected 1
      · rw [commandsIn_append]
        exact (List.append_nil (commandsIn trace)).symm ▸ h.commands
  | number hloop hid => exact h.number hloop hid rfl rfl rfl rfl
  | spawn hloop hdecoder hactivity =>
      refine h.spawn hloop rfl ?_ rfl rfl rfl rfl
      rcases hactivity with rfl | rfl <;> rfl

theorem step (h : Accounted config trace s) (hstep : Step config setup s events s') :
    Accounted config (trace ++ events) s' := by
  cases hstep with
  | loop hstep => exact h.loopStep hstep
  | engine hstep => exact h.engineStep _
  | task htask hstep => exact h.taskStep htask hstep

theorem identity_fits (h : Accounted config trace s) (htask : s.tasks id = some task) :
    (I64.wrap task.session.id).val = id := by
  have hle := (h.le_total htask).2.trans h.bounded
  unfold lastConnection at hle
  simp only [h.identity id task htask, I64.wrap]
  exact Int.bmod_eq_of_le (by omega) (by omega)

theorem active_le (h : Accounted config trace s) :
    s.metrics.activeConnections ≤ config.maxConnections := by
  have hsubset : s.connections Activity.isCounted ⊆ s.connections Activity.ownsPermit := by
    intro id hid
    simp only [State.connections, Finset.mem_filter, Option.any_eq_true] at hid ⊢
    obtain ⟨hrange, task, htask, hcounted⟩ := hid
    exact ⟨hrange, task, htask, Activity.ownsPermit_of_isCounted hcounted⟩
  have hcard := Finset.card_le_card hsubset
  have hpermits := h.permits
  rw [h.active]
  omega

end Accounted

section

variable {route : Bytes → Fin config.workers} {shards : Shards config.workers}
  {trace : List (Event config.workers)} {s : State config.workers}

theorem Reaches.accounted (hreaches : Reaches config route shards trace s) :
    Accounted config trace s := by
  induction hreaches with
  | start hnew => exact .start ..
  | step hbefore hstep ih => exact ih.step hstep

theorem connections_accounted (hreaches : Reaches config route shards trace s) :
    s.permits + s.loop.permit + (s.connections Activity.ownsPermit).card =
        config.maxConnections ∧
      s.metrics.activeConnections = (s.connections Activity.isCounted).card ∧
      s.metrics.activeConnections ≤ config.maxConnections ∧
      openedIn trace = List.range' 1 (s.metrics.totalConnections - s.loop.waiting) ∧
      (∀ id task, s.tasks id = some task →
        id ∈ openedIn trace ∧ (I64.wrap task.session.id).val = id) ∧
      s.metrics.rejectedConnections = (rejectedIn trace).length % 18446744073709551616 ∧
      s.metrics.totalCommands = (commandsIn trace).length % 18446744073709551616 := by
  have h := hreaches.accounted
  refine ⟨h.permits, h.active, h.active_le, h.opened, fun id task htask => ⟨?_, ?_⟩, h.rejected,
    h.commands⟩
  · exact (h.spawned id).mp (by rw [htask]; rfl)
  · exact h.identity_fits htask

end

/-! A server with one owner and one client. -/

/-- `SET a 1`. -/
def sampleStream : Bytes := ascii "*3\r\n$3\r\nSET\r\n$1\r\na\r\n$1\r\n1\r\n"

def sampleDecoder : Decoder := ⟨.default, 0, 0, none, none, []⟩

def sampleShards : Shards Engine.oneWorker.workers := fun _ =>
  ⟨∅, .empty, Engine.oneWorker.shardLimits 0, 0, 0, 0, 0⟩

/-- A client that sends this was accepted. -/
def sampleOpened (stream : Bytes) : State Engine.oneWorker.workers :=
  { State.start Engine.oneWorker sampleShards 0 with
    permits := 127
    metrics := ⟨1, 1, 0, 0, 0, 0⟩ }.setTask 1
    ⟨⟨sampleDecoder, [], stream⟩, .new 1 Engine.oneWorker, .top⟩

theorem sampleOpened_reaches (stream : Bytes) : Reaches Engine.oneWorker Engine.onlyWorker
    sampleShards [.opened 1 stream] (sampleOpened stream) := by
  have hstart : Reaches Engine.oneWorker Engine.onlyWorker sampleShards []
      (.start Engine.oneWorker sampleShards 0) :=
    .start fun o => by
      obtain ⟨o, ho⟩ := o
      obtain rfl : o = 0 := Nat.lt_one_iff.mp ho
      rfl
  have hadmit := hstart.step (.loop (@LoopStep.accept _ _ _ stream rfl (by decide)))
  have hnumber := hadmit.step (.loop (.number rfl (Nat.zero_lt_succ _)))
  exact hnumber.step (.loop (@LoopStep.spawn _ _ _ stream 1 sampleDecoder .top rfl
    (by decide) (.inl rfl)))

/-- One of the 128 permits is taken, and the client is told that it is the first. -/
theorem connections_accounted_sample : ∃ trace s,
    Reaches Engine.oneWorker Engine.onlyWorker sampleShards trace s ∧ openedIn trace = [1] ∧
      s.permits + s.loop.permit + (s.connections Activity.ownsPermit).card = 128 ∧
      s.metrics.activeConnections ≤ 128 := by
  obtain ⟨hpermits, -, hactive, -⟩ := connections_accounted (sampleOpened_reaches sampleStream)
  exact ⟨_, _, sampleOpened_reaches _, rfl, hpermits, hactive⟩

end Server

end Recall
