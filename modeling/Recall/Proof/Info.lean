import Recall.Proof.Graceful

/-!
# What `INFO` reports

The owners are asked one after the other, at different times. The engine outlives the connections,
so each of them answers, and as each is within its own share the totals are within the budgets.
-/

namespace Recall.Server

open Engine (System Setup)

/-- A report of this owner, within its limits. -/
structure Sampled (config : Config) (o : Fin config.workers) (stats : ShardStats) : Prop where
  maxKeys : stats.maxKeys = config.keysPerWorker
  maxPayloadBytes : stats.maxPayloadBytes = (config.shardLimits o).maxPayloadBytes
  keys : stats.keys ≤ stats.maxKeys
  payload : stats.payloadBytes ≤ stats.maxPayloadBytes
  expiring : stats.expiringKeys ≤ stats.keys

/-- The owners that are not asked yet are those without a report. -/
def Activity.Samples (config : Config) : Activity config.workers → Prop
  | .sampling _ remaining _ stats =>
      ∃ done, done ++ remaining = List.finRange config.workers ∧
        List.Forall₂ (Sampled config) done stats
  | _ => True

variable {config : Config} {route : Bytes → Fin config.workers} {shards : Shards config.workers}
  {trace events : List (Event config.workers)} {s s' : State config.workers} {id : Nat}
  {task : Task config.workers}

theorem Reaches.sampled_shard (hreaches : Reaches config route shards trace s)
    (o : Fin config.workers) : Sampled config o (s.engine.owners o).shard.stats := by
  obtain ⟨base, hinvariant, -⟩ := hreaches.engine.invariant
  have hwf := hinvariant.protocol.wellFormed o
  have hlimits := hreaches.engine.limits o
  refine ⟨?_, ?_, hwf.keys_le, hwf.payload_le, hwf.timers.len_le⟩
  · exact congrArg ShardLimits.maxKeys hlimits
  · exact congrArg ShardLimits.maxPayloadBytes hlimits

/-- Owners answer as long as somebody can ask. -/
theorem Reaches.not_exited (hreaches : Reaches config route shards trace s)
    (htask : s.tasks id = some task) (hactive : task.activity ≠ .ended) (o : Fin config.workers) :
    (s.engine.owners o).position ≠ .exited := by
  obtain ⟨base, hinvariant, -⟩ := hreaches.engine.invariant
  intro hexited
  exact rejects_of_running hinvariant.ordered (hreaches.phased.stage_running htask hactive)
    (.owner o) (.inr hexited)

/-- What a step of a task does to the reports it collects. -/
structure Informs (config : Config) (task next : Task config.workers)
    (events : List (Event config.workers)) : Prop where
  samples : task.activity.Samples config → next.activity.Samples config
  sampled : task.activity.Samples config → ∀ id stats, .sampled id stats ∈ events →
    List.Forall₂ (Sampled config) (List.finRange config.workers) stats

theorem Informs.silent {next : Task config.workers} (hnext : next.activity.Samples config)
    (hevents : ∀ id stats, .sampled id stats ∉ events) : Informs config task next events where
  samples _ := hnext
  sampled _ id stats h := absurd h (hevents id stats)

theorem ServeStep.informs {setup : Setup config.workers} {arguments : List Bytes}
    (hstep : ServeStep config setup s id task arguments events s') :
    ∃ next, s'.tasks = Function.update s.tasks id (some next) ∧ Informs config task next events := by
  cases hstep with
  | info => exact ⟨_, rfl, .silent ⟨[], rfl, .nil⟩ (by simp)⟩
  | _ => exact ⟨_, rfl, .silent trivial (by simp)⟩

theorem TaskStep.informs (hreaches : Reaches config route shards trace s)
    (htask : s.tasks id = some task)
    (hstep : TaskStep config (.ofConfig config route) s id task events s') :
    ∃ next, s'.tasks = Function.update s.tasks id (some next) ∧ Informs config task next events := by
  have halive := hreaches.not_exited htask hstep.not_ended
  cases hstep with
  | wait hreading => exact ⟨_, rfl, .silent (by rw [hreading]; trivial) (by simp)⟩
  | fail hactivity | writeFails hactivity =>
      obtain ⟨count, hcount⟩ := s.countTimeout_cases _
      rw [hcount]
      exact ⟨_, rfl, .silent trivial (by simp)⟩
  | serve hreading hstop hnext hserve =>
      obtain ⟨next, htasks, hinforms⟩ := hserve.informs
      exact ⟨next, htasks, hinforms.samples, hinforms.sampled⟩
  | ask hsampling =>
      refine ⟨_, rfl, fun hbefore => ?_, by simp⟩
      rw [hsampling] at hbefore
      exact hbefore
  | askFails hsampling hexited | sampleLost hsampling hexited => exact absurd hexited (halive _)
  | @sample head o rest stats controls events engine hsampling hselect hcontrols hstep =>
      refine ⟨_, rfl, fun hbefore => ?_, by simp⟩
      rw [hsampling] at hbefore
      obtain ⟨done, hdone, hreports⟩ := hbefore
      refine ⟨done ++ [o], ?_, List.rel_append hreports (.cons (hreaches.sampled_shard o) .nil)⟩
      rw [List.append_assoc]
      exact hdone
  | informed hsampling =>
      refine ⟨_, rfl, fun _ => trivial, fun hbefore other stats hmem => ?_⟩
      rw [hsampling] at hbefore
      obtain ⟨done, hdone, hreports⟩ := hbefore
      obtain ⟨rfl, rfl⟩ : other = id ∧ stats = _ := by simpa using hmem
      rwa [← hdone, List.append_nil]
  | @write reply close =>
      refine ⟨_, rfl, .silent ?_ (by simp)⟩
      cases close <;> trivial
  | _ => exact ⟨_, rfl, .silent trivial (by simp)⟩

structure Informed (config : Config) (trace : List (Event config.workers))
    (s : State config.workers) : Prop where
  tasks : ∀ id task, s.tasks id = some task → task.activity.Samples config
  sampled : ∀ id stats, .sampled id stats ∈ trace →
    List.Forall₂ (Sampled config) (List.finRange config.workers) stats

theorem Informed.keep (h : Informed config trace s) (htasks : s'.tasks = s.tasks)
    (hevents : ∀ id stats, .sampled id stats ∉ events) : Informed config (trace ++ events) s' where
  tasks := by
    rw [htasks]
    exact h.tasks
  sampled id stats hmem :=
    h.sampled id stats ((List.mem_append.mp hmem).resolve_right (hevents id stats))

theorem Informed.setTask {next : Task config.workers} (h : Informed config trace s)
    (htasks : s'.tasks = Function.update s.tasks id (some next))
    (hnext : next.activity.Samples config)
    (hevents : ∀ id stats, .sampled id stats ∈ events →
      List.Forall₂ (Sampled config) (List.finRange config.workers) stats) :
    Informed config (trace ++ events) s' where
  tasks other task hother := by
    rw [htasks] at hother
    by_cases hid : other = id
    · subst hid
      rw [Function.update_self] at hother
      cases hother
      exact hnext
    · rw [Function.update_of_ne hid] at hother
      exact h.tasks other task hother
  sampled other stats hmem := (List.mem_append.mp hmem).elim (h.sampled other stats)
    (hevents other stats)

theorem Reaches.informed (hreaches : Reaches config route shards trace s) :
    Informed config trace s := by
  induction hreaches with
  | start hnew =>
      constructor
      · intro id task htask
        cases htask
      · intro id stats hmem
        cases hmem
  | step hbefore hstep ih =>
      cases hstep with
      | loop hstep =>
          cases hstep with
          | spawn hloop hdecoder hactivity =>
              refine ih.setTask rfl ?_ (by simp)
              rcases hactivity with rfl | rfl <;> trivial
          | _ => exact ih.keep rfl (by simp)
      | engine hstep => exact ih.keep rfl (by simp)
      | task htask hstep =>
          obtain ⟨next, htasks, hinforms⟩ := hstep.informs hbefore htask
          have hsamples := ih.tasks _ _ htask
          exact ih.setTask htasks (hinforms.samples hsamples) (hinforms.sampled hsamples)

theorem sum_le_of_sampled {stats : List ShardStats} {owners : List (Fin config.workers)}
    {reported : ShardStats → Nat} {bound : Fin config.workers → Nat}
    (hreports : List.Forall₂ (Sampled config) owners stats)
    (hle : ∀ o report, Sampled config o report → reported report ≤ bound o) :
    (stats.map reported).sum ≤ (owners.map bound).sum := by
  induction hreports with
  | nil => rfl
  | cons hfirst hrest ih =>
      rw [List.map_cons, List.map_cons, List.sum_cons, List.sum_cons]
      exact Nat.add_le_add (hle _ _ hfirst) ih

theorem expiring_le_keys {stats : List ShardStats} {owners : List (Fin config.workers)}
    (hreports : List.Forall₂ (Sampled config) owners stats) :
    (stats.map ShardStats.expiringKeys).sum ≤ (stats.map ShardStats.keys).sum := by
  induction hreports with
  | nil => rfl
  | cons hfirst hrest ih =>
      rw [List.map_cons, List.map_cons, List.sum_cons, List.sum_cons]
      exact Nat.add_le_add hfirst.expiring ih

def infoStream : Bytes := ascii "*1\r\n$4\r\nINFO\r\n"

theorem info_next : ∃ reader, Reader.nextRequest Engine.oneWorker [.ready 63]
    ⟨sampleDecoder, [], infoStream⟩ = (.request [ascii "INFO"], reader) :=
  next_of_arguments (by decide +kernel)

end Recall.Server
