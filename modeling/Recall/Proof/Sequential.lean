import Recall.Proof.Graceful

/-!
# One order for all connections

The commands of all connections behave as if they were run one at a time on one keyspace, each at
its clock sample, and every connection finds its own commands in the order in which it sent them.
-/

namespace Recall.Server

open Engine (System Setup Effect executedIn commandEffect)
open Interleaving (Runs schedule schedule_perm schedule_sorted sublist_of_pairs)

variable {config : Config} {route : Bytes → Fin config.workers} {shards : Shards config.workers}
  {trace : List (Event config.workers)} {s : State config.workers} {id : Nat}

theorem mem_requests {n : Nat} {effects : List (Effect n)} {request : Engine.Request} :
    request ∈ effects.filterMap Effect.request? ↔
      ∃ effect ∈ effects, effect.mark.subject = .command request := by
  rw [List.mem_filterMap]
  refine exists_congr fun effect => and_congr_right fun _ => ?_
  obtain ⟨⟨subject, nowMs⟩, reply⟩ := effect
  cases subject <;> simp [Effect.request?]

/-- In the order of the clock samples, the commands of one connection stand as it sent them. -/
theorem Reaches.program_order (hreaches : Reaches config route shards trace s) (id : Nat) :
    (((schedule (fun effect => effect.mark.nowMs) (executedIn (engineIn trace))).filterMap
      Effect.request?).filter (· ∈ calledIn id trace)).Sublist (calledIn id trace) := by
  obtain ⟨base, hinvariant, -⟩ := hreaches.engine.invariant
  have hperm := schedule_perm (fun effect : Effect config.workers => effect.mark.nowMs)
    (executedIn (engineIn trace))
  have hmem : ∀ request ∈ ((schedule (fun effect : Effect config.workers => effect.mark.nowMs)
      (executedIn (engineIn trace))).filterMap Effect.request?).filter (· ∈ calledIn id trace),
      ∃ effect ∈ executedIn (engineIn trace), effect.mark.subject = .command request ∧
        request ∈ calledIn id trace := by
    intro request hrequest
    rw [List.mem_filter, mem_requests] at hrequest
    obtain ⟨⟨effect, heffect, hsubject⟩, hcalled⟩ := hrequest
    exact ⟨effect, hperm.mem_iff.mp heffect, hsubject, of_decide_eq_true hcalled⟩
  refine sublist_of_pairs ?_ (fun request hrequest => ?_) ?_
  · refine List.Nodup.filter _ ?_
    rw [(hperm.filterMap _).nodup_iff, ← Engine.commandsIn_eq]
    exact hinvariant.commands_nodup
  · obtain ⟨-, -, -, hcalled⟩ := hmem request hrequest
    exact hcalled
  · refine (hreaches.attended.ordered id).imp fun {earlier later} hprecedes hearlier hlater => ?_
    obtain ⟨first, hfirst, hone, hcalled⟩ := hmem earlier hearlier
    obtain ⟨second, hsecond, htwo, hcalled'⟩ := hmem later hlater
    have hpair := hreaches.engine.schedule_precedes hprecedes hfirst hsecond hone htwo
    have hrequests := (hpair.filterMap Effect.request?).filter (· ∈ calledIn id trace)
    have hself : ([first, second].filterMap Effect.request?).filter (· ∈ calledIn id trace) =
        [earlier, later] := by
      simp [Effect.request?, hone, htwo, hcalled, hcalled']
    rwa [hself] at hrequests

end Recall.Server
