import Recall.Store

/-!
# Runs of one shard

A shard together with the preparations its caller still holds, and the calls that can be made on it
in any order and at any times. A stale preparation may be held and dropped; applying it panics.
-/

namespace Recall

structure ShardRun where
  shard : Shard
  outstanding : List Prepared

namespace ShardRun

inductive Call where
  | prepare (seed : HashSeed) (operation : Operation) (nowMs : I64)
  | apply (index : Nat)
  | discard (index : Nat)
  | execute (seed : HashSeed) (operation : Operation) (nowMs : I64)
  | expireDue (nowMs : I64) (budget : Nat)

def step (run : ShardRun) : Call → Except Panic ShardRun
  | .prepare seed operation nowMs => do
      match ← run.shard.prepare seed operation nowMs with
      | .error _ => return run
      | .ok prepared => return { run with outstanding := run.outstanding ++ [prepared] }
  | .apply index =>
      match run.outstanding[index]? with
      | none => .ok run
      | some prepared => do
          let (shard, _) ← run.shard.apply prepared
          return { shard, outstanding := run.outstanding.eraseIdx index }
  | .discard index => .ok { run with outstanding := run.outstanding.eraseIdx index }
  | .execute seed operation nowMs => do
      let (shard, _) ← run.shard.execute seed operation nowMs
      return { run with shard }
  | .expireDue nowMs budget => do
      let (shard, _) ← run.shard.expireDue nowMs budget
      return { run with shard }

/-- The states reached from a fresh shard by calls that did not panic. -/
inductive Reachable (limits : ShardLimits) : ShardRun → Prop
  | start {shard : Shard} (hnew : Shard.new limits = .ok shard) : Reachable limits ⟨shard, []⟩
  | call {run next : ShardRun} (hreach : Reachable limits run) (call : Call)
      (hstep : run.step call = .ok next) : Reachable limits next

end ShardRun

end Recall
