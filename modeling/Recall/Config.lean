import Recall.Command
import Recall.Decoder
import Recall.Store

/-!
# Configuration

What `Config::validate` checks and the budgets it hands to each owner. Durations are in nanoseconds;
of the bind address only its loopback test is read.
-/

namespace Recall

structure Config where
  loopback : Bool
  workers : Nat
  ioThreads : Nat
  maxConnections : Nat
  queueCapacity : Nat
  queueBytes : Nat
  admissionTimeout : Nat
  readTimeout : Nat
  writeTimeout : Nat
  expiryInterval : Nat
  expiryBatch : Nat
  maxPayloadBytes : Nat
  keysPerWorker : Nat
  maxReplyBytes : Nat
  protocol : Limits
  commands : ParseLimits
  password : Option Bytes
deriving DecidableEq

namespace Config

/-- The defaults on a machine with `cpus` available threads. -/
def default (cpus : Nat) : Config where
  loopback := true
  workers := max 1 (min (cpus - 2) 16)
  ioThreads := 2
  maxConnections := 128
  queueCapacity := 256
  queueBytes := 4 * 1024 * 1024
  admissionTimeout := 250000000
  readTimeout := 30000000000
  writeTimeout := 10000000000
  expiryInterval := 10000000
  expiryBatch := 64
  maxPayloadBytes := 512 * 1024 * 1024
  keysPerWorker := 16384
  maxReplyBytes := 4 * 1024 * 1024
  protocol := .default
  commands := .default
  password := none

def invalidPassword : Option Bytes → Bool
  | none => false
  | some password => password.isEmpty || decide (1024 < password.length)

def validate (config : Config) : Except String Unit :=
  if ¬ config.loopback then
    .error "this milestone permits loopback binds only; transport security is not implemented"
  else if ¬ (1 ≤ config.workers ∧ config.workers ≤ 64) ∨
      ¬ (1 ≤ config.ioThreads ∧ config.ioThreads ≤ 64) ∨
      ¬ (1 ≤ config.maxConnections ∧ config.maxConnections ≤ 65536) ∨
      ¬ (1 ≤ config.queueCapacity ∧ config.queueCapacity ≤ 65536) ∨
      config.queueBytes = 0 ∨ 4294967295 < config.queueBytes ∨
      config.keysPerWorker = 0 ∨ 1048576 < config.keysPerWorker ∨
      config.maxPayloadBytes < config.workers then
    .error "invalid worker, connection, queue, key, or payload limit"
  else if config.admissionTimeout = 0 ∨ config.readTimeout = 0 ∨ config.writeTimeout = 0 ∨
      config.expiryInterval = 0 ∨ config.expiryBatch = 0 then
    .error "timeouts and expiration budgets must be nonzero"
  else
    match config.protocol.validate with
    | .error failure => .error failure.message
    | .ok _ =>
        if 16 * 1024 * 1024 < config.protocol.maxFrameBytes ∨
            4096 < config.protocol.maxArguments ∨
            config.protocol.maxBulkBytes < config.commands.maxKeyBytes ∨
            config.protocol.maxBulkBytes < config.commands.maxValueBytes ∨
            1024 < config.commands.maxClientMetadataBytes ∨
            config.maxReplyBytes < Recall.saturate (config.commands.maxValueBytes + 64) ∨
            64 * 1024 * 1024 < config.maxReplyBytes then
          .error "inconsistent or excessive protocol/command/reply limits"
        else if invalidPassword config.password then
          .error "the configured password must contain 1 to 1024 bytes"
        else
          .ok ()

def shardLimits (config : Config) (owner : Nat) : ShardLimits where
  maxKeys := config.keysPerWorker
  maxPayloadBytes := config.maxPayloadBytes / config.workers +
    if owner < config.maxPayloadBytes % config.workers then 1 else 0
  maxReplyBytes := config.maxReplyBytes

end Config

end Recall
