import Recall.Config

/-!
# Sessions

One connection's session: the authentication gate, the commands it answers itself, and the calls it
makes into the engine. The engine is a parameter: any state with the three calls a session makes.
Password comparison is constant time in the program and plain equality here.
-/

namespace Recall

structure Metrics where
  activeConnections : Nat
  totalConnections : Nat
  rejectedConnections : Nat
  totalCommands : Nat
  protocolErrors : Nat
  ioTimeouts : Nat

/-- What a session calls. Every call may change the engine, also one that only asks. -/
structure EngineHandle (σ : Type) where
  execute : Operation → σ → Reply × σ
  stats : σ → List ShardStats × σ
  workerCount : σ → Nat × σ

structure Session where
  id : Nat
  authenticated : Bool
  name : Option Bytes
  libraryName : Option Bytes
  libraryVersion : Option Bytes
deriving DecidableEq

/-- What one command leaves behind. -/
structure Served (σ : Type) where
  session : Session
  reply : Reply
  close : Bool
  engine : σ

def nonempty (value : Bytes) : Option Bytes := if value.isEmpty then none else some value

def authenticate (config : Config) (username : Option Bytes) (supplied : Bytes) :
    Except Reply Unit :=
  match config.password with
  | none =>
      .error (.errorText "ERR AUTH called without any password configured for the default user.")
  | some expected =>
      if expected = supplied ∧ (username = none ∨ username = some (ascii "default")) then .ok ()
      else .error (.errorText "WRONGPASS invalid username-password pair or user is disabled.")

def noAuth : Reply := .errorText "NOAUTH Authentication required."

def version : String := "0.1.0"

/-! ### `INFO` -/

def includes (section_ : Option Bytes) (name : String) : Bool :=
  match section_ with
  | none => true
  | some value => eqIgnoreAsciiCase value (ascii "all") || eqIgnoreAsciiCase value (ascii "default") ||
      eqIgnoreAsciiCase value (ascii name)

def field (name : String) (value : Nat) : Bytes := ascii name ++ Decimal.ofNat value

def line (name : String) (value : Nat) : Bytes := field name value ++ ascii "\r\n"

def infoServer (workers : Nat) : Bytes :=
  ascii "# Server\r\nserver_name:recall\r\nrecall_version:" ++ ascii version ++
    ascii "\r\nmode:standalone\r\npersistence:memory-only\r\n" ++ line "engine_workers:" workers

def infoClients (metrics : Metrics) : Bytes :=
  ascii "# Clients\r\n" ++ line "connected_clients:" metrics.activeConnections

def infoStats (metrics : Metrics) : Bytes :=
  ascii "# Stats\r\n" ++ line "total_connections_received:" metrics.totalConnections ++
    line "total_commands_processed:" metrics.totalCommands ++
    line "rejected_connections:" metrics.rejectedConnections ++
    line "protocol_errors:" metrics.protocolErrors ++ line "io_timeouts:" metrics.ioTimeouts

def infoOwner (owner : ShardStats × Nat) : Bytes :=
  field "owner_" owner.2 ++ field ":keys=" owner.1.keys ++
    field ",payload_bytes=" owner.1.payloadBytes ++ field ",key_limit=" owner.1.maxKeys ++
    field ",payload_limit=" owner.1.maxPayloadBytes ++
    field ",active_expired=" owner.1.expiredKeys ++ line ",applied=" owner.1.appliedCommands

def infoMemory (stats : List ShardStats) : Bytes :=
  ascii "# Memory\r\naccounting:live-key-value-payload-only\r\n" ++
    line "payload_bytes:" (stats.map ShardStats.payloadBytes).sum ++
    ascii "allocated_metadata_model:preallocated-per-owner\r\n" ++
    line "physical_keys:" (stats.map ShardStats.keys).sum ++
    line "expiring_keys:" (stats.map ShardStats.expiringKeys).sum ++
    (stats.zipIdx.map infoOwner).flatten

def info {σ : Type} (section_ : Option Bytes) (handle : EngineHandle σ) (metrics : Metrics)
    (engine : σ) : Reply × σ :=
  let (server, engine) :=
    if includes section_ "server" then
      let (workers, engine) := handle.workerCount engine
      (infoServer workers, engine)
    else ([], engine)
  let clients := if includes section_ "clients" then infoClients metrics else []
  let counters := if includes section_ "stats" then infoStats metrics else []
  let (memory, engine) :=
    if includes section_ "memory" then
      let (stats, engine) := handle.stats engine
      (infoMemory stats, engine)
    else ([], engine)
  (.bulk (some (server ++ clients ++ counters ++ memory)), engine)

namespace Session

def new (id : Nat) (config : Config) : Session where
  id := id
  authenticated := config.password.isNone
  name := none
  libraryName := none
  libraryVersion := none

def helloReply (session : Session) : Reply :=
  .array
    [.bulk (some (ascii "server")), .bulk (some (ascii "recall")),
      .bulk (some (ascii "version")), .bulk (some (ascii version)),
      .bulk (some (ascii "proto")), .integer (I64.wrap 2),
      .bulk (some (ascii "id")), .integer (I64.wrap session.id),
      .bulk (some (ascii "mode")), .bulk (some (ascii "standalone")),
      .bulk (some (ascii "role")), .bulk (some (ascii "master")),
      .bulk (some (ascii "modules")), .array []]

variable {σ : Type}

/-- The end of `HELLO`, behind the gate. -/
def welcome (session : Session) (name : Option Bytes) : Session × Reply :=
  if ¬ session.authenticated then
    (session, noAuth)
  else
    match name with
    | none => (session, session.helloReply)
    | some name =>
        let session := { session with name := nonempty name }
        (session, session.helloReply)

def hello (session : Session) (config : Config) (protocol : Option I64)
    (auth : Option (Bytes × Bytes)) (name : Option Bytes) : Session × Reply :=
  if protocol ≠ none ∧ protocol ≠ some (I64.wrap 2) then
    (session, .errorText "NOPROTO unsupported protocol version")
  else
    match auth with
    | none => session.welcome name
    | some (username, password) =>
        match authenticate config (some username) password with
        | .error reply => (session, reply)
        | .ok _ => ({ session with authenticated := true }).welcome name

def executeClient (session : Session) : ClientCommand → Session × Reply
  | .getName => (session, .bulk session.name)
  | .setName name => ({ session with name := nonempty name }, .ok)
  | .setInfo true value => ({ session with libraryName := nonempty value }, .ok)
  | .setInfo false value => ({ session with libraryVersion := nonempty value }, .ok)

/-- The commands behind the gate. `AUTH` and `HELLO` are answered in front of it. -/
def executeGated (session : Session) (command : Command) (handle : EngineHandle σ)
    (metrics : Metrics) (engine : σ) : Served σ :=
  match command with
  | .data operation =>
      let (reply, engine) := handle.execute operation engine
      ⟨session, reply, false, engine⟩
  | .ping none => ⟨session, .simple (ascii "PONG"), false, engine⟩
  | .ping (some value) | .echo value => ⟨session, .bulk (some value), false, engine⟩
  | .quit => ⟨session, .ok, true, engine⟩
  | .select index =>
      if index = 0 then ⟨session, .ok, false, engine⟩
      else ⟨session, .errorText "ERR DB index is out of range", false, engine⟩
  | .client command =>
      let (session, reply) := session.executeClient command
      ⟨session, reply, false, engine⟩
  | .metadata command => ⟨session, Recall.metadata command, false, engine⟩
  | .info section_ =>
      let (reply, engine) := Recall.info section_ handle metrics engine
      ⟨session, reply, false, engine⟩
  | .auth _ _ | .hello _ _ _ => ⟨session, noAuth, false, engine⟩

def execute (session : Session) (command : Command) (handle : EngineHandle σ) (config : Config)
    (metrics : Metrics) (engine : σ) : Served σ :=
  match command with
  | .auth username password =>
      match authenticate config username password with
      | .ok _ => ⟨{ session with authenticated := true }, .ok, false, engine⟩
      | .error reply => ⟨session, reply, false, engine⟩
  | .hello protocol auth name =>
      let (session, reply) := session.hello config protocol auth name
      ⟨session, reply, false, engine⟩
  | command =>
      if ¬ session.authenticated then ⟨session, noAuth, false, engine⟩
      else session.executeGated command handle metrics engine

/-- One request on the connection: a parse error is the reply. -/
def serve (session : Session) (arguments : List Bytes) (handle : EngineHandle σ) (config : Config)
    (metrics : Metrics) (engine : σ) : Served σ :=
  match parse arguments config.commands with
  | .ok command => session.execute command handle config metrics engine
  | .error failure => ⟨session, failure.reply, false, engine⟩

end Session

end Recall
