import Recall.Connection
import Recall.Engine

/-!
# The server

`Server::run`, the connections it serves and the engine they call, as one transition system. A step
of a connection is what its task does between two await points; the accept loop is cut where another
thread can see a counter change. A client is the bytes it sends, and how they arrive, whether a
write succeeds and when the listener stops are choices.

Tasks are joined, never dropped, so a call into the engine is always awaited to its end.
-/

namespace Recall

/-! ### What a session does with a command -/

inductive Dispatch where
  | answer (session : Session) (reply : Reply) (close : Bool)
  | execute (operation : Operation)
  | info (section_ : Option Bytes)

/-- The commands that are answered without the engine do not call this one either. -/
def noEngine : EngineHandle Unit where
  execute _ engine := (.bulk none, engine)
  stats engine := ([], engine)
  workerCount engine := (0, engine)

/-- `Session::execute` up to its first await point. -/
def Session.dispatch (session : Session) (config : Config) : Command → Dispatch
  | .data operation =>
      if session.authenticated then .execute operation else .answer session noAuth false
  | .info section_ =>
      if session.authenticated then .info section_ else .answer session noAuth false
  | command =>
      let served := session.execute command noEngine config ⟨0, 0, 0, 0, 0, 0⟩ ()
      .answer served.session served.reply served.close

/-- The sections of `INFO` that are written before the owners are asked. -/
def infoHead (section_ : Option Bytes) (workers : Nat) (metrics : Metrics) : Bytes :=
  (if includes section_ "server" then infoServer workers else []) ++
    (if includes section_ "clients" then infoClients metrics else []) ++
    (if includes section_ "stats" then infoStats metrics else [])

namespace Server

open Engine (System Setup)

variable {n : Nat}

/-! ### Tasks -/

/-- Where a connection's task stands. `EngineHandle::stats` asks the remaining owners in turn;
`asked` says that the first of them was sent the question. A task that is `leaving` has counted
itself out and still holds its permit. -/
inductive Activity (n : Nat) where
  | top
  | reading
  | calling (call : Nat)
  | sampling (head : Bytes) (remaining : List (Fin n)) (asked : Bool) (stats : List ShardStats)
  | writing (reply : Reply) (close : Bool)
  | closing
  | leaving
  | ended

structure Task (n : Nat) where
  reader : Reader
  session : Session
  activity : Activity n

/-- Where `Server::run` stands. An accepted connection is admitted with its permit, then numbered,
then spawned. -/
inductive Loop where
  | accepting
  | admitted (stream : Bytes)
  | numbered (stream : Bytes) (id : Nat)
  | joining
  | stopping
  | returned

structure State (n : Nat) where
  engine : System n
  loop : Loop
  stopping : Bool
  permits : Nat
  metrics : Metrics
  tasks : Nat → Option (Task n)
  nextCall : Nat

/-- `fetch_add(1)` on a 64-bit counter. -/
def increment (count : Nat) : Nat := (count + 1) % 18446744073709551616

/-- `i64::MAX`, where connection identities end. -/
def lastConnection : Nat := 9223372036854775807

namespace State

def start (config : Config) (shards : Shards config.workers) (clock : I64) :
    State config.workers where
  engine := .start shards config.queueBytes clock
  loop := .accepting
  stopping := false
  permits := config.maxConnections
  metrics := ⟨0, 0, 0, 0, 0, 0⟩
  tasks _ := none
  nextCall := 0

def setTask (s : State n) (id : Nat) (task : Task n) : State n :=
  { s with tasks := Function.update s.tasks id (some task) }

def countTimeout (s : State n) (timedOut : Bool) : State n :=
  if timedOut then
    { s with metrics := { s.metrics with ioTimeouts := increment s.metrics.ioTimeouts } }
  else s

def countCommand (s : State n) : State n :=
  { s with metrics := { s.metrics with totalCommands := increment s.metrics.totalCommands } }

end State

inductive Event (n : Nat) where
  | engine (event : Engine.Event n)
  | opened (id : Nat) (stream : Bytes)
  | rejected
  | requested (id : Nat) (arguments : List Bytes)
  | malformed (id : Nat) (message : String)
  | called (id : Nat) (call : Nat) (operation : Operation)
  | sampled (id : Nat) (stats : List ShardStats)
  | answered (id : Nat) (reply : Reply)
  | written (id : Nat) (reply : Reply)
  | closed (id : Nat)

/-! ### Steps -/

/-- The accept loop of `Server::run` and what follows it. -/
inductive LoopStep (config : Config) (s : State n) : List (Event n) → State n → Prop
  | accept {stream : Bytes} (hloop : s.loop = .accepting) (hpermit : 0 < s.permits) :
      LoopStep config s [] { s with loop := .admitted stream, permits := s.permits - 1 }
  | reject (hloop : s.loop = .accepting) (hfull : s.permits = 0) :
      LoopStep config s [.rejected]
        { s with
          metrics := { s.metrics with
            rejectedConnections := increment s.metrics.rejectedConnections } }
  | number {stream : Bytes} (hloop : s.loop = .admitted stream)
      (hid : s.metrics.totalConnections < lastConnection) :
      LoopStep config s []
        { s with
          loop := .numbered stream (s.metrics.totalConnections + 1)
          metrics := { s.metrics with totalConnections := s.metrics.totalConnections + 1 } }
  -- A task whose socket option cannot be set ends at once.
  | spawn {stream : Bytes} {id : Nat} {decoder : Decoder} {activity : Activity n}
      (hloop : s.loop = .numbered stream id) (hdecoder : Decoder.new config.protocol = .ok decoder)
      (hactivity : activity = .top ∨ activity = .closing) :
      LoopStep config s [.opened id stream]
        ({ s with
          loop := .accepting
          metrics := { s.metrics with
            activeConnections := s.metrics.activeConnections + 1 } }.setTask id
          ⟨⟨decoder, [], stream⟩, .new id config, activity⟩)
  -- The shutdown future is done, or the listener failed.
  | stop (hloop : s.loop = .accepting) :
      LoopStep config s [] { s with loop := .joining, stopping := true }
  | joined (hloop : s.loop = .joining) (hstage : s.engine.stage = .running)
      (hended : ∀ id task, s.tasks id = some task → task.activity = .ended) :
      LoopStep config s []
        { s with loop := .stopping, engine := { s.engine with stage := .closing } }
  | return_ (hloop : s.loop = .stopping) (hstopped : s.engine.stage = .stopped) :
      LoopStep config s [] { s with loop := .returned }

/-- What the engine does meanwhile. The calls of the connections go on; a call is submitted, and
returns, with a step of its connection. -/
inductive EngineStep (setup : Setup n) (s : State n) : List (Engine.Event n) → System n → Prop
  | owner {o : Fin n} {events : List (Engine.Event n)} {engine : System n}
      (hstep : Engine.OwnerStep setup s.engine o events engine) : EngineStep setup s events engine
  | coordinator {events : List (Engine.Event n)} {engine : System n}
      (hstep : Engine.CoordinatorStep setup s.engine events engine) :
      EngineStep setup s events engine
  | call {events : List (Engine.Event n)} {engine : System n}
      (hstep : Engine.CallStep setup s.engine events engine)
      (hsubmitted : ∀ call, s.engine.calls call = .unused → engine.calls call = .unused)
      (hpending : ∀ call, engine.calls call = .finished → s.engine.calls call = .finished) :
      EngineStep setup s events engine
  | shutdown {engine : System n} (hloop : s.loop = .stopping)
      (hstep : Engine.ShutdownStep setup s.engine engine) : EngineStep setup s [] engine
  | advance {clock : I64} (hle : s.engine.clock ≤ clock) :
      EngineStep setup s [] { s.engine with clock }

/-- The next request of a connection was read and is served: it is refused by the parser, answered
by the session, or leads to a call. -/
inductive ServeStep (config : Config) (setup : Setup n) (s : State n) (id : Nat) (task : Task n)
    (arguments : List Bytes) : List (Event n) → State n → Prop
  | refuse {failure : CommandError} (hparse : parse arguments config.commands = .error failure) :
      ServeStep config setup s id task arguments
        [.requested id arguments, .answered id failure.reply]
        (s.countCommand.setTask id { task with activity := .writing failure.reply false })
  | answer {command : Command} {session : Session} {reply : Reply} {close : Bool}
      (hparse : parse arguments config.commands = .ok command)
      (hdispatch : task.session.dispatch config command = .answer session reply close) :
      ServeStep config setup s id task arguments [.requested id arguments, .answered id reply]
        (s.countCommand.setTask id { task with session, activity := .writing reply close })
  | execute {command : Command} {operation : Operation}
      (hparse : parse arguments config.commands = .ok command)
      (hdispatch : task.session.dispatch config command = .execute operation) :
      ServeStep config setup s id task arguments
        [.requested id arguments, .called id s.nextCall operation,
          .engine (.submitted ⟨s.nextCall, operation⟩)]
        ({ s.countCommand with
          nextCall := s.nextCall + 1
          engine := s.engine.setCall s.nextCall
            (Engine.admission setup s.engine.stage.isClosing operation) }.setTask id
          { task with activity := .calling s.nextCall })
  | info {command : Command} {section_ : Option Bytes}
      (hparse : parse arguments config.commands = .ok command)
      (hdispatch : task.session.dispatch config command = .info section_)
      (hmemory : includes section_ "memory" = true) :
      ServeStep config setup s id task arguments [.requested id arguments]
        (s.countCommand.setTask id
          { task with
            activity := .sampling (infoHead section_ n s.countCommand.metrics) (List.finRange n)
              false [] })
  | infoHead {command : Command} {section_ : Option Bytes}
      (hparse : parse arguments config.commands = .ok command)
      (hdispatch : task.session.dispatch config command = .info section_)
      (hmemory : includes section_ "memory" = false) :
      ServeStep config setup s id task arguments
        [.requested id arguments,
          .answered id (.bulk (some (infoHead section_ n s.countCommand.metrics)))]
        (s.countCommand.setTask id
          { task with
            activity := .writing (.bulk (some (infoHead section_ n s.countCommand.metrics))) false })

/-- One await point of the task of a connection to the next. -/
inductive TaskStep (config : Config) (setup : Setup n) (s : State n) (id : Nat) (task : Task n) :
    List (Event n) → State n → Prop
  | stop (htop : task.activity = .top) (hstopping : s.stopping = true) :
      TaskStep config setup s id task [] (s.setTask id { task with activity := .closing })
  | begin (htop : task.activity = .top) (hrunning : s.stopping = false) :
      TaskStep config setup s id task [] (s.setTask id { task with activity := .reading })
  -- `next_request`, as far as it gets with what arrives.
  | wait {arrivals : List Arrival} {reader : Reader} (hreading : task.activity = .reading)
      (hstop : .stopping ∈ arrivals → s.stopping = true)
      (hnext : task.reader.nextRequest config arrivals = (.pending, reader)) :
      TaskStep config setup s id task [] (s.setTask id { task with reader })
  | finish {arrivals : List Arrival} {reader : Reader} (hreading : task.activity = .reading)
      (hstop : .stopping ∈ arrivals → s.stopping = true)
      (hnext : task.reader.nextRequest config arrivals = (.finished, reader)) :
      TaskStep config setup s id task [] (s.setTask id { task with reader, activity := .closing })
  | fail {arrivals : List Arrival} {reader : Reader} {timedOut : Bool}
      (hreading : task.activity = .reading) (hstop : .stopping ∈ arrivals → s.stopping = true)
      (hnext : task.reader.nextRequest config arrivals = (.failure .io, reader)) :
      TaskStep config setup s id task []
        ((s.countTimeout timedOut).setTask id { task with reader, activity := .closing })
  | malformed {arrivals : List Arrival} {reader : Reader} {message : String}
      (hreading : task.activity = .reading) (hstop : .stopping ∈ arrivals → s.stopping = true)
      (hnext : task.reader.nextRequest config arrivals = (.failure (.protocol message), reader)) :
      TaskStep config setup s id task [.malformed id message]
        ({ s with
          metrics := { s.metrics with
            protocolErrors := increment s.metrics.protocolErrors } }.setTask id
          { task with reader, activity := .writing (protocolReply message) true })
  | serve {arrivals : List Arrival} {reader : Reader} {arguments : List Bytes}
      {events : List (Event n)} {s' : State n}
      (hreading : task.activity = .reading) (hstop : .stopping ∈ arrivals → s.stopping = true)
      (hnext : task.reader.nextRequest config arrivals = (.request arguments, reader))
      (hserve : ServeStep config setup s id { task with reader } arguments events s') :
      TaskStep config setup s id task events s'
  | returned {call : Nat} {reply : Reply} {engine : System n}
      (hcalling : task.activity = .calling call)
      (hreturn : Engine.CallStep setup s.engine [.returned call reply] engine) :
      TaskStep config setup s id task [.engine (.returned call reply), .answered id reply]
        ({ s with engine }.setTask id { task with activity := .writing reply false })
  -- `EngineHandle::stats`: a question nobody can be asked ends it, one that is lost is passed over.
  | ask {head : Bytes} {o : Fin n} {rest : List (Fin n)} {stats : List ShardStats}
      (hsampling : task.activity = .sampling head (o :: rest) false stats)
      (halive : (s.engine.owners o).position ≠ .exited)
      (hroom : (s.engine.owners o).controls.length < Engine.controlCapacity) :
      TaskStep config setup s id task []
        ({ s with
          engine := s.engine.setOwner o { s.engine.owners o with
            controls := (s.engine.owners o).controls ++ [Engine.Control.stats] } }.setTask id
          { task with activity := .sampling head (o :: rest) true stats })
  | askFails {head : Bytes} {o : Fin n} {rest : List (Fin n)} {stats : List ShardStats}
      (hsampling : task.activity = .sampling head (o :: rest) false stats)
      (hexited : (s.engine.owners o).position = .exited) :
      TaskStep config setup s id task []
        (s.setTask id { task with activity := .sampling head [] false stats })
  -- Which of the tasks that asked an owner gets an answer first is left open.
  | sample {head : Bytes} {o : Fin n} {rest : List (Fin n)} {stats : List ShardStats}
      {controls : List Engine.Control} {events : List (Engine.Event n)} {engine : System n}
      (hsampling : task.activity = .sampling head (o :: rest) true stats)
      (hselect : (s.engine.owners o).position = .select)
      (hcontrols : (s.engine.owners o).controls = Engine.Control.stats :: controls)
      (hstep : Engine.OwnerStep setup s.engine o events engine)
      (htop : (engine.owners o).position = .top) :
      TaskStep config setup s id task (events.map .engine)
        ({ s with engine }.setTask id
          { task with
            activity := .sampling head rest false (stats ++ [(s.engine.owners o).shard.stats]) })
  | sampleLost {head : Bytes} {o : Fin n} {rest : List (Fin n)} {stats : List ShardStats}
      (hsampling : task.activity = .sampling head (o :: rest) true stats)
      (hexited : (s.engine.owners o).position = .exited) :
      TaskStep config setup s id task []
        (s.setTask id { task with activity := .sampling head rest false stats })
  | informed {head : Bytes} {asked : Bool} {stats : List ShardStats}
      (hsampling : task.activity = .sampling head [] asked stats) :
      TaskStep config setup s id task
        [.sampled id stats, .answered id (.bulk (some (head ++ infoMemory stats)))]
        (s.setTask id
          { task with activity := .writing (.bulk (some (head ++ infoMemory stats))) false })
  | write {reply : Reply} {close : Bool} (hwriting : task.activity = .writing reply close) :
      TaskStep config setup s id task [.written id (writeReply config reply)]
        (s.setTask id { task with activity := if close then .closing else .top })
  | writeFails {reply : Reply} {close timedOut : Bool}
      (hwriting : task.activity = .writing reply close) :
      TaskStep config setup s id task []
        ((s.countTimeout timedOut).setTask id { task with activity := .closing })
  -- The guard is dropped: first the count, then the permit.
  | leave (hclosing : task.activity = .closing) :
      TaskStep config setup s id task []
        ({ s with
          metrics := { s.metrics with
            activeConnections := s.metrics.activeConnections - 1 } }.setTask id
          { task with activity := .leaving })
  | release (hleaving : task.activity = .leaving) :
      TaskStep config setup s id task [.closed id]
        ({ s with permits := s.permits + 1 }.setTask id { task with activity := .ended })

inductive Step (config : Config) (setup : Setup n) (s : State n) : List (Event n) → State n → Prop
  | loop {events : List (Event n)} {s' : State n} (hstep : LoopStep config s events s') :
      Step config setup s events s'
  | engine {events : List (Engine.Event n)} {engine : System n}
      (hstep : EngineStep setup s events engine) :
      Step config setup s (events.map .engine) { s with engine }
  | task {id : Nat} {task : Task n} {events : List (Event n)} {s' : State n}
      (htask : s.tasks id = some task) (hstep : TaskStep config setup s id task events s') :
      Step config setup s events s'

/-- The states reached by a server that was just bound, each with what happened on the way. -/
inductive Reaches (config : Config) (route : Bytes → Fin config.workers)
    (shards : Shards config.workers) :
    List (Event config.workers) → State config.workers → Prop
  | start {clock : I64} (hnew : ∀ o : Fin config.workers,
      Shard.new (config.shardLimits o) = .ok (shards o)) :
      Reaches config route shards [] (.start config shards clock)
  | step {trace events : List (Event config.workers)} {s s' : State config.workers}
      (hreaches : Reaches config route shards trace s)
      (hstep : Step config (.ofConfig config route) s events s') :
      Reaches config route shards (trace ++ events) s'

/-! ### What a trace records -/

def engineIn (trace : List (Event n)) : List (Engine.Event n) :=
  trace.filterMap fun
    | .engine event => some event
    | _ => none

/-- The identities given to connections. -/
def openedIn (trace : List (Event n)) : List Nat :=
  trace.filterMap fun
    | .opened id _ => some id
    | _ => none

def rejectedIn (trace : List (Event n)) : List Unit :=
  trace.filterMap fun
    | .rejected => some ()
    | _ => none

/-- The requests of all connections. -/
def commandsIn (trace : List (Event n)) : List (Nat × List Bytes) :=
  trace.filterMap fun
    | .requested id arguments => some (id, arguments)
    | _ => none

/-- The requests of one connection, in order. -/
def requestsIn (id : Nat) (trace : List (Event n)) : List (List Bytes) :=
  trace.filterMap fun
    | .requested other arguments => if other = id then some arguments else none
    | _ => none

/-- The replies to them. -/
def answeredIn (id : Nat) (trace : List (Event n)) : List Reply :=
  trace.filterMap fun
    | .answered other reply => if other = id then some reply else none
    | _ => none

/-- What its client was sent. -/
def writtenIn (id : Nat) (trace : List (Event n)) : List Reply :=
  trace.filterMap fun
    | .written other reply => if other = id then some reply else none
    | _ => none

/-- The calls it made into the engine. -/
def calledIn (id : Nat) (trace : List (Event n)) : List Engine.Request :=
  trace.filterMap fun
    | .called other call operation => if other = id then some ⟨call, operation⟩ else none
    | _ => none

end Server

end Recall
