import Recall.Config
import Recall.Routing

/-!
# The engine

The owners, the coordinator, the calls of `EngineHandle::execute` and `Engine::shutdown` as one
transition system. A step is what one of them does between two points where the others can act, so
a clock sample and the work done at that time are separate steps, and so are the sending of a
control message and its handling.

`select!` is taken without its bias and semaphores without their queues: any branch whose guard
holds may be chosen and any waiting caller may go first. The source allows fewer runs, not more.
-/

namespace Recall.Engine

structure Setup (n : Nat) where
  route : Bytes → Fin n
  shardLimits : Fin n → ShardLimits
  queueCapacity : Nat
  queueBytes : Nat
  expiryBatch : Nat
  maxReplyBytes : Nat

def Setup.ofConfig (config : Config) (route : Bytes → Fin config.workers) :
    Setup config.workers where
  route
  shardLimits owner := config.shardLimits owner
  queueCapacity := config.queueCapacity
  queueBytes := config.queueBytes
  expiryBatch := config.expiryBatch
  maxReplyBytes := config.maxReplyBytes

/-- `DataRequest`. The call stands for the receiving end of its response channel; its credit is
given back when the request is dropped. -/
structure Request where
  call : Nat
  operation : Operation
deriving DecidableEq

/-- Payload credits plus a conservative per-argument and per-request charge. -/
def charge (operation : Operation) : Nat :=
  saturate (saturate (operation.payloadBytes + saturate (operation.keys.length * 128)) + 256)

/-! ### Owners -/

inductive Control where
  | reserve (id : Nat)
  | prepare (id : Nat) (operation : Operation) (nowMs : I64)
  | apply (id : Nat)
  | release (id : Nat)
  | stats
  | stop
deriving DecidableEq

/-- The messages only the coordinator sends. -/
def Control.coordinated : Control → Bool
  | reserve _ | prepare _ _ _ | apply _ | release _ => true
  | stats | stop => false

structure Reservation where
  id : Nat
  prepared : Option Prepared

/-- What an owner answers to a coordinated message. -/
inductive Completion where
  | done
  | prepared (result : Except EngineError Reply)

/-- Where `owner_loop` stands. A request taken by the `data_turn` check goes on to `select!`, one
taken by `select!` goes back to the top of the loop. -/
inductive Position where
  | top
  | select
  | serving (request : Request) (sample : Option I64) (turn : Bool)
  | ticking (sample : Option I64)
  | exited
deriving DecidableEq

structure Owner where
  shard : Shard
  data : List Request
  dataClosed : Bool
  controls : List Control
  credits : Nat
  reservation : Option Reservation
  stopping : Bool
  dataTurn : Bool
  position : Position

def controlCapacity : Nat := 8

namespace Owner

def start (shard : Shard) (queueBytes : Nat) : Owner where
  shard
  data := []
  dataClosed := false
  controls := []
  credits := queueBytes
  reservation := none
  stopping := false
  dataTurn := false
  position := .top

/-- The `match control` of `owner_loop`, with its assertions in order. -/
def handle (owner : Owner) (seed : HashSeed) : Control → Except Fatal (Owner × Option Completion)
  | .reserve id =>
      match owner.reservation with
      | some _ => .error .duplicateReservation
      | none => .ok ({ owner with reservation := some ⟨id, none⟩ }, some .done)
  | .prepare id operation nowMs =>
      match owner.reservation with
      | none => .error .prepareWithoutReservation
      | some active =>
          if active.id ≠ id then .error .reservationIdentity
          else if active.prepared.isSome then .error .alreadyPrepared
          else do
            match ← abortOnPanic (owner.shard.prepare seed operation nowMs) with
            | .error failure => return (owner, some (.prepared (.error failure)))
            | .ok prepared =>
                return ({ owner with reservation := some ⟨active.id, some prepared⟩ },
                  some (.prepared (.ok prepared.response)))
  | .apply id =>
      match owner.reservation with
      | none => .error .applyWithoutReservation
      | some active =>
          if active.id ≠ id then .error .reservationIdentity
          else
            match active.prepared with
            | none => .error .applyWithoutPreparation
            | some prepared => do
                let (shard, _) ← abortOnPanic (owner.shard.apply prepared)
                return ({ owner with shard, reservation := some ⟨active.id, none⟩ }, some .done)
  | .release id =>
      match owner.reservation with
      | none => .error .releaseWithoutReservation
      | some active =>
          if active.id ≠ id then .error .reservationIdentity
          else .ok ({ owner with reservation := none, dataTurn := true }, some .done)
  | .stats => .ok ({ owner with dataTurn := true }, none)
  | .stop =>
      match owner.reservation with
      | some _ => .error .stopWhileReserved
      | none => .ok ({ owner with dataClosed := true, stopping := true }, none)

/-- The requests the owner has taken in and not answered yet, oldest first. -/
def held (owner : Owner) : List Request :=
  match owner.position with
  | .serving request _ _ => request :: owner.data
  | _ => owner.data

end Owner

/-! ### The coordinator -/

inductive CrossRequest where
  | execute (request : Request)
  | stop
deriving DecidableEq

def CrossRequest.request? : CrossRequest → Option Request
  | execute request => some request
  | stop => none

/-- The loops of `coordinate`, with the locals that are live in each. -/
inductive Phase where
  | reserve
  | prepare (nowMs : I64) (results : Except EngineError (List Reply))
  | apply (nowMs : I64) (reply : Reply)
  | release (reply : Reply)

/-- A run of `coordinate`: `todo` are the parts the current loop has not finished, and `awaiting`
says that the message to the first of them was sent. -/
structure Job (n : Nat) where
  request : Request
  id : Nat
  parts : List (Part n)
  phase : Phase
  todo : List (Part n)
  awaiting : Bool

variable {n : Nat}

namespace Job

def start (request : Request) (id : Nat) (parts : List (Part n)) : Job n where
  request
  id
  parts
  phase := .reserve
  todo := parts
  awaiting := false

def message (job : Job n) (part : Part n) : Control :=
  match job.phase with
  | .reserve => .reserve job.id
  | .prepare nowMs _ => .prepare job.id part.operation nowMs
  | .apply _ _ => .apply job.id
  | .release _ => .release job.id

/-- The next loop, over all the parts again. -/
def enter (job : Job n) (phase : Phase) : Job n :=
  { job with phase, todo := job.parts }

/-- The coordinator receives the completion it waited for. A failed preparation breaks the loop. -/
def receive (job : Job n) (completion : Completion) : Job n :=
  match job.phase, completion with
  | .prepare nowMs _, .prepared (.error failure) =>
      { job with phase := .prepare nowMs (.error failure), todo := [], awaiting := false }
  | .prepare nowMs results, .prepared (.ok reply) =>
      { job with
        phase := .prepare nowMs (results.map fun results => results ++ [reply])
        todo := job.todo.tail
        awaiting := false }
  | _, _ => { job with todo := job.todo.tail, awaiting := false }

/-- The coordinator waits for the answer to this message from this owner. -/
def awaits (job : Job n) (owner : Fin n) (control : Control) : Bool :=
  job.awaiting && job.todo.head?.any fun part => part.owner = owner ∧ job.message part = control

end Job

inductive Coordinator (n : Nat) where
  | idle
  | working (job : Job n)
  | finished

/-- The response channel of a control message; nobody listens on the others. -/
def Coordinator.complete (coordinator : Coordinator n) (owner : Fin n) (control : Control) :
    Option Completion → Coordinator n
  | none => coordinator
  | some completion =>
      match coordinator with
      | .working job =>
          if job.awaits owner control then .working (job.receive completion) else coordinator
      | _ => coordinator

/-! ### Calls -/

/-- Where a future of `EngineHandle::execute` stands. A call that returned or was dropped is
finished. -/
inductive Call where
  | unused
  | acquiring (operation : Operation)
  | sending (operation : Operation)
  | waiting
  | replied (reply : Reply)
  | refused (reply : Reply)
  | finished

/-- Sending on a response channel; a disconnected receiver is ignored. -/
def Call.respond (call : Call) (reply : Reply) : Call :=
  match call with
  | .waiting => .replied reply
  | other => other

def shuttingDown : Reply := .errorText "BUSY Recall is shutting down"

def tooLarge : Reply := .errorText "BUSY command exceeds queue byte capacity"

def deadlineExceeded : Reply := .errorText "BUSY admission queue deadline exceeded"

def emptyKeySet : Reply := .errorText "ERR empty key set"

/-- The replies of calls that sent nothing. -/
def refusals : List Reply := [shuttingDown, emptyKeySet, tooLarge, deadlineExceeded]

/-- The reply tells the caller to try again. -/
def isBusy : Reply → Bool
  | .error text => (ascii "BUSY").isPrefixOf text
  | _ => false

/-- `EngineHandle::execute` up to its first await point. -/
def admission (setup : Setup n) (closing : Bool) (operation : Operation) : Call :=
  if closing then .refused shuttingDown
  else if operation.keys = [] then .refused emptyKeySet
  else if setup.queueBytes < charge operation ∨ 4294967295 < charge operation then
    .refused tooLarge
  else .acquiring operation

/-! ### The system -/

/-- Where `Engine::shutdown` stands; `abandoned` is an engine whose handles were all dropped
without it. -/
inductive Stage (n : Nat) where
  | running
  | closing
  | draining
  | stopping (remaining : List (Fin n))
  | stopped
  | abandoned
deriving DecidableEq

/-- The `closing` flag. -/
def Stage.isClosing : Stage n → Bool
  | .running | .abandoned => false
  | _ => true

structure System (n : Nat) where
  owners : Fin n → Owner
  coordinator : Coordinator n
  lastId : Nat
  cross : List CrossRequest
  crossClosed : Bool
  crossCredits : Nat
  calls : Nat → Call
  clock : I64
  stage : Stage n

namespace System

def start (shards : Shards n) (queueBytes : Nat) (clock : I64) : System n where
  owners o := .start (shards o) queueBytes
  coordinator := .idle
  lastId := 0
  cross := []
  crossClosed := false
  crossCredits := queueBytes
  calls _ := .unused
  clock
  stage := .running

def setOwner (s : System n) (o : Fin n) (owner : Owner) : System n :=
  { s with owners := Function.update s.owners o owner }

def setCall (s : System n) (call : Nat) (state : Call) : System n :=
  { s with calls := Function.update s.calls call state }

def shards (s : System n) : Shards n := fun o => (s.owners o).shard

/-- No sender of the control channels is left: the handles and the coordinator hold them. -/
def disconnected (s : System n) : Prop :=
  s.stage = .abandoned ∧ s.coordinator = .finished

/-! The queue and the credit pool of each destination. -/

def credits (s : System n) : Destination n → Nat
  | .nowhere => 0
  | .owner o => (s.owners o).credits
  | .cross => s.crossCredits

def setCredits (s : System n) (credits : Nat) : Destination n → System n
  | .nowhere => s
  | .owner o => s.setOwner o { s.owners o with credits }
  | .cross => { s with crossCredits := credits }

def returnCredits (s : System n) (setup : Setup n) (operation : Operation) : System n :=
  let place := destination setup.route operation
  s.setCredits (s.credits place + charge operation) place

def queued (s : System n) : Destination n → Nat
  | .nowhere => 0
  | .owner o => (s.owners o).data.length
  | .cross => s.cross.length

/-- Sending fails: the receiver closed the queue or is gone. -/
def rejects (s : System n) : Destination n → Prop
  | .nowhere => False
  | .owner o => (s.owners o).dataClosed = true ∨ (s.owners o).position = .exited
  | .cross => s.crossClosed = true ∨ s.coordinator = .finished

def push (s : System n) (request : Request) : Destination n → System n
  | .nowhere => s
  | .owner o => s.setOwner o { s.owners o with data := (s.owners o).data ++ [request] }
  | .cross => { s with cross := s.cross ++ [.execute request] }

/-- The requests a destination has taken in and not answered yet, oldest first. -/
def held (s : System n) : Destination n → List Request
  | .nowhere => []
  | .owner o => (s.owners o).held
  | .cross =>
      match s.coordinator with
      | .working job => job.request :: s.cross.filterMap CrossRequest.request?
      | _ => s.cross.filterMap CrossRequest.request?

/-- The owner or the coordinator behind a destination has returned from its loop. -/
def terminated (s : System n) : Destination n → Prop
  | .nowhere => False
  | .owner o => (s.owners o).position = .exited
  | .cross => s.coordinator = .finished

/-- The reply is sent and the request dropped. -/
def answer (s : System n) (setup : Setup n) (request : Request) (reply : Reply) : System n :=
  (s.returnCredits setup request.operation).setCall request.call
    ((s.calls request.call).respond reply)

end System

/-! ### Events -/

inductive Subject (n : Nat) where
  | command (request : Request)
  | tick (owner : Fin n)
deriving DecidableEq

/-- A command or tick together with the clock sample it uses. -/
structure Mark (n : Nat) where
  subject : Subject n
  nowMs : I64
deriving DecidableEq

/-- A command with its reply, or a tick, that has taken effect. -/
structure Effect (n : Nat) where
  mark : Mark n
  reply : Option Reply
deriving DecidableEq

inductive Event (n : Nat) where
  | submitted (request : Request)
  | accepted (request : Request)
  | executed (effect : Effect n)
  | completed (request : Request) (reply : Reply)
  | returned (call : Nat) (reply : Reply)
deriving DecidableEq

def commandEffect (request : Request) (nowMs : I64) (reply : Reply) : Effect n :=
  ⟨⟨.command request, nowMs⟩, some reply⟩

def tickEffect (o : Fin n) (nowMs : I64) : Effect n := ⟨⟨.tick o, nowMs⟩, none⟩

/-! ### Steps -/

/-- `EngineHandle::execute`, from submission to the delivery of a reply, with the points where its
caller may drop it. -/
inductive CallStep (setup : Setup n) (s : System n) : List (Event n) → System n → Prop
  | submit {request : Request} (hunused : s.calls request.call = .unused)
      (hhandle : s.stage ≠ .abandoned) :
      CallStep setup s [.submitted request]
        (s.setCall request.call (admission setup s.stage.isClosing request.operation))
  | acquire {call : Nat} {operation : Operation} {place : Destination n}
      (hcall : s.calls call = .acquiring operation)
      (hplace : destination setup.route operation = place)
      (hcredits : charge operation ≤ s.credits place) :
      CallStep setup s []
        ((s.setCredits (s.credits place - charge operation) place).setCall call
          (.sending operation))
  | send {call : Nat} {operation : Operation} {place : Destination n}
      (hcall : s.calls call = .sending operation)
      (hplace : destination setup.route operation = place)
      (hopen : ¬ s.rejects place) (hroom : s.queued place < setup.queueCapacity) :
      CallStep setup s [.accepted ⟨call, operation⟩]
        ((s.push ⟨call, operation⟩ place).setCall call .waiting)
  | reject {call : Nat} {operation : Operation} (hcall : s.calls call = .sending operation)
      (hclosed : s.rejects (destination setup.route operation)) :
      CallStep setup s [] ((s.returnCredits setup operation).setCall call (.refused shuttingDown))
  | timeOutAcquiring {call : Nat} {operation : Operation}
      (hcall : s.calls call = .acquiring operation) :
      CallStep setup s [] (s.setCall call (.refused deadlineExceeded))
  | timeOutSending {call : Nat} {operation : Operation}
      (hcall : s.calls call = .sending operation) :
      CallStep setup s []
        ((s.returnCredits setup operation).setCall call (.refused deadlineExceeded))
  | refuse {call : Nat} {reply : Reply} (hcall : s.calls call = .refused reply) :
      CallStep setup s [.returned call reply] (s.setCall call .finished)
  | deliver {call : Nat} {reply : Reply} (hcall : s.calls call = .replied reply) :
      CallStep setup s [.returned call reply] (s.setCall call .finished)
  -- The caller drops the future.
  | dropAcquiring {call : Nat} {operation : Operation}
      (hcall : s.calls call = .acquiring operation) :
      CallStep setup s [] (s.setCall call .finished)
  | dropSending {call : Nat} {operation : Operation}
      (hcall : s.calls call = .sending operation) :
      CallStep setup s [] ((s.returnCredits setup operation).setCall call .finished)
  | dropWaiting {call : Nat} (hcall : s.calls call = .waiting) :
      CallStep setup s [] (s.setCall call .finished)
  | dropReplied {call : Nat} {reply : Reply} (hcall : s.calls call = .replied reply) :
      CallStep setup s [] (s.setCall call .finished)

/-- `owner_loop` on owner `o`. -/
inductive OwnerStep (setup : Setup n) (s : System n) (o : Fin n) :
    List (Event n) → System n → Prop
  | skipTurn (htop : (s.owners o).position = .top)
      (hskip : (s.owners o).dataTurn = false ∨ (s.owners o).reservation.isSome) :
      OwnerStep setup s o [] (s.setOwner o { s.owners o with position := .select })
  | emptyTurn (htop : (s.owners o).position = .top)
      (hturn : (s.owners o).dataTurn = true) (hfree : (s.owners o).reservation = none)
      (hempty : (s.owners o).data = []) :
      OwnerStep setup s o []
        (s.setOwner o { s.owners o with dataTurn := false, position := .select })
  | takeTurn {request : Request} {rest : List Request}
      (htop : (s.owners o).position = .top)
      (hturn : (s.owners o).dataTurn = true) (hfree : (s.owners o).reservation = none)
      (hdata : (s.owners o).data = request :: rest) :
      OwnerStep setup s o []
        (s.setOwner o { s.owners o with
          dataTurn := false, data := rest, position := .serving request none true })
  | control {message : Control} {rest : List Control} {seed : HashSeed}
      {owner : Owner} {completion : Option Completion}
      (hselect : (s.owners o).position = .select) (hrunning : (s.owners o).stopping = false)
      (hcontrols : (s.owners o).controls = message :: rest)
      (hhandle : { s.owners o with controls := rest, position := .top }.handle seed message =
        .ok (owner, completion)) :
      OwnerStep setup s o []
        { s.setOwner o owner with
          coordinator := s.coordinator.complete o message completion }
  | controlsClosed (hselect : (s.owners o).position = .select)
      (hrunning : (s.owners o).stopping = false)
      (hcontrols : (s.owners o).controls = []) (hdisconnected : s.disconnected)
      (hfree : (s.owners o).reservation = none) :
      OwnerStep setup s o []
        (s.setOwner o { s.owners o with
          dataClosed := true, stopping := true, position := .top })
  | tick (hselect : (s.owners o).position = .select)
      (hfree : (s.owners o).reservation = none) (hrunning : (s.owners o).stopping = false) :
      OwnerStep setup s o [] (s.setOwner o { s.owners o with position := .ticking none })
  | sampleTick (hticking : (s.owners o).position = .ticking none) :
      OwnerStep setup s o []
        (s.setOwner o { s.owners o with position := .ticking (some s.clock) })
  | runTick {nowMs : I64} {shard : Shard} {removed : Nat}
      (hticking : (s.owners o).position = .ticking (some nowMs))
      (hexpire : (s.owners o).shard.expireDue nowMs setup.expiryBatch = .ok (shard, removed)) :
      OwnerStep setup s o [.executed (tickEffect o nowMs)]
        (s.setOwner o { s.owners o with shard, dataTurn := true, position := .top })
  | takeData {request : Request} {rest : List Request}
      (hselect : (s.owners o).position = .select)
      (hfree : (s.owners o).reservation = none)
      (hdata : (s.owners o).data = request :: rest) :
      OwnerStep setup s o []
        (s.setOwner o { s.owners o with data := rest, position := .serving request none false })
  | sample {request : Request} {turn : Bool}
      (hserving : (s.owners o).position = .serving request none turn) :
      OwnerStep setup s o []
        (s.setOwner o { s.owners o with position := .serving request (some s.clock) turn })
  | execute {request : Request} {nowMs : I64} {turn : Bool} {seed : HashSeed}
      {shard : Shard} {reply : Reply}
      (hserving : (s.owners o).position = .serving request (some nowMs) turn)
      (hexecute : executeLocal (s.owners o).shard seed request.operation nowMs =
        .ok (shard, reply)) :
      OwnerStep setup s o [.executed (commandEffect request nowMs reply), .completed request reply]
        ((s.setOwner o { s.owners o with
          shard, position := if turn then .select else .top }).answer setup request reply)
  -- The receivers are dropped, and with them the messages they still hold.
  | exit (hselect : (s.owners o).position = .select)
      (hfree : (s.owners o).reservation = none) (hdata : (s.owners o).data = [])
      (hclosed : (s.owners o).dataClosed = true ∨ s.disconnected) :
      OwnerStep setup s o []
        (s.setOwner o { s.owners o with controls := [], position := .exited })

/-- `coordinator_loop` and `coordinate`. -/
inductive CoordinatorStep (setup : Setup n) (s : System n) : List (Event n) → System n → Prop
  | closeCross {rest : List CrossRequest} (hidle : s.coordinator = .idle)
      (hcross : s.cross = .stop :: rest) :
      CoordinatorStep setup s [] { s with cross := rest, crossClosed := true }
  | coordinate {request : Request} {rest : List CrossRequest} {parts : List (Part n)}
      (hidle : s.coordinator = .idle) (hcross : s.cross = .execute request :: rest)
      (hid : s.lastId < usizeMax) (hsplit : split setup.route request.operation = .ok parts) :
      CoordinatorStep setup s []
        { s with
          cross := rest
          lastId := s.lastId + 1
          coordinator := .working (.start request (s.lastId + 1) parts) }
  | finish (hidle : s.coordinator = .idle) (hcross : s.cross = [])
      (hclosed : s.crossClosed = true ∨ s.stage = .abandoned) :
      CoordinatorStep setup s [] { s with coordinator := .finished }
  | instruct {job : Job n} {part : Part n} {rest : List (Part n)}
      (hworking : s.coordinator = .working job) (hready : job.awaiting = false)
      (htodo : job.todo = part :: rest) (halive : (s.owners part.owner).position ≠ .exited)
      (hroom : (s.owners part.owner).controls.length < controlCapacity) :
      CoordinatorStep setup s []
        { s.setOwner part.owner { s.owners part.owner with
            controls := (s.owners part.owner).controls ++ [job.message part] } with
          coordinator := .working { job with awaiting := true } }
  | reserved {job : Job n} (hworking : s.coordinator = .working job) (htodo : job.todo = [])
      (hphase : job.phase = .reserve) :
      CoordinatorStep setup s []
        { s with coordinator := .working (job.enter (.prepare s.clock (.ok []))) }
  | failed {job : Job n} {nowMs : I64} {failure : EngineError}
      (hworking : s.coordinator = .working job) (htodo : job.todo = [])
      (hphase : job.phase = .prepare nowMs (.error failure)) :
      CoordinatorStep setup s [.executed (commandEffect job.request nowMs failure.reply)]
        { s with coordinator := .working (job.enter (.release failure.reply)) }
  | oversized {job : Job n} {nowMs : I64} {results : List Reply} {reply : Reply}
      (hworking : s.coordinator = .working job) (htodo : job.todo = [])
      (hphase : job.phase = .prepare nowMs (.ok results))
      (hcombine : combine job.request.operation job.parts results = .ok reply)
      (hexceeds : reply.exceeds setup.maxReplyBytes = true) :
      CoordinatorStep setup s
        [.executed (commandEffect job.request nowMs EngineError.responseLimit.reply)]
        { s with coordinator := .working (job.enter (.release EngineError.responseLimit.reply)) }
  | decided {job : Job n} {nowMs : I64} {results : List Reply} {reply : Reply}
      (hworking : s.coordinator = .working job) (htodo : job.todo = [])
      (hphase : job.phase = .prepare nowMs (.ok results))
      (hcombine : combine job.request.operation job.parts results = .ok reply)
      (hfits : reply.exceeds setup.maxReplyBytes = false) :
      CoordinatorStep setup s []
        { s with coordinator := .working (job.enter (.apply nowMs reply)) }
  | applied {job : Job n} {nowMs : I64} {reply : Reply}
      (hworking : s.coordinator = .working job) (htodo : job.todo = [])
      (hphase : job.phase = .apply nowMs reply) :
      CoordinatorStep setup s [.executed (commandEffect job.request nowMs reply)]
        { s with coordinator := .working (job.enter (.release reply)) }
  | released {job : Job n} {reply : Reply}
      (hworking : s.coordinator = .working job) (htodo : job.todo = [])
      (hphase : job.phase = .release reply) :
      CoordinatorStep setup s [.completed job.request reply]
        ({ s with coordinator := .idle }.answer setup job.request reply)

/-- `Engine::shutdown`. -/
inductive ShutdownStep (setup : Setup n) (s : System n) : System n → Prop
  | beginShutdown (hstage : s.stage = .running) :
      ShutdownStep setup s { s with stage := .closing }
  | sendStop (hstage : s.stage = .closing) (hopen : ¬ s.rejects .cross)
      (hroom : s.cross.length < setup.queueCapacity) :
      ShutdownStep setup s { s with cross := s.cross ++ [.stop], stage := .draining }
  | joinCoordinator (hstage : s.stage = .draining) (hfinished : s.coordinator = .finished) :
      ShutdownStep setup s { s with stage := .stopping (List.finRange n) }
  | stopOwner {o : Fin n} {remaining : List (Fin n)}
      (hstage : s.stage = .stopping (o :: remaining))
      (halive : (s.owners o).position ≠ .exited)
      (hroom : (s.owners o).controls.length < controlCapacity) :
      ShutdownStep setup s
        { s.setOwner o { s.owners o with controls := (s.owners o).controls ++ [.stop] } with
          stage := .stopping remaining }
  | joinOwners (hstage : s.stage = .stopping [])
      (hexited : ∀ o, (s.owners o).position = .exited) :
      ShutdownStep setup s { s with stage := .stopped }

inductive Step (setup : Setup n) (s : System n) : List (Event n) → System n → Prop
  | call {events : List (Event n)} {s' : System n} (hstep : CallStep setup s events s') :
      Step setup s events s'
  | owner {o : Fin n} {events : List (Event n)} {s' : System n}
      (hstep : OwnerStep setup s o events s') : Step setup s events s'
  | coordinator {events : List (Event n)} {s' : System n}
      (hstep : CoordinatorStep setup s events s') : Step setup s events s'
  | shutdown {s' : System n} (hstep : ShutdownStep setup s s') : Step setup s [] s'
  -- The surroundings: time passes, `EngineHandle::stats` asks an owner, the last handle goes.
  | advance {clock : I64} (hle : s.clock ≤ clock) : Step setup s [] { s with clock }
  | stats {o : Fin n} (hhandle : s.stage ≠ .abandoned)
      (halive : (s.owners o).position ≠ .exited)
      (hroom : (s.owners o).controls.length < controlCapacity) :
      Step setup s []
        (s.setOwner o { s.owners o with controls := (s.owners o).controls ++ [.stats] })
  | abandon (hstage : s.stage = .running)
      (hcalls : ∀ call, s.calls call = .unused ∨ s.calls call = .finished) :
      Step setup s [] { s with stage := .abandoned }

/-- The steps that stop the process instead. -/
inductive Fails (setup : Setup n) (s : System n) : Fatal → Prop
  | control {o : Fin n} {message : Control} {rest : List Control} {seed : HashSeed} {fatal : Fatal}
      (hselect : (s.owners o).position = .select) (hrunning : (s.owners o).stopping = false)
      (hcontrols : (s.owners o).controls = message :: rest)
      (hhandle : { s.owners o with controls := rest, position := .top }.handle seed message =
        .error fatal) :
      Fails setup s fatal
  | controlsClosed {o : Fin n}
      (hselect : (s.owners o).position = .select) (hrunning : (s.owners o).stopping = false)
      (hcontrols : (s.owners o).controls = []) (hdisconnected : s.disconnected)
      (hreserved : (s.owners o).reservation.isSome) :
      Fails setup s .controlClosedWhileReserved
  | runTick {o : Fin n} {nowMs : I64} {panic : Panic}
      (hticking : (s.owners o).position = .ticking (some nowMs))
      (hexpire : (s.owners o).shard.expireDue nowMs setup.expiryBatch = .error panic) :
      Fails setup s (.panic panic)
  | execute {o : Fin n} {request : Request} {nowMs : I64} {turn : Bool} {seed : HashSeed}
      {fatal : Fatal}
      (hserving : (s.owners o).position = .serving request (some nowMs) turn)
      (hexecute : executeLocal (s.owners o).shard seed request.operation nowMs = .error fatal) :
      Fails setup s fatal
  | identity {request : Request} {rest : List CrossRequest}
      (hidle : s.coordinator = .idle) (hcross : s.cross = .execute request :: rest)
      (hid : usizeMax ≤ s.lastId) :
      Fails setup s .identityExhausted
  | split {request : Request} {rest : List CrossRequest} {fatal : Fatal}
      (hidle : s.coordinator = .idle) (hcross : s.cross = .execute request :: rest)
      (hid : s.lastId < usizeMax)
      (hsplit : Recall.split setup.route request.operation = .error fatal) :
      Fails setup s fatal
  | instruct {job : Job n} {part : Part n} {rest : List (Part n)}
      (hworking : s.coordinator = .working job) (hready : job.awaiting = false)
      (htodo : job.todo = part :: rest) (hexited : (s.owners part.owner).position = .exited) :
      Fails setup s .lostControlChannel
  -- The message was dropped, and with it the sending end of its response channel.
  | completion {job : Job n} {part : Part n} {rest : List (Part n)}
      (hworking : s.coordinator = .working job) (hawaiting : job.awaiting = true)
      (htodo : job.todo = part :: rest)
      (hlost : job.message part ∉ (s.owners part.owner).controls) :
      Fails setup s (match job.phase with
        | .prepare _ _ => .lostPrepareCompletion
        | _ => .lostControlCompletion)
  | combine {job : Job n} {nowMs : I64} {results : List Reply} {fatal : Fatal}
      (hworking : s.coordinator = .working job) (htodo : job.todo = [])
      (hphase : job.phase = .prepare nowMs (.ok results))
      (hcombine : Recall.combine job.request.operation job.parts results = .error fatal) :
      Fails setup s fatal
  | reply {call : Nat} (hcall : s.calls call = .waiting)
      (hlost : ∀ place, ∀ request ∈ s.held place, request.call ≠ call) :
      Fails setup s .lostCompletion
  | sendStop (hstage : s.stage = .closing) (hclosed : s.rejects .cross) :
      Fails setup s .coordinatorStopped
  | stopOwner {o : Fin n} {remaining : List (Fin n)}
      (hstage : s.stage = .stopping (o :: remaining))
      (hexited : (s.owners o).position = .exited) :
      Fails setup s .ownerStopped

/-- The states reached from a fresh engine, each with what happened on the way. -/
inductive Reaches (setup : Setup n) (shards : Shards n) : List (Event n) → System n → Prop
  | start {clock : I64} (hnew : ∀ o, Shard.new (setup.shardLimits o) = .ok (shards o)) :
      Reaches setup shards [] (.start shards setup.queueBytes clock)
  | step {trace events : List (Event n)} {s s' : System n} (hreaches : Reaches setup shards trace s)
      (hstep : Step setup s events s') : Reaches setup shards (trace ++ events) s'

/-! ### What a trace records -/

/-- The effects of a trace in the order they happened. -/
def executedIn (trace : List (Event n)) : List (Effect n) :=
  trace.filterMap fun
    | .executed effect => some effect
    | _ => none

/-- The commands among them. -/
def commandsIn (trace : List (Event n)) : List Request :=
  trace.filterMap fun
    | .executed ⟨⟨.command request, _⟩, _⟩ => some request
    | _ => none

def acceptedIn (trace : List (Event n)) : List Request :=
  trace.filterMap fun
    | .accepted request => some request
    | _ => none

def completedIn (trace : List (Event n)) : List Request :=
  trace.filterMap fun
    | .completed request _ => some request
    | _ => none

def returnedIn (trace : List (Event n)) : List Nat :=
  trace.filterMap fun
    | .returned call _ => some call
    | _ => none

/-- The requests that go to one destination. -/
def boundFor (setup : Setup n) (place : Destination n) (requests : List Request) : List Request :=
  requests.filter fun request => destination setup.route request.operation = place

/-- One command or one tick on shards at rest. -/
inductive Performs (setup : Setup n) (shards : Shards n) : Effect n → Shards n → Prop
  | command {request : Request} {nowMs : I64} {seeds : Fin n → HashSeed} {shards' : Shards n}
      {reply : Reply}
      (hexecute : executeSharded setup.route setup.maxReplyBytes shards seeds request.operation
        nowMs = .ok (shards', reply)) :
      Performs setup shards (commandEffect request nowMs reply) shards'
  | tick {o : Fin n} {nowMs : I64} {shard : Shard} {removed : Nat}
      (hexpire : (shards o).expireDue nowMs setup.expiryBatch = .ok (shard, removed)) :
      Performs setup shards (tickEffect o nowMs) (Function.update shards o shard)

end Recall.Engine
