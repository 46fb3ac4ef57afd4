import Recall.Proof.Graceful
import Recall.Proof.Streams
import Recall.Proof.Decoder

/-!
# Conversations

What one client sees of the server is what it would see of a connection served alone: the loop of
one connection over the bytes of that client, with the replies the engine gave to its calls.
-/

namespace Recall

/-! ### Sessions in two halves -/

/-- An engine that says what it is told. -/
structure Script where
  reply : Reply
  stats : List ShardStats
  workers : Nat

def scripted : EngineHandle Script where
  execute _ script := (script.reply, script)
  stats script := (script.stats, script)
  workerCount script := (script.workers, script)

namespace Session

variable {session next : Session} {config : Config} {arguments : List Bytes} {command : Command}
  {reply : Reply} {close : Bool}

/-- The commands a session answers by itself do not depend on the engine. -/
theorem executeGated_alone {σ τ : Type} (hdata : ∀ operation, command ≠ .data operation)
    (hinfo : ∀ section_, command ≠ .info section_) (handle : EngineHandle σ)
    (other : EngineHandle τ) (metrics counters : Metrics) (engine : σ) (idle : τ) :
    session.executeGated command handle metrics engine =
      let served := session.executeGated command other counters idle
      ⟨served.session, served.reply, served.close, engine⟩ := by
  cases command with
  | data operation => exact absurd rfl (hdata operation)
  | info section_ => exact absurd rfl (hinfo section_)
  | ping value => cases value <;> rfl
  | select index =>
      simp only [executeGated]
      split <;> rfl
  | _ => rfl

theorem execute_alone {σ τ : Type} (hdata : ∀ operation, command ≠ .data operation)
    (hinfo : ∀ section_, command ≠ .info section_) (handle : EngineHandle σ)
    (other : EngineHandle τ) (metrics counters : Metrics) (engine : σ) (idle : τ) :
    session.execute command handle config metrics engine =
      let served := session.execute command other config counters idle
      ⟨served.session, served.reply, served.close, engine⟩ := by
  cases command with
  | auth username supplied =>
      simp only [execute]
      cases authenticate config username supplied <;> rfl
  | hello protocol auth name => rfl
  | _ =>
      simp only [execute]
      split
      · rfl
      · exact executeGated_alone hdata hinfo ..

theorem serve_of_answer (hparse : parse arguments config.commands = .ok command)
    (hdispatch : session.dispatch config command = .answer next reply close) (metrics : Metrics)
    (script : Script) :
    session.serve arguments scripted config metrics script = ⟨next, reply, close, script⟩ := by
  simp only [serve, hparse]
  cases command with
  | data operation | info section_ =>
      simp only [dispatch] at hdispatch
      split at hdispatch
      · cases hdispatch
      · next hgate =>
          cases hdispatch
          simp only [execute, hgate]
          rfl
  | _ =>
      cases hdispatch
      exact execute_alone (fun _ h => by cases h) (fun _ h => by cases h) ..

theorem serve_of_execute {operation : Operation}
    (hparse : parse arguments config.commands = .ok (.data operation))
    (hauthenticated : session.authenticated = true) (metrics : Metrics) (script : Script) :
    session.serve arguments scripted config metrics script =
      ⟨session, script.reply, false, script⟩ := by
  simp only [serve, hparse, execute, hauthenticated]
  rfl

theorem serve_of_info {section_ : Option Bytes}
    (hparse : parse arguments config.commands = .ok (.info section_))
    (hauthenticated : session.authenticated = true) (metrics : Metrics) (script : Script) :
    session.serve arguments scripted config metrics script =
      ⟨session, .bulk (some (infoHead section_ script.workers metrics ++
        if includes section_ "memory" then infoMemory script.stats else [])), false, script⟩ := by
  simp only [serve, hparse, execute, hauthenticated, executeGated, info, infoHead, scripted]
  cases includes section_ "server" <;> cases includes section_ "clients" <;>
    cases includes section_ "stats" <;> cases includes section_ "memory" <;> simp

end Session

/-! ### Reading in pieces -/

namespace Reader

variable {config : Config} {arrivals : List Arrival} {reader after : Reader}
  {arguments : List Bytes}

def Fits (reader : Reader) : Prop := reader.decoder.Fits reader.input

/-- The requests in what the client sends. -/
def requests (reader : Reader) : List (List Bytes) :=
  (Decoder.reader.drain reader.decoder (reader.input ++ reader.stream)).1.map Request.arguments

/-- A decoder that waits goes on where it stands. -/
theorem requests_of_wait {decoder : Decoder} {input rest : Bytes} (hfits : reader.Fits)
    (hdecode : reader.decoder.decode reader.input = .ok (decoder, rest, none))
    (hsent : input ++ after.stream = reader.input ++ reader.stream) (hinput : after.input = input)
    (hdecoder : after.decoder = decoder) : after.requests = reader.requests := by
  obtain ⟨-, -, hmore⟩ := Decoder.decode_resumes hfits hdecode
  have hread : Incremental.Alike
      (Decoder.reader.read decoder (reader.input ++ reader.stream))
      (Decoder.reader.read reader.decoder (reader.input ++ reader.stream)) := by
    rw [show Decoder.reader.read = Decoder.decode from rfl, hmore reader.stream]
    exact .refl _
  rw [requests, requests, hinput, hdecoder, hsent, (Incremental.Reader.drain_alike hread).1]

/-- What was taken off the stream stands in the buffer. -/
theorem received_append (input stream : Bytes) (count : Nat) :
    input ++ stream.take count ++ stream.drop (stream.take count).length = input ++ stream := by
  rw [List.append_assoc, List.prefix_iff_eq_append.mp (List.take_prefix count stream)]

theorem nextRequest_pending (hfits : reader.Fits)
    (hnext : reader.nextRequest config arrivals = (.pending, after)) :
    after.Fits ∧ after.requests = reader.requests ∧
      ∀ more, reader.nextRequest config (arrivals ++ more) = after.nextRequest config more := by
  fun_induction nextRequest config arrivals reader with
  | case4 reader decoder input hdecode hroom =>
      obtain ⟨rfl, hfits', hmore⟩ := Decoder.decode_resumes hfits hdecode
      have hagain := hmore []
      rw [List.append_nil, hdecode] at hagain
      cases hnext
      refine ⟨hfits', requests_of_wait hfits hdecode rfl rfl rfl, fun more => ?_⟩
      rw [List.nil_append, nextRequest, nextRequest]
      simp only [hdecode, hagain, hroom]
  | case9 reader decoder input hdecode hroom most arrivals received hreceived ih =>
      obtain ⟨rfl, hfits', -⟩ := Decoder.decode_resumes hfits hdecode
      obtain ⟨hafter, hrequests, hmore⟩ := ih (by exact hfits'.append _) hnext
      refine ⟨hafter, hrequests.trans (requests_of_wait hfits hdecode ?_ rfl rfl), fun more => ?_⟩
      · exact received_append ..
      · rw [List.cons_append, nextRequest]
        simp only [hdecode, hroom]
        rw [if_neg hreceived]
        exact hmore more
  | _ => cases hnext

theorem nextRequest_request (hfits : reader.Fits)
    (hnext : reader.nextRequest config arrivals = (.request arguments, after)) :
    after.Fits ∧ reader.requests = arguments :: after.requests := by
  fun_induction nextRequest config arrivals reader with
  | case2 arrivals reader decoder input request hdecode =>
      obtain ⟨hfits', hmore⟩ := Decoder.decode_complete hfits hdecode
      cases hnext
      refine ⟨hfits', ?_⟩
      rw [requests, Incremental.Reader.drain_item (hmore reader.stream)]
      rfl
  | case9 reader decoder input hdecode hroom most arrivals received hreceived ih =>
      obtain ⟨rfl, hfits', -⟩ := Decoder.decode_resumes hfits hdecode
      obtain ⟨hafter, hrequests⟩ := ih (by exact hfits'.append _) hnext
      refine ⟨hafter, ?_⟩
      rw [← hrequests]
      exact (requests_of_wait hfits hdecode (received_append ..) rfl rfl).symm
  | _ => cases hnext

end Reader

namespace Server

open Engine (System Setup)

variable {n : Nat} {config : Config} {setup : Setup n} {s s' : State n} {id : Nat} {task : Task n}
  {trace events : List (Event n)}

/-! ### Transcripts -/

@[simp] theorem requestsIn_append (id : Nat) (a b : List (Event n)) :
    requestsIn id (a ++ b) = requestsIn id a ++ requestsIn id b := List.filterMap_append

@[simp] theorem writtenIn_append (id : Nat) (a b : List (Event n)) :
    writtenIn id (a ++ b) = writtenIn id a ++ writtenIn id b := List.filterMap_append

theorem requestsIn_requested (id : Nat) (arguments : List Bytes) (rest : List (Event n)) :
    requestsIn id (.requested id arguments :: rest) = arguments :: requestsIn id rest := by
  simp [requestsIn]

/-- The reader of a connection that was just opened. -/
def opening (config : Config) (stream : Bytes) : Reader :=
  ⟨Decoder.fresh config.protocol, [], stream⟩

/-- What the engine told the connection in a round is what it told in the run. -/
structure Genuine (config : Config) (trace : List (Event n)) (id : Nat) (exchange : Exchange)
    (round : Round Script) : Prop where
  called : ∀ arguments operation, exchange.request = some arguments →
    parse arguments config.commands = .ok (.data operation) →
      exchange.reply = writeReply config noAuth ∨ ∃ call, ⟨call, operation⟩ ∈ calledIn id trace ∧
        .returned call round.engine.reply ∈ engineIn trace
  sampled : ∀ arguments section_, exchange.request = some arguments →
    parse arguments config.commands = .ok (.info section_) → includes section_ "memory" = true →
      exchange.reply = writeReply config noAuth ∨ .sampled id round.engine.stats ∈ trace
  workers : round.engine.workers = n

theorem Genuine.append {exchange : Exchange} {round : Round Script}
    (h : Genuine config trace id exchange round) (events : List (Event n)) :
    Genuine config (trace ++ events) id exchange round where
  called arguments operation hrequest hparse := by
    refine (h.called arguments operation hrequest hparse).imp_right ?_
    rintro ⟨call, hcalled, hreturned⟩
    refine ⟨call, ?_, ?_⟩
    · rw [calledIn_append]
      exact List.mem_append_left _ hcalled
    · rw [engineIn_append]
      exact List.mem_append_left _ hreturned
  sampled arguments section_ hrequest hparse hmemory :=
    (h.sampled arguments section_ hrequest hparse hmemory).imp_right (List.mem_append_left _)
  workers := h.workers

/-- A connection served alone up to the beginning of a round, and the request of that round once
it is read. -/
structure Transcript where
  rounds : List (Round Script)
  exchanges : List Exchange
  reader : Reader
  session : Session
  unanswered : List (List Bytes)

/-- The connection goes on from here. -/
structure Goes (config : Config) (trace : List (Event n)) (id : Nat) (stream : Bytes)
    (t : Transcript) (task : Task n) : Prop where
  runs : ∀ more, connection config scripted (t.rounds ++ more) (opening config stream)
    (.new id config) = t.exchanges ++ connection config scripted more t.reader t.session
  fits : task.reader.Fits
  sent : (opening config stream).requests = requestsIn id trace ++ task.reader.requests

/-- A request was read and not answered. -/
structure Reads (config : Config) (t : Transcript) (task : Task n) (arguments : List Bytes) :
    Prop where
  next : ∃ arrivals, t.reader.nextRequest config arrivals = (.request arguments, task.reader)
  unanswered : t.unanswered = [arguments]

/-- Where the task stands in the round. -/
def Follows (config : Config) (trace : List (Event n)) (id : Nat) (stream : Bytes)
    (t : Transcript) (task : Task n) : Prop :=
  match task.activity with
  | .top => Goes config trace id stream t task ∧ t.unanswered = [] ∧ t.reader = task.reader ∧
      t.session = task.session
  | .reading => Goes config trace id stream t task ∧ t.unanswered = [] ∧
      t.session = task.session ∧ ∃ arrivals, ∀ more,
        t.reader.nextRequest config (arrivals ++ more) = task.reader.nextRequest config more
  | .calling call => Goes config trace id stream t task ∧ t.session = task.session ∧
      ∃ arguments operation, Reads config t task arguments ∧
        parse arguments config.commands = .ok (.data operation) ∧
        task.session.authenticated = true ∧ ⟨call, operation⟩ ∈ calledIn id trace
  | .sampling head _ _ _ => Goes config trace id stream t task ∧ t.session = task.session ∧
      ∃ arguments section_ metrics, Reads config t task arguments ∧
        parse arguments config.commands = .ok (.info section_) ∧
        task.session.authenticated = true ∧ includes section_ "memory" = true ∧
        head = infoHead section_ n metrics
  | .writing reply close =>
      (Goes config trace id stream t task ∧ ∃ arguments metrics script,
        Reads config t task arguments ∧
        t.session.serve arguments scripted config metrics script =
          ⟨task.session, reply, close, script⟩ ∧
        Genuine config trace id ⟨some arguments, writeReply config reply⟩
          ⟨false, [], metrics, script, true⟩) ∨
      close = true ∧ t.unanswered = [] ∧ (∀ more, connection config scripted (t.rounds ++ more)
        (opening config stream) (.new id config) =
          t.exchanges ++ connection config scripted more t.reader t.session) ∧
        ∃ arrivals message after, t.reader.nextRequest config arrivals =
          (.failure (.protocol message), after) ∧ reply = protocolReply message
  | .closing | .leaving | .ended => True

structure Conversing (config : Config) (trace : List (Event n)) (id : Nat) (stream : Bytes)
    (t : Transcript) (task : Task n) : Prop where
  opened : .opened id stream ∈ trace
  replays : connection config scripted t.rounds (opening config stream) (.new id config) =
    t.exchanges
  written : t.exchanges.map Exchange.reply = writtenIn id trace
  requested : requestsIn id trace = t.exchanges.filterMap Exchange.request ++ t.unanswered
  genuine : List.Forall₂ (Genuine config trace id) t.exchanges t.rounds
  sent : requestsIn id trace <+: (opening config stream).requests
  follows : Follows config trace id stream t task

/-! ### Steps of other connections -/

/-- Nothing is recorded about this connection. -/
structure Elsewhere (id : Nat) (events : List (Event n)) : Prop where
  requests : requestsIn id events = []
  written : writtenIn id events = []

theorem Goes.append {stream : Bytes} {t : Transcript} (h : Goes config trace id stream t task)
    (hrequests : requestsIn id events = []) : Goes config (trace ++ events) id stream t task where
  runs := h.runs
  fits := h.fits
  sent := by
    rw [requestsIn_append, hrequests, List.append_nil]
    exact h.sent

theorem Follows.append {stream : Bytes} {t : Transcript}
    (h : Follows config trace id stream t task) (hrequests : requestsIn id events = []) :
    Follows config (trace ++ events) id stream t task := by
  unfold Follows at h ⊢
  cases hactivity : task.activity with
  | top | reading =>
      simp only [hactivity] at h ⊢
      exact ⟨h.1.append hrequests, h.2⟩
  | calling call =>
      simp only [hactivity] at h ⊢
      obtain ⟨hgoes, hsession, arguments, operation, hreads, hparse, hauth, hcalled⟩ := h
      refine ⟨hgoes.append hrequests, hsession, arguments, operation, hreads, hparse, hauth, ?_⟩
      rw [calledIn_append]
      exact List.mem_append_left _ hcalled
  | sampling head remaining asked stats =>
      simp only [hactivity] at h ⊢
      exact ⟨h.1.append hrequests, h.2⟩
  | writing reply close =>
      simp only [hactivity] at h ⊢
      refine h.imp_left ?_
      rintro ⟨hgoes, arguments, metrics, script, hreads, hserve, hgenuine⟩
      exact ⟨hgoes.append hrequests, arguments, metrics, script, hreads, hserve,
        hgenuine.append events⟩
  | closing | leaving | ended => trivial

theorem Conversing.append {stream : Bytes} {t : Transcript}
    (h : Conversing config trace id stream t task) (helsewhere : Elsewhere id events) :
    Conversing config (trace ++ events) id stream t task where
  opened := List.mem_append_left _ h.opened
  replays := h.replays
  written := by
    rw [writtenIn_append, helsewhere.written, List.append_nil]
    exact h.written
  requested := by
    rw [requestsIn_append, helsewhere.requests, List.append_nil]
    exact h.requested
  genuine := h.genuine.imp fun _ _ hgenuine => hgenuine.append events
  sent := by
    rw [requestsIn_append, helsewhere.requests, List.append_nil]
    exact h.sent
  follows := h.follows.append helsewhere.requests

/-! ### Steps of the connection -/

theorem Conversing.moves {stream : Bytes} {t : Transcript} {next : Task n}
    (h : Conversing config trace id stream t task) (helsewhere : Elsewhere id events)
    (hfollows : Follows config (trace ++ events) id stream t next) :
    Conversing config (trace ++ events) id stream t next :=
  { h.append helsewhere with follows := hfollows }

/-- The request of the round is read. -/
theorem Conversing.reads {stream : Bytes} {t : Transcript} {next : Task n} {arguments : List Bytes}
    (h : Conversing config trace id stream t task) (hunanswered : t.unanswered = [])
    (hrequests : requestsIn id events = [arguments]) (hwritten : writtenIn id events = [])
    (hgoes : Goes config (trace ++ events) id stream { t with unanswered := [arguments] } next)
    (hfollows : Follows config (trace ++ events) id stream { t with unanswered := [arguments] }
      next) :
    Conversing config (trace ++ events) id stream { t with unanswered := [arguments] } next where
  opened := List.mem_append_left _ h.opened
  replays := h.replays
  written := by
    rw [writtenIn_append, hwritten, List.append_nil]
    exact h.written
  requested := by
    rw [requestsIn_append, hrequests, h.requested, hunanswered, List.append_nil]
  genuine := h.genuine.imp fun _ _ hgenuine => hgenuine.append events
  sent := ⟨_, hgoes.sent.symm⟩
  follows := hfollows

/-- A round in which a reply is written. -/
theorem connection_answered {reader after : Reader} {session next : Session}
    {arrivals : List Arrival} {arguments : List Bytes} {metrics : Metrics} {script : Script}
    {reply : Reply} {close : Bool} (more : List (Round Script))
    (hnext : reader.nextRequest config arrivals = (.request arguments, after))
    (hserve : session.serve arguments scripted config metrics script =
      ⟨next, reply, close, script⟩) :
    connection config scripted (⟨false, arrivals, metrics, script, true⟩ :: more) reader session =
      ⟨some arguments, writeReply config reply⟩ ::
        if close then [] else connection config scripted more after next := by
  rw [connection]
  simp only [hnext, hserve]
  rfl

theorem connection_malformed {reader after : Reader} {session : Session} {arrivals : List Arrival}
    {message : String} {metrics : Metrics} {script : Script} (more : List (Round Script))
    (hnext : reader.nextRequest config arrivals = (.failure (.protocol message), after)) :
    connection config scripted (⟨false, arrivals, metrics, script, true⟩ :: more) reader session =
      [⟨none, writeReply config (protocolReply message)⟩] := by
  rw [connection]
  simp only [hnext]
  rfl

/-- The reply of the round is written. -/
theorem Conversing.writes {stream : Bytes} {t : Transcript} {next : Task n} {exchange : Exchange}
    {round : Round Script} (h : Conversing config trace id stream t task)
    (hruns : connection config scripted (t.rounds ++ [round]) (opening config stream)
      (.new id config) = t.exchanges ++ [exchange])
    (hrequest : exchange.request.toList = t.unanswered)
    (hgenuine : Genuine config trace id exchange round)
    (hfollows : Follows config (trace ++ [.written id exchange.reply]) id stream
      ⟨t.rounds ++ [round], t.exchanges ++ [exchange], next.reader, next.session, []⟩ next) :
    Conversing config (trace ++ [.written id exchange.reply]) id stream
      ⟨t.rounds ++ [round], t.exchanges ++ [exchange], next.reader, next.session, []⟩ next where
  opened := List.mem_append_left _ h.opened
  replays := hruns
  written := by
    rw [writtenIn_append, List.map_append, h.written]
    simp [writtenIn]
  requested := by
    rw [requestsIn_append, h.requested, List.filterMap_append, ← hrequest]
    cases hexchange : exchange.request <;> simp [requestsIn, hexchange]
  genuine := List.rel_append (h.genuine.imp fun _ _ hold => hold.append _)
    (.cons (hgenuine.append _) .nil)
  sent := by
    rw [requestsIn_append]
    exact (List.append_nil (requestsIn id trace)).symm ▸ h.sent
  follows := hfollows

theorem Follows.of_activity {stream : Bytes} {t : Transcript}
    (h : Follows config trace id stream t task) {activity : Activity n}
    (hactivity : task.activity = activity) :
    Follows config trace id stream t { task with activity } := by
  rw [← hactivity]
  exact h

theorem dispatch_noAuth {session next : Session} {command : Command} {reply : Reply} {close : Bool}
    (hdispatch : session.dispatch config command = .answer next reply close)
    (hcommand : (∃ operation, command = .data operation) ∨ ∃ section_, command = .info section_) :
    reply = noAuth := by
  rcases hcommand with ⟨operation, rfl⟩ | ⟨section_, rfl⟩ <;>
    simp only [Session.dispatch] at hdispatch <;> split at hdispatch <;> cases hdispatch <;> rfl

theorem dispatch_info {session : Session} {command : Command} {section_ : Option Bytes}
    (hdispatch : session.dispatch config command = .info section_) :
    command = .info section_ ∧ session.authenticated = true := by
  cases command with
  | data operation =>
      simp only [Session.dispatch] at hdispatch
      split at hdispatch <;> cases hdispatch
  | info other =>
      simp only [Session.dispatch] at hdispatch
      split at hdispatch
      · next hauthenticated =>
          cases hdispatch
          exact ⟨rfl, hauthenticated⟩
      · cases hdispatch
  | _ => cases hdispatch

/-- What reading a request makes of a connection. -/
theorem Conversing.requested_goes {stream : Bytes} {t : Transcript} {arrivals : List Arrival}
    {arguments : List Bytes} {reader : Reader} (h : Conversing config trace id stream t task)
    (next : Task n) (hreading : task.activity = .reading)
    (hnext : task.reader.nextRequest config arrivals = (.request arguments, reader))
    (hreader : next.reader = reader) (hrequests : requestsIn id events = [arguments]) :
    t.unanswered = [] ∧ t.session = task.session ∧
      Goes config (trace ++ events) id stream { t with unanswered := [arguments] } next ∧
      Reads config { t with unanswered := [arguments] } next arguments := by
  have hfollows := h.follows
  unfold Follows at hfollows
  simp only [hreading] at hfollows
  obtain ⟨hgoes, hunanswered, hsession, passed, hmore⟩ := hfollows
  obtain ⟨hfits, hrequest⟩ := Reader.nextRequest_request hgoes.fits hnext
  refine ⟨hunanswered, hsession, ⟨hgoes.runs, hreader ▸ hfits, ?_⟩, ⟨passed ++ arrivals, ?_⟩, rfl⟩
  · rw [hgoes.sent, hrequest, requestsIn_append, hrequests, hreader, List.append_assoc]
    rfl
  · rw [hreader]
    exact (hmore arrivals).trans hnext

/-- A request that is answered without the engine. -/
theorem Conversing.served {stream : Bytes} {t : Transcript} {next : Task n}
    {arrivals : List Arrival} {arguments : List Bytes} {reader : Reader} {reply : Reply}
    {close : Bool} (h : Conversing config trace id stream t task) (metrics : Metrics)
    (hreading : task.activity = .reading)
    (hnext : task.reader.nextRequest config arrivals = (.request arguments, reader))
    (hreader : next.reader = reader) (hactivity : next.activity = .writing reply close)
    (hrequests : requestsIn id events = [arguments]) (hwritten : writtenIn id events = [])
    (hdata : ∀ operation, parse arguments config.commands = .ok (.data operation) → reply = noAuth)
    (hinfo : ∀ section_, parse arguments config.commands = .ok (.info section_) →
      includes section_ "memory" = true → reply = noAuth)
    (hserve : ∀ script : Script, script.workers = n →
      task.session.serve arguments scripted config metrics script =
        ⟨next.session, reply, close, script⟩) :
    Conversing config (trace ++ events) id stream { t with unanswered := [arguments] } next := by
  obtain ⟨hunanswered, hsession, hgoes, hreads⟩ :=
    h.requested_goes next hreading hnext hreader hrequests
  refine h.reads hunanswered hrequests hwritten hgoes ?_
  unfold Follows
  simp only [hactivity]
  refine .inl ⟨hgoes, arguments, metrics, ⟨noAuth, [], n⟩, hreads, ?_, ?_, ?_, rfl⟩
  · rw [hsession]
    exact hserve _ rfl
  · intro arguments' operation hrequest hparse
    cases hrequest
    exact .inl (congrArg (writeReply config) (hdata operation hparse))
  · intro arguments' section_ hrequest hparse hmemory
    cases hrequest
    exact .inl (congrArg (writeReply config) (hinfo section_ hparse hmemory))

theorem ServeStep.conversing {stream : Bytes} {t : Transcript} {arrivals : List Arrival}
    {arguments : List Bytes} {reader : Reader} (h : Conversing config trace id stream t task)
    (hreading : task.activity = .reading)
    (hnext : task.reader.nextRequest config arrivals = (.request arguments, reader))
    (hstep : ServeStep config setup s id { task with reader } arguments events s') :
    ∃ t' next, s'.tasks = Function.update s.tasks id (some next) ∧
      Conversing config (trace ++ events) id stream t' next := by
  cases hstep with
  | refuse hparse =>
      refine ⟨_, _, rfl, h.served s.metrics hreading hnext rfl rfl (by simp [requestsIn]) rfl
        ?_ ?_ ?_⟩
      · intro operation hok
        rw [hparse] at hok
        cases hok
      · intro section_ hok
        rw [hparse] at hok
        cases hok
      · intro script _
        simp only [Session.serve, hparse]
  | answer hparse hdispatch =>
      refine ⟨_, _, rfl, h.served s.metrics hreading hnext rfl rfl (by simp [requestsIn]) rfl
        ?_ ?_ fun script _ => Session.serve_of_answer hparse hdispatch s.metrics script⟩
      · intro operation hok
        rw [hparse] at hok
        cases hok
        exact dispatch_noAuth hdispatch (.inl ⟨_, rfl⟩)
      · intro section_ hok
        rw [hparse] at hok
        cases hok
        exact fun _ => dispatch_noAuth hdispatch (.inr ⟨_, rfl⟩)
  | @execute command operation hparse hdispatch =>
      obtain ⟨rfl, hauth⟩ := dispatch_execute hdispatch
      have hrequests := requestsIn_requested (n := n) id arguments
        [.called id s.nextCall operation, .engine (.submitted ⟨s.nextCall, operation⟩)]
      obtain ⟨hunanswered, hsession, hgoes, hreads⟩ := h.requested_goes
        ⟨reader, task.session, .calling s.nextCall⟩ hreading hnext rfl hrequests
      refine ⟨_, _, rfl, h.reads hunanswered hrequests rfl hgoes ?_⟩
      refine ⟨hgoes, hsession, arguments, operation, hreads, hparse, hauth, ?_⟩
      rw [calledIn_append]
      exact List.mem_append_right _ (by simp [calledIn])
  | @info command section_ hparse hdispatch hmemory =>
      obtain ⟨rfl, hauth⟩ := dispatch_info hdispatch
      have hrequests := requestsIn_requested (n := n) id arguments []
      obtain ⟨hunanswered, hsession, hgoes, hreads⟩ := h.requested_goes
        ⟨reader, task.session, .sampling (Recall.infoHead section_ n s.countCommand.metrics)
          (List.finRange n) false []⟩ hreading hnext rfl hrequests
      refine ⟨_, _, rfl, h.reads hunanswered hrequests rfl hgoes ?_⟩
      exact ⟨hgoes, hsession, arguments, section_, _, hreads, hparse, hauth, hmemory, rfl⟩
  | infoHead hparse hdispatch hmemory =>
      obtain ⟨rfl, hauth⟩ := dispatch_info hdispatch
      refine ⟨_, _, rfl, h.served s.countCommand.metrics hreading hnext rfl rfl
        (by simp [requestsIn]) rfl ?_ ?_ ?_⟩
      · intro operation hok
        rw [hparse] at hok
        cases hok
      · intro other hok hother
        rw [hparse] at hok
        cases hok
        rw [hmemory] at hother
        cases hother
      · intro script hworkers
        rw [Session.serve_of_info hparse hauth, hmemory, hworkers]
        simp

theorem Goes.retask {stream : Bytes} {t : Transcript} {next : Task n}
    (h : Goes config trace id stream t task) (hrequests : requestsIn id events = [])
    (hreader : next.reader = task.reader) : Goes config (trace ++ events) id stream t next where
  runs := h.runs
  fits := hreader ▸ h.fits
  sent := by
    rw [hreader]
    exact (h.append hrequests).sent

theorem Reads.retask {t : Transcript} {next : Task n} {arguments : List Bytes}
    (h : Reads config t task arguments) (hreader : next.reader = task.reader) :
    Reads config t next arguments where
  next := by
    rw [hreader]
    exact h.next
  unanswered := h.unanswered

/-- An owner was asked or has answered. -/
theorem Conversing.sampling {stream : Bytes} {t : Transcript} {head : Bytes}
    {remaining rest : List (Fin n)} {asked again : Bool} {stats more : List ShardStats}
    (h : Conversing config trace id stream t task)
    (hsampling : task.activity = .sampling head remaining asked stats)
    (helsewhere : Elsewhere id events) :
    Conversing config (trace ++ events) id stream t
      { task with activity := .sampling head rest again more } := by
  have hfollows := h.follows
  unfold Follows at hfollows
  simp only [hsampling] at hfollows
  obtain ⟨hgoes, hsession, arguments, section_, metrics, hreads, hinfo⟩ := hfollows
  refine h.moves helsewhere ⟨hgoes.retask helsewhere.requests rfl, hsession, arguments, section_,
    metrics, hreads.retask rfl, hinfo⟩

/-- The reply to a call is written next. -/
theorem Conversing.returned {stream : Bytes} {t : Transcript} {call : Nat} {reply : Reply}
    (h : Conversing config trace id stream t task) (hcalling : task.activity = .calling call) :
    Conversing config (trace ++ [.engine (.returned call reply), .answered id reply]) id stream t
      { task with activity := .writing reply false } := by
  have hfollows := h.follows
  unfold Follows at hfollows
  simp only [hcalling] at hfollows
  obtain ⟨hgoes, hsession, arguments, operation, hreads, hparse, hauth, hcalled⟩ := hfollows
  refine h.moves ⟨rfl, rfl⟩ (.inl ⟨hgoes.retask rfl rfl, arguments, ⟨0, 0, 0, 0, 0, 0⟩,
    ⟨reply, [], n⟩, hreads.retask rfl, ?_, ?_, ?_, rfl⟩)
  · rw [hsession]
    exact Session.serve_of_execute hparse hauth ..
  · intro arguments' operation' hrequest hparse'
    cases hrequest
    rw [hparse] at hparse'
    cases hparse'
    refine .inr ⟨call, ?_, ?_⟩
    · rw [calledIn_append]
      exact List.mem_append_left _ hcalled
    · rw [engineIn_append]
      exact List.mem_append_right _ (by simp [engineIn])
  · intro arguments' section_ hrequest hparse'
    cases hrequest
    rw [hparse] at hparse'
    cases hparse'

/-- The reply to `INFO` is written next. -/
theorem Conversing.informed {stream : Bytes} {t : Transcript} {head : Bytes} {asked : Bool}
    {stats : List ShardStats} (h : Conversing config trace id stream t task)
    (hsampling : task.activity = .sampling head [] asked stats) :
    Conversing config
      (trace ++ [.sampled id stats, .answered id (.bulk (some (head ++ infoMemory stats)))]) id
      stream t
      { task with activity := .writing (.bulk (some (head ++ infoMemory stats))) false } := by
  have hfollows := h.follows
  unfold Follows at hfollows
  simp only [hsampling] at hfollows
  obtain ⟨hgoes, hsession, arguments, section_, metrics, hreads, hparse, hauth, hmemory, rfl⟩ :=
    hfollows
  refine h.moves ⟨rfl, rfl⟩ (.inl ⟨hgoes.retask rfl rfl, arguments, metrics, ⟨noAuth, stats, n⟩,
    hreads.retask rfl, ?_, ?_, ?_, rfl⟩)
  · rw [hsession, Session.serve_of_info hparse hauth, if_pos hmemory]
  · intro arguments' operation hrequest hparse'
    cases hrequest
    rw [hparse] at hparse'
    cases hparse'
  · intro arguments' section' hrequest hparse' hmemory'
    exact .inr (List.mem_append_right _ (by simp))

theorem Conversing.write {stream : Bytes} {t : Transcript} {reply : Reply} {close : Bool}
    (h : Conversing config trace id stream t task) (hwriting : task.activity = .writing reply close) :
    ∃ t', Conversing config (trace ++ [.written id (writeReply config reply)]) id stream t'
      { task with activity := if close then .closing else .top } := by
  have hfollows := h.follows
  unfold Follows at hfollows
  simp only [hwriting] at hfollows
  rcases hfollows with ⟨hgoes, arguments, metrics, script, ⟨⟨arrivals, hnext⟩, hunanswered⟩, hserve,
    hgenuine⟩ | ⟨rfl, hunanswered, hruns, arrivals, message, after, hnext, rfl⟩
  · have hserved : ∀ more, connection config scripted
        (t.rounds ++ [⟨false, arrivals, metrics, script, true⟩] ++ more) (opening config stream)
        (.new id config) = t.exchanges ++ [⟨some arguments, writeReply config reply⟩] ++
          if close then [] else connection config scripted more task.reader task.session := by
      intro more
      rw [List.append_assoc, hgoes.runs, List.singleton_append,
        connection_answered more hnext hserve, List.append_assoc]
      rfl
    have hlast := hserved []
    rw [List.append_nil, connection, ite_self, List.append_nil] at hlast
    refine ⟨_, h.writes hlast hunanswered.symm
      ⟨hgenuine.called, hgenuine.sampled, hgenuine.workers⟩ ?_⟩
    cases close with
    | true => trivial
    | false =>
        have hgoes' : Goes config (trace ++ [.written id (writeReply config reply)]) id stream t
            task := hgoes.append rfl
        exact ⟨⟨hserved, hgoes'.fits, hgoes'.sent⟩, rfl, rfl, rfl⟩
  · have hlast := hruns [⟨false, arrivals, ⟨0, 0, 0, 0, 0, 0⟩, ⟨noAuth, [], n⟩, true⟩]
    rw [connection_malformed [] hnext] at hlast
    refine ⟨_, h.writes hlast hunanswered.symm ⟨?_, ?_, rfl⟩ trivial⟩
    · intro arguments operation hrequest
      cases hrequest
    · intro arguments section_ hrequest
      cases hrequest

theorem TaskStep.conversing {stream : Bytes} {t : Transcript}
    (h : Conversing config trace id stream t task)
    (hstep : TaskStep config setup s id task events s') :
    ∃ t' next, s'.tasks = Function.update s.tasks id (some next) ∧
      Conversing config (trace ++ events) id stream t' next := by
  have hfollows := h.follows
  unfold Follows at hfollows
  cases hstep with
  | stop | finish | leave | release => exact ⟨t, _, rfl, h.moves ⟨rfl, rfl⟩ trivial⟩
  | fail | writeFails =>
      obtain ⟨count, hcount⟩ := s.countTimeout_cases _
      rw [hcount]
      exact ⟨t, _, rfl, h.moves ⟨rfl, rfl⟩ trivial⟩
  | begin htop =>
      simp only [htop] at hfollows
      obtain ⟨hgoes, hunanswered, hreader, hsession⟩ := hfollows
      refine ⟨t, _, rfl, h.moves ⟨rfl, rfl⟩ ⟨hgoes.retask rfl rfl, hunanswered, hsession, [], ?_⟩⟩
      intro more
      rw [hreader]
      rfl
  | @wait arrivals reader hreading hstop hnext =>
      simp only [hreading] at hfollows
      obtain ⟨hgoes, hunanswered, hsession, passed, hmore⟩ := hfollows
      obtain ⟨hfits, hrequests, hagain⟩ := Reader.nextRequest_pending hgoes.fits hnext
      refine ⟨t, _, rfl, h.moves ⟨rfl, rfl⟩ ?_⟩
      unfold Follows
      simp only [hreading]
      refine ⟨⟨hgoes.runs, hfits, ?_⟩, hunanswered, hsession, passed ++ arrivals,
        fun more => ?_⟩
      · rw [hrequests]
        exact (hgoes.append rfl).sent
      · rw [List.append_assoc, hmore, hagain]
  | malformed hreading hstop hnext =>
      simp only [hreading] at hfollows
      obtain ⟨hgoes, hunanswered, hsession, passed, hmore⟩ := hfollows
      refine ⟨t, _, rfl, h.moves ⟨rfl, rfl⟩ (.inr ⟨rfl, hunanswered, hgoes.runs, passed ++ _, _, _,
        (hmore _).trans hnext, rfl⟩)⟩
  | serve hreading hstop hnext hserve => exact hserve.conversing h hreading hnext
  | returned hcalling => exact ⟨t, _, rfl, h.returned hcalling⟩
  | ask hsampling | askFails hsampling | sampleLost hsampling =>
      exact ⟨t, _, rfl, h.sampling hsampling ⟨rfl, rfl⟩⟩
  | sample hsampling =>
      exact ⟨t, _, rfl, h.sampling hsampling
        ⟨filterMap_engine _ fun _ => rfl, filterMap_engine _ fun _ => rfl⟩⟩
  | informed hsampling => exact ⟨t, _, rfl, h.informed hsampling⟩
  | write hwriting =>
      obtain ⟨t', hwrites⟩ := h.write hwriting
      exact ⟨t', _, rfl, hwrites⟩

/-! ### All connections -/

structure Conversations (config : Config) (trace : List (Event n)) (s : State n) : Prop where
  silent : ∀ id, s.tasks id = none → Elsewhere id trace
  conversing : ∀ id task, s.tasks id = some task →
    ∃ stream t, Conversing config trace id stream t task

theorem Elsewhere.append (h : Elsewhere id trace) (hevents : Elsewhere id events) :
    Elsewhere id (trace ++ events) where
  requests := by rw [requestsIn_append, h.requests, hevents.requests, List.append_nil]
  written := by rw [writtenIn_append, h.written, hevents.written, List.append_nil]

theorem TaskStep.elsewhere {other : Nat} (hother : id ≠ other)
    (hstep : TaskStep config setup s id task events s') : Elsewhere other events := by
  cases hstep with
  | serve hreading hstop hnext hserve =>
      cases hserve <;> exact ⟨by simp [requestsIn, hother], by simp [writtenIn]⟩
  | sample => exact ⟨filterMap_engine _ fun _ => rfl, filterMap_engine _ fun _ => rfl⟩
  | write => exact ⟨rfl, by simp [writtenIn, hother]⟩
  | _ => exact ⟨rfl, rfl⟩

namespace Conversations

theorem start (shards : Shards config.workers) (clock : I64) :
    Conversations config [] (.start config shards clock) where
  silent id _ := ⟨rfl, rfl⟩
  conversing id task h := by cases h

theorem keep (h : Conversations config trace s) (htasks : s'.tasks = s.tasks)
    (hevents : ∀ id, Elsewhere id events) : Conversations config (trace ++ events) s' where
  silent id hnone := by
    rw [htasks] at hnone
    exact (h.silent id hnone).append (hevents id)
  conversing id task htask := by
    rw [htasks] at htask
    obtain ⟨stream, t, hconversing⟩ := h.conversing id task htask
    exact ⟨stream, t, hconversing.append (hevents id)⟩

theorem setTask {next : Task n} (h : Conversations config trace s)
    (htasks : s'.tasks = Function.update s.tasks id (some next))
    (hothers : ∀ other ≠ id, Elsewhere other events)
    (hnext : ∃ stream t, Conversing config (trace ++ events) id stream t next) :
    Conversations config (trace ++ events) s' where
  silent other hnone := by
    rw [htasks] at hnone
    by_cases hother : other = id
    · rw [hother, Function.update_self] at hnone
      cases hnone
    · rw [Function.update_of_ne hother] at hnone
      exact (h.silent other hnone).append (hothers other hother)
  conversing other task htask := by
    rw [htasks] at htask
    by_cases hother : other = id
    · subst hother
      rw [Function.update_self] at htask
      cases htask
      exact hnext
    · rw [Function.update_of_ne hother] at htask
      obtain ⟨stream, t, hconversing⟩ := h.conversing other task htask
      exact ⟨stream, t, hconversing.append (hothers other hother)⟩

/-- A connection begins with an empty transcript. -/
theorem spawned {stream : Bytes} {decoder : Decoder} {activity : Activity n}
    (h : Elsewhere id trace) (hdecoder : Decoder.new config.protocol = .ok decoder)
    (hactivity : activity = .top ∨ activity = .closing) :
    Conversing config (trace ++ [.opened id stream]) id stream
      ⟨[], [], opening config stream, .new id config, []⟩
      ⟨⟨decoder, [], stream⟩, .new id config, activity⟩ := by
  obtain ⟨-, rfl⟩ := Decoder.new_ok hdecoder
  have hopened : Elsewhere id (trace ++ [.opened id stream]) := h.append ⟨rfl, rfl⟩
  refine ⟨List.mem_append_right _ List.mem_cons_self, rfl, hopened.written.symm,
    hopened.requests, .nil, ?_, ?_⟩
  · rw [hopened.requests]
    exact List.nil_prefix
  · rcases hactivity with rfl | rfl
    · refine ⟨⟨fun more => rfl, Decoder.fresh_fits _ _, ?_⟩, rfl, rfl, rfl⟩
      rw [hopened.requests]
      rfl
    · trivial

theorem step (h : Conversations config trace s) (haccounted : Accounted config trace s)
    (hstep : Step config setup s events s') : Conversations config (trace ++ events) s' := by
  cases hstep with
  | loop hstep =>
      cases hstep with
      | spawn hloop hdecoder hactivity =>
          have hnone := haccounted.numbered_none hloop
          exact h.setTask rfl (fun _ _ => ⟨rfl, rfl⟩)
            ⟨_, _, spawned (h.silent _ hnone) hdecoder hactivity⟩
      | _ => exact h.keep rfl fun _ => ⟨rfl, rfl⟩
  | engine hstep =>
      exact h.keep rfl fun _ => ⟨filterMap_engine _ fun _ => rfl, filterMap_engine _ fun _ => rfl⟩
  | task htask hstep =>
      obtain ⟨stream, t, hconversing⟩ := h.conversing _ _ htask
      obtain ⟨t', next, htasks, hnext⟩ := hstep.conversing hconversing
      exact h.setTask htasks (fun other hother => hstep.elsewhere (Ne.symm hother))
        ⟨stream, t', hnext⟩

end Conversations

section

variable {route : Bytes → Fin config.workers} {shards : Shards config.workers}
  {trace : List (Event config.workers)} {s : State config.workers}

theorem Reaches.conversations (hreaches : Reaches config route shards trace s) :
    Conversations config trace s := by
  induction hreaches with
  | start hnew => exact .start ..
  | step hbefore hstep ih => exact ih.step hbefore.accounted hstep

end

end Server

end Recall
