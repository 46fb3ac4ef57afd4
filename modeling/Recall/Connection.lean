import Recall.Session

/-!
# Connections

The loop of one connection: reading a request under the frame limit, serving it and writing its
reply. The socket is the bytes the client sends, and its surroundings are choices: how much a read
hands over, whether it fails, what the engine and the metrics are when a command is served.
-/

namespace Recall

/-- What waiting on the socket comes to. A read hands over at most `most + 1` bytes of what the
client sent, and none at its end. -/
inductive Arrival where
  | ready (most : Nat)
  | stopping
  | failed

inductive ReadFailure where
  | protocol (message : String)
  | io
deriving DecidableEq

/-- The socket with the decoder and the buffer in front of it. -/
structure Reader where
  decoder : Decoder
  input : Bytes
  stream : Bytes

/-- What `next_request` returns; `pending` while it waits. -/
inductive NextRequest where
  | request (arguments : List Bytes)
  | finished
  | failure (failure : ReadFailure)
  | pending

namespace Reader

/-- The length of the buffer a read is made into. -/
def chunkBytes : Nat := 8192

def remaining (config : Config) (input : Bytes) : Nat :=
  min (config.protocol.maxFrameBytes - input.length) chunkBytes

def nextRequest (config : Config) : List Arrival → Reader → NextRequest × Reader
  | arrivals, reader =>
      match reader.decoder.decode reader.input with
      | .error failure => (.failure (.protocol failure.message), reader)
      | .ok (decoder, input, some request) =>
          (.request request.arguments, { reader with decoder, input })
      | .ok (decoder, input, none) =>
          if remaining config input = 0 then
            (.failure (.protocol "request exceeds configured limit"), { reader with decoder, input })
          else
            match arrivals with
            | [] => (.pending, { reader with decoder, input })
            | .stopping :: _ => (.finished, { reader with decoder, input })
            | .failed :: _ => (.failure .io, { reader with decoder, input })
            | .ready most :: arrivals =>
                let received := reader.stream.take (min (most + 1) (remaining config input))
                if received = [] then
                  if input = [] then (.finished, { reader with decoder, input })
                  else (.failure (.protocol "truncated request"), { reader with decoder, input })
                else
                  nextRequest config arrivals
                    { decoder
                      input := input ++ received
                      stream := reader.stream.drop received.length }

end Reader

/-- The reply that is encoded: one beyond the output budget is replaced. -/
def writeReply (config : Config) (reply : Reply) : Reply :=
  if reply.exceeds config.maxReplyBytes then EngineError.responseLimit.reply else reply

def protocolReply (message : String) : Reply := .errorText ("ERR Protocol error: " ++ message)

/-- The surroundings of one round of the loop. -/
structure Round (σ : Type) where
  shutdown : Bool
  arrivals : List Arrival
  metrics : Metrics
  engine : σ
  written : Bool

/-- A request and the reply written to it; a protocol error answers no request. -/
structure Exchange where
  request : Option (List Bytes)
  reply : Reply

/-- The exchanges of a connection whose replies were written. -/
def connection {σ : Type} (config : Config) (handle : EngineHandle σ) :
    List (Round σ) → Reader → Session → List Exchange
  | [], _, _ => []
  | round :: rounds, reader, session =>
      if round.shutdown then []
      else
        match reader.nextRequest config round.arrivals with
        | (.request arguments, reader) =>
            let served := session.serve arguments handle config round.metrics round.engine
            if round.written then
              ⟨some arguments, writeReply config served.reply⟩ ::
                if served.close then []
                else connection config handle rounds reader served.session
            else []
        | (.failure (.protocol message), _) =>
            if round.written then [⟨none, writeReply config (protocolReply message)⟩] else []
        | (.finished, _) | (.pending, _) | (.failure .io, _) => []

end Recall
