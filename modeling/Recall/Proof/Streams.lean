import Recall.Connection
import Recall.Proof.Decoder
import Recall.Proof.ExactlyOnce
import Recall.Proof.Wire

/-!
# Streams of replies

Every text the server writes as a simple string or an error is one of its own, so the output of a
connection can be cut into replies in one way only.
-/

namespace Recall

namespace Reply

theorem clean_integer (value : I64) : (Reply.integer value).Clean := fun _ htext => by cases htext

theorem clean_bulk (value : Option Bytes) : (Reply.bulk value).Clean := fun _ htext => by cases htext

theorem clean_ok : Reply.ok.Clean := by decide

theorem Carries.clean {reply : Reply} (hcarries : reply.Carries) : reply.Clean := by
  cases hcarries with
  | ok => exact clean_ok
  | integer value => exact clean_integer value
  | bulk value => exact clean_bulk value
  | bulks values =>
      refine clean_array.mpr fun value hvalue => ?_
      obtain ⟨content, -, rfl⟩ := List.mem_map.mp hvalue
      exact clean_bulk content

end Reply

/-- A text without a line break. -/
def OneLine (text : String) : Prop := 13 ∉ ascii text ∧ 10 ∉ ascii text

instance (text : String) : Decidable (OneLine text) :=
  inferInstanceAs (Decidable (13 ∉ ascii text ∧ 10 ∉ ascii text))

/-- The byte of the character does not break a line. -/
def staysInline (c : Char) : Bool :=
  UInt8.ofNat c.toNat != 13 && UInt8.ofNat c.toNat != 10

-- A literal unifies with `String.ofList` of its characters, so checking them never decodes UTF-8.
theorem OneLine.ofChars (chars : List Char) (hchars : chars.all staysInline = true) :
    OneLine (String.ofList chars) := by
  have hbyte : ∀ c ∈ chars, UInt8.ofNat c.toNat ≠ 13 ∧ UInt8.ofNat c.toNat ≠ 10 := by
    simpa [staysInline] using hchars
  simp only [OneLine, ascii, String.toList_ofList, List.mem_map, not_exists, not_and]
  exact ⟨fun c hc => (hbyte c hc).1, fun c hc => (hbyte c hc).2⟩

theorem OneLine.append {first second : String} (hfirst : OneLine first) (hsecond : OneLine second) :
    OneLine (first ++ second) := by
  have happend : ascii (first ++ second) = ascii first ++ ascii second := by
    simp [ascii]
  simp only [OneLine, happend, List.mem_append, not_or]
  exact ⟨⟨hfirst.1, hsecond.1⟩, hfirst.2, hsecond.2⟩

theorem OneLine.clean {text : String} (hline : OneLine text) : (Reply.errorText text).Clean := by
  intro line hmem
  rw [List.mem_singleton.mp hmem]
  exact hline

theorem EngineError.clean_reply (failure : EngineError) : failure.reply.Clean := by
  refine OneLine.clean ?_
  cases failure <;> exact .ofChars _ (by decide)

theorem CommandName.oneLine_text (name : CommandName) : OneLine name.text := by
  cases name <;> exact .ofChars _ (by decide)

theorem CommandError.clean_reply (failure : CommandError) : failure.reply.Clean := by
  refine OneLine.clean ?_
  have hend : OneLine "' command" := .ofChars _ (by decide)
  cases failure with
  | wrongArguments name =>
      change OneLine ("ERR wrong number of arguments for '" ++ name.text ++ "' command")
      have hstart : OneLine "ERR wrong number of arguments for '" := .ofChars _ (by decide)
      exact (hstart.append name.oneLine_text).append hend
  | expireTime name =>
      change OneLine ("ERR invalid expire time in '" ++ name.text ++ "' command")
      have hstart : OneLine "ERR invalid expire time in '" := .ofChars _ (by decide)
      exact (hstart.append name.oneLine_text).append hend
  | _ => exact .ofChars _ (by decide)

theorem protocolReply_clean {message : String} (hline : OneLine message) :
    (protocolReply message).Clean := by
  have hstart : OneLine "ERR Protocol error: " := .ofChars _ (by decide)
  exact (hstart.append hline).clean

theorem ProtocolError.oneLine_message (failure : ProtocolError) : OneLine failure.message := by
  cases failure <;> exact .ofChars _ (by decide)

/-! ### The engine -/

/-- Some run of an engine returns the reply. -/
def Engine.Returns (reply : Reply) : Prop :=
  ∃ (n : Nat) (setup : Setup n) (shards : Shards n) (trace : List (Event n)) (s : System n)
    (call : Nat), Reaches setup shards trace s ∧ .returned call reply ∈ trace

theorem Engine.Returns.clean {reply : Reply} (hreturns : Engine.Returns reply) : reply.Clean := by
  obtain ⟨n, setup, shards, trace, s, call, hreaches, hreturned⟩ := hreturns
  obtain ⟨base, h, -⟩ := hreaches.invariant
  rcases h.calls.returned call reply hreturned with ⟨-, hrefusal⟩ | ⟨request, -, hcompleted⟩
  · have hclean : ∀ refusal ∈ refusals, refusal.Clean := by decide
    exact hclean reply hrefusal
  · obtain ⟨limit, hanswers⟩ := hreaches.answers hcompleted
    rcases hanswers.known with hcarries | ⟨failure, rfl⟩
    · exact hcarries.clean
    · exact failure.clean_reply

/-! ### Sessions -/

theorem specReply_clean (spec : CommandSpec) : (specReply spec).Clean := by
  refine Reply.clean_array.mpr fun value hvalue => ?_
  simp only [List.mem_cons, List.not_mem_nil, or_false] at hvalue
  rcases hvalue with rfl | rfl | rfl | rfl | rfl | rfl
  · exact Reply.clean_bulk _
  · exact Reply.clean_integer _
  · split
    · decide
    · split <;> decide
  · exact Reply.clean_integer _
  · exact Reply.clean_integer _
  · exact Reply.clean_integer _

theorem metadata_clean (command : MetadataCommand) : (metadata command).Clean := by
  have hspecs : (Reply.array (specs.map specReply)).Clean := by
    refine Reply.clean_array.mpr fun value hvalue => ?_
    obtain ⟨spec, -, rfl⟩ := List.mem_map.mp hvalue
    exact specReply_clean spec
  cases command with
  | all => exact hspecs
  | count => exact Reply.clean_integer _
  | info names =>
      cases names with
      | nil => exact hspecs
      | cons name names =>
          refine Reply.clean_array.mpr fun value hvalue => ?_
          obtain ⟨requested, -, rfl⟩ := List.mem_map.mp hvalue
          cases findSpec requested with
          | none => exact Reply.clean_bulk none
          | some spec => exact specReply_clean spec

theorem authenticate_clean {config : Config} {username : Option Bytes} {supplied : Bytes}
    {reply : Reply} (herror : authenticate config username supplied = .error reply) :
    reply.Clean := by
  unfold authenticate at herror
  split at herror
  · cases herror
    exact OneLine.clean (.ofChars _ (by decide))
  · split at herror
    · cases herror
    · cases herror
      exact OneLine.clean (.ofChars _ (by decide))

theorem noAuth_clean : noAuth.Clean := OneLine.clean (.ofChars _ (by decide))

namespace Session

variable {σ : Type} {handle : EngineHandle σ}

theorem helloReply_clean (session : Session) : session.helloReply.Clean := by
  refine Reply.clean_array.mpr fun value hvalue => ?_
  simp only [List.mem_cons, List.not_mem_nil, or_false] at hvalue
  rcases hvalue with
    rfl | rfl | rfl | rfl | rfl | rfl | rfl | rfl | rfl | rfl | rfl | rfl | rfl | rfl
  case inr.inr.inr.inr.inr.inr.inr.inr.inr.inr.inr.inr.inr => decide
  all_goals first | exact Reply.clean_bulk _ | exact Reply.clean_integer _

theorem welcome_clean (session : Session) (name : Option Bytes) : (session.welcome name).2.Clean := by
  unfold welcome
  split
  · exact noAuth_clean
  · cases name with
    | none => exact helloReply_clean _
    | some name => exact helloReply_clean _

theorem hello_clean (session : Session) (config : Config) (protocol : Option I64)
    (auth : Option (Bytes × Bytes)) (name : Option Bytes) :
    (session.hello config protocol auth name).2.Clean := by
  unfold hello
  split
  · exact OneLine.clean (.ofChars _ (by decide))
  · split
    · exact welcome_clean _ _
    · split
      · next herror => exact authenticate_clean herror
      · exact welcome_clean _ _

theorem executeClient_clean (session : Session) (command : ClientCommand) :
    (session.executeClient command).2.Clean := by
  cases command with
  | getName => exact Reply.clean_bulk _
  | setName name => exact Reply.clean_ok
  | setInfo libraryName value => cases libraryName <;> exact Reply.clean_ok

theorem executeGated_clean (hexecute : ∀ operation engine, (handle.execute operation engine).1.Clean)
    (session : Session) (command : Command) (metrics : Metrics) (engine : σ) :
    (session.executeGated command handle metrics engine).reply.Clean := by
  cases command with
  | data operation => exact hexecute operation engine
  | ping value =>
      cases value with
      | none =>
          change (Reply.simple (ascii "PONG")).Clean
          decide
      | some value => exact Reply.clean_bulk _
  | echo value => exact Reply.clean_bulk _
  | quit => exact Reply.clean_ok
  | auth username password => exact noAuth_clean
  | hello protocol auth name => exact noAuth_clean
  | select index =>
      simp only [executeGated]
      split
      · exact Reply.clean_ok
      · exact OneLine.clean (.ofChars _ (by decide))
  | client command => exact executeClient_clean session command
  | metadata command => exact metadata_clean command
  | info section_ => exact Reply.clean_bulk _

theorem execute_clean (hexecute : ∀ operation engine, (handle.execute operation engine).1.Clean)
    (session : Session) (command : Command) (config : Config) (metrics : Metrics) (engine : σ) :
    (session.execute command handle config metrics engine).reply.Clean := by
  unfold execute
  split
  · split
    · exact Reply.clean_ok
    · next herror => exact authenticate_clean herror
  · exact hello_clean _ _ _ _ _
  · split
    · exact noAuth_clean
    · exact executeGated_clean hexecute _ _ _ _

theorem serve_clean (hexecute : ∀ operation engine, (handle.execute operation engine).1.Clean)
    (session : Session) (arguments : List Bytes) (config : Config) (metrics : Metrics) (engine : σ) :
    (session.serve arguments handle config metrics engine).reply.Clean := by
  unfold serve
  split
  · exact execute_clean hexecute _ _ _ _ _
  · exact CommandError.clean_reply _

end Session

/-! ### Connections -/

theorem writeReply_clean (config : Config) {reply : Reply} (hclean : reply.Clean) :
    (writeReply config reply).Clean := by
  unfold writeReply
  split
  · exact EngineError.clean_reply _
  · exact hclean

theorem Reader.nextRequest_protocol {config : Config} {arrivals : List Arrival} {reader : Reader}
    {message : String}
    (hnext : (reader.nextRequest config arrivals).1 = .failure (.protocol message)) :
    OneLine message := by
  fun_induction nextRequest config arrivals reader with
  | case1 _ _ failure =>
      cases hnext
      exact failure.oneLine_message
  | case3 =>
      cases hnext
      exact .ofChars _ (by decide)
  | case8 =>
      cases hnext
      exact .ofChars _ (by decide)
  | case9 _ _ _ _ _ _ _ _ _ ih => exact ih hnext
  | _ => cases hnext

variable {σ : Type}

theorem connection_clean {config : Config} {handle : EngineHandle σ}
    (hexecute : ∀ operation engine, (handle.execute operation engine).1.Clean)
    (rounds : List (Round σ)) (reader : Reader) (session : Session) :
    ∀ exchange ∈ connection config handle rounds reader session, exchange.reply.Clean := by
  induction rounds generalizing reader session with
  | nil => simp [connection]
  | cons round rounds ih =>
      intro exchange hexchange
      rw [connection] at hexchange
      split at hexchange
      · cases hexchange
      · split at hexchange
        · next arguments reader' hnext =>
            split at hexchange
            · rcases List.mem_cons.mp hexchange with rfl | hlater
              · exact writeReply_clean config (Session.serve_clean hexecute _ _ _ _ _)
              · split at hlater
                · cases hlater
                · exact ih _ _ exchange hlater
            · cases hexchange
        · next message reader' hnext =>
            split at hexchange
            · rw [List.mem_singleton.mp hexchange]
              exact writeReply_clean config
                (protocolReply_clean (Reader.nextRequest_protocol (congrArg Prod.fst hnext)))
            · cases hexchange
        · cases hexchange
        · cases hexchange
        · cases hexchange

/-- Every exchange answers a request, except for a protocol error at the end. -/
theorem connection_requests (config : Config) (handle : EngineHandle σ) (rounds : List (Round σ))
    (reader : Reader) (session : Session) : ∃ requests : List (List Bytes), ∃ tail,
    (connection config handle rounds reader session).map Exchange.request =
      requests.map some ++ tail ∧ (tail = [] ∨ tail = [none]) := by
  induction rounds generalizing reader session with
  | nil => exact ⟨[], [], rfl, .inl rfl⟩
  | cons round rounds ih =>
      rw [connection]
      split
      · exact ⟨[], [], rfl, .inl rfl⟩
      · split
        · next arguments reader' hnext =>
            split
            · dsimp only
              split
              · exact ⟨[arguments], [], rfl, .inl rfl⟩
              · obtain ⟨requests, tail, hrequests, htail⟩ := ih reader'
                  (session.serve arguments handle config round.metrics round.engine).session
                exact ⟨arguments :: requests, tail, congrArg _ hrequests, htail⟩
            · exact ⟨[], [], rfl, .inl rfl⟩
        · split
          · exact ⟨[], [none], rfl, .inr rfl⟩
          · exact ⟨[], [], rfl, .inl rfl⟩
        · exact ⟨[], [], rfl, .inl rfl⟩
        · exact ⟨[], [], rfl, .inl rfl⟩
        · exact ⟨[], [], rfl, .inl rfl⟩

/-! ### One reply per request -/

theorem replies_separable :
    (∀ as bs : List Reply, (∀ a ∈ as, a.Clean) → (∀ b ∈ bs, b.Clean) →
      (as.flatMap fun a => a.encode []) = (bs.flatMap fun b => b.encode []) → as = bs) ∧
    (∀ a b : Reply, a.Clean → b.Clean → a.encode [] <+: b.encode [] → a = b) ∧
    (∀ reply, Engine.Returns reply → reply.Clean) ∧
    ∀ (σ : Type) (config : Config) (handle : EngineHandle σ),
      (∀ operation engine, Engine.Returns (handle.execute operation engine).1) →
      ∀ rounds reader session,
        let exchanges := connection config handle rounds reader session
        (∀ exchange ∈ exchanges, exchange.reply.Clean) ∧
        (∃ requests : List (List Bytes), exchanges.map Exchange.request = requests.map some ∨
          exchanges.map Exchange.request = requests.map some ++ [none]) ∧
        ∀ replies : List Reply, (∀ reply ∈ replies, reply.Clean) →
          (replies.flatMap fun reply => reply.encode []) =
            (exchanges.flatMap fun exchange => exchange.reply.encode []) →
          replies = exchanges.map Exchange.reply := by
  refine ⟨fun as bs ha hb heq => Reply.flatMap_wire_inj ha hb heq, fun a b ha hb hprefix => ?_,
    fun reply hreturns => hreturns.clean, fun σ config handle hhandle rounds reader session => ?_⟩
  · obtain ⟨rest, hrest⟩ := hprefix
    have heq : a.wire ++ rest = b.wire ++ [] := hrest.trans (List.append_nil _).symm
    exact (Reply.wire_append_inj a b ha hb heq).1
  · have hclean : ∀ exchange ∈ connection config handle rounds reader session,
        exchange.reply.Clean :=
      connection_clean (fun operation engine => (hhandle operation engine).clean) _ _ _
    refine ⟨hclean, ?_, fun replies hreplies heq => ?_⟩
    · obtain ⟨requests, tail, hrequests, rfl | rfl⟩ :=
        connection_requests config handle rounds reader session
      · exact ⟨requests, .inl (hrequests.trans (List.append_nil _))⟩
      · exact ⟨requests, .inr hrequests⟩
    · refine Reply.flatMap_wire_inj hreplies (fun reply hreply => ?_) ?_
      · obtain ⟨exchange, hexchange, rfl⟩ := List.mem_map.mp hreply
        exact hclean exchange hexchange
      · rw [List.flatMap_map]
        exact heq

theorem Engine.returns_shuttingDown : Engine.Returns shuttingDown := by
  have hstart : Reaches lonelySetup
      (fun _ => ⟨∅, .empty, sampleShardLimits, 0, 0, 0, 0⟩) [] (.start _ 4096 0) :=
    .start fun _ => rfl
  have hclosing := hstart.step (.shutdown (.beginShutdown rfl))
  have hsubmit := @Reaches.submit _ _ _ _ _ hclosing lonelyRequest _ rfl nofun rfl
  have hrefuse := hsubmit.step (.call (@CallStep.refuse _ _ _ 0 shuttingDown rfl))
  exact ⟨_, _, _, _, _, 0, hrefuse, by simp⟩

/-- An engine that has begun to shut down. -/
def closingHandle : EngineHandle Unit where
  execute _ engine := (Engine.shuttingDown, engine)
  stats engine := ([], engine)
  workerCount engine := (1, engine)

def pipelinedRound : Round Unit := ⟨false, [.ready 63], ⟨1, 1, 0, 0, 0, 0⟩, (), true⟩

def pipelinedReader : Reader :=
  ⟨Decoder.fresh .default, [], ascii "*1\r\n$4\r\nPING\r\n*2\r\n$3\r\nGET\r\n$1\r\na\r\n?\r\n"⟩

/-- Two pipelined commands and a malformed one get three replies, and no other three replies have
these bytes. -/
theorem replies_separable_pipelined :
    let exchanges := connection (.default 3) closingHandle
      [pipelinedRound, pipelinedRound, pipelinedRound] pipelinedReader (.new 1 (.default 3))
    exchanges.map Exchange.request = [some [ascii "PING"], some [ascii "GET", ascii "a"], none] ∧
      ∀ replies : List Reply, (∀ reply ∈ replies, reply.Clean) →
        (replies.flatMap fun reply => reply.encode []) =
          (exchanges.flatMap fun exchange => exchange.reply.encode []) → replies.length = 3 := by
  have hrequests : (connection (.default 3) closingHandle
      [pipelinedRound, pipelinedRound, pipelinedRound] pipelinedReader (.new 1 (.default 3))).map
        Exchange.request = [some [ascii "PING"], some [ascii "GET", ascii "a"], none] := by
    decide +kernel
  refine ⟨hrequests, fun replies hreplies heq => ?_⟩
  obtain ⟨-, -, hunique⟩ := replies_separable.2.2.2 Unit (.default 3) closingHandle
    (fun _ _ => Engine.returns_shuttingDown) [pipelinedRound, pipelinedRound, pipelinedRound]
    pipelinedReader (.new 1 (.default 3))
  rw [hunique replies hreplies heq, List.length_map, ← List.length_map Exchange.request, hrequests]
  rfl

end Recall
