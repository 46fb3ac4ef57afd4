import Recall.Proof.Conversation
import Recall.Proof.Canonical
import Recall.Proof.Client

/-!
# What the client of a connection receives

The limits of the client are those a valid configuration cannot exceed: 4096 arguments and 64 MiB of
reply. So whatever the server writes on a connection the client reads, reply by reply, and when only
a part of it has arrived it reads the first of them and no others.
-/

namespace Recall

open Client (Legible LegibleAll legibleAll_iff Line maxBulk maxValues)

/-! ### Errors -/

theorem EngineError.legible_reply (failure : EngineError) : Legible failure.reply := by
  change Line (ascii failure.message)
  cases failure <;> decide

theorem CommandError.legible_reply (failure : CommandError) : Legible failure.reply := by
  change Line (ascii failure.message)
  cases failure with
  | wrongArguments name | expireTime name => cases name <;> decide
  | _ => decide

theorem legible_authenticate {config : Config} {username : Option Bytes} {supplied : Bytes}
    {reply : Reply} (hrefused : authenticate config username supplied = .error reply) :
    Legible reply := by
  unfold authenticate at hrefused
  split at hrefused
  · cases hrefused
    exact show Line _ by decide
  · split at hrefused
    · cases hrefused
    · cases hrefused
      exact show Line _ by decide

theorem Reader.legible_protocol {config : Config} {arrivals : List Arrival} {reader : Reader}
    {message : String}
    (hnext : (reader.nextRequest config arrivals).1 = .failure (.protocol message)) :
    Legible (protocolReply message) := by
  fun_induction nextRequest config arrivals reader with
  | case1 _ _ failure =>
      cases hnext
      change Line (ascii ("ERR Protocol error: " ++ failure.message))
      cases failure <;> decide
  | case3 | case8 =>
      cases hnext
      exact show Line _ by decide
  | case9 _ _ _ _ _ _ _ _ _ ih => exact ih hnext
  | _ => cases hnext

/-! ### Replies of limited size -/

theorem Reply.length_le_wireLen (value : Bytes) : value.length ≤ (Reply.bulk (some value)).wireLen := by
  rw [Reply.wireLen]
  omega

theorem Reply.wireLen_le_of_mem {values : List Reply} {value : Reply} (hvalue : value ∈ values) :
    value.wireLen ≤ (Reply.array values).wireLen := by
  have hsub := wireLenAll_sublist (List.singleton_sublist.mpr hvalue)
  rw [Reply.wireLenAll, Reply.wireLenAll] at hsub
  rw [Reply.wireLen]
  omega

theorem legible_bulk {value : Option Bytes} (hsize : (Reply.bulk value).wireLen ≤ maxBulk) :
    Legible (.bulk value) := by
  cases value with
  | none => trivial
  | some value => exact (Reply.length_le_wireLen value).trans hsize

theorem legible_carries {reply : Reply} (hcarries : reply.Carries)
    (hcount : ∀ values, reply = .array values → values.length ≤ maxValues)
    (hsize : reply.wireLen ≤ maxBulk) : Legible reply := by
  cases hcarries with
  | ok => exact show Line _ by decide
  | integer value => trivial
  | bulk value => exact legible_bulk hsize
  | bulks values =>
      refine ⟨hcount _ rfl, legibleAll_iff.mpr fun reply hreply => ?_⟩
      have hfits := (Reply.wireLen_le_of_mem hreply).trans hsize
      obtain ⟨value, -, rfl⟩ := List.mem_map.mp hreply
      exact legible_bulk hfits

theorem legible_specReply (s : CommandSpec) : Legible (specReply s) := by
  refine ⟨show 6 ≤ 4096 by decide, legibleAll_iff.mpr fun reply hreply => ?_⟩
  simp only [List.mem_cons, List.not_mem_nil, or_false] at hreply
  rcases hreply with rfl | rfl | rfl | rfl | rfl | rfl
  · change (ascii s.name.text).length ≤ maxBulk
    cases s.name <;> decide
  · trivial
  · split
    · exact ⟨by decide, trivial⟩
    · refine ⟨show 1 ≤ 4096 by decide, ?_, trivial⟩
      split <;> exact show Line _ by decide
  · trivial
  · trivial
  · trivial

theorem legible_metadata {command : MetadataCommand}
    (hasked : (Command.metadata command).asked ≤ maxValues) : Legible (metadata command) := by
  have hall : Legible (.array (specs.map specReply)) := by
    refine ⟨by decide, legibleAll_iff.mpr fun reply hreply => ?_⟩
    obtain ⟨s, -, rfl⟩ := List.mem_map.mp hreply
    exact legible_specReply s
  cases command with
  | count => trivial
  | all => exact hall
  | info names =>
      cases names with
      | nil => exact hall
      | cons name names =>
          refine ⟨by rw [List.length_map]; exact hasked, legibleAll_iff.mpr fun reply hreply => ?_⟩
          obtain ⟨name, -, rfl⟩ := List.mem_map.mp hreply
          cases findSpec name with
          | none => trivial
          | some s => exact legible_specReply s

/-! ### Sessions -/

namespace Session

theorem legible_noAuth : Legible noAuth := show Line _ by decide

theorem legible_ok : Legible .ok := show Line _ by decide

theorem legible_helloReply (session : Session) : Legible session.helloReply := by
  refine ⟨show 14 ≤ 4096 by decide, ?_⟩
  simp only [LegibleAll, Legible]
  decide

theorem legible_welcome (session : Session) (name : Option Bytes) :
    Legible (session.welcome name).2 := by
  unfold welcome
  split
  · exact legible_noAuth
  · cases name with
    | none => exact legible_helloReply _
    | some name => exact legible_helloReply _

theorem legible_hello (session : Session) (config : Config) (protocol : Option I64)
    (auth : Option (Bytes × Bytes)) (name : Option Bytes) :
    Legible (session.hello config protocol auth name).2 := by
  unfold hello
  split
  · exact show Line _ by decide
  · split
    · exact legible_welcome _ _
    · split
      · next hrefused => exact legible_authenticate hrefused
      · exact legible_welcome _ _

variable {session : Session} {config : Config} {metrics : Metrics} {script : Script}

theorem legible_executeGated {command : Command} (hasked : command.asked ≤ maxValues)
    (hengine : ∀ operation, command = .data operation → script.reply.wireLen ≤ maxBulk →
      Legible script.reply)
    (hsize : (session.executeGated command scripted metrics script).reply.wireLen ≤ maxBulk) :
    Legible (session.executeGated command scripted metrics script).reply := by
  cases command with
  | data operation => exact hengine operation rfl hsize
  | ping value =>
      cases value with
      | none => exact show Line _ by decide
      | some value => exact legible_bulk hsize
  | echo value => exact legible_bulk hsize
  | quit => exact legible_ok
  | select index =>
      simp only [executeGated]
      split
      · exact legible_ok
      · exact show Line _ by decide
  | client command =>
      cases command with
      | getName => exact legible_bulk hsize
      | setName name => exact legible_ok
      | setInfo library value => cases library <;> exact legible_ok
  | metadata command => exact legible_metadata hasked
  | info section_ => exact legible_bulk hsize
  | auth username password | hello protocol auth name => exact legible_noAuth

theorem legible_execute {command : Command} (hasked : command.asked ≤ maxValues)
    (hengine : ∀ operation, command = .data operation → session.authenticated = true →
      script.reply.wireLen ≤ maxBulk → Legible script.reply)
    (hsize : (session.execute command scripted config metrics script).reply.wireLen ≤ maxBulk) :
    Legible (session.execute command scripted config metrics script).reply := by
  cases command with
  | auth username password =>
      simp only [execute]
      split
      · exact legible_ok
      · next hrefused => exact legible_authenticate hrefused
  | hello protocol auth name => exact legible_hello _ _ _ _ _
  | _ =>
      simp only [execute] at hsize ⊢
      by_cases hgate : session.authenticated = true
      · rw [if_neg (not_not.mpr hgate)] at hsize ⊢
        exact legible_executeGated hasked (fun operation h => hengine operation h hgate) hsize
      · rw [if_pos hgate]
        exact legible_noAuth

theorem legible_serve {arguments : List Bytes} (hcount : arguments.length ≤ maxValues)
    (hengine : ∀ operation, parse arguments config.commands = .ok (.data operation) →
      session.authenticated = true → script.reply.wireLen ≤ maxBulk → Legible script.reply)
    (hsize : (session.serve arguments scripted config metrics script).reply.wireLen ≤ maxBulk) :
    Legible (session.serve arguments scripted config metrics script).reply := by
  unfold serve at hsize ⊢
  cases hparse : parse arguments config.commands with
  | error failure => exact failure.legible_reply
  | ok command =>
      rw [hparse] at hsize
      refine legible_execute ((sound_of_parse hparse).2.trans hcount) ?_ hsize
      rintro operation rfl
      exact hengine operation hparse

end Session

/-! ### The engine -/

variable {n : Nat}

theorem EngineError.reply_ne_array (failure : EngineError) (values : List Reply) :
    failure.reply ≠ .array values := by
  intro h
  cases h

/-- Only a multiple read is answered with an array, with one value for each key. -/
theorem evaluate_array {shard : Shard} {operation : Operation} {nowMs : I64} {values : List Reply}
    {effects : Effects} (heval : shard.evaluate operation nowMs = .ok (.array values, effects)) :
    values.length = (Command.data operation).asked := by
  cases operation with
  | multiGet keys =>
      simp only [Shard.evaluate, Except.ok.injEq, Prod.mk.injEq, Reply.array.injEq] at heval
      obtain ⟨rfl, -⟩ := heval
      rw [List.length_map, Shard.observeAll_fst, List.length_map]
      rfl
  | get key | delete keys | «exists» keys | multiSet pairs | ttl key milliseconds => cases heval
  | set key value condition expiry =>
      simp only [Shard.evaluate, bind, Except.bind, pure, Except.pure] at heval
      split at heval
      · cases heval
      · split at heval <;> cases heval
  | increment key amount subtract =>
      simp only [Shard.evaluate, bind, Except.bind, pure, Except.pure] at heval
      split at heval
      · cases heval
      · split at heval <;> cases heval
  | expire key milliseconds =>
      simp only [Shard.evaluate] at heval
      split at heval
      · cases heval
      · split at heval
        · cases heval
        · split at heval <;> cases heval
  | persist key =>
      simp only [Shard.evaluate] at heval
      split at heval
      · cases heval
      · split at heval <;> cases heval

theorem length_scatter {response values result : List Reply} {positions : List Nat}
    (hscatter : scatter response positions values = .ok result) :
    result.length = response.length := by
  fun_induction scatter response positions values with
  | case1 response position positions value values hlt ih => rw [ih hscatter, List.length_set]
  | case2 => cases hscatter
  | case3 =>
      cases hscatter
      rfl

theorem length_scatterParts {response result : List Reply} {parts : List (Part n × Reply)}
    (hscatter : scatterParts response parts = .ok result) : result.length = response.length := by
  fun_induction scatterParts response parts with
  | case1 =>
      cases hscatter
      rfl
  | case2 response part values parts hlength ih =>
      obtain ⟨middle, hmiddle, hrest⟩ := bind_eq_ok.mp hscatter
      rw [ih middle hrest, length_scatter hmiddle]
  | _ => cases hscatter

theorem combine_array {operation : Operation} {parts : List (Part n)} {results values : List Reply}
    (hcombine : combine operation parts results = .ok (.array values)) :
    values.length = (Command.data operation).asked := by
  cases operation with
  | multiGet keys =>
      obtain ⟨response, hresponse, harray⟩ := bind_eq_ok.mp hcombine
      cases harray
      rw [length_scatterParts hresponse, List.length_replicate]
      rfl
  | delete keys | «exists» keys =>
      obtain ⟨total, -, hinteger⟩ := bind_eq_ok.mp hcombine
      cases hinteger
  | _ => cases hcombine

theorem executeLocal_array {shard after : Shard} {seed : HashSeed} {operation : Operation}
    {nowMs : I64} {values : List Reply}
    (hexecute : executeLocal shard seed operation nowMs = .ok (after, .array values)) :
    values.length = (Command.data operation).asked := by
  rcases executeLocal_cases hexecute with ⟨-, failure, -, hreply⟩ | ⟨ready, hprepare, happly⟩
  · exact absurd hreply.symm (failure.reply_ne_array values)
  · obtain ⟨⟨effects, heval⟩, -⟩ := prepare_response hprepare
    rw [← apply_reply happly] at heval
    exact evaluate_array heval

theorem executeCross_array {route : Bytes → Fin n} {limit : Nat} {shards shards' : Shards n}
    {seeds : Fin n → HashSeed} {operation : Operation} {nowMs : I64} {values : List Reply}
    (hexecute : executeCross route limit shards seeds operation nowMs =
      .ok (shards', .array values)) :
    values.length = (Command.data operation).asked := by
  obtain ⟨parts, -, hprepare⟩ := bind_eq_ok.mp hexecute
  obtain ⟨prepared, -, hcombine⟩ := bind_eq_ok.mp hprepare
  cases prepared with
  | error failure => cases hcombine
  | ok prepared =>
      obtain ⟨reply, hreply, hwithin⟩ := bind_eq_ok.mp hcombine
      split at hwithin
      · cases hwithin
      · obtain ⟨applied, -, hresult⟩ := bind_eq_ok.mp hwithin
        cases hresult
        exact combine_array hreply

theorem executeSharded_array {route : Bytes → Fin n} {limit : Nat} {shards shards' : Shards n}
    {seeds : Fin n → HashSeed} {operation : Operation} {nowMs : I64} {values : List Reply}
    (hexecute : executeSharded route limit shards seeds operation nowMs =
      .ok (shards', .array values)) :
    values.length = (Command.data operation).asked := by
  unfold executeSharded at hexecute
  split at hexecute
  · cases hexecute
  · obtain ⟨⟨shard, reply⟩, hlocal, hresult⟩ := bind_eq_ok.mp hexecute
    cases hresult
    exact executeLocal_array hlocal
  · exact executeCross_array hexecute

end Recall
