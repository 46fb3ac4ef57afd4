import Recall.Proof.Sharding

/-!
# What commands answer with

Every reply of a command is data or one of the engine's error texts, and fits the output budget the
command was run under.
-/

namespace Recall

open Shard

/-- A reply that carries data: `OK`, a number, or bulks. -/
inductive Reply.Carries : Reply → Prop
  | ok : Carries .ok
  | integer (value : I64) : Carries (.integer value)
  | bulk (value : Option Bytes) : Carries (.bulk value)
  | bulks (values : List (Option Bytes)) : Carries (.array (values.map .bulk))

variable {n : Nat} {shard : Shard} {nowMs : I64}

theorem evaluate_carries {operation : Operation} {reply : Reply} {effects : Effects}
    (heval : shard.evaluate operation nowMs = .ok (reply, effects)) : reply.Carries := by
  cases operation with
  | get key =>
      cases heval
      exact .bulk _
  | set key value condition expiry =>
      simp only [evaluate, bind, Except.bind, pure, Except.pure] at heval
      split at heval
      · cases heval
      · split at heval <;> cases heval
        · exact .bulk none
        · exact .ok
  | increment key amount subtract =>
      simp only [evaluate, bind, Except.bind, pure, Except.pure] at heval
      split at heval
      · cases heval
      · split at heval
        · cases heval
        · cases heval
          exact .integer _
  | delete keys =>
      cases heval
      exact .integer _
  | «exists» keys =>
      cases heval
      exact .integer _
  | multiGet keys =>
      simp only [evaluate, Except.ok.injEq, Prod.mk.injEq] at heval
      obtain ⟨rfl, -⟩ := heval
      have hbulks := Reply.Carries.bulks
        ((shard.observeAll nowMs keys ∅).1.map fun old => old.map Entry.value)
      rwa [List.map_map] at hbulks
  | multiSet pairs =>
      cases heval
      exact .ok
  | expire key milliseconds =>
      simp only [evaluate] at heval
      split at heval
      · cases heval
        exact .integer _
      · split at heval
        · cases heval
          exact .integer _
        · split at heval
          · cases heval
          · cases heval
            exact .integer _
  | ttl key milliseconds =>
      cases heval
      exact .integer _
  | persist key =>
      simp only [evaluate] at heval
      split at heval
      · cases heval
        exact .integer _
      · split at heval <;> cases heval <;> exact .integer _

theorem prepare_response {seed : HashSeed} {operation : Operation} {ready : Prepared}
    (hprepare : shard.prepare seed operation nowMs = .ok (.ok ready)) :
    (∃ effects, shard.evaluate operation nowMs = .ok (ready.response, effects)) ∧
      ready.response.exceeds shard.limits.maxReplyBytes = false := by
  unfold prepare at hprepare
  split at hprepare
  · cases hprepare
  · next response effects heval =>
      unfold preflight at hprepare
      split at hprepare
      · cases hprepare
      · next hexceeds =>
          dsimp only at hprepare
          split at hprepare
          · cases hprepare
          · split at hprepare
            · cases hprepare
            · cases hprepare
              exact ⟨⟨effects, heval⟩, by simpa using hexceeds⟩

theorem apply_reply {ready : Prepared} {after : Shard} {reply : Reply}
    (happly : shard.apply ready = .ok (after, reply)) : reply = ready.response := by
  unfold apply at happly
  split at happly
  · cases happly
  · simp only [bind, Except.bind, pure, Except.pure] at happly
    split at happly
    · cases happly
    · split at happly <;> cases happly
      rfl

theorem EngineError.not_exceeds_reply (failure : EngineError) {limit : Nat} (hlimit : 64 ≤ limit) :
    failure.reply.exceeds limit = false := by
  cases failure <;> simp [reply, message, Reply.errorText, Reply.exceeds, Reply.encodedLen,
    usizeCheckedAdd, usizeMax, ascii] <;> omega

/-- Data or an error text, within a budget that leaves room for the error texts. -/
structure Reply.Answers (maxReplyBytes : Nat) (reply : Reply) : Prop where
  known : reply.Carries ∨ ∃ failure : EngineError, reply = failure.reply
  fits : 64 ≤ maxReplyBytes → reply.exceeds maxReplyBytes = false

theorem EngineError.answers (failure : EngineError) (limit : Nat) :
    failure.reply.Answers limit :=
  ⟨.inr ⟨failure, rfl⟩, failure.not_exceeds_reply⟩

/-- A local command is refused or applied. -/
theorem executeLocal_cases {shard after : Shard} {seed : HashSeed} {operation : Operation}
    {nowMs : I64} {reply : Reply}
    (hexecute : executeLocal shard seed operation nowMs = .ok (after, reply)) :
    (after = shard ∧ ∃ failure : EngineError, shard.prepare seed operation nowMs =
        .ok (.error failure) ∧ reply = failure.reply) ∨
      ∃ ready, shard.prepare seed operation nowMs = .ok (.ok ready) ∧
        shard.apply ready = .ok (after, reply) := by
  unfold executeLocal Shard.execute at hexecute
  cases hprepare : shard.prepare seed operation nowMs with
  | error panic => simp [hprepare, abortOnPanic, bind, Except.bind] at hexecute
  | ok result =>
      cases result with
      | error failure =>
          simp [hprepare, abortOnPanic, bind, Except.bind, pure, Except.pure] at hexecute
          exact .inl ⟨hexecute.1.symm, failure, rfl, hexecute.2.symm⟩
      | ok ready =>
          cases happly : shard.apply ready with
          | error panic => simp [hprepare, happly, abortOnPanic, bind, Except.bind] at hexecute
          | ok result =>
              simp [hprepare, happly, abortOnPanic, bind, Except.bind, pure, Except.pure] at hexecute
              exact .inr ⟨ready, rfl, by rw [happly, hexecute]⟩

theorem executeLocal_answers {seed : HashSeed} {operation : Operation} {after : Shard}
    {reply : Reply} (hexecute : executeLocal shard seed operation nowMs = .ok (after, reply)) :
    reply.Answers shard.limits.maxReplyBytes := by
  rcases executeLocal_cases hexecute with ⟨rfl, failure, -, rfl⟩ | ⟨ready, hprepare, happly⟩
  · exact failure.answers _
  · rw [apply_reply happly]
    obtain ⟨⟨effects, heval⟩, hfits⟩ := prepare_response hprepare
    exact ⟨.inl (evaluate_carries heval), fun _ => hfits⟩

/-! ### Combined replies -/

theorem scatter_bulks {response result : List Reply} {positions : List Nat} {values : List Reply}
    (hresponse : ∀ reply ∈ response, ∃ value, reply = .bulk value)
    (hvalues : ∀ reply ∈ values, ∃ value, reply = .bulk value)
    (hscatter : scatter response positions values = .ok result) :
    ∀ reply ∈ result, ∃ value, reply = .bulk value := by
  induction positions generalizing response values with
  | nil =>
      simp only [scatter, Except.ok.injEq] at hscatter
      exact hscatter ▸ hresponse
  | cons position positions ih =>
      cases values with
      | nil =>
          simp only [scatter, Except.ok.injEq] at hscatter
          exact hscatter ▸ hresponse
      | cons value values =>
          simp only [scatter] at hscatter
          split at hscatter
          · refine ih (fun reply hreply => ?_)
              (fun reply hreply => hvalues reply (List.mem_cons_of_mem _ hreply)) hscatter
            rcases List.mem_or_eq_of_mem_set hreply with hreply | rfl
            · exact hresponse reply hreply
            · exact hvalues reply List.mem_cons_self
          · cases hscatter

theorem scatterParts_bulks {response result : List Reply} {pairs : List (Part n × Reply)}
    (hresponse : ∀ reply ∈ response, ∃ value, reply = .bulk value)
    (hpairs : ∀ pair ∈ pairs, pair.2.Carries)
    (hscatter : scatterParts response pairs = .ok result) :
    ∀ reply ∈ result, ∃ value, reply = .bulk value := by
  induction pairs generalizing response with
  | nil =>
      cases hscatter
      exact hresponse
  | cons pair pairs ih =>
      obtain ⟨part, reply⟩ := pair
      have hlater : ∀ pair ∈ pairs, pair.2.Carries := fun pair hpair =>
        hpairs pair (List.mem_cons_of_mem _ hpair)
      have hcarries := hpairs _ List.mem_cons_self
      simp only at hcarries
      cases hcarries with
      | ok | integer | bulk => cases hscatter
      | bulks values =>
          simp only [scatterParts, bind, Except.bind] at hscatter
          split at hscatter
          · split at hscatter
            · cases hscatter
            · next middle hmiddle =>
                refine ih (scatter_bulks hresponse ?_ hmiddle) hlater hscatter
                simp
          · cases hscatter

theorem carries_of_bulks {values : List Reply}
    (hvalues : ∀ reply ∈ values, ∃ value, reply = .bulk value) : (Reply.array values).Carries := by
  have hmap : ∃ bulks : List (Option Bytes), values = bulks.map .bulk := by
    induction values with
    | nil => exact ⟨[], rfl⟩
    | cons reply values ih =>
        obtain ⟨value, rfl⟩ := hvalues reply List.mem_cons_self
        obtain ⟨bulks, rfl⟩ := ih fun later hlater => hvalues later (List.mem_cons_of_mem _ hlater)
        exact ⟨value :: bulks, rfl⟩
  obtain ⟨bulks, rfl⟩ := hmap
  exact .bulks bulks

theorem combine_carries {operation : Operation} {parts : List (Part n)} {results : List Reply}
    {reply : Reply} (hresults : ∀ result ∈ results, result.Carries)
    (hcombine : combine operation parts results = .ok reply) : reply.Carries := by
  cases operation with
  | multiSet pairs =>
      cases hcombine
      exact .ok
  | multiGet keys =>
      simp only [combine, bind, Except.bind, pure, Except.pure] at hcombine
      split at hcombine
      · cases hcombine
      · next response hresponse =>
          cases hcombine
          refine carries_of_bulks (scatterParts_bulks ?_ (fun pair hpair => ?_) hresponse)
          · intro reply hreply
            exact ⟨none, List.eq_of_mem_replicate hreply⟩
          · exact hresults _ (List.of_mem_zip hpair).2
  | delete keys | «exists» keys =>
      simp only [combine, bind, Except.bind, pure, Except.pure] at hcombine
      split at hcombine
      · cases hcombine
      · cases hcombine
        exact .integer _
  | get _ | set _ _ _ _ | increment _ _ _ | expire _ _ | ttl _ _ | persist _ => cases hcombine

theorem prepareParts_carries {shards : Shards n} {seeds : Fin n → HashSeed} {parts : List (Part n)}
    {ready : List Prepared} (hprepare : prepareParts shards seeds nowMs parts = .ok (.ok ready)) :
    ∀ prepared ∈ ready, prepared.response.Carries := by
  induction parts generalizing ready with
  | nil =>
      cases hprepare
      simp
  | cons part parts ih =>
      rw [prepareParts] at hprepare
      cases hfirst : (shards part.owner).prepare (seeds part.owner) part.operation nowMs with
      | error panic => simp [hfirst, abortOnPanic, bind, Except.bind] at hprepare
      | ok result =>
          cases result with
          | error failure =>
              simp [hfirst, abortOnPanic, bind, Except.bind, pure, Except.pure] at hprepare
          | ok first =>
              cases hrest : prepareParts shards seeds nowMs parts with
              | error fatal => simp [hfirst, hrest, abortOnPanic, bind, Except.bind] at hprepare
              | ok result =>
                  cases result with
                  | error failure =>
                      simp [hfirst, hrest, abortOnPanic, bind, Except.bind, pure,
                        Except.pure] at hprepare
                  | ok rest =>
                      simp [hfirst, hrest, abortOnPanic, bind, Except.bind, pure,
                        Except.pure] at hprepare
                      subst hprepare
                      intro prepared hprepared
                      rcases List.mem_cons.mp hprepared with rfl | hprepared
                      · obtain ⟨⟨effects, heval⟩, -⟩ := prepare_response hfirst
                        exact evaluate_carries heval
                      · exact ih hrest prepared hprepared

theorem executeCross_answers {route : Bytes → Fin n} {limit : Nat}
    {shards shards' : Shards n} {seeds : Fin n → HashSeed} {operation : Operation} {reply : Reply}
    (hexecute : executeCross route limit shards seeds operation nowMs = .ok (shards', reply)) :
    reply.Answers limit := by
  simp only [executeCross, bind, Except.bind, pure, Except.pure] at hexecute
  split at hexecute
  · cases hexecute
  · split at hexecute
    · cases hexecute
    · next result hprepare =>
        split at hexecute
        · next failure =>
            cases hexecute
            exact failure.answers limit
        · next ready =>
            split at hexecute
            · cases hexecute
            · next combined hcombine =>
                split at hexecute
                · cases hexecute
                  exact EngineError.responseLimit.answers limit
                · next hfits =>
                    split at hexecute
                    · cases hexecute
                    · cases hexecute
                      refine ⟨.inl (combine_carries ?_ hcombine), fun _ => by simpa using hfits⟩
                      intro result hresult
                      obtain ⟨prepared, hprepared, rfl⟩ := List.mem_map.mp hresult
                      exact prepareParts_carries hprepare prepared hprepared

/-- What any one command comes to. -/
theorem executeSharded_answers {route : Bytes → Fin n} {limit : Nat}
    {shards shards' : Shards n} {seeds : Fin n → HashSeed} {operation : Operation} {reply : Reply}
    (hplace : destination route operation ≠ .nowhere)
    (hexecute : executeSharded route limit shards seeds operation nowMs = .ok (shards', reply)) :
    reply.Answers limit ∨ ∃ o, reply.Answers (shards o).limits.maxReplyBytes := by
  unfold executeSharded at hexecute
  split at hexecute
  · exact absurd ‹_› hplace
  · next o hplace =>
      cases hlocal : executeLocal (shards o) (seeds o) operation nowMs with
      | error fatal => simp [hlocal, bind, Except.bind] at hexecute
      | ok result =>
          obtain ⟨later, response⟩ := result
          simp [hlocal, bind, Except.bind, pure, Except.pure] at hexecute
          rw [← hexecute.2]
          exact .inr ⟨o, executeLocal_answers hlocal⟩
  · exact .inl (executeCross_answers hexecute)

end Recall
