import Recall.Session
import Mathlib.Logic.Function.Basic

/-!
# The authentication gate

What a session that has not authenticated can do and learn. The requests of a session are served in
turn; between two of them the engine and the metrics may change in any way, so each turn brings its
own.
-/

namespace Recall

structure Turn (σ : Type) where
  arguments : List Bytes
  engine : σ
  metrics : Metrics

/-- The command carries the password and no other user's name. -/
def Command.Presents (password : Bytes) : Command → Prop
  | .auth username supplied =>
      supplied = password ∧ (username = none ∨ username = some (ascii "default"))
  | .hello protocol (some (username, supplied)) _ =>
      (protocol = none ∨ protocol = some (I64.wrap 2)) ∧ supplied = password ∧
        username = ascii "default"
  | _ => False

instance (password : Bytes) : (command : Command) → Decidable (command.Presents password)
  | .auth _ _ => inferInstanceAs (Decidable (_ ∧ _))
  | .hello _ (some _) _ => inferInstanceAs (Decidable (_ ∧ _))
  | .hello _ none _ | .data _ | .ping _ | .echo _ | .quit | .select _ | .client _ | .metadata _
  | .info _ => inferInstanceAs (Decidable False)

/-- The arguments spell a command that presents the password. -/
def Presents (limits : ParseLimits) (password : Bytes) (arguments : List Bytes) : Prop :=
  match parse arguments limits with
  | .ok command => command.Presents password
  | .error _ => False

instance (limits : ParseLimits) (password : Bytes) (arguments : List Bytes) :
    Decidable (Presents limits password arguments) :=
  match h : parse arguments limits with
  | .ok command => decidable_of_iff (command.Presents password) (by simp [Presents, h])
  | .error _ => isFalse (by simp [Presents, h])

namespace Session

variable {σ : Type}

/-- The session serves the turns one after the other. -/
def run (session : Session) (handle : EngineHandle σ) (config : Config) :
    List (Turn σ) → List (Served σ)
  | [] => []
  | turn :: turns =>
      let served := session.serve turn.arguments handle config turn.metrics turn.engine
      served :: served.session.run handle config turns

/-- The turns of many sessions, each at its own connection. -/
def runAll (sessions : Nat → Session) (handle : EngineHandle σ) (config : Config) :
    List (Nat × Turn σ) → List (Nat × Served σ)
  | [] => []
  | (id, turn) :: turns =>
      let served := (sessions id).serve turn.arguments handle config turn.metrics turn.engine
      (id, served) :: runAll (Function.update sessions id served.session) handle config turns

/-! ### Before authentication -/

/-- The reply to a command that presents no valid credentials. -/
def refusal : Command → Reply
  | .auth _ _ => .errorText "WRONGPASS invalid username-password pair or user is disabled."
  | .hello protocol auth _ =>
      if protocol ≠ none ∧ protocol ≠ some (I64.wrap 2) then
        .errorText "NOPROTO unsupported protocol version"
      else if auth.isSome then
        .errorText "WRONGPASS invalid username-password pair or user is disabled."
      else
        noAuth
  | _ => noAuth

def refusalOf (limits : ParseLimits) (arguments : List Bytes) : Reply :=
  match parse arguments limits with
  | .ok command => refusal command
  | .error failure => failure.reply

theorem authenticate_of_mismatch {config : Config} {password supplied : Bytes}
    {username : Option Bytes} (hpassword : config.password = some password)
    (hmismatch : ¬ (supplied = password ∧ (username = none ∨ username = some (ascii "default")))) :
    authenticate config username supplied =
      .error (.errorText "WRONGPASS invalid username-password pair or user is disabled.") := by
  rw [authenticate, hpassword]
  exact if_neg fun h => hmismatch ⟨h.1.symm, h.2⟩

theorem authenticate_of_match {config : Config} {password : Bytes} {username : Option Bytes}
    (hpassword : config.password = some password)
    (huser : username = none ∨ username = some (ascii "default")) :
    authenticate config username password = .ok () := by
  rw [authenticate, hpassword]
  exact if_pos ⟨rfl, huser⟩

theorem execute_refused {session : Session} {command : Command} {config : Config}
    {password : Bytes} (hpassword : config.password = some password)
    (hsession : session.authenticated = false) (hpresents : ¬ command.Presents password)
    (handle : EngineHandle σ) (metrics : Metrics) (engine : σ) :
    session.execute command handle config metrics engine =
      ⟨session, refusal command, false, engine⟩ := by
  cases command with
  | auth username supplied =>
      rw [execute, authenticate_of_mismatch hpassword hpresents]
      rfl
  | hello protocol auth name =>
      by_cases hprotocol : protocol ≠ none ∧ protocol ≠ some (I64.wrap 2)
      · simp only [execute, hello, refusal, if_pos hprotocol]
      · have hsupported : protocol = none ∨ protocol = some (I64.wrap 2) := by
          by_contra hnot
          push Not at hnot
          exact hprotocol hnot
        simp only [execute, hello, refusal, if_neg hprotocol]
        cases auth with
        | none => simp [welcome, hsession]
        | some credentials =>
            obtain ⟨username, supplied⟩ := credentials
            have hmismatch : ¬ (supplied = password ∧
                (some username = none ∨ some username = some (ascii "default"))) := by
              rintro ⟨hsupplied, huser | huser⟩
              · cases huser
              · exact hpresents ⟨hsupported, hsupplied, Option.some.inj huser⟩
            simp only [authenticate_of_mismatch hpassword hmismatch]
            rfl
  | _ => simp [execute, refusal, hsession]

theorem serve_refused {session : Session} {arguments : List Bytes} {config : Config}
    {password : Bytes} (hpassword : config.password = some password)
    (hsession : session.authenticated = false)
    (hpresents : ¬ Presents config.commands password arguments)
    (handle : EngineHandle σ) (metrics : Metrics) (engine : σ) :
    session.serve arguments handle config metrics engine =
      ⟨session, refusalOf config.commands arguments, false, engine⟩ := by
  unfold serve refusalOf
  unfold Presents at hpresents
  cases hparse : parse arguments config.commands with
  | error failure => rfl
  | ok command =>
      rw [hparse] at hpresents
      exact execute_refused hpassword hsession hpresents handle metrics engine

/-- A run that presents nothing valid: every turn leaves the session and the engine as they were,
and its reply is read off its arguments alone. -/
theorem run_refused {session : Session} {config : Config} {password : Bytes}
    (hpassword : config.password = some password) (hsession : session.authenticated = false)
    (handle : EngineHandle σ) (turns : List (Turn σ))
    (hpresents : ∀ turn ∈ turns, ¬ Presents config.commands password turn.arguments) :
    session.run handle config turns =
      turns.map fun turn =>
        ⟨session, refusalOf config.commands turn.arguments, false, turn.engine⟩ := by
  induction turns with
  | nil => rfl
  | cons turn turns ih =>
      have hturn := serve_refused hpassword hsession (hpresents turn List.mem_cons_self) handle
        turn.metrics turn.engine
      rw [run, hturn, List.map_cons]
      exact congrArg _ (ih fun later hlater => hpresents later (List.mem_cons_of_mem _ hlater))

/-! ### After authentication -/

theorem welcome_authenticated (session : Session) (name : Option Bytes) :
    (session.welcome name).1.authenticated = session.authenticated := by
  unfold welcome
  split
  · rfl
  · cases name <;> rfl

theorem executeClient_authenticated (session : Session) (command : ClientCommand) :
    (session.executeClient command).1.authenticated = session.authenticated := by
  rcases command with _ | name | ⟨_ | _, value⟩ <;> rfl

theorem executeGated_authenticated (session : Session) (command : Command)
    (handle : EngineHandle σ) (metrics : Metrics) (engine : σ) :
    (session.executeGated command handle metrics engine).session.authenticated =
      session.authenticated := by
  cases command with
  | ping value => cases value <;> rfl
  | select index =>
      rw [executeGated]
      split <;> rfl
  | client command => exact executeClient_authenticated session command
  | _ => rfl

theorem serve_authenticated {session : Session} (hsession : session.authenticated = true)
    (arguments : List Bytes) (handle : EngineHandle σ) (config : Config) (metrics : Metrics)
    (engine : σ) :
    (session.serve arguments handle config metrics engine).session.authenticated = true := by
  unfold serve
  cases parse arguments config.commands with
  | error failure => exact hsession
  | ok command =>
      cases command with
      | auth username supplied =>
          simp only [execute]
          cases authenticate config username supplied with
          | error reply => exact hsession
          | ok _ => rfl
      | hello protocol auth name =>
          simp only [execute, hello]
          split
          · exact hsession
          · cases auth with
            | none => exact (welcome_authenticated session name).trans hsession
            | some credentials =>
                simp only
                cases authenticate config (some credentials.1) credentials.2 with
                | error reply => exact hsession
                | ok _ => exact welcome_authenticated _ name
      | _ =>
          simp only [execute, hsession, not_true, if_false]
          exact (executeGated_authenticated _ _ _ _ _).trans hsession

theorem serve_presented {arguments : List Bytes} {config : Config} {password : Bytes}
    (hpassword : config.password = some password)
    (hpresents : Presents config.commands password arguments) (session : Session)
    (handle : EngineHandle σ) (metrics : Metrics) (engine : σ) :
    (session.serve arguments handle config metrics engine).session.authenticated = true := by
  unfold Presents at hpresents
  rcases hparse : parse arguments config.commands with failure | command
  · rw [hparse] at hpresents
    cases hpresents
  rw [hparse] at hpresents
  simp only [serve, hparse]
  cases command with
  | auth username supplied =>
      obtain ⟨rfl, huser⟩ := hpresents
      simp only [execute, authenticate_of_match hpassword huser]
  | hello protocol auth name =>
      cases auth with
      | none => cases hpresents
      | some credentials =>
          obtain ⟨username, supplied⟩ := credentials
          obtain ⟨hprotocol, rfl, rfl⟩ := hpresents
          have hsupported : ¬ (protocol ≠ none ∧ protocol ≠ some (I64.wrap 2)) := by
            rintro ⟨hnone, htwo⟩
            exact hprotocol.elim hnone htwo
          simp only [execute, hello, if_neg hsupported, authenticate_of_match hpassword (.inr rfl)]
          exact welcome_authenticated _ name
  | _ => cases hpresents

theorem run_authenticated {session : Session} (hsession : session.authenticated = true)
    (handle : EngineHandle σ) (config : Config) (turns : List (Turn σ)) :
    ∀ served ∈ session.run handle config turns, served.session.authenticated = true := by
  induction turns generalizing session with
  | nil => simp [run]
  | cons turn turns ih =>
      have hturn := serve_authenticated hsession turn.arguments handle config turn.metrics
        turn.engine
      rw [run]
      exact List.forall_mem_cons.mpr ⟨hturn, ih hturn⟩

/-! ### Other sessions -/

theorem runAll_filter (sessions : Nat → Session) (handle : EngineHandle σ) (config : Config)
    (turns : List (Nat × Turn σ)) (id : Nat) :
    ((runAll sessions handle config turns).filter fun served => served.1 = id).map Prod.snd =
      (sessions id).run handle config ((turns.filter fun turn => turn.1 = id).map Prod.snd) := by
  induction turns generalizing sessions with
  | nil => rfl
  | cons turn turns ih =>
      obtain ⟨other, turn⟩ := turn
      rw [runAll]
      by_cases hother : other = id
      · subst hother
        simp only [List.filter_cons_of_pos, decide_true, List.map_cons, ih, Function.update_self,
          run]
      · simp only [List.filter_cons_of_neg, hother, decide_false, Bool.false_eq_true,
          not_false_eq_true, ih, Function.update_of_ne (Ne.symm hother)]

/-- Without the password a session calls no engine, keeps no metadata, is not closed, and is answered
the same whatever the keyspace, the metrics and the password are. With it the session is
authenticated for good, and what one session does is no other's business. -/
theorem authentication_gate {config : Config} {password : Bytes}
    (hpassword : config.password = some password) :
    (∀ (other : Bytes) (σ σ' : Type) (handle : EngineHandle σ) (handle' : EngineHandle σ') (id : Nat)
      (turns : List (Turn σ)) (turns' : List (Turn σ')),
      turns.map Turn.arguments = turns'.map Turn.arguments →
      (∀ turn ∈ turns, ¬ Presents config.commands password turn.arguments ∧
        ¬ Presents config.commands other turn.arguments) →
      let served := (new id config).run handle config turns
      let config' := { config with password := some other }
      let served' := (new id config').run handle' config' turns'
      served.map Served.engine = turns.map Turn.engine ∧
        (∀ one ∈ served, one.session.name = none ∧ one.session.libraryName = none ∧
          one.session.libraryVersion = none ∧ one.close = false) ∧
        served.map Served.reply = served'.map Served.reply) ∧
    (∀ (σ : Type) (handle : EngineHandle σ) (session : Session) (before after : List (Turn σ))
      (turn : Turn σ), Presents config.commands password turn.arguments →
      ∀ one ∈ (session.run handle config (before ++ turn :: after)).drop before.length,
        one.session.authenticated = true) ∧
    (∀ (σ : Type) (handle : EngineHandle σ) (sessions : Nat → Session)
      (turns : List (Nat × Turn σ)) (id : Nat),
      ((runAll sessions handle config turns).filter fun served => served.1 = id).map Prod.snd =
        (sessions id).run handle config ((turns.filter fun turn => turn.1 = id).map Prod.snd)) := by
  refine ⟨?_, ?_, fun σ handle sessions turns id => runAll_filter sessions handle config turns id⟩
  · intro other σ σ' handle handle' id turns turns' hsame hpresents
    have hfresh : (new id config).authenticated = false := by
      simp [new, hpassword]
    have hrun := run_refused hpassword hfresh handle turns fun turn hturn =>
      (hpresents turn hturn).1
    have hpresents' : ∀ turn ∈ turns', ¬ Presents config.commands other turn.arguments := by
      intro turn' hturn'
      have hmem : turn'.arguments ∈ turns.map Turn.arguments := by
        rw [hsame]
        exact List.mem_map_of_mem hturn'
      obtain ⟨turn, hturn, harguments⟩ := List.mem_map.mp hmem
      rw [← harguments]
      exact (hpresents turn hturn).2
    have hfresh' : (new id { config with password := some other }).authenticated = false := rfl
    have hrun' := @run_refused _ _ { config with password := some other } other rfl hfresh' handle'
      turns' hpresents'
    simp only [hrun, hrun']
    refine ⟨by simp, ?_, ?_⟩
    · intro one hone
      obtain ⟨turn, -, rfl⟩ := List.mem_map.mp hone
      exact ⟨rfl, rfl, rfl, rfl⟩
    · have hreplies := congrArg (List.map (refusalOf config.commands)) hsame
      rw [List.map_map, List.map_map] at hreplies ⊢
      exact hreplies
  · intro σ handle session before after turn hturn
    induction before generalizing session with
    | nil =>
        have hserved := serve_presented hpassword hturn session handle turn.metrics turn.engine
        exact List.forall_mem_cons.mpr ⟨hserved, run_authenticated hserved handle config after⟩
    | cons first before ih => exact ih _

/-- An engine that counts the calls made to it. -/
def countingHandle : EngineHandle Nat where
  execute _ calls := (.ok, calls + 1)
  stats calls := ([], calls + 1)
  workerCount calls := (1, calls + 1)

def sampleMetrics (n : Nat) : Metrics := ⟨n, n, n, n, n, n⟩

def sampleTurns (calls : Nat) : List (Turn Nat) :=
  [⟨[ascii "GET", ascii "k"], calls, sampleMetrics calls⟩,
    ⟨[ascii "AUTH", ascii "guess"], calls, sampleMetrics calls⟩,
    ⟨[ascii "HELLO", ascii "3", ascii "AUTH", ascii "default", ascii "secret"], calls,
      sampleMetrics calls⟩,
    ⟨[ascii "QUIT"], calls, sampleMetrics calls⟩]

theorem authentication_gate_sample :
    let config := { Config.default 4 with password := some (ascii "secret") }
    let config' := { config with password := some (ascii "other") }
    config.password = some (ascii "secret") ∧
      ((new 1 config).run countingHandle config (sampleTurns 0)).map Served.engine = [0, 0, 0, 0] ∧
      ((new 1 config).run countingHandle config (sampleTurns 0)).map Served.reply =
        ((new 1 config').run countingHandle config' (sampleTurns 7)).map Served.reply := by
  have hgate := (@authentication_gate { Config.default 4 with password := some (ascii "secret") }
    (ascii "secret") rfl).1 (ascii "other") Nat Nat countingHandle countingHandle 1 (sampleTurns 0)
    (sampleTurns 7) rfl (by decide +kernel)
  exact ⟨rfl, hgate.1, hgate.2.2⟩

end Session

end Recall
