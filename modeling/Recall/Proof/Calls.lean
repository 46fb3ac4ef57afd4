import Recall.Proof.Pieces
import Recall.Proof.Queues

/-!
# Calls

What a trace says about a call whose future stands at a given point, and that a reply a call
returns is either a refusal of a request nobody accepted or the completion of the request.
-/

namespace Recall.Engine

variable {n : Nat} {setup : Setup n} {s s' : System n} {trace events : List (Event n)}

@[simp] theorem returnedIn_append (a b : List (Event n)) :
    returnedIn (a ++ b) = returnedIn a ++ returnedIn b := List.filterMap_append ..

theorem mem_returnedIn {call : Nat} :
    call ∈ returnedIn trace ↔ ∃ reply, .returned call reply ∈ trace := by
  simp only [returnedIn, List.mem_filterMap]
  constructor
  · rintro ⟨event, hevent, hcall⟩
    cases event <;> simp_all
    exact ⟨_, hevent⟩
  · exact fun ⟨reply, hevent⟩ => ⟨_, hevent, rfl⟩

/-- The call was accepted. -/
def Accepted (trace : List (Event n)) (call : Nat) : Prop :=
  ∃ request ∈ acceptedIn trace, request.call = call

/-- The call was answered. -/
def Completed (trace : List (Event n)) (call : Nat) : Prop :=
  ∃ request ∈ completedIn trace, request.call = call

theorem accepted_append {call : Nat} :
    Accepted (trace ++ events) call ↔ Accepted trace call ∨ Accepted events call := by
  simp [Accepted, or_and_right, exists_or]

theorem completed_append {call : Nat} :
    Completed (trace ++ events) call ↔ Completed trace call ∨ Completed events call := by
  simp [Completed, or_and_right, exists_or]

/-- The reply is the answer the call's request got. -/
def Answered (trace : List (Event n)) (call : Nat) (reply : Reply) : Prop :=
  ∃ request, request.call = call ∧ .completed request reply ∈ trace

theorem Answered.append {call : Nat} {reply : Reply} (h : Answered trace call reply) :
    Answered (trace ++ events) call reply := by
  obtain ⟨request, hcall, hmem⟩ := h
  exact ⟨request, hcall, List.mem_append_left _ hmem⟩

/-- What holds of a call at each point of its future. -/
def Fits (setup : Setup n) (trace : List (Event n)) (call : Nat) : Call → Prop
  | .unused => ¬ Accepted trace call ∧ call ∉ returnedIn trace
  | .acquiring operation | .sending operation =>
      ¬ Accepted trace call ∧ call ∉ returnedIn trace ∧
        destination setup.route operation ≠ .nowhere
  | .refused reply => ¬ Accepted trace call ∧ call ∉ returnedIn trace ∧ reply ∈ refusals
  | .waiting => Accepted trace call ∧ call ∉ returnedIn trace ∧ ¬ Completed trace call
  | .replied reply => call ∉ returnedIn trace ∧ Answered trace call reply
  | .finished => True

/-- Events about other calls change nothing. -/
theorem Fits.append {call : Nat} {state : Call} (h : Fits setup trace call state)
    (haccepted : ¬ Accepted events call) (hcompleted : ¬ Completed events call)
    (hreturned : call ∉ returnedIn events) : Fits setup (trace ++ events) call state := by
  cases state with
  | replied reply => exact ⟨by simp [h.1, hreturned], h.2.append⟩
  | _ => simp_all [Fits, accepted_append, completed_append]

/-- The reply refuses a request nobody accepted, or answers it. -/
def Settled (trace : List (Event n)) (call : Nat) (reply : Reply) : Prop :=
  ¬ Accepted trace call ∧ reply ∈ refusals ∨ Answered trace call reply

theorem Settled.append {call : Nat} {reply : Reply} (h : Settled trace call reply)
    (haccepted : ¬ Accepted events call) : Settled (trace ++ events) call reply := by
  refine h.imp (fun ⟨hnot, hrefusal⟩ => ⟨?_, hrefusal⟩) Answered.append
  simp [accepted_append, hnot, haccepted]

structure Calls (setup : Setup n) (trace : List (Event n)) (s : System n) : Prop where
  fits : ∀ call, Fits setup trace call (s.calls call)
  distinct : ((acceptedIn trace).map Request.call).Nodup
  returned : ∀ call reply, .returned call reply ∈ trace → Settled trace call reply

namespace Calls

theorem start (setup : Setup n) (shards : Shards n) (queueBytes : Nat) (clock : I64) :
    Calls setup [] (.start shards queueBytes clock) where
  fits call := by simp [System.start, Fits, Accepted, acceptedIn, returnedIn]
  distinct := List.nodup_nil
  returned call reply h := by cases h

theorem routed (h : Calls setup trace s) {call : Nat} {operation : Operation}
    (hcall : s.calls call = .sending operation) :
    destination setup.route operation ≠ .nowhere := by
  have hfits := h.fits call
  rw [hcall] at hfits
  exact hfits.2.2

/-- A step about one call: the others keep their places. -/
theorem step (call : Nat) (state : Call) (h : Calls setup trace s)
    (hcalls : s'.calls = Function.update s.calls call state)
    (hfits : Fits setup (trace ++ events) call state)
    (hothers : ∀ other ≠ call, ¬ Accepted events other ∧ ¬ Completed events other ∧
      other ∉ returnedIn events)
    (hdistinct : ((acceptedIn (trace ++ events)).map Request.call).Nodup)
    (hfresh : Accepted events call → call ∉ returnedIn trace)
    (hreturned : ∀ reply, .returned call reply ∈ events → Settled (trace ++ events) call reply) :
    Calls setup (trace ++ events) s' where
  fits other := by
    rw [hcalls]
    by_cases hother : other = call
    · subst hother
      simpa using hfits
    · obtain ⟨haccepted, hcompleted, hnone⟩ := hothers other hother
      simpa [hother] using (h.fits other).append haccepted hcompleted hnone
  distinct := hdistinct
  returned other reply hmem := by
    rcases List.mem_append.mp hmem with hmem | hmem
    · refine (h.returned other reply hmem).append fun haccepted => ?_
      by_cases hother : other = call
      · subst hother
        exact hfresh haccepted (mem_returnedIn.mpr ⟨reply, hmem⟩)
      · exact (hothers other hother).1 haccepted
    · by_cases hother : other = call
      · subst hother
        exact hreturned reply hmem
      · exact absurd (mem_returnedIn.mpr ⟨reply, hmem⟩) (hothers other hother).2.2

/-- A call moves on and nothing is recorded but possibly its submission. -/
theorem move (call : Nat) (state : Call) (h : Calls setup trace s)
    (hcalls : s'.calls = Function.update s.calls call state)
    (hfits : Fits setup trace call state)
    (haccepted : acceptedIn events = []) (hcompleted : completedIn events = [])
    (hreturned : returnedIn events = []) : Calls setup (trace ++ events) s' := by
  have hnone : ∀ other, ¬ Accepted events other ∧ ¬ Completed events other ∧
      other ∉ returnedIn events := by
    intro other
    simp [Accepted, Completed, haccepted, hcompleted, hreturned]
  obtain ⟨hnot, hincomplete, hunreturned⟩ := hnone call
  refine h.step call state hcalls (hfits.append hnot hincomplete hunreturned) (fun other _ => hnone other)
    (by simpa [haccepted] using h.distinct) (fun haccepted => absurd haccepted hnot)
    fun reply hmem => ?_
  exact absurd (mem_returnedIn.mpr ⟨reply, hmem⟩) hunreturned

/-- Steps that touch no call. -/
theorem keep (h : Calls setup trace s) (hcalls : s'.calls = s.calls)
    (haccepted : acceptedIn events = []) (hcompleted : completedIn events = [])
    (hreturned : returnedIn events = []) : Calls setup (trace ++ events) s' := by
  have hupdate : s'.calls = Function.update s.calls 0 (s.calls 0) :=
    hcalls.trans (Function.update_eq_self ..).symm
  exact h.move 0 _ hupdate (h.fits 0) haccepted hcompleted hreturned

/-- The call's future returns a reply. -/
theorem finish {call : Nat} {reply : Reply} (h : Calls setup trace s)
    (hreply : Settled trace call reply) :
    Calls setup (trace ++ [.returned call reply]) (s.setCall call .finished) := by
  have hnone : ∀ other, ¬ Accepted [(.returned call reply : Event n)] other := by
    simp [Accepted, acceptedIn]
  refine h.step call .finished rfl trivial (fun other hother => ⟨hnone other, ?_, ?_⟩)
    (by simpa [acceptedIn] using h.distinct) (fun haccepted => absurd haccepted (hnone call))
    fun reply' hmem => ?_
  · simp [Completed, completedIn]
  · simpa [returnedIn] using hother
  · obtain ⟨-, rfl⟩ : call = call ∧ reply' = reply := by simpa using hmem
    exact hreply.append (hnone call)

/-- A request is answered; the call may not be listening any more. -/
theorem answer {request : Request} {reply : Reply} (h : Calls setup trace s)
    (hcalls : s'.calls = Function.update s.calls request.call
      ((s.calls request.call).respond reply))
    (haccepted : acceptedIn events = []) (hcompleted : completedIn events = [request])
    (hreturned : returnedIn events = []) (hreply : .completed request reply ∈ events) :
    Calls setup (trace ++ events) s' := by
  have hnone : ∀ other, ¬ Accepted events other := by simp [Accepted, haccepted]
  have hunreturned : ∀ other, other ∉ returnedIn events := by simp [hreturned]
  refine h.step request.call _ hcalls ?_ (fun other hother => ⟨hnone other, ?_, hunreturned other⟩)
    (by simpa [haccepted] using h.distinct) (fun haccepted => absurd haccepted (hnone _))
    fun reply' hmem => absurd (mem_returnedIn.mpr ⟨reply', hmem⟩) (hunreturned _)
  · have hfits := h.fits request.call
    cases hstate : s.calls request.call with
    | waiting =>
        rw [hstate] at hfits
        exact ⟨by simp [hfits.2.1, hreturned], request, rfl, List.mem_append_right _ hreply⟩
    | replied reply' =>
        rw [hstate] at hfits
        exact ⟨by simp [hfits.1, hreturned], hfits.2.append⟩
    | _ => simp_all [Call.respond, Fits, accepted_append]
  · simpa [Completed, hcompleted, eq_comm] using hother

end Calls

theorem Queues.accepted_of_completed (hqueues : Queues setup trace s) {request : Request}
    (hcompleted : request ∈ completedIn trace) : request ∈ acceptedIn trace := by
  have hmem : request ∈ boundFor setup (destination setup.route request.operation)
      (acceptedIn trace) := by
    rw [hqueues.fifo]
    exact List.mem_append_left _ (mem_boundFor.mpr ⟨hcompleted, rfl⟩)
  exact (mem_boundFor.mp hmem).1

theorem CallStep.calls (hqueues : Queues setup trace s) (h : Calls setup trace s)
    (hstep : CallStep setup s events s') : Calls setup (trace ++ events) s' := by
  have hfits := h.fits
  cases hstep with
  | @submit request hunused hhandle =>
      refine h.move request.call _ rfl ?_ rfl rfl rfl
      have hcall := hfits request.call
      rw [hunused] at hcall
      unfold admission
      split
      · exact ⟨hcall.1, hcall.2, by simp [refusals]⟩
      · split
        · exact ⟨hcall.1, hcall.2, by simp [refusals]⟩
        · split
          · exact ⟨hcall.1, hcall.2, by simp [refusals]⟩
          · exact ⟨hcall.1, hcall.2, destination_ne_nowhere ‹_›⟩
  | @acquire call operation place hcall hplace hcredits =>
      have hold := hfits call
      rw [hcall] at hold
      exact h.move call (.sending operation) (by simp) hold rfl rfl rfl
  | @send call operation place hcall hplace hopen hroom =>
      have hold := hfits call
      rw [hcall] at hold
      obtain ⟨hnot, hunreturned, -⟩ := hold
      have hincomplete : ¬ Completed trace call := fun ⟨request, hmem, heq⟩ =>
        hnot ⟨request, hqueues.accepted_of_completed hmem, heq⟩
      refine h.step call .waiting (by simp) ?_ (fun other hother => ?_) ?_
        (fun _ => hunreturned) (by simp)
      · refine ⟨accepted_append.mpr (.inr ⟨⟨call, operation⟩, by simp [acceptedIn], rfl⟩), ?_, ?_⟩
        · simpa [returnedIn] using hunreturned
        · simpa [completed_append, Completed, completedIn] using hincomplete
      · simp [Accepted, Completed, acceptedIn, completedIn, returnedIn, Ne.symm hother]
      · rw [acceptedIn_append, List.map_append]
        refine List.nodup_append.mpr ⟨h.distinct, by simp [acceptedIn], ?_⟩
        intro a ha b hb hab
        obtain ⟨request, hrequest, rfl⟩ := List.mem_map.mp ha
        have hb : b = call := by simpa [acceptedIn] using hb
        exact hnot ⟨request, hrequest, hab.trans hb⟩
  | @reject call operation hcall hclosed =>
      have hold := hfits call
      rw [hcall] at hold
      exact h.move call (.refused shuttingDown) (by simp) ⟨hold.1, hold.2.1, by simp [refusals]⟩ rfl rfl rfl
  | @timeOutAcquiring call operation hcall =>
      have hold := hfits call
      rw [hcall] at hold
      exact h.move call _ rfl ⟨hold.1, hold.2.1, by simp [refusals]⟩ rfl rfl rfl
  | @timeOutSending call operation hcall =>
      have hold := hfits call
      rw [hcall] at hold
      exact h.move call (.refused deadlineExceeded) (by simp)
        ⟨hold.1, hold.2.1, by simp [refusals]⟩ rfl rfl rfl
  | @refuse call reply hcall =>
      have hold := hfits call
      rw [hcall] at hold
      exact h.finish (.inl ⟨hold.1, hold.2.2⟩)
  | @deliver call reply hcall =>
      have hold := hfits call
      rw [hcall] at hold
      exact h.finish (.inr hold.2)
  | @dropAcquiring call operation hcall => exact h.move call _ rfl trivial rfl rfl rfl
  | @dropSending call operation hcall =>
      exact h.move call .finished (by simp) trivial rfl rfl rfl
  | @dropWaiting call hcall => exact h.move call _ rfl trivial rfl rfl rfl
  | @dropReplied call reply hcall => exact h.move call _ rfl trivial rfl rfl rfl

theorem Step.calls (hqueues : Queues setup trace s) (h : Calls setup trace s)
    (hstep : Step setup s events s') : Calls setup (trace ++ events) s' := by
  cases hstep with
  | call hstep => exact hstep.calls hqueues h
  | owner hstep =>
      cases hstep with
      | execute hserving hexecute =>
          exact h.answer (by simp) rfl rfl rfl
            (List.mem_cons_of_mem _ (List.mem_singleton_self _))
      | _ => exact h.keep rfl rfl rfl rfl
  | coordinator hstep =>
      cases hstep with
      | released hworking htodo hphase =>
          exact h.answer (by simp) rfl rfl rfl
            (List.mem_singleton_self _)
      | _ => exact h.keep rfl rfl rfl rfl
  | shutdown hstep => cases hstep <;> exact h.keep rfl rfl rfl rfl
  | advance | stats | abandon => exact h.keep rfl rfl rfl rfl

/-! ### Consequences -/

/-- A request in hand is accepted, unanswered, and its call has not returned. -/
theorem unanswered_of_held (hqueues : Queues setup trace s) (h : Calls setup trace s)
    {place : Destination n} {request : Request} (hheld : request ∈ s.held place) :
    Accepted trace request.call ∧ ¬ Completed trace request.call ∧
      request.call ∉ returnedIn trace := by
  have hbound : request ∈ boundFor setup place (acceptedIn trace) := by
    rw [hqueues.fifo]
    exact List.mem_append_right _ hheld
  have hmem := (mem_boundFor.mp hbound).1
  have hincomplete : ¬ Completed trace request.call := by
    rintro ⟨other, hother, hcall⟩
    -- Calls are accepted once, so the answered request is this one, and then it is there twice.
    obtain rfl := List.inj_on_of_nodup_map h.distinct (hqueues.accepted_of_completed hother) hmem
      hcall
    have hnodup : (boundFor setup place (acceptedIn trace)).Nodup := h.distinct.of_map.filter _
    rw [hqueues.fifo] at hnodup
    exact List.disjoint_of_nodup_append hnodup
      (mem_boundFor.mpr ⟨hother, (mem_boundFor.mp hbound).2⟩) hheld
  refine ⟨⟨request, hmem, rfl⟩, hincomplete, fun hreturned => ?_⟩
  obtain ⟨reply, hreturned⟩ := mem_returnedIn.mp hreturned
  rcases h.returned _ reply hreturned with ⟨hnot, -⟩ | ⟨other, hcall, hanswer⟩
  · exact hnot ⟨request, hmem, rfl⟩
  · exact hincomplete ⟨other, mem_completedIn.mpr ⟨reply, hanswer⟩, hcall⟩

/-- A call that waits for its reply has its request in hand somewhere. -/
theorem held_of_waiting (hqueues : Queues setup trace s) (h : Calls setup trace s) {call : Nat}
    (hwaiting : s.calls call = .waiting) :
    ∃ place, ∃ request ∈ s.held place, request.call = call := by
  have hfits := h.fits call
  rw [hwaiting] at hfits
  obtain ⟨⟨request, hmem, hcall⟩, -, hincomplete⟩ := hfits
  have hbound : request ∈ boundFor setup (destination setup.route request.operation)
      (acceptedIn trace) := mem_boundFor.mpr ⟨hmem, rfl⟩
  rw [hqueues.fifo] at hbound
  rcases List.mem_append.mp hbound with hdone | hheld
  · exact absurd ⟨request, (mem_boundFor.mp hdone).1, hcall⟩ hincomplete
  · exact ⟨_, request, hheld, hcall⟩

end Recall.Engine
