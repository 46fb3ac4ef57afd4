import Recall.Proof.ExactlyOnce
import Recall.Proof.Evolution
import Mathlib.Algebra.BigOperators.Group.Finset.Basic

/-!
# Queue credits

The credits of a pool that are not available are those of the calls about to send and of the
requests their destination holds. What a destination holds is what it accepted and has not
completed, so a step has to balance the pool only against what it records.
-/

namespace Recall.Engine

variable {n : Nat} {setup : Setup n} {shards : Shards n} {trace events : List (Event n)}
  {s s' t : System n}

/-- The credit a call has acquired and still has to hand over. -/
def Call.credit : Call → Nat
  | sending operation => charge operation
  | _ => 0

/-- The credits that travel with requests. -/
def chargeOf (requests : List Request) : Nat :=
  (requests.map fun request => charge request.operation).sum

@[simp] theorem chargeOf_nil : chargeOf [] = 0 := rfl

@[simp] theorem chargeOf_append (a b : List Request) :
    chargeOf (a ++ b) = chargeOf a + chargeOf b := by
  simp [chargeOf]

/-- The calls that hold credits of the pool of a destination. -/
def Holders (setup : Setup n) (s : System n) (place : Destination n) (holders : Finset Nat) : Prop :=
  ∀ call, call ∈ holders ↔
    ∃ operation, s.calls call = .sending operation ∧ destination setup.route operation = place

/-- What is available, what calls hold and what was accepted adds up to the pool and what was
completed. -/
def Conserved (setup : Setup n) (trace : List (Event n)) (s : System n) (place : Destination n) :
    Prop :=
  ∃ holders, Holders setup s place holders ∧
    s.credits place + ∑ call ∈ holders, (s.calls call).credit +
        chargeOf (boundFor setup place (acceptedIn trace)) =
      setup.queueBytes + chargeOf (boundFor setup place (completedIn trace))

/-! ### Pools -/

theorem credits_setOwner {o : Fin n} {owner : Owner}
    (hcredits : owner.credits = (s.owners o).credits) (place : Destination n) :
    (s.setOwner o owner).credits place = s.credits place := by
  cases place with
  | nowhere | cross => rfl
  | owner p =>
      by_cases hp : p = o
      · subst hp
        simpa [System.credits] using hcredits
      · simp [System.credits, hp]

@[simp] theorem credits_setCall (s : System n) (call : Nat) (state : Call) :
    (s.setCall call state).credits = s.credits := rfl

theorem credits_setCredits (s : System n) (credits : Nat) {place : Destination n}
    (hplace : place ≠ .nowhere) :
    (s.setCredits credits place).credits = Function.update s.credits place credits := by
  funext other
  cases place with
  | nowhere => exact absurd rfl hplace
  | cross =>
      cases other with
      | cross => rw [Function.update_self]; rfl
      | _ =>
          rw [Function.update_of_ne (by simp)]
          rfl
  | owner o =>
      cases other with
      | nowhere => simp [System.credits]
      | cross =>
          rw [Function.update_of_ne (by simp)]
          rfl
      | owner p =>
          by_cases hp : p = o
          · subst hp
            simp [System.setCredits, System.credits]
          · simp [System.setCredits, System.credits, hp]

theorem credits_push (s : System n) (request : Request) (target place : Destination n) :
    (s.push request target).credits place = s.credits place := by
  cases target with
  | nowhere => rfl
  | owner o =>
      refine credits_setOwner ?_ place
      rfl
  | cross => cases place <;> rfl

/-! ### Holders -/

/-- The calls that send to the destination are the same. -/
def SameHolders (setup : Setup n) (s s' : System n) (place : Destination n) : Prop :=
  ∀ call operation, destination setup.route operation = place →
    (s'.calls call = .sending operation ↔ s.calls call = .sending operation)

theorem SameHolders.holders {place : Destination n} {holders : Finset Nat}
    (hsame : SameHolders setup s s' place) (h : Holders setup s place holders) :
    Holders setup s' place holders := by
  intro call
  refine (h call).trans (exists_congr fun operation => ?_)
  refine and_congr_left fun hplace => ?_
  exact (hsame call operation hplace).symm

theorem SameHolders.sum {place : Destination n} {holders : Finset Nat}
    (hsame : SameHolders setup s s' place) (h : Holders setup s place holders) :
    ∑ call ∈ holders, (s'.calls call).credit = ∑ call ∈ holders, (s.calls call).credit := by
  refine Finset.sum_congr rfl fun call hcall => ?_
  obtain ⟨operation, hstate, hplace⟩ := (h call).mp hcall
  rw [hstate, (hsame call operation hplace).mpr hstate]

theorem SameHolders.of_eq {place : Destination n} (hcalls : s'.calls = s.calls) :
    SameHolders setup s s' place := by
  intro call operation _
  rw [hcalls]

/-- A call moves between states that hold no credits of the pool. -/
theorem SameHolders.setCall {place : Destination n} {call : Nat} {state : Call}
    (hcalls : t.calls = s.calls)
    (hbefore : ∀ operation, destination setup.route operation = place →
      s.calls call ≠ .sending operation)
    (hafter : ∀ operation, destination setup.route operation = place → state ≠ .sending operation) :
    SameHolders setup s (t.setCall call state) place := by
  intro other operation hplace
  rw [System.setCall_calls, hcalls]
  by_cases hother : other = call
  · subst hother
    rw [Function.update_self]
    exact iff_of_false (hafter operation hplace) (hbefore operation hplace)
  · rw [Function.update_of_ne hother]

namespace Conserved

variable {place : Destination n}

/-- The holders stay, and the pool makes up for what was completed. -/
theorem keep (h : Conserved setup trace s place) (hsame : SameHolders setup s s' place)
    (hcredits : s'.credits place =
      s.credits place + chargeOf (boundFor setup place (completedIn events)))
    (haccepted : boundFor setup place (acceptedIn events) = []) :
    Conserved setup (trace ++ events) s' place := by
  obtain ⟨holders, hholders, hbalance⟩ := h
  refine ⟨holders, hsame.holders hholders, ?_⟩
  rw [hsame.sum hholders, hcredits, acceptedIn_append, completedIn_append, boundFor_append,
    boundFor_append, haccepted, chargeOf_append, chargeOf_append, chargeOf_nil]
  omega

/-- Nothing of the pool is concerned. -/
theorem silent (h : Conserved setup trace s place) (hsame : SameHolders setup s s' place)
    (hcredits : s'.credits place = s.credits place)
    (haccepted : boundFor setup place (acceptedIn events) = [])
    (hcompleted : boundFor setup place (completedIn events) = []) :
    Conserved setup (trace ++ events) s' place :=
  h.keep hsame (by simp [hcredits, hcompleted]) haccepted

theorem acquire {call : Nat} {operation : Operation} (h : Conserved setup trace s place)
    (hcall : s.calls call = .acquiring operation)
    (hplace : destination setup.route operation = place)
    (hcalls : t.calls = s.calls)
    (hcredits : t.credits place + charge operation = s.credits place) :
    Conserved setup trace (t.setCall call (.sending operation)) place := by
  obtain ⟨holders, hholders, hbalance⟩ := h
  have hfresh : call ∉ holders := by
    intro hmem
    obtain ⟨other, hstate, -⟩ := (hholders call).mp hmem
    rw [hcall] at hstate
    cases hstate
  refine ⟨insert call holders, fun other => ?_, ?_⟩
  · rw [System.setCall_calls, hcalls, Finset.mem_insert]
    by_cases hother : other = call
    · subst hother
      simp [hplace]
    · rw [Function.update_of_ne hother]
      simpa [hother] using hholders other
  · have hrest : ∑ other ∈ holders, ((t.setCall call (.sending operation)).calls other).credit =
        ∑ other ∈ holders, (s.calls other).credit := by
      refine Finset.sum_congr rfl fun other hmem => ?_
      have hother : other ≠ call := by
        rintro rfl
        exact hfresh hmem
      rw [System.setCall_calls, hcalls, Function.update_of_ne hother]
    have hself : ((t.setCall call (.sending operation)).calls call).credit = charge operation := by
      rw [System.setCall_calls, Function.update_self]
      rfl
    rw [Finset.sum_insert hfresh, hrest, hself, credits_setCall]
    omega

/-- A call gives its credits up: back to the pool, or on to its destination. -/
theorem release {call : Nat} {operation : Operation} {state : Call}
    (h : Conserved setup trace s place) (hcall : s.calls call = .sending operation)
    (hplace : destination setup.route operation = place) (hcalls : t.calls = s.calls)
    (hafter : ∀ operation, state ≠ .sending operation)
    (hcredits : t.credits place + chargeOf (boundFor setup place (acceptedIn events)) =
      s.credits place + charge operation)
    (hcompleted : boundFor setup place (completedIn events) = []) :
    Conserved setup (trace ++ events) (t.setCall call state) place := by
  obtain ⟨holders, hholders, hbalance⟩ := h
  have hmem : call ∈ holders := (hholders call).mpr ⟨operation, hcall, hplace⟩
  refine ⟨holders.erase call, fun other => ?_, ?_⟩
  · rw [System.setCall_calls, hcalls, Finset.mem_erase]
    by_cases hother : other = call
    · subst hother
      rw [Function.update_self]
      simp [hafter]
    · rw [Function.update_of_ne hother]
      simpa [hother] using hholders other
  · have hrest : ∑ other ∈ holders.erase call, ((t.setCall call state).calls other).credit =
        ∑ other ∈ holders.erase call, (s.calls other).credit := by
      refine Finset.sum_congr rfl fun other hother => ?_
      rw [System.setCall_calls, hcalls, Function.update_of_ne (Finset.ne_of_mem_erase hother)]
    have hself : (s.calls call).credit = charge operation := by
      rw [hcall]
      rfl
    have hsum := Finset.sum_erase_add holders (fun other => (s.calls other).credit) hmem
    rw [hrest, credits_setCall, acceptedIn_append, completedIn_append, boundFor_append,
      boundFor_append, hcompleted, chargeOf_append, chargeOf_append, chargeOf_nil]
    simp only [hself] at hsum
    omega

/-- A destination answers a request and drops it. -/
theorem answer {request : Request} {reply : Reply} (h : Conserved setup trace s place)
    (hcalls : t.calls = s.calls) (hcredits : ∀ place, t.credits place = s.credits place)
    (hplace : destination setup.route request.operation ≠ .nowhere)
    (haccepted : acceptedIn events = []) (hcompleted : completedIn events = [request]) :
    Conserved setup (trace ++ events) (t.answer setup request reply) place := by
  refine h.keep (fun call operation _ => ?_) ?_ (by simp [haccepted])
  · rw [System.answer_calls, hcalls]
    by_cases hcall : call = request.call
    · subst hcall
      rw [Function.update_self]
      cases hstate : s.calls request.call <;> simp [Call.respond]
    · rw [Function.update_of_ne hcall]
  · rw [System.answer, credits_setCall, System.returnCredits, credits_setCredits _ _ hplace,
      hcompleted, boundFor_singleton]
    by_cases hother : destination setup.route request.operation = place
    · subst hother
      simp [chargeOf, hcredits]
    · rw [Function.update_of_ne (Ne.symm hother), if_neg hother, chargeOf_nil, Nat.add_zero, hcredits]

end Conserved

theorem admission_ne_sending (closing : Bool) (operation operation' : Operation) :
    admission setup closing operation ≠ .sending operation' := by
  unfold admission
  split
  · simp
  · split
    · simp
    · split <;> simp

/-- Credits return to their pool with a call that leaves. -/
theorem CallStep.returned_credits {call : Nat} {operation : Operation} {place : Destination n}
    {state : Call} (h : Conserved setup trace s place)
    (hcall : s.calls call = .sending operation)
    (hrouted : destination setup.route operation ≠ .nowhere)
    (hafter : ∀ operation, state ≠ .sending operation) :
    Conserved setup (trace ++ []) ((s.returnCredits setup operation).setCall call state) place := by
  by_cases hplace : destination setup.route operation = place
  · refine h.release hcall hplace (System.returnCredits_calls ..) hafter ?_ rfl
    subst hplace
    rw [System.returnCredits, credits_setCredits _ _ hrouted, Function.update_self]
    rfl
  · refine h.silent (.setCall (System.returnCredits_calls ..) (fun other hother hstate => ?_)
      fun other _ => hafter other) ?_ rfl rfl
    · rw [hcall] at hstate
      cases hstate
      exact hplace hother
    · rw [credits_setCall, System.returnCredits, credits_setCredits _ _ hrouted,
        Function.update_of_ne (Ne.symm hplace)]

theorem CallStep.conserved (hcalls : Calls setup trace s) {place : Destination n}
    (hpool : place ≠ .nowhere) (h : Conserved setup trace s place)
    (hstep : CallStep setup s events s') : Conserved setup (trace ++ events) s' place := by
  cases hstep with
  | @submit request hunused hhandle =>
      refine h.silent (.setCall rfl (fun operation _ => ?_) fun operation _ => ?_) rfl rfl rfl
      · rw [hunused]
        simp
      · exact admission_ne_sending _ _ _
  | @acquire call operation target hcall htarget hcredits =>
      subst htarget
      have hfits := hcalls.fits call
      rw [hcall] at hfits
      by_cases hplace : destination setup.route operation = place
      · subst hplace
        rw [List.append_nil]
        refine h.acquire hcall rfl (System.setCredits_calls ..) ?_
        rw [credits_setCredits _ _ hpool, Function.update_self]
        omega
      · refine h.silent (.setCall (System.setCredits_calls ..) (fun other _ => ?_)
          fun other hother hstate => ?_) ?_ rfl rfl
        · rw [hcall]
          simp
        · cases hstate
          exact hplace hother
        · rw [credits_setCall, credits_setCredits _ _ hfits.2.2,
            Function.update_of_ne (Ne.symm hplace)]
  | @send call operation target hcall htarget hopen hroom =>
      subst htarget
      by_cases hplace : destination setup.route operation = place
      · refine h.release hcall hplace (System.push_calls ..) (by simp) ?_ rfl
        rw [credits_push]
        change _ + chargeOf (boundFor setup place [⟨call, operation⟩]) = _
        rw [boundFor_singleton, if_pos hplace]
        rfl
      · refine h.silent (.setCall (System.push_calls ..) (fun other hother hstate => ?_)
          (by simp)) ?_ ?_ rfl
        · rw [hcall] at hstate
          cases hstate
          exact hplace hother
        · rw [credits_setCall, credits_push]
        · change boundFor setup place [⟨call, operation⟩] = []
          rw [boundFor_singleton, if_neg hplace]
  | reject hcall | timeOutSending hcall | dropSending hcall =>
      exact returned_credits h hcall (hcalls.routed hcall) (by simp)
  | timeOutAcquiring hcall | refuse hcall | deliver hcall | dropAcquiring hcall | dropWaiting hcall
  | dropReplied hcall =>
      exact h.silent (.setCall rfl (by simp [hcall]) (by simp)) rfl rfl rfl

theorem Step.conserved (hqueues : Queues setup trace s) (hcalls : Calls setup trace s)
    {place : Destination n} (hpool : place ≠ .nowhere) (h : Conserved setup trace s place)
    (hstep : Step setup s events s') : Conserved setup (trace ++ events) s' place := by
  cases hstep with
  | call hstep => exact hstep.conserved hcalls hpool h
  | @owner o events s' hstep =>
      cases hstep with
      | @execute request nowMs turn seed shard reply hserving hexecute =>
          have hdestination : destination setup.route request.operation = .owner o :=
            hqueues.destination_of_held (by simp [System.held, Owner.held, hserving])
          refine h.answer rfl (credits_setOwner ?_) (by simp [hdestination]) rfl rfl
          rfl
      | control hselect hrunning hcontrols hhandle =>
          obtain ⟨-, hcredits, -⟩ := Owner.handle_frame hhandle
          exact h.silent (.of_eq rfl) (credits_setOwner hcredits place) rfl rfl
      | _ =>
          refine h.silent (.of_eq rfl) (credits_setOwner ?_ place) rfl rfl
          rfl
  | coordinator hstep =>
      cases hstep with
      | instruct =>
          refine h.silent (.of_eq rfl) (credits_setOwner ?_ place) rfl rfl
          rfl
      | @released job reply hworking htodo hphase =>
          have hdestination := hqueues.destination_of_working hworking
          exact h.answer rfl (fun _ => rfl) (by simp [hdestination]) rfl rfl
      | _ => exact h.silent (.of_eq rfl) rfl rfl rfl
  | shutdown hstep =>
      cases hstep with
      | stopOwner =>
          refine h.silent (.of_eq rfl) (credits_setOwner ?_ place) rfl rfl
          rfl
      | _ => exact h.silent (.of_eq rfl) rfl rfl rfl
  | advance | abandon => exact h.silent (.of_eq rfl) rfl rfl rfl
  | stats =>
      refine h.silent (.of_eq rfl) (credits_setOwner ?_ place) rfl rfl
      rfl

theorem Reaches.conserved (hreaches : Reaches setup shards trace s) {place : Destination n}
    (hpool : place ≠ .nowhere) : Conserved setup trace s place := by
  induction hreaches with
  | @start clock hnew =>
      refine ⟨∅, fun call => ?_, ?_⟩
      · simp [System.start]
      · cases place with
        | nowhere => exact absurd rfl hpool
        | owner | cross => rfl
  | step hreaches hstep ih =>
      obtain ⟨base, h, -⟩ := hreaches.invariant
      exact hstep.conserved h.queues h.calls hpool ih

/-! ### Charges -/

structure Charged (setup : Setup n) (trace : List (Event n)) (s : System n) : Prop where
  calls : ∀ call operation, (s.calls call).operation? = some operation →
    Affordable setup operation
  accepted : ∀ request ∈ acceptedIn trace, Affordable setup request.operation

theorem Step.charged (h : Charged setup trace s) (hstep : Step setup s events s') :
    Charged setup (trace ++ events) s' where
  calls call operation hstate := by
    rcases hstep.passes.calls call operation hstate with hbefore | ⟨-, haffordable⟩
    · exact h.calls call operation hbefore
    · exact haffordable
  accepted request hrequest := by
    rw [acceptedIn_append] at hrequest
    rcases List.mem_append.mp hrequest with hbefore | hnew
    · exact h.accepted request hbefore
    · exact h.calls _ _ (hstep.passes.accepted request hnew)

theorem Reaches.charged (hreaches : Reaches setup shards trace s) : Charged setup trace s := by
  induction hreaches with
  | start hnew => exact ⟨fun call operation hstate => (by cases hstate), by simp [acceptedIn]⟩
  | step _ hstep ih => exact hstep.charged ih

/-- The request still holds the credit it was admitted with: it is not sent yet, waits in the queue
or is executed. -/
def CreditHeld (setup : Setup n) (s : System n) (place : Destination n) (request : Request) : Prop :=
  s.calls request.call = .sending request.operation ∧
      destination setup.route request.operation = place ∨
    request ∈ s.held place

theorem Reaches.affordable (hreaches : Reaches setup shards trace s) {place : Destination n}
    {request : Request} (hholds : CreditHeld setup s place request) :
    Affordable setup request.operation ∧ destination setup.route request.operation = place := by
  obtain ⟨base, h, -⟩ := hreaches.invariant
  rcases hholds with ⟨hsending, hplace⟩ | hheld
  · exact ⟨hreaches.charged.calls request.call _ (by rw [hsending]; rfl), hplace⟩
  · have hmem : request ∈ boundFor setup place (acceptedIn trace) := by
      rw [h.queues.fifo]
      exact List.mem_append_right _ hheld
    exact ⟨hreaches.charged.accepted request (mem_boundFor.mp hmem).1, (mem_boundFor.mp hmem).2⟩

/-- A charge that fits `u32` did not saturate on the way. -/
theorem charge_eq {operation : Operation} (hfits : charge operation ≤ 4294967295) :
    charge operation = operation.payloadBytes + operation.keys.length * 128 + 256 := by
  simp only [charge, saturate, usizeMax] at hfits ⊢
  omega

theorem payload_le_chargeOf {requests : List Request}
    (hfits : ∀ request ∈ requests, charge request.operation ≤ 4294967295) :
    (requests.map fun request => request.operation.payloadBytes).sum ≤ chargeOf requests := by
  refine List.sum_le_sum fun request hmem => ?_
  rw [charge_eq (hfits request hmem)]
  omega

/-- The permits available at a pool and those of the requests that hold some add up to the size of
the pool. -/
theorem credits_conserved (hreaches : Reaches setup shards trace s) {place : Destination n}
    (hpool : place ≠ .nowhere) :
    (∃ senders : Finset Nat,
      (∀ call, call ∈ senders ↔ ∃ operation, s.calls call = .sending operation ∧
        destination setup.route operation = place) ∧
      s.credits place + ∑ call ∈ senders, (s.calls call).credit + chargeOf (s.held place) =
        setup.queueBytes) ∧
    (∀ request, CreditHeld setup s place request →
      request.operation.payloadBytes + request.operation.keys.length * 128 + 256 ≤
        charge request.operation ∧
      destination setup.route request.operation = place ∧
      charge request.operation % 2 ^ 32 = charge request.operation) ∧
    ((s.held place).map fun request => request.operation.payloadBytes).sum ≤ setup.queueBytes ∧
    ((∀ request, ¬ CreditHeld setup s place request) → s.credits place = setup.queueBytes) := by
  obtain ⟨base, h, -⟩ := hreaches.invariant
  obtain ⟨senders, hsenders, hbalance⟩ := hreaches.conserved hpool
  rw [h.queues.fifo, chargeOf_append] at hbalance
  have hfits : ∀ request ∈ s.held place, charge request.operation ≤ 4294967295 :=
    fun request hmem => (hreaches.affordable (.inr hmem)).1.2
  refine ⟨⟨senders, hsenders, by omega⟩, fun request hholds => ?_, ?_, fun hnone => ?_⟩
  · obtain ⟨⟨-, hu32⟩, hplace⟩ := hreaches.affordable hholds
    exact ⟨(charge_eq hu32).ge, hplace, Nat.mod_eq_of_lt (by omega)⟩
  · calc ((s.held place).map fun request => request.operation.payloadBytes).sum
        ≤ chargeOf (s.held place) := payload_le_chargeOf hfits
      _ ≤ setup.queueBytes := by omega
  · have hempty : senders = ∅ := by
      refine Finset.eq_empty_of_forall_notMem fun call hmem => ?_
      obtain ⟨operation, hsending, hplace⟩ := (hsenders call).mp hmem
      exact hnone ⟨call, operation⟩ (.inl ⟨hsending, hplace⟩)
    have hheld : s.held place = [] := by
      refine List.eq_nil_iff_forall_not_mem.mpr fun request hmem => ?_
      exact hnone request (.inr hmem)
    rw [hempty, hheld, Finset.sum_empty, chargeOf_nil] at hbalance
    omega

/-- One request waits in the queue and the next is about to follow it. -/
theorem credits_conserved_sample : ∃ shards trace s, Reaches lonelySetup shards trace s ∧
    s.held (.owner 0) = [lonelyRequest] ∧ s.calls 1 = .sending lonelyRequest.operation ∧
    s.credits (.owner 0) = 3326 ∧ charge lonelyRequest.operation = 385 ∧
    ∃ senders : Finset Nat, 1 ∈ senders ∧
      s.credits (.owner 0) + ∑ call ∈ senders, (s.calls call).credit +
        chargeOf (s.held (.owner 0)) = 4096 := by
  have hadmission : admission lonelySetup false lonelyRequest.operation =
      .acquiring lonelyRequest.operation := lonelyRequest_admission rfl
  have hplace : destination lonelySetup.route lonelyRequest.operation = .owner 0 := by decide
  have hcharge : charge lonelyRequest.operation ≤ 4096 := by decide
  have hstart : Reaches lonelySetup
      (fun _ => ⟨∅, .empty, sampleShardLimits, 0, 0, 0, 0⟩) [] (.start _ 4096 0) :=
    .start fun _ => rfl
  have hsubmit := @Reaches.submit _ _ _ _ _ hstart lonelyRequest _ rfl nofun hadmission
  have hacquire := hsubmit.step (.call (@CallStep.acquire _ _ _ 0 lonelyRequest.operation
    (.owner 0) rfl hplace hcharge))
  have hsend := hacquire.step (.call (@CallStep.send _ _ _ 0 lonelyRequest.operation (.owner 0) rfl
    hplace (by rintro (h | h) <;> cases h) (by decide)))
  have hnext := @Reaches.submit _ _ _ _ _ hsend ⟨1, lonelyRequest.operation⟩ _ rfl nofun hadmission
  have hreaches := hnext.step (.call (@CallStep.acquire _ _ _ 1 lonelyRequest.operation
    (.owner 0) rfl hplace (by decide)))
  obtain ⟨⟨senders, hsenders, hbalance⟩, -⟩ :=
    @credits_conserved _ _ _ _ _ hreaches (.owner 0) (by simp)
  refine ⟨_, _, _, hreaches, rfl, rfl, by decide, by decide, senders, ?_, hbalance⟩
  exact (hsenders 1).mpr ⟨_, rfl, hplace⟩

end Recall.Engine
