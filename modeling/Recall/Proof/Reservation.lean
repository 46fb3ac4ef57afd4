import Recall.Lib.Interleaving
import Recall.Proof.Calls
import Recall.Proof.Sharding

/-!
# The reservation protocol

Where every owner stands while the coordinator works on a command, and that the owners together
behave as shards on which commands and ticks take effect one at a time: the abstract shards are the
owners' shards, except that a cross-owner command reaches them only once all its parts are applied.
-/

namespace Recall.Engine

open Interleaving Shard

variable {n : Nat} {setup : Setup n} {s s' : System n} {base : Shards n}

/-! ### Participants -/

/-- How a participant stands in a phase of the command with this identity, by whether the phase has
still to reach it: its reservation and its shard, given the shard the phase started from and the
preparation made there. -/
inductive Stands (id : Nat) (base : Shard) (prepared : Prepared) :
    Phase → Bool → Option Reservation → Shard → Prop
  | unreserved : Stands id base prepared .reserve true none base
  | reserved : Stands id base prepared .reserve false (some ⟨id, none⟩) base
  | unprepared {nowMs : I64} {results : List Reply} :
      Stands id base prepared (.prepare nowMs (.ok results)) true (some ⟨id, none⟩) base
  | prepared {nowMs : I64} {results : List Reply} :
      Stands id base prepared (.prepare nowMs (.ok results)) false (some ⟨id, some prepared⟩) base
  | failed {nowMs : I64} {failure : EngineError} {pending : Bool} {kept : Option Prepared} :
      Stands id base prepared (.prepare nowMs (.error failure)) pending (some ⟨id, kept⟩) base
  | unapplied {nowMs : I64} {reply : Reply} :
      Stands id base prepared (.apply nowMs reply) true (some ⟨id, some prepared⟩) base
  | applied {nowMs : I64} {reply response : Reply} {shard : Shard}
      (happly : base.apply prepared = .ok (shard, response)) :
      Stands id base prepared (.apply nowMs reply) false (some ⟨id, none⟩) shard
  | unreleased {reply : Reply} {kept : Option Prepared} :
      Stands id base prepared (.release reply) true (some ⟨id, kept⟩) base
  | released {reply : Reply} : Stands id base prepared (.release reply) false none base

/-- A participant without a reservation has not been changed. -/
theorem Stands.shard_of_free {id : Nat} {start shard : Shard} {prepared : Prepared} {phase : Phase}
    {pending : Bool} (h : Stands id start prepared phase pending none shard) : shard = start := by
  cases h <;> rfl

/-- No phase relies on the shard of a participant without a reservation. -/
theorem Stands.perform {id : Nat} {start shard : Shard} {prepared : Prepared} {phase : Phase}
    {pending : Bool} (h : Stands id start prepared phase pending none shard) (next : Shard) :
    Stands id next prepared phase pending none next := by
  cases h <;> constructor

theorem Stands.phase_of_free {id : Nat} {start shard : Shard} {prepared : Prepared} {phase : Phase}
    {pending : Bool} (h : Stands id start prepared phase pending none shard) :
    phase = .reserve ∨ ∃ reply, phase = .release reply := by
  cases h with
  | unreserved => exact .inl rfl
  | released => exact .inr ⟨_, rfl⟩

theorem Stands.shard_of_pending {id : Nat} {start shard : Shard} {prepared : Prepared}
    {phase : Phase} {reservation : Option Reservation}
    (h : Stands id start prepared phase true reservation shard) : shard = start := by
  cases h <;> rfl

theorem Stands.fail {id : Nat} {start shard : Shard} {prepared : Prepared} {nowMs : I64}
    {results : List Reply} {pending : Bool} {reservation : Option Reservation}
    (h : Stands id start prepared (.prepare nowMs (.ok results)) pending reservation shard)
    (failure : EngineError) (pending' : Bool) :
    Stands id start prepared (.prepare nowMs (.error failure)) pending' reservation shard := by
  cases h <;> exact .failed

theorem Stands.collect {id : Nat} {start shard : Shard} {prepared : Prepared} {nowMs : I64}
    {results results' : List Reply} {pending : Bool} {reservation : Option Reservation}
    (h : Stands id start prepared (.prepare nowMs (.ok results)) pending reservation shard) :
    Stands id start prepared (.prepare nowMs (.ok results')) pending reservation shard := by
  cases h <;> constructor

theorem Stands.apply {id : Nat} {start shard after : Shard} {prepared ready : Prepared}
    {nowMs : I64} {reply response : Reply}
    (h : Stands id start prepared (.apply nowMs reply) true (some ⟨id, some ready⟩) shard)
    (happly : shard.apply ready = .ok (after, response)) :
    Stands id start prepared (.apply nowMs reply) false (some ⟨id, none⟩) after := by
  cases h
  exact .applied happly

theorem Stands.begin {id : Nat} {start shard : Shard} {prepared : Prepared}
    {reservation : Option Reservation}
    (h : Stands id start prepared .reserve false reservation shard) (nowMs : I64) :
    Stands id start prepared (.prepare nowMs (.ok [])) true reservation shard := by
  cases h
  exact .unprepared

theorem Stands.decide {id : Nat} {start shard : Shard} {prepared : Prepared} {nowMs : I64}
    {results : List Reply} {reservation : Option Reservation}
    (h : Stands id start prepared (.prepare nowMs (.ok results)) false reservation shard)
    (reply : Reply) :
    Stands id start prepared (.apply nowMs reply) true reservation shard := by
  cases h
  exact .unapplied

theorem Stands.abort {id : Nat} {start shard : Shard} {prepared : Prepared} {nowMs : I64}
    {results : Except EngineError (List Reply)} {reservation : Option Reservation}
    (h : Stands id start prepared (.prepare nowMs results) false reservation shard)
    (reply : Reply) : Stands id start prepared (.release reply) true reservation shard := by
  cases h <;> exact .unreleased

theorem Stands.install {id : Nat} {start shard : Shard} {prepared : Prepared} {nowMs : I64}
    {reply : Reply} {reservation : Option Reservation}
    (h : Stands id start prepared (.apply nowMs reply) false reservation shard) :
    Stands id shard prepared (.release reply) true reservation shard ∧
      ∃ response, start.apply prepared = .ok (shard, response) := by
  cases h with
  | applied happly => exact ⟨.unreleased, _, happly⟩

theorem Stands.shard_of_prepare {id : Nat} {start shard : Shard} {prepared : Prepared}
    {nowMs : I64} {results : Except EngineError (List Reply)} {pending : Bool}
    {reservation : Option Reservation}
    (h : Stands id start prepared (.prepare nowMs results) pending reservation shard) :
    shard = start := by
  cases h <;> rfl

theorem Stands.free_of_released {id : Nat} {start shard : Shard} {prepared : Prepared}
    {reply : Reply} {reservation : Option Reservation}
    (h : Stands id start prepared (.release reply) false reservation shard) :
    reservation = none ∧ shard = start := by
  cases h
  exact ⟨rfl, rfl⟩

/-- A reservation carries the identity of the command. -/
theorem Stands.id_eq {id : Nat} {start shard : Shard} {prepared : Prepared} {phase : Phase}
    {pending : Bool} {reservation : Reservation}
    (h : Stands id start prepared phase pending (some reservation) shard) :
    reservation.id = id := by
  cases h <;> rfl

namespace Job

def participants (job : Job n) : List (Fin n) := job.parts.map Part.owner

/-- The phase has still to reach the owner. -/
def pending (job : Job n) (o : Fin n) : Bool := decide (o ∈ job.todo.map Part.owner)

/-- What the coordinator knows in each phase. -/
def Computed (setup : Setup n) (base : Shards n) (seeds : Fin n → HashSeed)
    (prepared : Fin n → Prepared) (job : Job n) : Prop :=
  match job.phase with
  | .prepare nowMs (.ok results) =>
      ∃ done, job.parts = done ++ job.todo ∧
        results = done.map (fun part => (prepared part.owner).response) ∧
        ∀ part ∈ done, (base part.owner).prepare (seeds part.owner) part.operation nowMs =
          .ok (.ok (prepared part.owner))
  | .prepare nowMs (.error failure) =>
      job.todo = [] ∧ prepareParts base seeds nowMs job.parts = .ok (.error failure)
  | .apply nowMs reply =>
      (∀ part ∈ job.parts, (base part.owner).prepare (seeds part.owner) part.operation nowMs =
        .ok (.ok (prepared part.owner))) ∧
      combine job.request.operation job.parts
        (job.parts.map fun part => (prepared part.owner).response) = .ok reply ∧
      reply.exceeds setup.maxReplyBytes = false
  | .reserve | .release _ => True

/-- The coordinated message on its way to an owner. -/
def outbound (job : Job n) (o : Fin n) : List Control :=
  match job.todo with
  | part :: _ => if job.awaiting = true ∧ part.owner = o then [job.message part] else []
  | [] => []

end Job

structure Engaged (setup : Setup n) (base : Shards n) (seeds : Fin n → HashSeed)
    (prepared : Fin n → Prepared) (job : Job n) (owners : Fin n → Owner) : Prop where
  split : Recall.split setup.route job.request.operation = .ok job.parts
  nodup : job.participants.Nodup
  suffix : job.todo <:+ job.parts
  awaits : job.awaiting = true → job.todo ≠ []
  stands : ∀ o ∈ job.participants, Stands job.id (base o) (prepared o) job.phase (job.pending o)
    (owners o).reservation (owners o).shard
  apart : ∀ o ∉ job.participants, (owners o).reservation = none ∧ (owners o).shard = base o
  computed : job.Computed setup base seeds prepared

namespace Coordinator

def outbound (coordinator : Coordinator n) (o : Fin n) : List Control :=
  match coordinator with
  | .working job => job.outbound o
  | _ => []

def Engages (setup : Setup n) (base : Shards n) (owners : Fin n → Owner) :
    Coordinator n → Prop
  | .working job => ∃ seeds prepared, Engaged setup base seeds prepared job owners
  | _ => ∀ o, (owners o).reservation = none ∧ (owners o).shard = base o

end Coordinator

structure Protocol (setup : Setup n) (base : Shards n) (s : System n) : Prop where
  wellFormed : ∀ o, (s.owners o).shard.WellFormed
  described : ∀ o id prepared, (s.owners o).reservation = some ⟨id, some prepared⟩ →
    (s.owners o).shard.Describes prepared
  resting : ∀ o, (s.owners o).reservation ≠ none →
    (s.owners o).position = .top ∨ (s.owners o).position = .select
  messages : ∀ o, (s.owners o).controls.filter Control.coordinated = s.coordinator.outbound o
  engages : s.coordinator.Engages setup base s.owners

/-! ### Frames -/

theorem Engaged.congr {seeds : Fin n → HashSeed} {prepared : Fin n → Prepared} {job : Job n}
    {owners owners' : Fin n → Owner} (h : Engaged setup base seeds prepared job owners)
    (hreservation : ∀ o, (owners' o).reservation = (owners o).reservation)
    (hshard : ∀ o, (owners' o).shard = (owners o).shard) :
    Engaged setup base seeds prepared job owners' where
  split := h.split
  nodup := h.nodup
  suffix := h.suffix
  awaits := h.awaits
  stands o ho := by
    rw [hreservation, hshard]
    exact h.stands o ho
  apart o ho := by
    rw [hreservation, hshard]
    exact h.apart o ho
  computed := h.computed

theorem Coordinator.Engages.congr {coordinator : Coordinator n} {owners owners' : Fin n → Owner}
    (h : coordinator.Engages setup base owners)
    (hreservation : ∀ o, (owners' o).reservation = (owners o).reservation)
    (hshard : ∀ o, (owners' o).shard = (owners o).shard) :
    coordinator.Engages setup base owners' := by
  cases coordinator with
  | working job =>
      obtain ⟨seeds, prepared, hengaged⟩ := h
      exact ⟨seeds, prepared, hengaged.congr hreservation hshard⟩
  | idle | finished =>
      intro o
      rw [hreservation, hshard]
      exact h o

/-- An owner without a reservation has its abstract shard. -/
theorem Coordinator.Engages.free {coordinator : Coordinator n} {owners : Fin n → Owner}
    (h : coordinator.Engages setup base owners) {o : Fin n}
    (hfree : (owners o).reservation = none) : (owners o).shard = base o := by
  cases coordinator with
  | working job =>
      obtain ⟨seeds, prepared, hengaged⟩ := h
      by_cases ho : o ∈ job.participants
      · have hstands := hengaged.stands o ho
        rw [hfree] at hstands
        exact hstands.shard_of_free
      · exact (hengaged.apart o ho).2
  | idle | finished => exact (h o).2

namespace Protocol

theorem quiet (hquiet : Quiet s s') (h : Protocol setup base s) : Protocol setup base s' where
  wellFormed o := by
    rw [hquiet.shard]
    exact h.wellFormed o
  described o := by
    rw [hquiet.reservation, hquiet.shard]
    exact h.described o
  resting o := by
    rw [hquiet.reservation, hquiet.position]
    exact h.resting o
  messages o := by
    rw [hquiet.controls, hquiet.coordinator]
    exact h.messages o
  engages := by
    rw [hquiet.coordinator]
    exact h.engages.congr hquiet.reservation hquiet.shard

/-- An owner goes on in its loop with the reservation and the shard it has. -/
theorem setOwner {o : Fin n} {owner : Owner} (h : Protocol setup base s)
    (hreservation : owner.reservation = (s.owners o).reservation)
    (hshard : owner.shard = (s.owners o).shard)
    (hposition : (s.owners o).reservation ≠ none →
      owner.position = .top ∨ owner.position = .select)
    (hcontrols : owner.controls.filter Control.coordinated =
      (s.owners o).controls.filter Control.coordinated) :
    Protocol setup base (s.setOwner o owner) := by
  have hreservations := System.forall_setOwner (s := s)
    (P := fun p owner => owner.reservation = (s.owners p).reservation) hreservation fun _ => rfl
  have hshards := System.forall_setOwner (s := s)
    (P := fun p owner => owner.shard = (s.owners p).shard) hshard fun _ => rfl
  have hresting := System.forall_setOwner (s := s) (o := o) (P := fun _ owner =>
    owner.reservation ≠ none → owner.position = .top ∨ owner.position = .select)
    (by rwa [hreservation]) h.resting
  have hmessages := System.forall_setOwner (s := s) (P := fun p owner =>
    owner.controls.filter Control.coordinated = s.coordinator.outbound p)
    (hcontrols.trans (h.messages o)) h.messages
  refine ⟨fun p => ?_, fun p => ?_, hresting, hmessages, h.engages.congr hreservations hshards⟩
  · rw [hshards]
    exact h.wellFormed p
  · rw [hreservations, hshards]
    exact h.described p

end Protocol

/-! ### Preparing and applying part by part -/

theorem prepareParts_congr {base' : Shards n} {seeds : Fin n → HashSeed} {nowMs : I64}
    {parts : List (Part n)} (hagree : ∀ part ∈ parts, base' part.owner = base part.owner) :
    prepareParts base' seeds nowMs parts = prepareParts base seeds nowMs parts := by
  induction parts with
  | nil => rfl
  | cons part parts ih =>
      rw [prepareParts, prepareParts, hagree part List.mem_cons_self,
        ih fun later hlater => hagree later (List.mem_cons_of_mem _ hlater)]

/-- The parts prepared so far come out in front of what preparing the others comes to. -/
theorem prepareParts_append {seeds : Fin n → HashSeed} {nowMs : I64} {ready : Fin n → Prepared}
    {done : List (Part n)} (todo : List (Part n))
    (hdone : ∀ part ∈ done, (base part.owner).prepare (seeds part.owner) part.operation nowMs =
      .ok (.ok (ready part.owner))) :
    prepareParts base seeds nowMs (done ++ todo) =
      (prepareParts base seeds nowMs todo).map fun result =>
        result.map fun rest => done.map (fun part => ready part.owner) ++ rest := by
  induction done with
  | nil =>
      rw [List.nil_append]
      cases prepareParts base seeds nowMs todo with
      | error fatal => rfl
      | ok result => cases result <;> rfl
  | cons part done ih =>
      rw [List.cons_append, prepareParts, hdone part List.mem_cons_self]
      simp only [abortOnPanic, bind, Except.bind]
      rw [ih fun later hlater => hdone later (List.mem_cons_of_mem _ hlater)]
      cases prepareParts base seeds nowMs todo with
      | error fatal => rfl
      | ok result => cases result <;> rfl

/-- Applying the parts one at a time gives the shards that have each part applied. -/
theorem applyParts_eq {parts : List (Part n)} {ready : Fin n → Prepared} {shards : Shards n}
    (hnodup : (parts.map Part.owner).Nodup)
    (happlied : ∀ part ∈ parts, ∃ response,
      (base part.owner).apply (ready part.owner) = .ok (shards part.owner, response))
    (hkept : ∀ o ∉ parts.map Part.owner, shards o = base o) :
    applyParts base (parts.zip (parts.map fun part => ready part.owner)) = .ok shards := by
  induction parts generalizing base with
  | nil =>
      have hshards : shards = base := funext fun o => hkept o (by simp)
      rw [hshards]
      rfl
  | cons part parts ih =>
      obtain ⟨response, happly⟩ := happlied part List.mem_cons_self
      rw [List.map_cons, List.nodup_cons] at hnodup
      simp only [List.map_cons, List.zip_cons_cons, applyParts, happly, abortOnPanic, bind,
        Except.bind]
      refine ih hnodup.2 (fun later hlater => ?_) fun o ho => ?_
      · have hother : later.owner ≠ part.owner := fun heq =>
          hnodup.1 (heq ▸ List.mem_map_of_mem hlater)
        rw [Function.update_of_ne hother]
        exact happlied later (List.mem_cons_of_mem _ hlater)
      · by_cases heq : o = part.owner
        · subst heq
          simp
        · rw [Function.update_of_ne heq]
          exact hkept o (by simp [heq, ho])

/-! ### Effects on one owner -/

theorem Job.Computed.congr {base' : Shards n} {seeds : Fin n → HashSeed}
    {prepared : Fin n → Prepared} {job : Job n} (h : job.Computed setup base seeds prepared)
    (hsuffix : ∀ o ∈ job.participants, base' o = base o) :
    job.Computed setup base' seeds prepared := by
  have hparts : ∀ part ∈ job.parts, base' part.owner = base part.owner := fun part hpart =>
    hsuffix _ (List.mem_map_of_mem hpart)
  unfold Computed at h ⊢
  split at h
  · obtain ⟨done, hsplit, hresults, hdone⟩ := h
    refine ⟨done, hsplit, hresults, fun part hpart => ?_⟩
    rw [hparts part (by rw [hsplit]; exact List.mem_append_left _ hpart)]
    exact hdone part hpart
  · rw [prepareParts_congr hparts]
    exact h
  · refine ⟨fun part hpart => ?_, h.2⟩
    rw [hparts part hpart]
    exact h.1 part hpart
  · trivial
  · trivial

/-- An owner that is not reserved may change its shard. -/
theorem Engaged.perform {seeds : Fin n → HashSeed} {prepared : Fin n → Prepared} {job : Job n}
    {owners : Fin n → Owner} (h : Engaged setup base seeds prepared job owners) {o : Fin n}
    {owner : Owner} (hfree : (owners o).reservation = none) (hkept : owner.reservation = none) :
    Engaged setup (Function.update base o owner.shard) seeds prepared job
      (Function.update owners o owner) where
  split := h.split
  nodup := h.nodup
  suffix := h.suffix
  awaits := h.awaits
  stands p hp := by
    have hstands := h.stands p hp
    by_cases heq : p = o
    · subst heq
      rw [hfree] at hstands
      simpa only [Function.update_self, hkept] using hstands.perform owner.shard
    · simpa only [Function.update_of_ne heq] using hstands
  apart p hp := by
    by_cases heq : p = o
    · subst heq
      simpa using hkept
    · simpa [heq] using h.apart p hp
  computed := by
    by_cases ho : o ∈ job.participants
    · have hstands := h.stands o ho
      rw [hfree] at hstands
      unfold Job.Computed
      rcases hstands.phase_of_free with hphase | ⟨reply, hphase⟩ <;> simp [hphase]
    · refine h.computed.congr fun p hp => Function.update_of_ne ?_ _ _
      rintro rfl
      exact ho hp

theorem Coordinator.Engages.perform {coordinator : Coordinator n} {owners : Fin n → Owner}
    (h : coordinator.Engages setup base owners) {o : Fin n} {owner : Owner}
    (hfree : (owners o).reservation = none) (hkept : owner.reservation = none) :
    coordinator.Engages setup (Function.update base o owner.shard)
      (Function.update owners o owner) := by
  cases coordinator with
  | working job =>
      obtain ⟨seeds, prepared, hengaged⟩ := h
      exact ⟨seeds, prepared, hengaged.perform hfree hkept⟩
  | idle | finished =>
      intro p
      by_cases heq : p = o
      · subst heq
        simpa using hkept
      · simpa [heq] using h p

theorem Protocol.perform {o : Fin n} {owner : Owner} (h : Protocol setup base s)
    (hfree : (s.owners o).reservation = none) (hkept : owner.reservation = none)
    (hwf : owner.shard.WellFormed) (hcontrols : owner.controls = (s.owners o).controls) :
    Protocol setup (Function.update base o owner.shard) (s.setOwner o owner) where
  wellFormed := System.forall_setOwner (P := fun _ owner => owner.shard.WellFormed) hwf h.wellFormed
  described := System.forall_setOwner (P := fun _ owner => ∀ id prepared,
    owner.reservation = some ⟨id, some prepared⟩ → owner.shard.Describes prepared)
    (by simp [hkept]) h.described
  resting := System.forall_setOwner (P := fun _ owner => owner.reservation ≠ none →
    owner.position = .top ∨ owner.position = .select) (by simp [hkept]) h.resting
  messages := System.forall_setOwner (P := fun p owner =>
    owner.controls.filter Control.coordinated = s.coordinator.outbound p)
    (by rw [hcontrols]; exact h.messages o) h.messages
  engages := h.engages.perform hfree hkept

/-! ### Control messages -/

theorem Coordinator.outbound_eq_cons {coordinator : Coordinator n} {o : Fin n} {message : Control}
    {rest : List Control} (houtbound : coordinator.outbound o = message :: rest) :
    ∃ job part todo, coordinator = .working job ∧ job.todo = part :: todo ∧
      job.awaiting = true ∧ part.owner = o ∧ message = job.message part ∧ rest = [] := by
  cases coordinator with
  | idle | finished => cases houtbound
  | working job =>
      simp only [outbound, Job.outbound] at houtbound
      split at houtbound
      · next part todo htodo =>
          split at houtbound
          · next hawaits =>
              cases houtbound
              exact ⟨job, part, todo, rfl, htodo, hawaits.1, hawaits.2, rfl, rfl⟩
          · cases houtbound
      · cases houtbound

theorem Job.outbound_of_ready {job : Job n} (hready : job.awaiting = false) (o : Fin n) :
    job.outbound o = [] := by
  unfold outbound
  split <;> simp [hready]

theorem Job.receive_awaiting (job : Job n) (completion : Completion) :
    (job.receive completion).awaiting = false := by
  unfold receive
  split <;> rfl

theorem Engaged.mem_participants {seeds : Fin n → HashSeed} {prepared : Fin n → Prepared}
    {job : Job n} {owners : Fin n → Owner} (h : Engaged setup base seeds prepared job owners)
    {part : Part n} (hpart : part ∈ job.todo) : part.owner ∈ job.participants :=
  List.mem_map_of_mem (h.suffix.subset hpart)

/-- The current loop is done with its first part. -/
theorem Engaged.pop {seeds seeds' : Fin n → HashSeed} {prepared prepared' : Fin n → Prepared}
    {job : Job n} {owners : Fin n → Owner} (h : Engaged setup base seeds prepared job owners)
    {part : Part n} {rest : List (Part n)} (htodo : job.todo = part :: rest) {phase : Phase}
    {owner : Owner} (hothers : ∀ p ≠ part.owner, prepared' p = prepared p)
    (hphase : ∀ p pending reservation shard,
      Stands job.id (base p) (prepared p) job.phase pending reservation shard →
      Stands job.id (base p) (prepared p) phase pending reservation shard)
    (hstands : Stands job.id (base part.owner) (prepared' part.owner) phase false
      owner.reservation owner.shard)
    (hcomputed : Job.Computed setup base seeds' prepared'
      { job with phase, todo := rest, awaiting := false }) :
    Engaged setup base seeds' prepared' { job with phase, todo := rest, awaiting := false }
      (Function.update owners part.owner owner) := by
  have hsuffix : part :: rest <:+ job.parts := htodo ▸ h.suffix
  have hfresh : part.owner ∉ rest.map Part.owner := by
    have hnodup : ((part :: rest).map Part.owner).Nodup :=
      h.nodup.sublist (hsuffix.sublist.map _)
    exact (List.nodup_cons.mp hnodup).1
  refine ⟨h.split, h.nodup, (List.suffix_cons _ _).trans hsuffix, nofun, fun p hp => ?_,
    fun p hp => ?_, hcomputed⟩
  · by_cases heq : p = part.owner
    · subst heq
      simpa [Job.pending, hfresh] using hstands
    · have hbefore := hphase p _ _ _ (h.stands p hp)
      rw [Function.update_of_ne heq, hothers p heq]
      simpa [Job.pending, htodo, heq] using hbefore
  · have heq : p ≠ part.owner := by
      rintro rfl
      exact hp (h.mem_participants (by simp [htodo]))
    rw [Function.update_of_ne heq]
    exact h.apart p hp

theorem Job.receive_done (job : Job n) :
    job.receive .done = { job with todo := job.todo.tail, awaiting := false } := by
  cases hphase : job.phase <;> simp [receive, hphase]

theorem Job.receive_ok {job : Job n} {nowMs : I64} {results : List Reply}
    (hphase : job.phase = .prepare nowMs (.ok results)) (reply : Reply) :
    job.receive (.prepared (.ok reply)) =
      { job with
        phase := .prepare nowMs (.ok (results ++ [reply]))
        todo := job.todo.tail
        awaiting := false } := by
  simp [receive, hphase, Except.map]

theorem Job.receive_error {job : Job n} {nowMs : I64} {results : Except EngineError (List Reply)}
    (hphase : job.phase = .prepare nowMs results) (failure : EngineError) :
    job.receive (.prepared (.error failure)) =
      { job with phase := .prepare nowMs (.error failure), todo := [], awaiting := false } := by
  simp [receive, hphase]

theorem Engaged.done_ne {seeds : Fin n → HashSeed} {prepared : Fin n → Prepared} {job : Job n}
    {owners : Fin n → Owner} (h : Engaged setup base seeds prepared job owners)
    {part : Part n} {rest done : List (Part n)} (hparts : job.parts = done ++ job.todo)
    (htodo : job.todo = part :: rest) : ∀ earlier ∈ done, earlier.owner ≠ part.owner := by
  intro earlier hearlier heq
  have hnodup := h.nodup
  rw [Job.participants, hparts, htodo, List.map_append] at hnodup
  exact List.disjoint_of_nodup_append hnodup (List.mem_map_of_mem hearlier) (by simp [heq])

/-- The answers collected so far are those of the parts the phase has reached. -/
theorem Engaged.collected {seeds : Fin n → HashSeed} {prepared : Fin n → Prepared} {job : Job n}
    {owners : Fin n → Owner} (h : Engaged setup base seeds prepared job owners) {nowMs : I64}
    {results : List Reply} (hphase : job.phase = .prepare nowMs (.ok results)) :
    ∃ done, job.parts = done ++ job.todo ∧
      results = done.map (fun part => (prepared part.owner).response) ∧
      ∀ part ∈ done, (base part.owner).prepare (seeds part.owner) part.operation nowMs =
        .ok (.ok (prepared part.owner)) := by
  have hcomputed := h.computed
  unfold Job.Computed at hcomputed
  rwa [hphase] at hcomputed

/-- A participant's preparation joins those made before it. -/
theorem Engaged.prepared {seeds : Fin n → HashSeed} {prepared : Fin n → Prepared} {job : Job n}
    {owners : Fin n → Owner} (h : Engaged setup base seeds prepared job owners)
    {part : Part n} {rest : List (Part n)} (htodo : job.todo = part :: rest) {nowMs : I64}
    {results : List Reply} (hphase : job.phase = .prepare nowMs (.ok results)) {seed : HashSeed}
    {ready : Prepared}
    (hprepare : (base part.owner).prepare seed part.operation nowMs = .ok (.ok ready)) :
    Job.Computed setup base (Function.update seeds part.owner seed)
      (Function.update prepared part.owner ready)
      { job with
        phase := .prepare nowMs (.ok (results ++ [ready.response]))
        todo := rest
        awaiting := false } := by
  obtain ⟨done, hparts, hresults, hdone⟩ := h.collected hphase
  have hother := h.done_ne hparts htodo
  refine ⟨done ++ [part], by simp [hparts, htodo], ?_, fun earlier hearlier => ?_⟩
  · rw [hresults, List.map_append]
    congr 1
    · refine List.map_congr_left fun earlier hearlier => ?_
      rw [Function.update_of_ne (hother earlier hearlier)]
    · simp
  · rcases List.mem_append.mp hearlier with hearlier | hearlier
    · rw [Function.update_of_ne (hother earlier hearlier),
        Function.update_of_ne (hother earlier hearlier)]
      exact hdone earlier hearlier
    · obtain rfl := List.mem_singleton.mp hearlier
      simpa using hprepare

/-- A participant's refusal is what preparing all the parts comes to. -/
theorem Engaged.failed {seeds : Fin n → HashSeed} {prepared : Fin n → Prepared} {job : Job n}
    {owners : Fin n → Owner} (h : Engaged setup base seeds prepared job owners)
    {part : Part n} {rest : List (Part n)} (htodo : job.todo = part :: rest) {nowMs : I64}
    {results : List Reply} (hphase : job.phase = .prepare nowMs (.ok results)) {seed : HashSeed}
    {failure : EngineError}
    (hprepare : (base part.owner).prepare seed part.operation nowMs = .ok (.error failure)) :
    Engaged setup base (Function.update seeds part.owner seed) prepared
      { job with phase := .prepare nowMs (.error failure), todo := [], awaiting := false }
      owners := by
  refine ⟨h.split, h.nodup, List.nil_suffix, nofun, fun p hp => ?_, h.apart, ?_⟩
  · have hstands := h.stands p hp
    rw [hphase] at hstands
    exact hstands.fail failure _
  · refine ⟨rfl, ?_⟩
    obtain ⟨done, hparts, -, hdone⟩ := h.collected hphase
    have hother : ∀ earlier ∈ done, earlier.owner ≠ part.owner := h.done_ne hparts htodo
    have hready : ∀ earlier ∈ done, (base earlier.owner).prepare
        (Function.update seeds part.owner seed earlier.owner) earlier.operation nowMs =
          .ok (.ok (prepared earlier.owner)) := by
      intro earlier hearlier
      rw [Function.update_of_ne (hother earlier hearlier)]
      exact hdone earlier hearlier
    rw [hparts, prepareParts_append job.todo hready, htodo, prepareParts, Function.update_self,
      hprepare]
    rfl

/-- The owner handles the message the coordinator sent it, and the coordinator goes on. -/
theorem Engaged.control {seeds : Fin n → HashSeed} {prepared : Fin n → Prepared} {job : Job n}
    {owners : Fin n → Owner} (h : Engaged setup base seeds prepared job owners)
    {part : Part n} {rest : List (Part n)} (htodo : job.todo = part :: rest)
    {before owner : Owner} (hreservation : before.reservation = (owners part.owner).reservation)
    (hshard : before.shard = (owners part.owner).shard) {seed : HashSeed}
    {completion : Option Completion}
    (hhandle : before.handle seed (job.message part) = .ok (owner, completion)) :
    ∃ answer seeds' prepared', completion = some answer ∧
      Engaged setup base seeds' prepared' (job.receive answer)
        (Function.update owners part.owner owner) := by
  have hpending : job.pending part.owner = true := by simp [Job.pending, htodo]
  have hstands := h.stands part.owner (h.mem_participants (by simp [htodo]))
  rw [hpending, ← hreservation, ← hshard] at hstands
  unfold Job.message at hhandle
  cases hphase : job.phase with
  | reserve =>
      simp only [hphase] at hhandle hstands
      obtain ⟨hfree, rfl, rfl⟩ := Owner.handle_reserve hhandle
      rw [hfree] at hstands
      refine ⟨.done, seeds, prepared, rfl, ?_⟩
      rw [Job.receive_done, htodo]
      refine h.pop htodo (fun _ _ => rfl) (fun _ _ _ _ h => h) ?_ (by simp [Job.Computed, hphase])
      rw [hphase, hstands.shard_of_free]
      exact .reserved
  | prepare nowMs results =>
      simp only [hphase] at hhandle hstands
      obtain ⟨hreserved, hcases⟩ := Owner.handle_prepare hhandle
      cases results with
      | error failure =>
          have hcomputed := h.computed
          unfold Job.Computed at hcomputed
          rw [hphase] at hcomputed
          rw [htodo] at hcomputed
          cases hcomputed.1
      | ok results =>
          rw [hstands.shard_of_pending] at hcases
          obtain ⟨failure, hprepare, rfl, rfl⟩ | ⟨ready, hprepare, rfl, rfl⟩ := hcases
          · refine ⟨_, Function.update seeds part.owner seed, prepared, rfl, ?_⟩
            rw [Job.receive_error hphase]
            refine (h.failed htodo hphase hprepare).congr (fun p => ?_) fun p => ?_
            · by_cases heq : p = part.owner
              · subst heq
                simpa using hreservation
              · simp [heq]
            · by_cases heq : p = part.owner
              · subst heq
                simpa using hshard
              · simp [heq]
          · refine ⟨_, Function.update seeds part.owner seed,
              Function.update prepared part.owner ready, rfl, ?_⟩
            rw [Job.receive_ok hphase, htodo]
            refine h.pop htodo (fun p hp => Function.update_of_ne hp _ _) ?_ ?_
              (h.prepared htodo hphase hprepare)
            · intro p pending reservation shard hbefore
              rw [hphase] at hbefore
              exact hbefore.collect
            · rw [Function.update_self]
              exact .prepared
  | apply nowMs reply =>
      simp only [hphase] at hhandle hstands
      obtain ⟨ready, shard, response, hreserved, happly, rfl, rfl⟩ := Owner.handle_apply hhandle
      refine ⟨.done, seeds, prepared, rfl, ?_⟩
      rw [Job.receive_done, htodo]
      rw [hreserved] at hstands
      refine h.pop htodo (fun _ _ => rfl) (fun _ _ _ _ h => h) ?_ ?_
      · rw [hphase]
        exact hstands.apply happly
      · have hcomputed := h.computed
        unfold Job.Computed at hcomputed ⊢
        simpa only [hphase] using hcomputed
  | release reply =>
      simp only [hphase] at hhandle hstands
      obtain ⟨⟨kept, hreserved⟩, rfl, rfl⟩ := Owner.handle_release hhandle
      refine ⟨.done, seeds, prepared, rfl, ?_⟩
      rw [Job.receive_done, htodo]
      refine h.pop htodo (fun _ _ => rfl) (fun _ _ _ _ h => h) ?_ (by simp [Job.Computed, hphase])
      rw [hphase, hstands.shard_of_pending]
      exact .released

theorem Owner.handle_wellFormed {owner owner' : Owner} {seed : HashSeed} {message : Control}
    {completion : Option Completion} (hwf : owner.shard.WellFormed)
    (hdescribed : ∀ id prepared, owner.reservation = some ⟨id, some prepared⟩ →
      owner.shard.Describes prepared)
    (hhandle : owner.handle seed message = .ok (owner', completion)) :
    owner'.shard.WellFormed ∧ ∀ id prepared, owner'.reservation = some ⟨id, some prepared⟩ →
      owner'.shard.Describes prepared := by
  cases message with
  | reserve id =>
      obtain ⟨-, rfl, -⟩ := handle_reserve hhandle
      exact ⟨hwf, by simp⟩
  | prepare id operation nowMs =>
      obtain ⟨-, ⟨failure, -, rfl, -⟩ | ⟨ready, hprepare, rfl, -⟩⟩ := handle_prepare hhandle
      · exact ⟨hwf, hdescribed⟩
      · refine ⟨hwf, fun id' prepared hreserved => ?_⟩
        obtain ⟨-, rfl⟩ : id = id' ∧ ready = prepared := by simpa using hreserved
        exact describes_of_prepare hwf hprepare
  | apply id =>
      obtain ⟨ready, shard, reply, hreserved, happly, rfl, -⟩ := handle_apply hhandle
      have hinstalled := apply_installed hwf (hdescribed id ready hreserved) happly
      exact ⟨hinstalled.wellFormed, by simp⟩
  | release id =>
      obtain ⟨-, rfl, -⟩ := handle_release hhandle
      exact ⟨hwf, by simp⟩
  | stats =>
      obtain ⟨rfl, -⟩ := handle_stats hhandle
      exact ⟨hwf, hdescribed⟩
  | stop =>
      obtain ⟨-, rfl, -⟩ := handle_stop hhandle
      exact ⟨hwf, hdescribed⟩

theorem Owner.handle_uncoordinated {owner owner' : Owner} {seed : HashSeed} {message : Control}
    {completion : Option Completion} (hmessage : message.coordinated = false)
    (hhandle : owner.handle seed message = .ok (owner', completion)) :
    owner'.reservation = owner.reservation ∧ owner'.shard = owner.shard ∧ completion = none := by
  cases message with
  | reserve | prepare | apply | release => cases hmessage
  | stats =>
      obtain ⟨rfl, rfl⟩ := handle_stats hhandle
      exact ⟨rfl, rfl, rfl⟩
  | stop =>
      obtain ⟨-, rfl, rfl⟩ := handle_stop hhandle
      exact ⟨rfl, rfl, rfl⟩

/-- The coordinator waits for an owner exactly when the owner has its message. -/
theorem Protocol.message_spec (h : Protocol setup base s) {o : Fin n} {message : Control}
    {rest : List Control} (hcontrols : (s.owners o).controls = message :: rest)
    (hmessage : message.coordinated = true) :
    ∃ job part todo, s.coordinator = .working job ∧ job.todo = part :: todo ∧
      job.awaiting = true ∧ part.owner = o ∧ message = job.message part ∧
      rest.filter Control.coordinated = [] := by
  have houtbound := h.messages o
  rw [hcontrols, List.filter_cons_of_pos hmessage] at houtbound
  exact Coordinator.outbound_eq_cons houtbound.symm

theorem Protocol.control (h : Protocol setup base s) {o : Fin n} {message : Control}
    {rest : List Control} {seed : HashSeed} {owner : Owner} {completion : Option Completion}
    (hcontrols : (s.owners o).controls = message :: rest)
    (hhandle : { s.owners o with controls := rest, position := .top }.handle seed message =
      .ok (owner, completion)) :
    Protocol setup base
      { s.setOwner o owner with coordinator := s.coordinator.complete o message completion } := by
  obtain ⟨-, -, hkept, hposition, -⟩ := Owner.handle_frame hhandle
  cases hmessage : message.coordinated with
  | false =>
      obtain ⟨hreservation, hshard, rfl⟩ := Owner.handle_uncoordinated hmessage hhandle
      refine h.setOwner hreservation hshard (fun _ => .inl hposition) ?_
      simp [hkept, hcontrols, hmessage]
  | true =>
      obtain ⟨job, part, todo, hworking, htodo, hawaiting, rfl, rfl, hrest⟩ :=
        h.message_spec hcontrols hmessage
      have hengages := h.engages
      rw [hworking] at hengages
      obtain ⟨seeds, prepared, hengaged⟩ := hengages
      obtain ⟨answer, seeds', prepared', rfl, hnext⟩ :=
        hengaged.control htodo (by rfl) (by rfl) hhandle
      have hcomplete : s.coordinator.complete part.owner (job.message part) (some answer) =
          .working (job.receive answer) := by
        simp [Coordinator.complete, hworking, Job.awaits, hawaiting, htodo]
      have hsafe := Owner.handle_wellFormed (by exact h.wellFormed part.owner)
        (by exact h.described part.owner) hhandle
      rw [hcomplete]
      refine ⟨fun p => ?_, fun p => ?_, fun p => ?_, fun p => ?_, seeds', prepared', hnext⟩
      · by_cases hp : p = part.owner
        · subst hp
          simpa using hsafe.1
        · simpa [hp] using h.wellFormed p
      · by_cases hp : p = part.owner
        · subst hp
          simpa using hsafe.2
        · simpa [hp] using h.described p
      · by_cases hp : p = part.owner
        · subst hp
          simp [hposition]
        · simpa [hp] using h.resting p
      · refine Eq.trans ?_ (Job.outbound_of_ready (job.receive_awaiting answer) p).symm
        by_cases hp : p = part.owner
        · subst hp
          simpa [hkept] using hrest
        · have hmessages := h.messages p
          rw [hworking] at hmessages
          simpa [hp, Coordinator.outbound, Job.outbound, htodo, Ne.symm hp] using hmessages

/-! ### The coordinator -/

/-- The next loop starts over all the parts. -/
theorem Engaged.enter {base' : Shards n} {seeds : Fin n → HashSeed} {prepared : Fin n → Prepared}
    {job : Job n} {owners : Fin n → Owner} (h : Engaged setup base seeds prepared job owners)
    (htodo : job.todo = []) {phase : Phase}
    (hstands : ∀ o ∈ job.participants, Stands job.id (base o) (prepared o) job.phase false
      (owners o).reservation (owners o).shard → Stands job.id (base' o) (prepared o) phase true
      (owners o).reservation (owners o).shard)
    (hapart : ∀ o ∉ job.participants, (owners o).shard = base' o)
    (hcomputed : (job.enter phase).Computed setup base' seeds prepared) :
    Engaged setup base' seeds prepared (job.enter phase) owners ∧
      (job.enter phase).awaiting = false := by
  have hready : job.awaiting = false := by
    cases hawaiting : job.awaiting with
    | false => rfl
    | true => exact absurd htodo (h.awaits hawaiting)
  refine ⟨⟨h.split, h.nodup, List.suffix_refl _, fun hawaiting => ?_, fun o ho => ?_,
    fun o ho => ⟨(h.apart o ho).1, hapart o ho⟩, hcomputed⟩, hready⟩
  · rw [Job.enter, hready] at hawaiting
    cases hawaiting
  · have hbefore := h.stands o ho
    rw [show job.pending o = false by simp [Job.pending, htodo]] at hbefore
    have hpending : (job.enter phase).pending o = true := decide_eq_true ho
    rw [hpending]
    exact hstands o ho hbefore

theorem Protocol.setJob {base' : Shards n} {job : Job n} (h : Protocol setup base s)
    (hquiet : ∀ o, s.coordinator.outbound o = []) (hready : job.awaiting = false)
    {seeds : Fin n → HashSeed} {prepared : Fin n → Prepared}
    (hengaged : Engaged setup base' seeds prepared job s.owners) :
    Protocol setup base' { s with coordinator := .working job } where
  wellFormed := h.wellFormed
  described := h.described
  resting := h.resting
  messages o := by
    refine (h.messages o).trans ((hquiet o).trans ?_)
    exact (Job.outbound_of_ready hready o).symm
  engages := ⟨seeds, prepared, hengaged⟩

theorem Coordinator.outbound_of_todo {coordinator : Coordinator n} {job : Job n}
    (hworking : coordinator = .working job) (htodo : job.todo = []) (o : Fin n) :
    coordinator.outbound o = [] := by
  simp [outbound, hworking, Job.outbound, htodo]

theorem executeSharded_cross {seeds : Fin n → HashSeed} {operation : Operation} {nowMs : I64}
    (hplace : destination setup.route operation = .cross) :
    executeSharded setup.route setup.maxReplyBytes base seeds operation nowMs =
      executeCross setup.route setup.maxReplyBytes base seeds operation nowMs := by
  rw [executeSharded, hplace]

/-- All the parts are ready. -/
theorem Engaged.ready {seeds : Fin n → HashSeed} {prepared : Fin n → Prepared} {job : Job n}
    {owners : Fin n → Owner} (h : Engaged setup base seeds prepared job owners) {nowMs : I64}
    {results : List Reply} (htodo : job.todo = [])
    (hphase : job.phase = .prepare nowMs (.ok results)) :
    results = job.parts.map (fun part => (prepared part.owner).response) ∧
      ∀ part ∈ job.parts, (base part.owner).prepare (seeds part.owner) part.operation nowMs =
        .ok (.ok (prepared part.owner)) := by
  obtain ⟨done, hparts, hresults, hdone⟩ := h.collected hphase
  rw [htodo, List.append_nil] at hparts
  rw [hparts]
  exact ⟨hresults, hdone⟩

theorem prepareParts_ready {seeds : Fin n → HashSeed} {nowMs : I64} {ready : Fin n → Prepared}
    {parts : List (Part n)}
    (hready : ∀ part ∈ parts, (base part.owner).prepare (seeds part.owner) part.operation nowMs =
      .ok (.ok (ready part.owner))) :
    prepareParts base seeds nowMs parts = .ok (.ok (parts.map fun part => ready part.owner)) := by
  have happend := prepareParts_append [] hready
  simpa [prepareParts, Except.map] using happend

/-- The command is given up: no shard changes. -/
theorem Protocol.abort {trace : List (Event n)} (hqueues : Queues setup trace s)
    (h : Protocol setup base s) {job : Job n} {nowMs : I64}
    {results : Except EngineError (List Reply)} {reply : Reply}
    (hworking : s.coordinator = .working job) (htodo : job.todo = [])
    (hphase : job.phase = .prepare nowMs results)
    (hexecute : ∀ seeds prepared, Engaged setup base seeds prepared job s.owners →
      executeCross setup.route setup.maxReplyBytes base seeds job.request.operation nowMs =
        .ok (base, reply)) :
    ∃ base', Protocol setup base' { s with coordinator := .working (job.enter (.release reply)) } ∧
      Runs (Performs setup) base [commandEffect job.request nowMs reply] base' := by
  have hengages := h.engages
  rw [hworking] at hengages
  obtain ⟨seeds, prepared, hengaged⟩ := hengages
  have hstands : ∀ o ∈ job.participants, Stands job.id (base o) (prepared o) job.phase false
      (s.owners o).reservation (s.owners o).shard → Stands job.id (base o) (prepared o)
        (.release reply) true (s.owners o).reservation (s.owners o).shard := by
    intro o ho hstands
    rw [hphase] at hstands
    exact hstands.abort reply
  obtain ⟨hnext, hready⟩ := hengaged.enter htodo hstands
    (fun o ho => (hengaged.apart o ho).2) trivial
  refine ⟨base, h.setJob (Coordinator.outbound_of_todo hworking htodo) hready hnext, ?_⟩
  refine .single (@Performs.command n setup base job.request nowMs seeds _ reply ?_)
  rw [executeSharded_cross (hqueues.destination_of_working hworking)]
  exact hexecute seeds prepared hengaged

/-- Between two jobs no owner is reserved, so the next one can begin. -/
theorem Protocol.coordinate {request : Request} {parts : List (Part n)} (h : Protocol setup base s)
    (hidle : s.coordinator = .idle) (hsplit : split setup.route request.operation = .ok parts) :
    Protocol setup base
      { s with coordinator := .working (.start request (s.lastId + 1) parts) } := by
  have hengages := h.engages
  rw [hidle] at hengages
  have hengaged : Engaged setup base (fun _ => .insertionOrder) (fun _ => ⟨0, ∅, 0, .ok⟩)
      (.start request (s.lastId + 1) parts) s.owners := by
    refine ⟨hsplit, (split_owners hsplit).1, List.suffix_refl _, nofun, fun o ho => ?_,
      fun o _ => hengages o, trivial⟩
    rw [(hengages o).1, (hengages o).2]
    have hpending : (Job.start request (s.lastId + 1) parts).pending o = true := decide_eq_true ho
    rw [hpending]
    exact .unreserved
  exact h.setJob (by simp [hidle, Coordinator.outbound]) rfl hengaged

/-- A message is sent to the owner whose turn it is; nothing but its queue changes. -/
theorem Protocol.instruct {job : Job n} {part : Part n} {rest : List (Part n)}
    (h : Protocol setup base s) (hworking : s.coordinator = .working job)
    (hready : job.awaiting = false) (htodo : job.todo = part :: rest) :
    Protocol setup base
      { s.setOwner part.owner { s.owners part.owner with
          controls := (s.owners part.owner).controls ++ [job.message part] } with
        coordinator := .working { job with awaiting := true } } := by
  have hengages := h.engages
  rw [hworking] at hengages
  obtain ⟨seeds, prepared, hengaged⟩ := hengages
  have hmessages := h.messages
  simp only [hworking, Coordinator.outbound, Job.outbound_of_ready hready] at hmessages
  have hnext : Engaged setup base seeds prepared { job with awaiting := true } s.owners :=
    ⟨hengaged.split, hengaged.nodup, hengaged.suffix, fun _ => by simp [htodo],
      hengaged.stands, hengaged.apart, hengaged.computed⟩
  refine ⟨System.forall_setOwner (P := fun _ owner => owner.shard.WellFormed)
      (h.wellFormed part.owner) h.wellFormed,
    System.forall_setOwner (P := fun _ owner => ∀ id prepared,
      owner.reservation = some ⟨id, some prepared⟩ → owner.shard.Describes prepared)
      (h.described part.owner) h.described,
    System.forall_setOwner (P := fun _ owner => owner.reservation ≠ none →
      owner.position = .top ∨ owner.position = .select) (h.resting part.owner) h.resting,
    fun p => ?_, seeds, prepared, ?_⟩
  · by_cases hp : p = part.owner
    · subst hp
      have hsent : [job.message part].filter Control.coordinated = [job.message part] := by
        simp [job.message_coordinated part]
      simp only [System.setOwner_owners, Function.update_self, List.filter_append, hmessages,
        List.nil_append, hsent]
      simp [Coordinator.outbound, Job.outbound, htodo, Job.message]
    · simp [hp, Ne.symm hp, hmessages, Coordinator.outbound, Job.outbound, htodo]
  · exact hnext.congr
      (System.forall_setOwner (P := fun p owner => owner.reservation = (s.owners p).reservation)
        rfl fun _ => rfl)
      (System.forall_setOwner (P := fun p owner => owner.shard = (s.owners p).shard) rfl
        fun _ => rfl)

/-- Once every participant has applied its part, the command has happened as a whole. -/
theorem Protocol.install {job : Job n} {nowMs : I64} {reply : Reply} (h : Protocol setup base s)
    (hdestination : destination setup.route job.request.operation = .cross)
    (hworking : s.coordinator = .working job) (htodo : job.todo = [])
    (hphase : job.phase = .apply nowMs reply) :
    Protocol setup s.shards { s with coordinator := .working (job.enter (.release reply)) } ∧
      Runs (Performs setup) base [commandEffect job.request nowMs reply] s.shards := by
  have hengages := h.engages
  rw [hworking] at hengages
  obtain ⟨seeds, prepared, hengaged⟩ := hengages
  have hstands : ∀ o ∈ job.participants, Stands job.id (base o) (prepared o) job.phase false
      (s.owners o).reservation (s.owners o).shard → Stands job.id (s.shards o) (prepared o)
        (.release reply) true (s.owners o).reservation (s.owners o).shard := by
    intro o ho hstands
    rw [hphase] at hstands
    exact hstands.install.1
  obtain ⟨hnext, hready⟩ := hengaged.enter htodo hstands (fun o ho => rfl) trivial
  refine ⟨h.setJob (Coordinator.outbound_of_todo hworking htodo) hready hnext, ?_⟩
  refine .single (@Performs.command n setup base job.request nowMs seeds _ reply ?_)
  rw [executeSharded_cross hdestination]
  obtain ⟨hprepares, hcombine, hfits⟩ :
      (∀ part ∈ job.parts, (base part.owner).prepare (seeds part.owner) part.operation nowMs =
        .ok (.ok (prepared part.owner))) ∧
      combine job.request.operation job.parts
        (job.parts.map (Prepared.response ∘ fun part => prepared part.owner)) = .ok reply ∧
      reply.exceeds setup.maxReplyBytes = false := by
    have hcomputed := hengaged.computed
    unfold Job.Computed at hcomputed
    rwa [hphase] at hcomputed
  have happly : applyParts base (job.parts.zip
      (job.parts.map fun part => prepared part.owner)) = .ok s.shards := by
    refine applyParts_eq hengaged.nodup (fun part hpart => ?_) fun o ho => (hengaged.apart o ho).2
    have hstands := hengaged.stands part.owner (List.mem_map_of_mem hpart)
    rw [show job.pending part.owner = false by simp [Job.pending, htodo], hphase] at hstands
    exact hstands.install.2
  rw [executeCross, hengaged.split]
  simp only [bind, Except.bind, prepareParts_ready hprepares, List.map_map, hcombine, hfits, happly]
  rfl

theorem CoordinatorStep.simulates {trace events : List (Event n)}
    (hqueues : Queues setup trace s) (h : Protocol setup base s)
    (hstep : CoordinatorStep setup s events s') :
    ∃ base', Protocol setup base' s' ∧
      Runs (Performs setup) base (executedIn events) base' := by
  have hengages := h.engages
  cases hstep with
  | closeCross hidle hcross =>
      exact ⟨base, ⟨h.wellFormed, h.described, h.resting, h.messages, h.engages⟩, .nil base⟩
  | @coordinate request rest parts hidle hcross hid hsplit =>
      have hnext := h.coordinate hidle hsplit
      exact ⟨base, ⟨hnext.wellFormed, hnext.described, hnext.resting, hnext.messages,
        hnext.engages⟩, .nil base⟩
  | finish hidle hcross hclosed =>
      have hmessages := h.messages
      rw [hidle] at hengages hmessages
      exact ⟨base, ⟨h.wellFormed, h.described, h.resting, hmessages, hengages⟩, .nil base⟩
  | instruct hworking hready htodo halive hroom =>
      exact ⟨base, h.instruct hworking hready htodo, .nil base⟩
  | @reserved job hworking htodo hphase =>
      rw [hworking] at hengages
      obtain ⟨seeds, prepared, hengaged⟩ := hengages
      have hstands : ∀ o ∈ job.participants, Stands job.id (base o) (prepared o) job.phase false
          (s.owners o).reservation (s.owners o).shard → Stands job.id (base o) (prepared o)
            (.prepare s.clock (.ok [])) true (s.owners o).reservation (s.owners o).shard := by
        intro o ho hstands
        rw [hphase] at hstands
        exact hstands.begin s.clock
      obtain ⟨hnext, hready⟩ := hengaged.enter htodo hstands
        (fun o ho => (hengaged.apart o ho).2) ⟨[], rfl, rfl, by simp⟩
      exact ⟨base, h.setJob (Coordinator.outbound_of_todo hworking htodo) hready hnext, .nil base⟩
  | @failed job nowMs failure hworking htodo hphase =>
      refine h.abort hqueues hworking htodo hphase fun seeds prepared hengaged => ?_
      have hcomputed := hengaged.computed
      unfold Job.Computed at hcomputed
      rw [hphase] at hcomputed
      rw [executeCross, hengaged.split]
      simp only [bind, Except.bind, hcomputed.2]
      rfl
  | @oversized job nowMs results reply hworking htodo hphase hcombine hexceeds =>
      refine h.abort hqueues hworking htodo hphase fun seeds prepared hengaged => ?_
      obtain ⟨hresults, hready⟩ := hengaged.ready htodo hphase
      rw [executeCross, hengaged.split]
      simp only [bind, Except.bind, prepareParts_ready hready, List.map_map]
      rw [hresults] at hcombine
      have hcombined : combine job.request.operation job.parts
          (job.parts.map (Prepared.response ∘ fun part => prepared part.owner)) = .ok reply :=
        hcombine
      simp only [hcombined, hexceeds, ↓reduceIte]
      rfl
  | @decided job nowMs results reply hworking htodo hphase hcombine hfits =>
      rw [hworking] at hengages
      obtain ⟨seeds, prepared, hengaged⟩ := hengages
      obtain ⟨hresults, hready⟩ := hengaged.ready htodo hphase
      have hstands : ∀ o ∈ job.participants, Stands job.id (base o) (prepared o) job.phase false
          (s.owners o).reservation (s.owners o).shard → Stands job.id (base o) (prepared o)
            (.apply nowMs reply) true (s.owners o).reservation (s.owners o).shard := by
        intro o ho hstands
        rw [hphase] at hstands
        exact hstands.decide reply
      obtain ⟨hnext, hready⟩ := hengaged.enter htodo hstands
        (fun o ho => (hengaged.apart o ho).2) ⟨hready, hresults ▸ hcombine, hfits⟩
      exact ⟨base, h.setJob (Coordinator.outbound_of_todo hworking htodo) hready hnext, .nil base⟩
  | applied hworking htodo hphase =>
      exact ⟨s.shards, h.install (hqueues.destination_of_working hworking) hworking htodo hphase⟩
  | @released job reply hworking htodo hphase =>
      rw [hworking] at hengages
      obtain ⟨seeds, prepared, hengaged⟩ := hengages
      have hquiet := Coordinator.outbound_of_todo hworking htodo
      have hidle : Protocol setup base { s with coordinator := .idle } := by
        refine ⟨h.wellFormed, h.described, h.resting, fun o => ?_, fun o => ?_⟩
        · exact (h.messages o).trans (hquiet o)
        · by_cases ho : o ∈ job.participants
          · have hstands := hengaged.stands o ho
            rw [show job.pending o = false by simp [Job.pending, htodo], hphase] at hstands
            exact hstands.free_of_released
          · exact hengaged.apart o ho
      exact ⟨base, hidle.quiet (.answer ..), .nil base⟩

/-! ### Every step -/

theorem Protocol.free_of_busy (h : Protocol setup base s) {o : Fin n} {position : Position}
    (hposition : (s.owners o).position = position) (htop : position ≠ .top)
    (hselect : position ≠ .select) : (s.owners o).reservation = none := by
  by_contra hreserved
  rcases h.resting o hreserved with hrest | hrest
  · exact htop (hposition.symm.trans hrest)
  · exact hselect (hposition.symm.trans hrest)

theorem executeLocal_wellFormed {shard after : Shard} {seed : HashSeed} {operation : Operation}
    {nowMs : I64} {reply : Reply} (hwf : shard.WellFormed)
    (hexecute : executeLocal shard seed operation nowMs = .ok (after, reply)) :
    after.WellFormed := by
  rcases executeLocal_ok hwf hexecute with ⟨failure, -, rfl, -⟩ | ⟨effects, -, -, hinstalled⟩
  · exact hwf
  · exact hinstalled.wellFormed

theorem OwnerStep.simulates {trace events : List (Event n)} {o : Fin n} (hordered : Ordered s)
    (hqueues : Queues setup trace s) (h : Protocol setup base s)
    (hstep : OwnerStep setup s o events s') :
    ∃ base', Protocol setup base' s' ∧
      Runs (Performs setup) base (executedIn events) base' := by
  cases hstep with
  | skipTurn htop | emptyTurn htop =>
      exact ⟨base, h.setOwner rfl rfl (fun _ => .inr rfl) rfl, .nil base⟩
  | takeTurn htop hturn hfree | tick hselect hfree | takeData hselect hfree =>
      exact ⟨base, h.setOwner rfl rfl (fun hreserved => absurd hfree hreserved) rfl, .nil base⟩
  | control hselect hrunning hcontrols hhandle =>
      exact ⟨base, h.control hcontrols hhandle, .nil base⟩
  | controlsClosed hselect hrunning hcontrols hdisconnected hfree =>
      exact ⟨base, h.setOwner rfl rfl (fun _ => .inl rfl) rfl, .nil base⟩
  | sampleTick hticking =>
      have hfree := h.free_of_busy hticking nofun nofun
      exact ⟨base, h.setOwner rfl rfl (fun hreserved => absurd hfree hreserved) rfl, .nil base⟩
  | sample hserving =>
      have hfree := h.free_of_busy hserving nofun nofun
      exact ⟨base, h.setOwner rfl rfl (fun hreserved => absurd hfree hreserved) rfl, .nil base⟩
  | @runTick nowMs shard removed hticking hexpire =>
      have hfree := h.free_of_busy hticking nofun nofun
      have hbase := h.engages.free hfree
      have hwf := (expireDue_wellFormed (h.wellFormed o) hexpire).1
      rw [hbase] at hexpire
      have hnext := @Protocol.perform n setup s base o
        { s.owners o with shard, dataTurn := true, position := .top } h hfree hfree hwf rfl
      exact ⟨Function.update base o shard, hnext, .single (.tick hexpire)⟩
  | @execute request nowMs turn seed shard reply hserving hexecute =>
      have hfree := h.free_of_busy hserving nofun nofun
      have hbase := h.engages.free hfree
      have hwf := executeLocal_wellFormed (h.wellFormed o) hexecute
      have hplace : destination setup.route request.operation = .owner o :=
        hqueues.destination_of_held (by simp [System.held, Owner.held, hserving])
      rw [hbase] at hexecute
      have hnext := @Protocol.perform n setup s base o
        { s.owners o with shard, position := if turn then .select else .top } h hfree hfree hwf rfl
      refine ⟨Function.update base o shard, hnext.quiet (.answer ..), ?_⟩
      refine .single (@Performs.command n setup base request nowMs (fun _ => seed) _ reply ?_)
      simp [executeSharded, hplace, hexecute, bind, Except.bind, pure, Except.pure]
  | exit hselect hfree hdata hclosed =>
      have hfinished : s.coordinator = .finished := by
        by_contra hworking
        rcases hclosed with hclosed | hdisconnected
        · exact hordered.not_told hworking o (.inr (.inr (.inl hclosed)))
        · exact hworking hdisconnected.2
      refine ⟨base, h.setOwner rfl rfl (fun hreserved => absurd hfree hreserved) ?_, .nil base⟩
      rw [h.messages o, hfinished]
      rfl

theorem ShutdownStep.protocol (h : Protocol setup base s) (hstep : ShutdownStep setup s s') :
    Protocol setup base s' := by
  cases hstep with
  | beginShutdown | sendStop | joinCoordinator | joinOwners =>
      exact ⟨h.wellFormed, h.described, h.resting, h.messages, h.engages⟩
  | @stopOwner o remaining hstage halive hroom =>
      have hnext : Protocol setup base (s.setOwner o { s.owners o with
          controls := (s.owners o).controls ++ [.stop] }) :=
        h.setOwner rfl rfl (h.resting o) (by simp [Control.coordinated])
      exact ⟨hnext.wellFormed, hnext.described, hnext.resting, hnext.messages, hnext.engages⟩

theorem Step.simulates {trace events : List (Event n)} (hordered : Ordered s)
    (hqueues : Queues setup trace s) (h : Protocol setup base s) (hstep : Step setup s events s') :
    ∃ base', Protocol setup base' s' ∧
      Runs (Performs setup) base (executedIn events) base' := by
  cases hstep with
  | call hstep =>
      refine ⟨base, h.quiet hstep.quiet, ?_⟩
      cases hstep <;> exact .nil base
  | owner hstep => exact hstep.simulates hordered hqueues h
  | coordinator hstep => exact hstep.simulates hqueues h
  | shutdown hstep => exact ⟨base, hstep.protocol h, .nil base⟩
  | advance | abandon =>
      exact ⟨base, ⟨h.wellFormed, h.described, h.resting, h.messages, h.engages⟩, .nil base⟩
  | stats hhandle halive hroom =>
      exact ⟨base, h.setOwner rfl rfl (h.resting _) (by simp [Control.coordinated]), .nil base⟩

theorem Protocol.start {shards : Shards n} (hwf : ∀ o, (shards o).WellFormed) (queueBytes : Nat)
    (clock : I64) : Protocol setup shards (.start shards queueBytes clock) where
  wellFormed := hwf
  described o id prepared h := by cases h
  resting o h := .inl rfl
  messages o := rfl
  engages o := ⟨rfl, rfl⟩

end Recall.Engine
