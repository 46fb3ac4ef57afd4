import Recall.Proof.Engine

/-!
# The order of a shutdown

The coordinator is told to stop before any owner is, and an owner is told only once the coordinator
is gone. So as long as a cross-owner command is in progress every owner serves its control queue.
-/

namespace Recall.Engine

variable {n : Nat} {setup : Setup n} {s s' : System n}

/-- The coordinator's `Stop` was sent. -/
def Stage.stopSent : Stage n → Prop
  | .draining | .stopping _ | .stopped => True
  | _ => False

/-- The coordinator was joined. -/
def Stage.joined : Stage n → Prop
  | .stopping _ | .stopped => True
  | _ => False

/-- `Stop` was sent to this owner. -/
def Stage.told (o : Fin n) : Stage n → Prop
  | .stopping remaining => o ∉ remaining
  | .stopped => True
  | _ => False

/-- The owner stopped serving its control queue, or a message in it says so. -/
def Owner.Told (owner : Owner) : Prop :=
  .stop ∈ owner.controls ∨ owner.stopping = true ∨ owner.dataClosed = true ∨
    owner.position = .exited

structure Ordered (s : System n) : Prop where
  finished : s.coordinator = .finished → s.crossClosed = true ∨ s.stage = .abandoned
  closed : s.crossClosed = true ∨ .stop ∈ s.cross → s.stage.stopSent
  joined : s.stage.joined → s.coordinator = .finished
  told : ∀ o, (s.owners o).Told → s.disconnected ∨ s.stage.told o
  nodup : ∀ remaining, s.stage = .stopping remaining → remaining.Nodup

namespace Ordered

theorem start (shards : Shards n) (queueBytes : Nat) (clock : I64) :
    Ordered (.start shards queueBytes clock) where
  finished h := by cases h
  closed h := by simp [System.start] at h
  joined h := h.elim
  told o h := by simp [System.start, Owner.start, Owner.Told] at h
  nodup remaining h := by cases h

theorem quiet (hquiet : Quiet s s') (h : Ordered s) : Ordered s' where
  finished := by
    rw [hquiet.coordinator, hquiet.crossClosed, hquiet.stage]
    exact h.finished
  closed := by
    rw [hquiet.crossClosed, hquiet.stop, hquiet.stage]
    exact h.closed
  joined := by
    rw [hquiet.coordinator, hquiet.stage]
    exact h.joined
  told o := by
    unfold Owner.Told System.disconnected
    rw [hquiet.controls, hquiet.stopping, hquiet.dataClosed, hquiet.position, hquiet.coordinator,
      hquiet.stage]
    exact h.told o
  nodup := by
    rw [hquiet.stage]
    exact h.nodup

theorem setOwner {o : Fin n} {owner : Owner} (h : Ordered s)
    (htold : owner.Told → s.disconnected ∨ s.stage.told o) : Ordered (s.setOwner o owner) where
  finished := h.finished
  closed := h.closed
  joined := h.joined
  told := System.forall_setOwner
    (P := fun p owner => owner.Told → s.disconnected ∨ s.stage.told p) htold h.told
  nodup := h.nodup

/-- An owner that moves on in its loop is told nothing new. -/
theorem advanceOwner {o : Fin n} {owner : Owner} (h : Ordered s)
    (hcontrols : .stop ∈ owner.controls → .stop ∈ (s.owners o).controls)
    (hstopping : owner.stopping = (s.owners o).stopping)
    (hclosed : owner.dataClosed = (s.owners o).dataClosed) (hposition : owner.position ≠ .exited) :
    Ordered (s.setOwner o owner) := by
  refine h.setOwner fun htold => h.told o ?_
  rcases htold with hstop | hstop | hclose | hexited
  · exact .inl (hcontrols hstop)
  · exact .inr (.inl (hstopping ▸ hstop))
  · exact .inr (.inr (.inl (hclosed ▸ hclose)))
  · exact absurd hexited hposition

theorem setCoordinator {coordinator : Coordinator n} (h : Ordered s)
    (hiff : coordinator = .finished ↔ s.coordinator = .finished) :
    Ordered { s with coordinator } where
  finished hfinished := h.finished (hiff.mp hfinished)
  closed := h.closed
  joined hjoined := hiff.mpr (h.joined hjoined)
  told o htold := (h.told o htold).imp_left fun hdisconnected =>
    ⟨hdisconnected.1, hiff.mpr hdisconnected.2⟩
  nodup := h.nodup

theorem not_told (h : Ordered s) (hworking : s.coordinator ≠ .finished) (o : Fin n) :
    ¬ (s.owners o).Told := by
  intro htold
  rcases h.told o htold with hdisconnected | hstage
  · exact hworking hdisconnected.2
  · refine hworking (h.joined ?_)
    cases hs : s.stage <;> simp_all [Stage.told, Stage.joined]

end Ordered

theorem Coordinator.complete_eq_finished (coordinator : Coordinator n) (o : Fin n)
    (message : Control) (completion : Option Completion) :
    coordinator.complete o message completion = .finished ↔ coordinator = .finished := by
  unfold complete
  split
  · rfl
  · split
    · split <;> simp
    · rfl

theorem Job.message_coordinated (job : Job n) (part : Part n) :
    (job.message part).coordinated = true := by
  unfold message
  split <;> rfl

theorem Job.message_ne_stop (job : Job n) (part : Part n) : job.message part ≠ .stop := by
  intro hstop
  have hcoordinated := job.message_coordinated part
  rw [hstop] at hcoordinated
  cases hcoordinated

theorem OwnerStep.ordered {o : Fin n} {events : List (Event n)} (h : Ordered s)
    (hstep : OwnerStep setup s o events s') : Ordered s' := by
  cases hstep with
  | skipTurn | emptyTurn | takeTurn | tick | sampleTick | runTick | takeData | sample =>
      exact h.advanceOwner id rfl rfl nofun
  | control hselect hrunning hcontrols hhandle =>
      refine Ordered.setCoordinator ?_ (Coordinator.complete_eq_finished ..)
      obtain ⟨-, -, hkept, hposition, hframe⟩ := Owner.handle_frame hhandle
      by_cases hmessage : .stop ∈ (s.owners o).controls
      · exact h.setOwner fun _ => h.told o (.inl hmessage)
      · obtain ⟨hstopping, hclosed⟩ := hframe (by grind)
        exact h.advanceOwner (by grind) hstopping hclosed (by simp [hposition])
  | controlsClosed hselect hrunning hcontrols hdisconnected hfree =>
      exact h.setOwner fun _ => .inl hdisconnected
  | execute hserving hexecute =>
      refine Ordered.quiet (.answer ..) (h.advanceOwner id rfl rfl ?_)
      simp only
      split <;> simp
  | exit hselect hfree hdata hclosed =>
      refine h.setOwner fun _ => ?_
      rcases hclosed with hclosed | hdisconnected
      · exact h.told o (.inr (.inr (.inl hclosed)))
      · exact .inl hdisconnected

theorem CoordinatorStep.ordered {events : List (Event n)} (h : Ordered s)
    (hstep : CoordinatorStep setup s events s') : Ordered s' := by
  cases hstep with
  | closeCross hidle hcross =>
      have hsent : s.stage.stopSent := h.closed (.inr (by simp [hcross]))
      exact ⟨fun _ => .inl rfl, fun _ => hsent, h.joined, h.told, h.nodup⟩
  | coordinate hidle hcross hid hsplit =>
      have hstop := h.closed
      simp only [hcross, List.mem_cons, reduceCtorEq, false_or] at hstop
      refine ⟨nofun, hstop, fun hjoined => ?_, fun o htold => ?_, h.nodup⟩
      · rw [h.joined hjoined] at hidle
        cases hidle
      · exact absurd htold (h.not_told (by simp [hidle]) o)
  | finish hidle hcross hclosed =>
      refine ⟨fun _ => hclosed, h.closed, fun _ => rfl, fun o htold => ?_, h.nodup⟩
      exact absurd htold (h.not_told (by simp [hidle]) o)
  | instruct hworking hready htodo halive hroom =>
      refine Ordered.setCoordinator (h.advanceOwner ?_ rfl rfl halive) (by simp [hworking])
      simp [(Job.message_ne_stop _ _).symm]
  | reserved hworking | failed hworking | oversized hworking | decided hworking
  | applied hworking => exact h.setCoordinator (by simp [hworking])
  | released hworking htodo hphase =>
      exact Ordered.quiet (.answer ..) (h.setCoordinator (by simp [hworking]))

theorem ShutdownStep.ordered (h : Ordered s) (hstep : ShutdownStep setup s s') : Ordered s' := by
  obtain ⟨hfinished, hclosed, hjoined, htold, hnodup⟩ := h
  cases hstep with
  | beginShutdown hstage =>
      simp only [hstage, System.disconnected, Stage.stopSent, Stage.told, reduceCtorEq, or_false,
        false_and, or_self, imp_false] at hfinished hclosed htold
      exact ⟨fun h => .inl (hfinished h), fun h => (hclosed h).elim, nofun,
        fun o h => (htold o h).elim, nofun⟩
  | sendStop hstage hopen hroom =>
      simp only [hstage, System.disconnected, Stage.told, reduceCtorEq, or_false,
        false_and, or_self, imp_false] at hfinished htold
      exact ⟨fun h => .inl (hfinished h), fun _ => trivial, nofun, fun o h => (htold o h).elim,
        nofun⟩
  | joinCoordinator hstage hdone =>
      simp only [hstage, System.disconnected, Stage.told, reduceCtorEq, or_false,
        false_and, or_self, imp_false] at hfinished htold
      refine ⟨fun h => .inl (hfinished h), fun _ => trivial, fun _ => hdone,
        fun o h => (htold o h).elim, fun remaining h => ?_⟩
      cases h
      exact List.nodup_finRange n
  | @stopOwner o remaining hstage halive hroom =>
      simp only [hstage, System.disconnected, Stage.told, reduceCtorEq, or_false,
        false_and, false_or, List.mem_cons, not_or] at hfinished htold
      have hdistinct := List.nodup_cons.mp (hnodup _ hstage)
      refine ⟨fun h => .inl (hfinished h), fun _ => trivial, fun _ => hjoined (by simp [hstage, Stage.joined]),
        fun p h => .inr ?_, fun remaining' h => ?_⟩
      · by_cases hp : p = o
        · subst hp
          exact hdistinct.1
        · exact (htold p (by simpa [hp] using h)).2
      · cases h
        exact hdistinct.2
  | joinOwners hstage hexited =>
      simp only [hstage, reduceCtorEq, or_false] at hfinished
      exact ⟨fun h => .inl (hfinished h), fun _ => trivial,
        fun _ => hjoined (by simp [hstage, Stage.joined]), fun _ _ => .inr trivial, nofun⟩

theorem Step.ordered {events : List (Event n)} (h : Ordered s)
    (hstep : Step setup s events s') : Ordered s' := by
  cases hstep with
  | call hstep => exact h.quiet hstep.quiet
  | owner hstep => exact hstep.ordered h
  | coordinator hstep => exact hstep.ordered h
  | shutdown hstep => exact hstep.ordered h
  | advance hle => exact ⟨h.finished, h.closed, h.joined, h.told, h.nodup⟩
  | stats hhandle halive hroom => exact h.advanceOwner (by simp) rfl rfl halive
  | abandon hstage hcalls =>
      obtain ⟨hfinished, hclosed, hjoined, htold, hnodup⟩ := h
      simp only [hstage, System.disconnected, Stage.stopSent, Stage.told, reduceCtorEq,
        false_and, or_self, imp_false] at hclosed htold
      exact ⟨fun _ => .inr rfl, fun h => (hclosed h).elim, nofun, fun o h => (htold o h).elim,
        nofun⟩

end Recall.Engine
