import Recall.Proof.Heap
import Recall.Proof.Accounting
import Mathlib.Algebra.BigOperators.Group.Finset.Basic

/-!
# Active expiration

`expire_due` takes the due entries in the order of their deadlines. Each round removes the entry at
the root of the heap, which is due no later than any other, so the rounds can be counted.
-/

namespace Recall

/-! ### The heap stays ordered -/

namespace Shard

/-- The heap is in order, and `expired_keys` and `revision` are `u64`. -/
structure Timed (shard : Shard) : Prop where
  sound : shard.expiry.Sound
  counted : shard.expiredKeys ≤ usizeMax
  revised : shard.revision ≤ usizeMax

variable {shard after : Shard}

theorem nextRevision_le {revision : Nat} (hnext : shard.nextRevision = .ok revision) :
    revision ≤ usizeMax := by
  unfold nextRevision at hnext
  split at hnext
  · cases hnext
    assumption
  · cases hnext

theorem applyTimer_timed {key : Bytes} {entry : Option Entry} (h : shard.Timed)
    (happly : shard.applyTimer key entry = .ok after) : after.Timed := by
  unfold applyTimer at happly
  split at happly
  · obtain ⟨expiry, hset, hafter⟩ := bind_eq_ok.mp happly
    cases hafter
    exact ⟨ExpiryIndex.set_sound h.sound hset, h.counted, h.revised⟩
  · obtain ⟨expiry, hremove, hafter⟩ := bind_eq_ok.mp happly
    cases hafter
    exact ⟨ExpiryIndex.remove_sound h.sound hremove, h.counted, h.revised⟩

theorem applyEffects_timed {effects : List (Sigma fun _ : Bytes => Option Entry)}
    (h : shard.Timed) (happly : shard.applyEffects effects = .ok after) :
    after.Timed := by
  induction effects generalizing shard with
  | nil =>
      cases happly
      exact h
  | cons effect effects ih =>
      obtain ⟨timed, htimer, hrest⟩ := bind_eq_ok.mp happly
      have htimed : timed.Timed := applyTimer_timed h htimer
      have htable : (timed.applyTable effect.1 effect.2).Timed :=
        ⟨htimed.sound, htimed.counted, htimed.revised⟩
      exact ih htable hrest

theorem apply_timed {ready : Prepared} {reply : Reply} (h : shard.Timed)
    (happly : shard.apply ready = .ok (after, reply)) : after.Timed := by
  unfold apply at happly
  split at happly
  · cases happly
  · obtain ⟨applied, heffects, hrest⟩ := bind_eq_ok.mp happly
    obtain ⟨revision, hrevision, hafter⟩ := bind_eq_ok.mp hrest
    have happlied : applied.Timed := applyEffects_timed h heffects
    cases hafter
    exact ⟨happlied.sound, happlied.counted, nextRevision_le hrevision⟩

theorem execute_timed {seed : HashSeed} {operation : Operation} {nowMs : I64}
    {result : Except EngineError Reply} (h : shard.Timed)
    (hexecute : shard.execute seed operation nowMs = .ok (after, result)) : after.Timed := by
  obtain ⟨prepared, -, hrest⟩ := bind_eq_ok.mp hexecute
  cases prepared with
  | error failure =>
      cases hrest
      exact h
  | ok ready =>
      obtain ⟨⟨applied, reply⟩, happly, hafter⟩ := bind_eq_ok.mp hrest
      cases hafter
      exact apply_timed h happly

/-- What `expire_due` does with the key at the root, when it does not panic. -/
theorem expireKey_eq_ok {key : Bytes} {nowMs : I64}
    (hexpire : shard.expireKey key nowMs = .ok after) :
    shard.expiry.remove key = .ok after.expiry ∧
      after.expiredKeys = saturate (shard.expiredKeys + 1) ∧
      after.appliedCommands = shard.appliedCommands ∧ after.revision ≤ usizeMax := by
  obtain ⟨expiry, hremove, hrest⟩ := bind_eq_ok.mp hexpire
  cases hentry : shard.entries.lookup key with
  | none =>
      simp only [hentry] at hrest
      cases hrest
  | some entry =>
      simp only [hentry] at hrest
      split at hrest
      · split at hrest
        · cases hrest
        · obtain ⟨revision, hrevision, hafter⟩ := bind_eq_ok.mp hrest
          cases hafter
          exact ⟨hremove, rfl, rfl, nextRevision_le hrevision⟩
      · cases hrest

theorem expireKey_timed {key : Bytes} {nowMs : I64} (h : shard.Timed)
    (hexpire : shard.expireKey key nowMs = .ok after) : after.Timed := by
  obtain ⟨hremove, hcount, -, hrevised⟩ := expireKey_eq_ok hexpire
  refine ⟨ExpiryIndex.remove_sound h.sound hremove, ?_, hrevised⟩
  rw [hcount]
  exact min_le_right _ _

theorem expireDue_timed {nowMs : I64} {budget removed : Nat} (h : shard.Timed)
    (hexpire : shard.expireDue nowMs budget = .ok (after, removed)) : after.Timed := by
  induction budget generalizing shard removed with
  | zero =>
      cases hexpire
      exact h
  | succ budget ih =>
      unfold expireDue at hexpire
      split at hexpire
      · cases hexpire
        exact h
      · obtain ⟨next, hkey, hrest⟩ := bind_eq_ok.mp hexpire
        obtain ⟨⟨last, count⟩, hmore, hafter⟩ := bind_eq_ok.mp hrest
        cases hafter
        exact ih (expireKey_timed h hkey) hmore

end Shard

theorem ShardRun.Reachable.timed {limits : ShardLimits} {run : ShardRun}
    (hreach : Reachable limits run) : run.shard.Timed := by
  induction hreach with
  | start hnew =>
      unfold Shard.new at hnew
      split at hnew
      · cases hnew
      · cases hnew
        exact ⟨ExpiryIndex.sound_empty, Nat.zero_le _, Nat.zero_le _⟩
  | @call run next _ call hstep ih =>
      cases call with
      | prepare seed operation nowMs =>
          obtain ⟨result, -, hnext⟩ := bind_eq_ok.mp hstep
          cases result with
          | error | ok =>
              cases hnext
              exact ih
      | apply i =>
          simp only [step] at hstep
          split at hstep
          · cases hstep
            exact ih
          · obtain ⟨⟨shard, reply⟩, happly, hnext⟩ := bind_eq_ok.mp hstep
            cases hnext
            exact Shard.apply_timed ih happly
      | discard i =>
          cases hstep
          exact ih
      | execute seed operation nowMs =>
          obtain ⟨⟨shard, result⟩, hexecute, hnext⟩ := bind_eq_ok.mp hstep
          cases hnext
          exact Shard.execute_timed ih hexecute
      | expireDue nowMs budget =>
          obtain ⟨⟨shard, removed⟩, hexpire, hnext⟩ := bind_eq_ok.mp hstep
          cases hnext
          exact Shard.expireDue_timed ih hexpire

/-! ### What one call removes -/

theorem saturate_saturate_add (a b : Nat) : saturate (saturate a + b) = saturate (a + b) := by
  unfold saturate
  generalize usizeMax = most
  omega

namespace Shard

/-- The keys of the entries that are due. -/
def dueKeys (entries : Table) (nowMs : I64) : Finset Bytes :=
  entries.keys.filter fun key => (entries.lookup key).any fun entry => entry.due nowMs

theorem mem_dueKeys {entries : Table} {nowMs : I64} {key : Bytes} :
    key ∈ dueKeys entries nowMs ↔ ∃ entry, entries.lookup key = some entry ∧ entry.due nowMs := by
  rw [dueKeys, Finset.mem_filter, Finmap.mem_keys, Option.any_eq_true]
  refine ⟨fun ⟨_, entry, hentry, hdue⟩ => ⟨entry, hentry, hdue⟩, fun ⟨entry, hentry, hdue⟩ => ?_⟩
  exact ⟨Finmap.mem_of_lookup_eq_some hentry, entry, hentry, hdue⟩

theorem dueKeys_erase (entries : Table) (nowMs : I64) (key : Bytes) :
    dueKeys (entries.erase key) nowMs = (dueKeys entries nowMs).erase key := by
  ext other
  rw [Finset.mem_erase, mem_dueKeys, mem_dueKeys]
  by_cases hother : other = key
  · subst hother
    simp
  · simp [hother, Finmap.lookup_erase_ne hother]

/-- The stored deadline of a key. -/
def deadline (entries : Table) (key : Bytes) : Option I64 :=
  (entries.lookup key).bind Entry.expiresAtMs

theorem mem_heap {shard : Shard} (hwf : shard.WellFormed) {key : Bytes} {due : I64} :
    ⟨key, due⟩ ∈ shard.expiry.heap ↔ deadline shard.entries key = some due := by
  rw [hwf.timers.mem_iff, deadline, Option.bind_eq_some_iff]

variable {shard after : Shard} {nowMs : I64}

theorem expired_none (hwf : shard.WellFormed) (hsound : shard.expiry.Sound)
    (hexpired : shard.expiry.expired nowMs = none) : dueKeys shard.entries nowMs = ∅ := by
  refine Finset.eq_empty_of_forall_notMem fun key hkey => ?_
  obtain ⟨entry, hentry, hdue⟩ := mem_dueKeys.mp hkey
  obtain ⟨due, hdeadline, hle⟩ := (Option.any_eq_true _ _).mp hdue
  have hmem : ⟨key, due⟩ ∈ shard.expiry.heap :=
    (hwf.timers.mem_iff _).mpr ⟨entry, hentry, hdeadline⟩
  exact absurd (hsound.expired_eq_none.mp hexpired _ hmem) (not_lt.mpr (of_decide_eq_true hle))

/-- The key `expire_due` takes has the earliest deadline of all. -/
theorem expired_first (hwf : shard.WellFormed) (hsound : shard.expiry.Sound) {key : Bytes}
    (hexpired : shard.expiry.expired nowMs = some key) {first later : I64} {other : Bytes}
    (hfirst : deadline shard.entries key = some first)
    (hlater : deadline shard.entries other = some later) : first ≤ later := by
  obtain ⟨root, hroot, -, rfl⟩ := ExpiryIndex.expired_eq_some hexpired
  have hmem := (mem_heap hwf).mp (List.mem_of_mem_head? hroot)
  rw [hfirst, Option.some.injEq] at hmem
  rw [hmem]
  exact hsound.root_le hroot ((mem_heap hwf).mpr hlater)

/-- The bytes the entry of a key takes. -/
def bytesAt (entries : Table) (key : Bytes) : Nat :=
  Finmap.weightAt entryBytes key (entries.lookup key)

/-- One shard is another without the entries of the removed keys, which were due first. -/
structure Removes (before after : Shard) (removed : Finset Bytes) (nowMs : I64) : Prop where
  due : removed ⊆ dueKeys before.entries nowMs
  entries : ∀ key, after.entries.lookup key =
    if key ∈ removed then none else before.entries.lookup key
  first : ∀ key ∈ removed, ∀ other first later, deadline before.entries key = some first →
    deadline after.entries other = some later → first ≤ later
  payload : after.payloadBytes + ∑ key ∈ removed, bytesAt before.entries key = before.payloadBytes
  expiredKeys : after.expiredKeys = saturate (before.expiredKeys + removed.card)
  revision : after.revision = before.revision + removed.card
  limits : after.limits = before.limits
  appliedCommands : after.appliedCommands = before.appliedCommands

theorem Removes.refl (h : shard.Timed) (nowMs : I64) : Removes shard shard ∅ nowMs where
  due := Finset.empty_subset _
  entries key := by simp
  first key hkey := by simp at hkey
  payload := by simp
  expiredKeys := (min_eq_left h.counted).symm
  revision := rfl
  limits := rfl
  appliedCommands := rfl

/-- A round and the rounds after it. -/
theorem Removes.cons {next : Shard} {removed : Finset Bytes} (hwf : shard.WellFormed)
    (htimed : shard.Timed) {key : Bytes} (hexpired : shard.expiry.expired nowMs = some key)
    (hkey : shard.expireKey key nowMs = .ok next) (hnext : next.WellFormed)
    (hentries : next.entries = shard.entries.erase key)
    (hrevision : next.revision = shard.revision + 1) (hlimits : next.limits = shard.limits)
    (h : Removes next after removed nowMs) :
    key ∉ removed ∧ Removes shard after (insert key removed) nowMs := by
  obtain ⟨entry, hentry, hdue⟩ := expired_spec hwf hexpired
  obtain ⟨-, hcount, happlied, -⟩ := expireKey_eq_ok hkey
  have hsubset : removed ⊆ (dueKeys shard.entries nowMs).erase key := by
    rw [← dueKeys_erase, ← hentries]
    exact h.due
  have hfresh : key ∉ removed := fun hmem => by simpa using hsubset hmem
  have hkept : ∀ other ≠ key, next.entries.lookup other = shard.entries.lookup other := by
    intro other hother
    rw [hentries, Finmap.lookup_erase_ne hother]
  have hback : ∀ other later, deadline after.entries other = some later →
      deadline shard.entries other = some later := by
    intro other later hlater
    obtain ⟨stored, hstored, hexpires⟩ := Option.bind_eq_some_iff.mp hlater
    rw [h.entries] at hstored
    split at hstored
    · cases hstored
    · rw [hentries] at hstored
      have hother : other ≠ key := by
        rintro rfl
        rw [Finmap.lookup_erase] at hstored
        cases hstored
      rw [Finmap.lookup_erase_ne hother] at hstored
      exact Option.bind_eq_some_iff.mpr ⟨stored, hstored, hexpires⟩
  refine ⟨hfresh, ?_, fun other => ?_, fun other hmem last first later hfirst hlater => ?_, ?_, ?_,
    ?_, h.limits.trans hlimits, h.appliedCommands.trans happlied⟩
  · refine Finset.insert_subset (mem_dueKeys.mpr ⟨entry, hentry, hdue⟩) ?_
    exact hsubset.trans (Finset.erase_subset _ _)
  · rw [h.entries]
    by_cases hother : other = key
    · subst hother
      simp [hentries]
    · simp [hother, hkept other hother]
  · rcases Finset.mem_insert.mp hmem with rfl | hmore
    · exact expired_first hwf htimed.sound hexpired hfirst (hback last later hlater)
    · have hother : other ≠ key := fun heq => hfresh (heq ▸ hmore)
      refine h.first other hmore last first later ?_ hlater
      rwa [deadline, hkept other hother]
  · have hrest : ∑ other ∈ removed, bytesAt next.entries other =
        ∑ other ∈ removed, bytesAt shard.entries other := by
      refine Finset.sum_congr rfl fun other hmore => ?_
      rw [bytesAt, hkept other fun heq => hfresh (heq ▸ hmore), bytesAt]
    have hbytes := Finmap.total_erase_add entryBytes key shard.entries
    have hpayload := h.payload
    rw [hrest, hnext.payload, hentries, payloadOf] at hpayload
    rw [Finset.sum_insert hfresh, hwf.payload, payloadOf, ← hbytes, ← hpayload, bytesAt]
    omega
  · rw [h.expiredKeys, hcount, Finset.card_insert_of_notMem hfresh]
    rw [saturate_saturate_add, Nat.add_assoc, Nat.add_comm 1]
  · rw [h.revision, hrevision, Finset.card_insert_of_notMem hfresh]
    omega

/-- One round of the loop, and how many due entries it leaves. -/
theorem expired_step (hwf : shard.WellFormed) {key : Bytes}
    (hexpired : shard.expiry.expired nowMs = some key) :
    (usizeMax ≤ shard.revision ∧ shard.expireKey key nowMs = .error .revisionExhausted) ∨
      ∃ next, shard.expireKey key nowMs = .ok next ∧ next.WellFormed ∧
        next.limits = shard.limits ∧ next.revision = shard.revision + 1 ∧
        next.entries = shard.entries.erase key ∧
        (dueKeys next.entries nowMs).card + 1 = (dueKeys shard.entries nowMs).card := by
  obtain ⟨entry, hentry, hdue⟩ := expired_spec hwf hexpired
  rcases expireKey_spec hwf hentry hdue with
    hpanic | ⟨next, hkey, hnext, hlimits, hrevision, hentries⟩
  · exact .inl hpanic
  · refine .inr ⟨next, hkey, hnext, hlimits, hrevision, hentries, ?_⟩
    rw [hentries, dueKeys_erase]
    exact Finset.card_erase_add_one (mem_dueKeys.mpr ⟨entry, hentry, hdue⟩)

theorem expireDue_removes (budget : Nat) (hwf : shard.WellFormed) (htimed : shard.Timed)
    (hroom : shard.revision + min budget (dueKeys shard.entries nowMs).card ≤ usizeMax) :
    ∃ after removed, shard.expireDue nowMs budget =
        .ok (after, min budget (dueKeys shard.entries nowMs).card) ∧
      removed.card = min budget (dueKeys shard.entries nowMs).card ∧
      Removes shard after removed nowMs := by
  induction budget generalizing shard with
  | zero => exact ⟨shard, ∅, by simp [expireDue], by simp, .refl htimed nowMs⟩
  | succ budget ih =>
      unfold expireDue
      cases hexpired : shard.expiry.expired nowMs with
      | none =>
          rw [expired_none hwf htimed.sound hexpired]
          exact ⟨shard, ∅, by simp, by simp, .refl htimed nowMs⟩
      | some key =>
          rcases expired_step hwf hexpired with
            ⟨hexhausted, -⟩ | ⟨next, hkey, hnext, hlimits, hrevision, hentries, hcard⟩
          · obtain ⟨entry, hentry, hdue⟩ := expired_spec hwf hexpired
            have hpos := Finset.card_pos.mpr ⟨key, mem_dueKeys.mpr ⟨entry, hentry, hdue⟩⟩
            omega
          · obtain ⟨after, removed, hrest, hremoved, h⟩ := ih hnext (expireKey_timed htimed hkey)
              (by omega)
            obtain ⟨hfresh, hall⟩ := h.cons hwf htimed hexpired hkey hnext hentries hrevision hlimits
            have hcount : min budget (dueKeys next.entries nowMs).card + 1 =
                min (budget + 1) (dueKeys shard.entries nowMs).card := by omega
            refine ⟨after, insert key removed, ?_, ?_, hall⟩
            · simp only [hkey, hrest, bind, Except.bind]
              rw [← hcount]
              rfl
            · rw [Finset.card_insert_of_notMem hfresh, hremoved, hcount]

/-- Revisions run out before the due entries or the budget do. -/
theorem expireDue_exhausted (budget : Nat) (hwf : shard.WellFormed) (htimed : shard.Timed)
    (hfull : usizeMax < shard.revision + min budget (dueKeys shard.entries nowMs).card) :
    shard.expireDue nowMs budget = .error .revisionExhausted := by
  have hrevised := htimed.revised
  induction budget generalizing shard with
  | zero => omega
  | succ budget ih =>
      unfold expireDue
      cases hexpired : shard.expiry.expired nowMs with
      | none =>
          rw [expired_none hwf htimed.sound hexpired, Finset.card_empty] at hfull
          omega
      | some key =>
          rcases expired_step hwf hexpired with
            ⟨-, hpanic⟩ | ⟨next, hkey, hnext, -, hrevision, -, hcard⟩
          · simp [hpanic, bind, Except.bind]
          · have htimed' := expireKey_timed htimed hkey
            have hrest := ih hnext htimed' (by omega) htimed'.revised
            simp [hkey, hrest, bind, Except.bind]

end Shard

namespace ShardRun

open Shard

/-- Due entries are removed in the order of their deadlines as far as the budget goes. The counter of
revisions is the only thing that can stop it. -/
theorem expiration_exact {limits : ShardLimits} {run : ShardRun} (hreach : Reachable limits run)
    (nowMs : I64) (budget : Nat) :
    (run.shard.revision + min budget (dueKeys run.shard.entries nowMs).card ≤ usizeMax →
      ∃ after removed, run.shard.expireDue nowMs budget =
          .ok (after, min budget (dueKeys run.shard.entries nowMs).card) ∧
        removed.card = min budget (dueKeys run.shard.entries nowMs).card ∧
        (∀ key ∈ removed, ∃ due, deadline run.shard.entries key = some due ∧ due ≤ nowMs) ∧
        (∀ key, after.entries.lookup key =
          if key ∈ removed then none else run.shard.entries.lookup key) ∧
        (∀ key ∈ removed, ∀ other first later, deadline run.shard.entries key = some first →
          deadline after.entries other = some later → first ≤ later) ∧
        after.payloadBytes + ∑ key ∈ removed, bytesAt run.shard.entries key =
          run.shard.payloadBytes ∧
        after.expiredKeys = saturate (run.shard.expiredKeys + removed.card) ∧
        after.revision = run.shard.revision + removed.card ∧
        (removed.card < budget → ∀ key due, deadline after.entries key = some due → nowMs < due)) ∧
    (usizeMax < run.shard.revision + min budget (dueKeys run.shard.entries nowMs).card →
      run.shard.expireDue nowMs budget = .error .revisionExhausted) := by
  have hwf := hreach.invariant.1.wellFormed
  refine ⟨fun hroom => ?_, expireDue_exhausted budget hwf hreach.timed⟩
  obtain ⟨after, removed, hexpire, hcard, h⟩ := expireDue_removes budget hwf hreach.timed hroom
  refine ⟨after, removed, hexpire, hcard, fun key hkey => ?_, h.entries, h.first, h.payload,
    h.expiredKeys, h.revision, fun hless key due hdue => ?_⟩
  · obtain ⟨entry, hentry, hdue⟩ := mem_dueKeys.mp (h.due hkey)
    obtain ⟨due, hexpires, hle⟩ := (Option.any_eq_true _ _).mp hdue
    exact ⟨due, Option.bind_eq_some_iff.mpr ⟨entry, hentry, hexpires⟩, of_decide_eq_true hle⟩
  · -- The budget was not the limit, so everything that was due is gone.
    have hall : removed = dueKeys run.shard.entries nowMs :=
      Finset.eq_of_subset_of_card_le h.due (by omega)
    obtain ⟨entry, hentry, hexpires⟩ := Option.bind_eq_some_iff.mp hdue
    rw [h.entries] at hentry
    split at hentry
    · cases hentry
    · next hkept =>
        rw [hall, mem_dueKeys] at hkept
        refine not_le.mp fun hle => hkept ⟨entry, hentry, ?_⟩
        simp [Entry.due, hexpires, hle]

/-- A timer was set and nothing else happened. -/
theorem timer_reachable : ∃ run, Reachable sampleLimits run ∧
    run.shard.entries.lookup [97] = some ⟨[49], some (I64.saturate 10)⟩ ∧
    run.shard.entries.lookup [98] = none ∧ run.shard.revision = 1 := by
  obtain ⟨shard, hnew⟩ : ∃ shard, Shard.new sampleLimits = .ok shard := ⟨_, rfl⟩
  obtain ⟨run, hrun, hp⟩ := @exists_of_okAnd _ _
    (step ⟨shard, []⟩ (.execute .insertionOrder sampleSet 0))
    (fun run => run.shard.entries.lookup [97] = some ⟨[49], some (I64.saturate 10)⟩ ∧
      run.shard.entries.lookup [98] = none ∧ run.shard.revision = 1) (by
      cases hnew
      decide +kernel)
  exact ⟨run, .call (.start hnew) _ hrun, by simpa using hp⟩

theorem expiration_exact_sample : ∃ run after, Reachable sampleLimits run ∧
    run.shard.entries.lookup [97] = some ⟨[49], some (I64.saturate 10)⟩ ∧
    run.shard.expireDue (I64.saturate 20) 1 = .ok (after, 1) ∧ after.revision = 2 := by
  obtain ⟨run, hreach, hentry, -, hrevision⟩ := timer_reachable
  have hdue : [97] ∈ dueKeys run.shard.entries (I64.saturate 20) :=
    mem_dueKeys.mpr ⟨_, hentry, by decide⟩
  have hpos := Finset.card_pos.mpr ⟨_, hdue⟩
  have hcount : min 1 (dueKeys run.shard.entries (I64.saturate 20)).card = 1 := by omega
  obtain ⟨after, removed, hexpire, hcard, -, -, -, -, -, hafter, -⟩ :=
    (expiration_exact hreach (I64.saturate 20) 1).1 (by rw [hcount, hrevision]; decide)
  rw [hcount] at hexpire hcard
  exact ⟨run, after, hreach, hentry, hexpire, by rw [hafter, hrevision, hcard]⟩

/-- Reading an absent key changes nothing but the revision. -/
theorem Reachable.read {run : ShardRun} (hreach : Reachable sampleLimits run) {key : Bytes}
    (habsent : run.shard.entries.lookup key = none) (hroom : run.shard.revision < usizeMax) :
    ∃ next, Reachable sampleLimits next ∧ next.shard.entries = run.shard.entries ∧
      next.shard.revision = run.shard.revision + 1 := by
  obtain ⟨hinv, hlimits⟩ := hreach.invariant
  have hwf := hinv.wellFormed
  have heval : run.shard.evaluate (.get key) 0 = .ok (.bulk none, ∅) := by
    simp [evaluate, observe, habsent, bulkOf]
  have hbudget : ¬ run.shard.OverBudget ∅ := by
    have hkeys := hwf.keys_le
    have hpayload := hwf.payload ▸ hwf.payload_le
    simp only [OverBudget, not_or, Nat.not_lt]
    exact ⟨hkeys, hpayload⟩
  have hrefusal : run.shard.refusal (.get key) 0 = none := by
    have hfits : (Reply.bulk none).exceeds run.shard.limits.maxReplyBytes = false := by
      rw [hlimits]
      decide
    simp [refusal, heval, hfits, hbudget]
  rcases execute_of_refusal_none hwf hrefusal .insertionOrder with
    ⟨hfull, -⟩ | ⟨response, effects, after, heval', hexecute, hinstalled⟩
  · omega
  · rw [heval] at heval'
    cases heval'
    refine ⟨⟨after, run.outstanding⟩, .call hreach (.execute .insertionOrder (.get key) 0) ?_,
      hinstalled.entries, hinstalled.revision⟩
    simp [step, hexecute, bind, Except.bind, pure, Except.pure]

theorem Reachable.reads {run : ShardRun} (hreach : Reachable sampleLimits run) {key : Bytes}
    (habsent : run.shard.entries.lookup key = none) (n : Nat)
    (hroom : run.shard.revision + n ≤ usizeMax) :
    ∃ next, Reachable sampleLimits next ∧ next.shard.entries = run.shard.entries ∧
      next.shard.revision = run.shard.revision + n := by
  induction n with
  | zero => exact ⟨run, hreach, rfl, rfl⟩
  | succ n ih =>
      obtain ⟨worn, hworn, hentries, hrevision⟩ := ih (by omega)
      obtain ⟨next, hnext, hsame, hmore⟩ := hworn.read (hentries ▸ habsent) (by omega)
      exact ⟨next, hnext, hsame.trans hentries, by omega⟩

/-- After 2^64 - 1 applied commands the removal of a due entry panics. -/
theorem expiration_panics : ∃ run, Reachable sampleLimits run ∧
    run.shard.entries.lookup [97] = some ⟨[49], some (I64.saturate 10)⟩ ∧
    run.shard.expireDue (I64.saturate 20) 1 = .error .revisionExhausted := by
  obtain ⟨fresh, hfresh, hentry, habsent, hrevision⟩ := timer_reachable
  obtain ⟨run, hreach, hentries, hworn⟩ := hfresh.reads habsent (usizeMax - 1) (by
    rw [hrevision]
    decide)
  rw [← hentries] at hentry
  have hdue : [97] ∈ dueKeys run.shard.entries (I64.saturate 20) :=
    mem_dueKeys.mpr ⟨_, hentry, by decide⟩
  have hpos := Finset.card_pos.mpr ⟨_, hdue⟩
  refine ⟨run, hreach, hentry, expireDue_exhausted 1 hreach.invariant.1.wellFormed hreach.timed ?_⟩
  have hlast : run.shard.revision = usizeMax := by
    rw [hworn, hrevision]
    decide
  omega

end ShardRun

end Recall
