import Mathlib.Tactic.Common

/-!
# Incremental readers

A reader keeps a state between calls, looks at a buffer that only grows at its end, and either takes
an item off the front, waits for more input, or fails for good. This file shows when the items do not
depend on how the input was cut into pieces: three laws about a single call suffice.
-/

namespace Incremental

/-- A reader whose every item takes something off the buffer. -/
structure Reader (σ α ρ ε : Type) where
  read : σ → List α → Except ε (σ × List α × Option ρ)
  shrinks : ∀ {s buffer s' rest item}, read s buffer = .ok (s', rest, some item) →
    rest.length < buffer.length

variable {σ α ρ ε : Type}

/-- Equal results, except that failures are not told apart. -/
def Alike {β : Type} : Except ε β → Except ε β → Prop
  | .ok a, .ok b => a = b
  | .error _, .error _ => True
  | _, _ => False

theorem Alike.refl {β : Type} (x : Except ε β) : Alike x x := by
  cases x <;> trivial

theorem Alike.symm {β : Type} {x y : Except ε β} (hxy : Alike x y) : Alike y x := by
  cases x <;> cases y
  · trivial
  · cases hxy
  · cases hxy
  · exact Eq.symm hxy

theorem Alike.ok_eq {β : Type} {x : Except ε β} {b : β} (hx : Alike x (.ok b)) : x = .ok b := by
  cases x with
  | error failure => cases hx
  | ok a => exact congrArg Except.ok hx

theorem Alike.error_of {β : Type} {x : Except ε β} {e : ε} (hx : Alike x (.error e)) :
    ∃ e', x = .error e' := by
  cases x with
  | error failure => exact ⟨failure, rfl⟩
  | ok a => cases hx

theorem Alike.trans {β : Type} {x y z : Except ε β} (hxy : Alike x y) (hyz : Alike y z) :
    Alike x z := by
  cases y with
  | error failure =>
      obtain ⟨failure', rfl⟩ := hxy.error_of
      obtain ⟨failure'', rfl⟩ := hyz.symm.error_of
      trivial
  | ok b =>
      rw [hxy.ok_eq]
      exact hyz

namespace Reader

variable (reader : Reader σ α ρ ε)

/-- Reads until the reader waits or fails. -/
def drain (s : σ) (buffer : List α) : List ρ × Except ε (σ × List α) :=
  match _hread : reader.read s buffer with
  | .error failure => ([], .error failure)
  | .ok (s', rest, none) => ([], .ok (s', rest))
  | .ok (s', rest, some item) =>
      let tail := drain s' rest
      (item :: tail.1, tail.2)
termination_by buffer.length
decreasing_by exact reader.shrinks _hread

/-- Appends the chunks one by one and drains the buffer after each. -/
def feed (s : σ) (buffer : List α) : List (List α) → List ρ × Except ε (σ × List α)
  | [] => ([], .ok (s, buffer))
  | chunk :: chunks =>
      match reader.drain s (buffer ++ chunk) with
      | (items, .error failure) => (items, .error failure)
      | (items, .ok (s', rest)) =>
          let tail := feed s' rest chunks
          (items ++ tail.1, tail.2)

/-- The laws of one call that make cuts invisible, for states that fit the buffer they looked at. -/
structure Resumable (Fits : σ → List α → Prop) : Prop where
  wait : ∀ {s buffer s' rest}, Fits s buffer → reader.read s buffer = .ok (s', rest, none) →
    rest = buffer ∧ Fits s' buffer ∧
      ∀ more, Alike (reader.read s' (buffer ++ more)) (reader.read s (buffer ++ more))
  item : ∀ {s buffer s' rest item}, Fits s buffer →
    reader.read s buffer = .ok (s', rest, some item) →
    Fits s' rest ∧ ∀ more, reader.read s (buffer ++ more) = .ok (s', rest ++ more, some item)
  fail : ∀ {s buffer failure}, Fits s buffer → reader.read s buffer = .error failure →
    ∀ more, ∃ failure', reader.read s (buffer ++ more) = .error failure'
  grow : ∀ {s buffer}, Fits s buffer → ∀ more, Fits s (buffer ++ more)

variable {reader}

theorem drain_error {s : σ} {buffer : List α} {failure : ε}
    (hread : reader.read s buffer = .error failure) :
    reader.drain s buffer = ([], .error failure) := by
  rw [drain]
  split <;> simp_all

theorem drain_wait {s s' : σ} {buffer rest : List α}
    (hread : reader.read s buffer = .ok (s', rest, none)) :
    reader.drain s buffer = ([], .ok (s', rest)) := by
  rw [drain]
  split <;> simp_all

theorem drain_item {s s' : σ} {buffer rest : List α} {item : ρ}
    (hread : reader.read s buffer = .ok (s', rest, some item)) :
    reader.drain s buffer =
      (item :: (reader.drain s' rest).1, (reader.drain s' rest).2) := by
  rw [drain]
  split <;> simp_all

variable {Fits : σ → List α → Prop}

theorem drain_alike {s s' : σ} {buffer : List α}
    (hread : Alike (reader.read s buffer) (reader.read s' buffer)) :
    (reader.drain s buffer).1 = (reader.drain s' buffer).1 ∧
      Alike (reader.drain s buffer).2 (reader.drain s' buffer).2 := by
  cases hs' : reader.read s' buffer with
  | error failure =>
      rw [hs'] at hread
      obtain ⟨failure', hs⟩ := hread.error_of
      rw [drain_error hs, drain_error hs']
      exact ⟨rfl, trivial⟩
  | ok result =>
      rw [hs'] at hread
      have hs := hread.ok_eq
      obtain ⟨t, rest, item⟩ := result
      cases item with
      | none => rw [drain_wait hs, drain_wait hs']; exact ⟨rfl, Alike.refl _⟩
      | some item => rw [drain_item hs, drain_item hs']; exact ⟨rfl, Alike.refl _⟩

/-- Draining stops in a state that waits on what is left. -/
theorem drain_settled (hlaws : reader.Resumable Fits) {s : σ} {buffer : List α}
    (hfits : Fits s buffer) {items : List ρ} {s' : σ} {rest : List α}
    (hdrain : reader.drain s buffer = (items, .ok (s', rest))) :
    Fits s' rest ∧ reader.read s' rest = .ok (s', rest, none) := by
  induction s, buffer using drain.induct reader generalizing items with
  | case1 s buffer failure hread =>
      rw [drain_error hread] at hdrain
      cases hdrain
  | case2 s buffer t rest' hread =>
      rw [drain_wait hread] at hdrain
      cases hdrain
      obtain ⟨rfl, hfits', hresume⟩ := hlaws.wait hfits hread
      have hagain := hresume []
      rw [List.append_nil, hread] at hagain
      exact ⟨hfits', hagain.ok_eq⟩
  | case3 s buffer t rest' item hread ih =>
      rw [drain_item hread] at hdrain
      obtain ⟨-, hrest⟩ := Prod.ext_iff.mp hdrain
      exact ih (hlaws.item hfits hread).1 (Prod.ext rfl hrest)

/-- A failure stays a failure, after the same items, whatever is appended. -/
theorem drain_append_error (hlaws : reader.Resumable Fits) {s : σ} {buffer : List α}
    (hfits : Fits s buffer) {items : List ρ} {failure : ε}
    (hdrain : reader.drain s buffer = (items, .error failure)) (more : List α) :
    ∃ failure', reader.drain s (buffer ++ more) = (items, .error failure') := by
  induction s, buffer using drain.induct reader generalizing items with
  | case1 s buffer failure₀ hread =>
      rw [drain_error hread] at hdrain
      obtain ⟨failure', hmore⟩ := hlaws.fail hfits hread more
      obtain rfl : [] = items := (Prod.ext_iff.mp hdrain).1
      exact ⟨failure', drain_error hmore⟩
  | case2 s buffer t rest hread =>
      rw [drain_wait hread] at hdrain
      cases hdrain
  | case3 s buffer t rest item hread ih =>
      rw [drain_item hread] at hdrain
      obtain ⟨rfl, hfailure⟩ := Prod.ext_iff.mp hdrain
      obtain ⟨hfits', hmore⟩ := hlaws.item hfits hread
      obtain ⟨failure', htail⟩ := ih hfits' (Prod.ext rfl hfailure)
      exact ⟨failure', by rw [drain_item (hmore more), htail]⟩

/-- Draining a longer buffer at once is draining its front first. -/
theorem drain_append_ok (hlaws : reader.Resumable Fits) {s : σ} {buffer : List α}
    (hfits : Fits s buffer) {items : List ρ} {s' : σ} {rest : List α}
    (hdrain : reader.drain s buffer = (items, .ok (s', rest))) (more : List α) :
    (reader.drain s (buffer ++ more)).1 = items ++ (reader.drain s' (rest ++ more)).1 ∧
      Alike (reader.drain s (buffer ++ more)).2 (reader.drain s' (rest ++ more)).2 := by
  induction s, buffer using drain.induct reader generalizing items with
  | case1 s buffer failure hread =>
      rw [drain_error hread] at hdrain
      cases hdrain
  | case2 s buffer t rest' hread =>
      rw [drain_wait hread] at hdrain
      cases hdrain
      obtain ⟨rfl, -, hresume⟩ := hlaws.wait hfits hread
      obtain ⟨hitems, hend⟩ := drain_alike (hresume more)
      exact ⟨hitems.symm, hend.symm⟩
  | case3 s buffer t rest' item hread ih =>
      rw [drain_item hread] at hdrain
      obtain ⟨rfl, hrest⟩ := Prod.ext_iff.mp hdrain
      obtain ⟨hfits', hmore⟩ := hlaws.item hfits hread
      obtain ⟨hitems, hend⟩ := ih hfits' (Prod.ext rfl hrest)
      rw [drain_item (hmore more)]
      exact ⟨congrArg (item :: ·) hitems, hend⟩

/-- Feeding chunks to a waiting reader comes to draining everything at once. -/
theorem feed_alike_drain (hlaws : reader.Resumable Fits) (chunks : List (List α)) {s : σ}
    {buffer : List α} (hfits : Fits s buffer)
    (hwaits : reader.read s buffer = .ok (s, buffer, none)) :
    (reader.feed s buffer chunks).1 = (reader.drain s (buffer ++ chunks.flatten)).1 ∧
      Alike (reader.feed s buffer chunks).2 (reader.drain s (buffer ++ chunks.flatten)).2 := by
  induction chunks generalizing s buffer with
  | nil =>
      rw [List.flatten_nil, List.append_nil, drain_wait hwaits]
      exact ⟨rfl, Alike.refl _⟩
  | cons chunk chunks ih =>
      have hgrown := hlaws.grow hfits chunk
      rw [List.flatten_cons, ← List.append_assoc]
      rcases hdrain : reader.drain s (buffer ++ chunk) with ⟨items, failure | ⟨s', rest⟩⟩
      · obtain ⟨failure', hall⟩ := drain_append_error hlaws hgrown hdrain chunks.flatten
        rw [feed, hdrain, hall]
        exact ⟨rfl, trivial⟩
      · obtain ⟨hfits', hwaits'⟩ := drain_settled hlaws hgrown hdrain
        obtain ⟨hitems, hend⟩ := drain_append_ok hlaws hgrown hdrain chunks.flatten
        obtain ⟨ihItems, ihEnd⟩ := ih hfits' hwaits'
        rw [feed, hdrain]
        refine ⟨?_, ihEnd.trans hend.symm⟩
        rw [hitems, ← ihItems]

end Reader

end Incremental
