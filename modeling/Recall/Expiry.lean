import Recall.Operation
import Mathlib.Data.Finmap

/-!
# The expiry index

`ExpiryIndex` of `recall-core`: a binary heap of timers ordered by deadline and the position of every
key in it. Indexing past the end of the heap panics, so every operation can fail.
-/

namespace Recall

/-- The panics of `recall-core`. -/
inductive Panic where
  | heapIndex
  | timerWithoutEntry
  | deadlineAssertion
  | payloadUnderflow
  | negativePayload
  | stalePrepared
  | revisionExhausted
deriving DecidableEq

structure Timer where
  key : Bytes
  deadline : I64
deriving DecidableEq

structure ExpiryIndex where
  heap : List Timer
  positions : Finmap fun _ : Bytes => Nat

namespace ExpiryIndex

def empty : ExpiryIndex := ⟨[], ∅⟩

def len (index : ExpiryIndex) : Nat := index.heap.length

/-- `self.heap[i]` -/
def timerAt (index : ExpiryIndex) (i : Nat) : Except Panic Timer :=
  match index.heap[i]? with
  | some timer => .ok timer
  | none => .error .heapIndex

def swap (index : ExpiryIndex) (left right : Nat) : Except Panic ExpiryIndex :=
  match index.heap[left]?, index.heap[right]? with
  | some a, some b =>
      .ok { heap := (index.heap.set left b).set right a
            positions := (index.positions.insert b.key left).insert a.key right }
  | _, _ => .error .heapIndex

def up (index : ExpiryIndex) (i : Nat) : Except Panic (ExpiryIndex × Nat) :=
  if hpos : 0 < i then do
    let parent := (i - 1) / 2
    let above ← index.timerAt parent
    let timer ← index.timerAt i
    if above.deadline ≤ timer.deadline then
      return (index, i)
    else
      let swapped ← index.swap parent i
      swapped.up parent
  else
    return (index, i)
termination_by i
decreasing_by omega

theorem swap_length {index swapped : ExpiryIndex} {left right : Nat}
    (hswap : index.swap left right = .ok swapped) :
    swapped.heap.length = index.heap.length := by
  unfold swap at hswap
  split at hswap
  · cases hswap
    simp
  · cases hswap

/-- The smaller child of a node that has one, the left one on a tie. -/
def child (index : ExpiryIndex) (left : Nat) : Except Panic Nat :=
  if left + 1 < index.heap.length then do
    let rightTimer ← index.timerAt (left + 1)
    let leftTimer ← index.timerAt left
    return if rightTimer.deadline < leftTimer.deadline then left + 1 else left
  else
    return left

theorem child_bounds {index : ExpiryIndex} {left c : Nat} (hchild : index.child left = .ok c) :
    left ≤ c ∧ c ≤ left + 1 := by
  unfold child timerAt at hchild
  by_cases hright : left + 1 < index.heap.length
  · have hleft : left < index.heap.length := by omega
    simp only [hright, hleft, List.getElem?_eq_getElem, ↓reduceIte] at hchild
    cases hchild
    split <;> omega
  · simp only [hright, ↓reduceIte] at hchild
    cases hchild
    omega

def down (index : ExpiryIndex) (i : Nat) : Except Panic ExpiryIndex :=
  let left := i * 2 + 1
  if index.heap.length ≤ left then
    .ok index
  else
    match _hchild : index.child left with
    | .error panic => .error panic
    | .ok child =>
        match index.timerAt i, index.timerAt child with
        | .ok timer, .ok below =>
            if timer.deadline ≤ below.deadline then
              .ok index
            else
              match _hswap : index.swap i child with
              | .error panic => .error panic
              | .ok swapped => swapped.down child
        | .error panic, _ => .error panic
        | _, .error panic => .error panic
termination_by index.heap.length - i
decreasing_by
  have hlength := swap_length _hswap
  have hbounds := child_bounds _hchild
  omega

/-- `up` from a position, then `down` from where the timer stopped. -/
def settle (index : ExpiryIndex) (i : Nat) : Except Panic ExpiryIndex := do
  let (index, i) ← index.up i
  index.down i

def set (index : ExpiryIndex) (key : Bytes) (deadline : I64) : Except Panic ExpiryIndex :=
  match index.positions.lookup key with
  | some i => do
      let timer ← index.timerAt i
      settle { index with heap := index.heap.set i { timer with deadline } } i
  | none => do
      let i := index.heap.length
      let pushed : ExpiryIndex :=
        { heap := index.heap ++ [⟨key, deadline⟩], positions := index.positions.insert key i }
      let (index, _) ← pushed.up i
      return index

/-- `Vec::swap_remove`: the last timer takes the removed one's place. -/
def swapRemove (heap : List Timer) (i : Nat) : Except Panic (List Timer) :=
  match heap[i]?, heap.getLast? with
  | some _, some last => .ok (heap.set i last).dropLast
  | _, _ => .error .heapIndex

def remove (index : ExpiryIndex) (key : Bytes) : Except Panic ExpiryIndex :=
  match index.positions.lookup key with
  | none => .ok index
  | some i => do
      let heap ← swapRemove index.heap i
      let removed : ExpiryIndex := { heap, positions := index.positions.erase key }
      if i < heap.length then
        let moved ← removed.timerAt i
        settle { removed with positions := removed.positions.insert moved.key i } i
      else
        return removed

def expired (index : ExpiryIndex) (nowMs : I64) : Option Bytes :=
  (index.heap.head?.filter fun timer => timer.deadline ≤ nowMs).map Timer.key

end ExpiryIndex

end Recall
