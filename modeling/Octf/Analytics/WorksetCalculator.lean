import Octf.Foundation.IntervalSet
import Octf.Foundation.OrderedSet
import Octf.Foundation.Run
import Octf.Foundation.Word

/-! The workset calculator: ranges of sectors in an ordered container whose comparator
takes overlapping and touching ranges for equal. -/
namespace Octf.Analytics
open Foundation

abbrev Range := HalfOpen ℕ

namespace Range

/-- `Range()` -/
def empty : Range := ⟨0, 0⟩

/-- Ranges that merely touch overlap as well. -/
def doRangesOverlap (r1 r2 : Range) : Bool :=
  decide (r1.begin ≤ r2.end' ∧ r2.begin ≤ r1.end')

/-- `operator<` -/
def lt (left right : Range) : Bool :=
  if doRangesOverlap left right then false else decide (left.begin < right.begin)

end Range

/-- `begin + length` in 64 bits. -/
def rangeOf (begin length : ℕ) : Range := ⟨begin, add64 begin length⟩

structure WorksetCalculator where
  hitRanges : List Range
  max : ℕ
  isMaxFresh : Bool
  deriving DecidableEq

namespace WorksetCalculator

def new : WorksetCalculator := ⟨[], 0, true⟩

/-- `WorksetCalculator(const WorksetCalculator &)`; the assignment sets the same fields. -/
def copy (other : WorksetCalculator) : WorksetCalculator where
  hitRanges := other.hitRanges
  max := other.max
  isMaxFresh := other.isMaxFresh

/-- The loop of `mergeRanges`: drop the ranges that overlap the new one, and move the end
of the merged range along. -/
def mergeLoop (newRange : Range) (maxEnd : ℕ) : List Range → ℕ × List Range
  | [] => (maxEnd, [])
  | r :: rest =>
    if Range.doRangesOverlap newRange r then mergeLoop newRange (Nat.max maxEnd r.end') rest
    else (maxEnd, r :: rest)

def mergeRanges (newRange : Range) (overlapIter : Cursor Range) : List Range :=
  match overlapIter.after with
  | [] => overlapIter.before
  | r :: rest =>
    let minBegin := min r.begin newRange.begin
    let maxEnd := Nat.max r.end' newRange.end'
    if r.begin ≤ newRange.begin ∧ newRange.end' ≤ r.end' then overlapIter.before ++ r :: rest
    else
      let (maxEnd, rest) := mergeLoop newRange maxEnd rest
      OrderedSet.insert Range.lt ⟨minBegin, maxEnd⟩ (overlapIter.before ++ rest)

def insertRange (begin len : ℕ) (w : WorksetCalculator) : WorksetCalculator :=
  if len = 0 then w
  else
    let newRange := rangeOf begin len
    let iter := OrderedSet.find Range.lt newRange w.hitRanges
    let hitRanges :=
      if iter.after.isEmpty then OrderedSet.insert Range.lt newRange w.hitRanges
      else mergeRanges newRange iter
    { w with hitRanges := hitRanges, isMaxFresh := false }

def getWorkset (w : WorksetCalculator) : ℕ :=
  if w.isMaxFresh then w.max
  else
    let workset := w.hitRanges.foldl (fun sum r => add64 sum (sub64 r.end' r.begin)) 0
    Nat.max w.max workset

/-- One round of the loop of `removeRange` on the range `r` under the iterator; the rest
is what comes before and after `r`. -/
def removeRound (rangeToRemove r : Range) (before after : List Range) (lengthRemoved : ℕ) :
    Cursor Range × ℕ :=
  let splitBegin := if r.begin < rangeToRemove.begin then ⟨r.begin, rangeToRemove.begin⟩
    else Range.empty
  let splitEnd := if rangeToRemove.end' < r.end' then ⟨rangeToRemove.end', r.end'⟩
    else Range.empty
  let removeRange := decide (r.begin < rangeToRemove.begin) ||
    (decide (rangeToRemove.end' < r.end') ||
      (decide (r.end' = rangeToRemove.end') && decide (r.begin = rangeToRemove.begin)))
  if removeRange then
    let lengthRemoved := add64 lengthRemoved (sub64 r.end' r.begin)
    let iter : Cursor Range := ⟨before, after⟩
    let (iter, lengthRemoved) :=
      if splitBegin.begin ≠ splitBegin.end' then
        (OrderedSet.insertAround Range.lt splitBegin iter,
          sub64 lengthRemoved (sub64 splitBegin.end' splitBegin.begin))
      else (iter, lengthRemoved)
    if splitEnd.begin ≠ splitEnd.end' then
      (OrderedSet.insertAround Range.lt splitEnd iter,
        sub64 lengthRemoved (sub64 splitEnd.end' splitEnd.begin))
    else (iter, lengthRemoved)
  else (⟨before ++ [r], after⟩, lengthRemoved)

/-- The loop of `removeRange`, with a bound on its rounds. -/
def removeLoop (rangeToRemove : Range) :
    (fuel : ℕ) → Cursor Range → (lengthRemoved : ℕ) → Option (List Range × ℕ)
  | 0, _, _ => none
  | fuel + 1, iter, lengthRemoved =>
    match iter.after with
    | [] => some (iter.before, lengthRemoved)
    | r :: after =>
      if Range.doRangesOverlap rangeToRemove r then
        let (iter, lengthRemoved) := removeRound rangeToRemove r iter.before after lengthRemoved
        removeLoop rangeToRemove fuel iter lengthRemoved
      else some (iter.before ++ r :: after, lengthRemoved)

/-- The returned length together with the calculator; nothing if the rounds do not
suffice. -/
def removeRange (begin length : ℕ) (w : WorksetCalculator) : Option (ℕ × WorksetCalculator) :=
  let rangeToRemove := rangeOf begin length
  let iter := OrderedSet.find Range.lt rangeToRemove w.hitRanges
  if iter.after.isEmpty then some (0, w)
  else
    -- remember the maximum before removing
    let w := if w.isMaxFresh then w
      else { w with max := Nat.max w.getWorkset w.max, isMaxFresh := true }
    match removeLoop rangeToRemove (w.hitRanges.length + 1) iter 0 with
    | some (hitRanges, lengthRemoved) => some (lengthRemoved, { w with hitRanges := hitRanges })
    | none => none

/-- The two calls that change the ranges. -/
inductive Op where
  | insertRange (begin len : ℕ)
  | removeRange (begin length : ℕ)

def step (op : Op) (w : WorksetCalculator) : WorksetCalculator :=
  match op with
  | .insertRange begin len => w.insertRange begin len
  | .removeRange begin length =>
    match w.removeRange begin length with
    | some (_, w) => w
    | none => w

/-- The range of the call ends below `2 ^ 64`. -/
def Op.Fits : Op → Prop
  | .insertRange begin len => begin + len < 2 ^ 64
  | .removeRange begin length => begin + length < 2 ^ 64

end WorksetCalculator

end Octf.Analytics
