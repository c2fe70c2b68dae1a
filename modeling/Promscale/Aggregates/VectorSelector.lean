import Promscale.Aggregates.Basic

/-!
# The vector selector

`src/aggregates/vector_selector.rs`. The state is a vector of buckets; bucket `j`
ends (inclusive) at `first_bucket_max_time + j * bucket_width`, begins (exclusive)
where the previous bucket ends, and holds the last sample seen in it.
-/
namespace Promscale.Aggregates

variable {F : Type}

structure VectorSelector (F : Type) where
  firstBucketMaxTime : Int
  lastBucketMaxTime : Int
  endTime : Int
  /-- Milliseconds. -/
  bucketWidth : Int
  /-- Milliseconds. -/
  lookback : Int
  elements : List (Option (Int × F))
  deriving DecidableEq, Repr

namespace VectorSelector

def new (startTime endTime bucketWidth lookback : Int) : VectorSelector F :=
  let (numBuckets, lastBucketMaxTime) :=
    if bucketWidth = 0 then (1, endTime)
    else
      (((endTime - startTime).tdiv (bucketWidth * USECS_PER_MS)) + 1,
        endTime - (endTime - startTime).tmod (bucketWidth * USECS_PER_MS))
  { firstBucketMaxTime := startTime
    lastBucketMaxTime
    endTime
    bucketWidth
    lookback
    elements := List.replicate (asUsize numBuckets) none }

/-- One round of the loop of `combine`. -/
def combineBucket : Option (Int × F) → Option (Int × F) → Option (Int × F)
  | none, none => none
  | some mine, none => some mine
  | none, some other => some other
  | some mine, some other => if other.1 > mine.1 then some other else some mine

def combine (self other : VectorSelector F) : Except Raise (VectorSelector F) :=
  if self.firstBucketMaxTime ≠ other.firstBucketMaxTime
      ∨ self.lastBucketMaxTime ≠ other.lastBucketMaxTime
      ∨ self.endTime ≠ other.endTime
      ∨ self.bucketWidth ≠ other.bucketWidth
      ∨ self.lookback ≠ other.lookback
      ∨ self.elements.length ≠ other.elements.length then
    .error (.error "trying to combine incompatible vector selectors")
  else
    .ok { self with elements := List.zipWith combineBucket self.elements other.elements }

def getBucket (self : VectorSelector F) (time : Int) : Except Raise Nat :=
  if time < self.firstBucketMaxTime - self.lookback * USECS_PER_MS then
    .error (.error "input time less than expected")
  else if time > self.lastBucketMaxTime then
    .error (.error "input time greater than the last bucket's time")
  else if time ≤ self.firstBucketMaxTime then .ok 0
  else
    let offset := time - self.firstBucketMaxTime
    let width := self.bucketWidth * USECS_PER_MS
    if width = 0 then .error (.panic "attempt to divide by zero")
    else
      let bucket := offset.tdiv width + 1
      .ok (asUsize (if offset.tmod width = 0 then bucket - 1 else bucket))

def insert (self : VectorSelector F) (time : Int) (val : F) :
    Except Raise (VectorSelector F) :=
  if time > self.endTime then .error (.error "input time greater than expected")
  else if time > self.lastBucketMaxTime then .ok self
  else
    match self.getBucket time with
    | .error e => .error e
    | .ok bucketIdx =>
      match self.elements[bucketIdx]? with
      | none => .error (.panic "index out of bounds")
      | some (some (existingTime, _)) =>
        if existingTime < time then
          .ok { self with elements := self.elements.set bucketIdx (some (time, val)) }
        else .ok self
      | some none => .ok { self with elements := self.elements.set bucketIdx (some (time, val)) }

/-- The samples of one aggregate, inserted in order. -/
def insertAll (self : VectorSelector F) : List (Int × F) → Except Raise (VectorSelector F)
  | [] => .ok self
  | (time, val) :: rest =>
    match self.insert time val with
    | .error e => .error e
    | .ok next => next.insertAll rest

section Results
variable [ToBits F]

/-- What one round of the loop of `results` pushes: the bucket's own sample, or the
last sample of an earlier bucket when this one is empty. -/
def bucketResult (lookback : Int) (last : Option (Int × F)) (ts : Int) :
    Option (Int × F) → Option F
  | none =>
    match last with
    | none => none
    | some (t, v) =>
      if t ≥ ts - lookback * USECS_PER_MS ∧ ToBits.toBits v ≠ STALE_NAN then some v else none
  | some (t, v2) =>
    if t ≥ ts - lookback * USECS_PER_MS ∧ ToBits.toBits v2 ≠ STALE_NAN then some v2 else none

/-- `last` after one round. -/
def lastAfter (last : Option (Int × F)) : Option (Int × F) → Option (Int × F)
  | none => last
  | some tuple => some tuple

/-- The loop of `results`, from bucket time `ts` on. -/
def resultsFrom (bucketWidth lookback : Int) (last : Option (Int × F)) (ts : Int) :
    List (Option (Int × F)) → List (Option F)
  | [] => []
  | content :: rest =>
    bucketResult lookback last ts content ::
      resultsFrom bucketWidth lookback (lastAfter last content)
        (ts + bucketWidth * USECS_PER_MS) rest

def results (self : VectorSelector F) : List (Option F) :=
  resultsFrom self.bucketWidth self.lookback none self.firstBucketMaxTime self.elements

def toPgArray (self : VectorSelector F) : List (Option F) := self.results

end Results

end VectorSelector

/-- `vector_selector_transition_inner`; the parameters only matter for the first
sample of a state. -/
def vectorSelectorTransition (state : Option (VectorSelector F))
    (startTime endTime bucketWidth lookback time : Int) (value : F) :
    Except Raise (Option (VectorSelector F)) :=
  let state := state.getD (VectorSelector.new startTime endTime bucketWidth lookback)
  (state.insert time value).map some

/-- `vector_selector_final` -/
def vectorSelectorFinal [ToBits F] (state : Option (VectorSelector F)) :
    Option (List (Option F)) :=
  state.map VectorSelector.toPgArray

/-- `vector_selector_combine_inner` -/
def vectorSelectorCombine :
    Option (VectorSelector F) → Option (VectorSelector F) →
      Except Raise (Option (VectorSelector F))
  | none, none => .ok none
  | none, some state2 => .ok (some state2)
  | some state1, none => .ok (some state1)
  | some state1, some state2 => (state1.combine state2).map some

end Promscale.Aggregates
