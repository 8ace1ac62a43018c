import MeshSharding.Collective.Basic
import MeshSharding.Error

namespace MeshSharding

namespace Sharding

-- The axes without the given ones at their end.
def dropSuffix? (suffix axes : List AxisRef) : Option (List AxisRef) :=
  if suffix <:+ axes then some (axes.take (axes.length - suffix.length)) else none

theorem dropSuffix?_eq_some_iff {suffix axes kept : List AxisRef} :
    dropSuffix? suffix axes = some kept ↔ axes = kept ++ suffix := by
  unfold dropSuffix?
  split
  case isTrue h =>
    obtain ⟨front, rfl⟩ := h
    simp [eq_comm]
  case isFalse h =>
    refine ⟨nofun, fun heq => absurd ⟨kept, heq.symm⟩ h⟩

-- Removes axes from the ends of dimensions, where `index` is the number of the first one.
def gatherDims (index : Nat) :
    List (DimSharding × List AxisRef) → Except Error (List DimSharding)
  | [] => .ok []
  | (dim, axes) :: rest =>
    match dropSuffix? axes dim.axes with
    | none      => .error (.axesNotSuffix axes dim.axes index)
    | some kept => do
      let rest ← gatherDims (index + 1) rest
      return dim.withAxes kept :: rest

def allGather (operand : Sharding) (axes : List (List AxisRef)) : Except Error Sharding := do
  require (axes.length = operand.rank) (.arityMismatch .gatheringLists operand.rank axes.length)
  let dims ← gatherDims 0 (operand.dims.zip axes)
  return operand.withDims dims

-- The axes can slice a dimension of an operand that is already sliced over others. The result
-- holds all slicing axes, in order.
def takeSlices (operand : Sharding) (index : Nat) (sliced : List AxisRef) :
    List AxisRef → Except Error (List AxisRef)
  | [] => .ok sliced
  | axis :: rest => do
    require (¬ AxisRef.anyOverlaps operand.shardingAxes axis) (.axisAlreadyInUse axis index)
    match sliced.find? (·.overlaps axis) with
    | some other => .error (.overlappingAxes axis other)
    | none       => takeSlices operand index (sliced ++ [axis]) rest

def takeAllSlices (operand : Sharding) (index : Nat) (sliced : List AxisRef) :
    List (List AxisRef) → Except Error (List AxisRef)
  | [] => .ok sliced
  | axes :: rest => do
    let sliced ← takeSlices operand index sliced axes
    takeAllSlices operand (index + 1) sliced rest

-- Appends the axes to the dimensions. A replicated axis that overlaps one of them is no longer
-- replicated.
def allSlice (operand : Sharding) (axes : List (List AxisRef)) : Except Error Sharding := do
  require (axes.length = operand.rank) (.arityMismatch .slicingLists operand.rank axes.length)
  let sliced ← takeAllSlices operand 0 [] axes
  let dims := operand.dims.zipWith (fun dim axes => dim.withAxes (dim.axes ++ axes)) axes
  let replicated := operand.replicated.filter fun axis => !AxisRef.anyOverlaps sliced axis
  return (operand.withDims dims).withReplicated replicated

-- The moves go between distinct dimensions, none of which occurs twice, with ascending sources.
-- Here `previous` is the source before them and `used` are the dimensions before them.
def checkMovesFrom (rank : Nat) (previous : Option Nat) (used : List Nat) :
    List AxisMove → Except Error Unit
  | [] => .ok ()
  | move :: rest => do
    require (move.source < rank) (.dimOutOfRange move.source rank)
    require (move.target < rank) (.dimOutOfRange move.target rank)
    require (move.source ≠ move.target) (.sameDim move.source)
    require (move.axes ≠ []) (.emptyMove move.source)
    match previous with
    | some p => require (p < move.source) (.sourcesNotAscending p move.source)
    | none   => .ok ()
    require (move.source ∉ used) (.reusedDim move.source)
    require (move.target ∉ used) (.reusedDim move.target)
    checkMovesFrom rank (some move.source) (move.source :: move.target :: used) rest

def checkMoves (moves : List AxisMove) (rank : Nat) : Except Error Unit := do
  require (moves ≠ []) .noMoves
  checkMovesFrom rank none [] moves

def applyMove (dims : List DimSharding) (move : AxisMove) : Except Error (List DimSharding) :=
  let sourceAxes := (dims[move.source]?.map (·.axes)).getD []
  match dropSuffix? move.axes sourceAxes with
  | none      => .error (.axesNotSuffix move.axes sourceAxes move.source)
  | some kept =>
    let dims := dims.modify move.source (·.withAxes kept)
    .ok (dims.modify move.target fun dim => dim.withAxes (dim.axes ++ move.axes))

def allToAll (operand : Sharding) (moves : List AxisMove) : Except Error Sharding := do
  checkMoves moves operand.rank
  let dims ← moves.foldlM applyMove operand.dims
  return operand.withDims dims

-- Neither the dimensions nor the replicated axes of the operand use one of the axes.
def checkFree (operand : Sharding) : List AxisRef → Except Error Unit
  | [] => .ok ()
  | axis :: rest => do
    require (¬ AxisRef.anyOverlaps operand.shardingAxes axis)
      (.reductionAxisInUse axis .operandDims)
    require (¬ AxisRef.anyOverlaps operand.replicated axis)
      (.reductionAxisInUse axis .operandReplicated)
    checkFree operand rest

def reduceScatter (operand : Sharding) (axes : List (List AxisRef)) : Except Error Sharding := do
  require (axes.length = operand.rank)
    (.arityMismatch .reduceScatterLists operand.rank axes.length)
  checkFree operand axes.flatten
  operand.allSlice axes

end Sharding

end MeshSharding
