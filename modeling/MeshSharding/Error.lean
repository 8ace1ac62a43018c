import MeshSharding.Handle
import MeshSharding.Tensor
import MeshSharding.Sharding.Basic

namespace MeshSharding

open Text

-- The classes of errors.
inductive ErrorKind
  -- A mesh is malformed, or two meshes of a program do not go together.
  | meshConsistency
  -- An axis is assigned more than once, or a reference to an axis is malformed.
  | axisOverlap
  -- A size is not divisible by the sizes of the axes that split it.
  | divisibility
  -- Ranks, types or counts do not line up.
  | shapeMismatch
  -- A collective declares a sharding that it does not produce.
  | outShardingMismatch
  -- A rule on order or uniqueness is violated.
  | ordering
  -- A mesh or an axis is not known.
  | symbolResolution
  -- An operation is used in a way its structure forbids.
  | invalidOperation
  -- The shardings of a program cannot be brought into agreement.
  | propagation
  deriving DecidableEq, Inhabited

-- What can be wrong with a sub-axis.
inductive SubAxisFault
  | zeroPreSize
  | trivialSize
  | tooLarge
  | notDividing
  | spansAxis
  deriving DecidableEq, Inhabited

-- Where a type is expected.
inductive TypedPlace
  | result
  | blockArgument (index : Nat)
  | returnedValue (index : Nat)
  | elementwiseValue (index : Nat)
  deriving DecidableEq, Inhabited

-- What is counted where a number of things is expected.
inductive Counted
  | gatheringLists
  | slicingLists
  | reduceScatterLists
  | operands
  | results
  | regions
  | blockArguments
  | returnedValues
  | inShardings
  | outShardings
  deriving DecidableEq, Inhabited

-- What already uses an axis that a reduction asks for.
inductive AxisUse
  | operandDims
  | operandReplicated
  | outDims
  deriving DecidableEq, Inhabited

-- What is wrong, with the data that the wording of it needs.
inductive Error
  -- Meshes.
  | emptyAxisName
  | badAxisSize (axis : String)
  | repeatedAxis (axis : String)
  | deviceIdCount (actual expected : Nat)
  | repeatedDeviceId (id : Nat)
  | deviceIdOutOfRange (id count : Nat)
  | identityDeviceIds
  | badMeshName (name : String)
  | repeatedMesh (name : String)
  | deviceCountConflict (name : String) (count : Nat) (other : String) (otherCount : Nat)
  | incompatibleMeshes (mesh other : MeshRef)
  | differentGrids (mesh other : Mesh)
  -- Names.
  | unknownMesh (name : String)
  | unknownAxis (axis : String) (mesh : Mesh)
  | unknownManualAxis (axis : String) (mesh : MeshRef)
  | manualAxesWithoutMesh (axes : List AxisRef)
  -- Axes.
  | invalidSubAxis (axis : AxisRef) (fault : SubAxisFault)
  | overlappingAxes (axis other : AxisRef)
  | axisAlreadyInUse (axis : AxisRef) (dim : Nat)
  | reductionAxisInUse (axis : AxisRef) (place : AxisUse)
  | manualSubAxis (axis : AxisRef)
  -- Sizes.
  | indivisibleDim (dim size shards : Nat)
  | manualAxisPadding (dim size shards : Nat)
  -- Ranks, types and counts.
  | rankMismatch (sharding tensor : Nat)
  | typeMismatch (place : TypedPlace) (expected actual : TensorType)
  | arityMismatch (counted : Counted) (expected actual : Nat)
  -- Results of collectives.
  | missingOperandSharding
  | outShardingMismatch (expected actual : Sharding)
  | dimShardingMismatch (operand out : List (List AxisRef))
  | shardCountMismatch (dim operand out : Nat)
  -- Order.
  | axesNotSuffix (axes dimAxes : List AxisRef) (dim : Nat)
  | noMoves
  | emptyMove (source : Nat)
  | reusedDim (dim : Nat)
  | sourcesNotAscending (previous current : Nat)
  | sameDim (dim : Nat)
  | dimOutOfRange (dim rank : Nat)
  | unsortedAxes (axes : List AxisRef)
  | unmergedSubAxes (axis other : AxisRef)
  | manualAxisAfterFreeAxis (axis free : AxisRef) (dim : Nat)
  -- Structure.
  | bothDirectionBarrier
  | invalidEdgeOwner (definer : Option String)
  | edgeOwnerHasOtherUsers (owner : ValueId)
  | unknownValue (value : ValueId)
  | shardingNotSettable (value : ValueId)
  | regionAlreadyAttached (block : BlockId)
  | missingTerminator
  | valueNotInScope (value : ValueId)
  | unexpectedConstraint
  -- Agreement.
  | groupConflict (group : Int) (sharding other : Sharding)
  | groupCrossesManual (group : Int)
  | notConverged (limit : Nat)
  -- No error that a call answers with: it panics, because a list has no entry with the index.
  | indexOutOfBounds (length index : Nat)
  deriving DecidableEq, Inhabited

def SubAxisFault.text : SubAxisFault → String
  | zeroPreSize => "pre-size must be at least 1"
  | trivialSize => "size must be greater than 1"
  | tooLarge    => "pre-size times size overflows"
  | notDividing => "pre-size times size must divide the full axis size"
  | spansAxis   => "sub-axis spans the full axis"

instance : ToString SubAxisFault := ⟨SubAxisFault.text⟩

def TypedPlace.text : TypedPlace → String
  | result             => "result"
  | blockArgument i    => s!"block argument #{i}"
  | returnedValue i    => s!"returned value #{i}"
  | elementwiseValue i => s!"element-wise value #{i}"

instance : ToString TypedPlace := ⟨TypedPlace.text⟩

def Counted.text : Counted → String
  | gatheringLists     => "gathering axis lists"
  | slicingLists       => "slicing axis lists"
  | reduceScatterLists => "reduce-scatter axis lists"
  | operands           => "operands"
  | results            => "results"
  | regions            => "regions"
  | blockArguments     => "block arguments"
  | returnedValues     => "returned values"
  | inShardings        => "in_shardings"
  | outShardings       => "out_shardings"

instance : ToString Counted := ⟨Counted.text⟩

def AxisUse.text : AxisUse → String
  | operandDims       => "operand dimension shardings"
  | operandReplicated => "operand replicated axes"
  | outDims           => "out_sharding dimension shardings"

instance : ToString AxisUse := ⟨AxisUse.text⟩

namespace Error

open AxisRef (listText listsText)

def message : Error → String
  | emptyAxisName =>
    "mesh axis names must be non-empty"
  | badAxisSize axis =>
    s!"mesh axis '{axis}' must have size > 0 and must keep the mesh device count within usize"
  | repeatedAxis axis =>
    s!"mesh axis '{axis}' appears more than once"
  | deviceIdCount actual expected =>
    s!"mesh has {actual} device id(s), but axis sizes imply {expected} device(s)"
  | repeatedDeviceId id =>
    s!"mesh device id {id} appears more than once"
  | deviceIdOutOfRange id count =>
    s!"mesh device id {id} is out of range for a mesh with {count} device(s)"
  | identityDeviceIds =>
    "mesh device ids must not be the identity ordering; omit them instead"
  | badMeshName name =>
    s!"mesh symbol names must be non-empty and must not contain whitespace: '{name}'"
  | repeatedMesh name =>
    s!"mesh '@{name}' is declared more than once"
  | deviceCountConflict name count other otherCount =>
    s!"mesh '@{name}' has {count} device(s), but mesh '@{other}' has {otherCount} device(s)"
  | incompatibleMeshes mesh other =>
    s!"shardings refer to incompatible meshes {mesh} and {other}"
  | differentGrids mesh other =>
    s!"shardings refer to incompatible meshes {mesh} and {other}"
  | unknownMesh name =>
    s!"unknown mesh '@{name}'"
  | unknownAxis axis mesh =>
    s!"unknown axis '{axis}' in mesh {mesh}"
  | unknownManualAxis axis mesh =>
    s!"unknown axis '{axis}' in mesh {mesh}"
  | manualAxesWithoutMesh axes =>
    s!"manual axes {listText axes} need at least one in or out sharding to resolve their mesh"
  | invalidSubAxis axis fault =>
    s!"invalid sub-axis {axis}: {fault}"
  | overlappingAxes axis other =>
    s!"axis {axis} overlaps with axis {other}, which is already in use"
  | axisAlreadyInUse axis dim =>
    s!"axis {axis} is already assigned and cannot be used to slice dimension #{dim}"
  | reductionAxisInUse axis place =>
    s!"axis {axis} is not a reduction axis candidate: it is already used in the {place}"
  | manualSubAxis axis =>
    s!"manual axis {axis} is split into a sub-axis, which is not supported"
  | indivisibleDim dim size shards =>
    s!"dimension #{dim} of size {size} is not divisible by the product of its axis sizes " ++
      s!"({shards})"
  | manualAxisPadding dim size shards =>
    s!"dimension #{dim} of size {size} is not divisible by the product of its manual axis sizes " ++
      s!"({shards}); manual axes must not require padding"
  | rankMismatch sharding tensor =>
    s!"sharding has rank {sharding}, but the tensor has rank {tensor}"
  | typeMismatch place expected actual =>
    s!"expected {place} of type \x60{expected}\x60, but got \x60{actual}\x60"
  | arityMismatch counted expected actual =>
    s!"expected {expected} {counted}, but got {actual}"
  | missingOperandSharding =>
    "the operand has no sharding and this operation requires one"
  | outShardingMismatch expected actual =>
    s!"out_sharding {actual} does not match the sharding {expected} computed from the operand " ++
      "sharding"
  | dimShardingMismatch operand out =>
    "operand sharding and out_sharding have different dimension shardings: " ++
      s!"{listsText operand} vs {listsText out}"
  | shardCountMismatch dim operand out =>
    s!"dimension #{dim} is sharded by {operand} device(s) in the operand, " ++
      s!"but by {out} device(s) in the out_sharding"
  | axesNotSuffix axes dimAxes dim =>
    s!"axes {listText axes} are not a suffix of the axes {listText dimAxes} of dimension #{dim}"
  | noMoves =>
    "all_to_all requires at least one parameter"
  | emptyMove source =>
    s!"all_to_all parameter axes must be non-empty (source dimension #{source})"
  | reusedDim dim =>
    s!"dimension #{dim} is used more than once across all_to_all parameters"
  | sourcesNotAscending previous current =>
    s!"all_to_all source dimensions must be strictly ascending, but #{current} follows " ++
      s!"#{previous}"
  | sameDim dim =>
    s!"all_to_all source and target dimensions must differ (dimension #{dim})"
  | dimOutOfRange dim rank =>
    s!"dimension #{dim} is out of range for rank {rank}"
  | unsortedAxes axes =>
    s!"axes {listText axes} are not sorted in mesh order or contain duplicates"
  | unmergedSubAxes axis other =>
    s!"sub-axes {axis} and {other} are adjacent and must be merged"
  | manualAxisAfterFreeAxis axis free dim =>
    s!"manual axis {axis} follows free axis {free} in dimension #{dim}"
  | bothDirectionBarrier =>
    "propagation_barrier with allowed_direction=BOTH is meaningless; remove the barrier instead"
  | invalidEdgeOwner definer =>
    let owner := match definer with
      | some mnemonic => s!"a result of '{mnemonic}'"
      | none          => "a block argument"
    "data_flow_edge input must be a result of a structural operation from another dialect, " ++
      s!"got {owner}"
  | edgeOwnerHasOtherUsers owner =>
    s!"edge owner {owner} must have exactly one user, which is its data_flow_edge"
  | unknownValue value =>
    s!"value {value} does not belong to this module"
  | shardingNotSettable value =>
    s!"the sharding of {value} is fixed by its defining operation and cannot be replaced"
  | regionAlreadyAttached block =>
    s!"region block #{block.index} is already attached to another operation"
  | missingTerminator =>
    "region terminator must be an \x60sdy.return\x60 (or \x60return\x60 for the entry body)"
  | valueNotInScope value =>
    s!"value {value} is defined after its use or outside of the enclosing region"
  | unexpectedConstraint =>
    "sharding_constraint operations are not allowed after propagation"
  | groupConflict group sharding other =>
    s!"sharding group {group} contains values with different shardings: {sharding} and {other}"
  | groupCrossesManual group =>
    s!"sharding group {group} crosses a manual_computation boundary"
  | notConverged limit =>
    s!"propagation did not converge within {limit} iteration(s)"
  | indexOutOfBounds length index =>
    s!"index out of bounds: the len is {length} but the index is {index}"

def kind : Error → ErrorKind
  | emptyAxisName | badAxisSize .. | repeatedAxis .. | deviceIdCount .. | repeatedDeviceId ..
  | deviceIdOutOfRange .. | identityDeviceIds | badMeshName .. | repeatedMesh ..
  | deviceCountConflict .. | incompatibleMeshes .. | differentGrids .. => .meshConsistency
  | unknownMesh .. | unknownAxis .. | unknownManualAxis .. | manualAxesWithoutMesh .. =>
    .symbolResolution
  | invalidSubAxis .. | overlappingAxes .. | axisAlreadyInUse .. | reductionAxisInUse ..
  | manualSubAxis .. => .axisOverlap
  | indivisibleDim .. | manualAxisPadding .. => .divisibility
  | rankMismatch .. | typeMismatch .. | arityMismatch .. => .shapeMismatch
  | missingOperandSharding | outShardingMismatch .. | dimShardingMismatch ..
  | shardCountMismatch .. => .outShardingMismatch
  | axesNotSuffix .. | noMoves | emptyMove .. | reusedDim .. | sourcesNotAscending .. | sameDim ..
  | dimOutOfRange .. | unsortedAxes .. | unmergedSubAxes .. | manualAxisAfterFreeAxis .. =>
    .ordering
  | bothDirectionBarrier | invalidEdgeOwner .. | edgeOwnerHasOtherUsers .. | unknownValue ..
  | shardingNotSettable .. | regionAlreadyAttached .. | missingTerminator | valueNotInScope ..
  | unexpectedConstraint => .invalidOperation
  | groupConflict .. | groupCrossesManual .. | notConverged .. => .propagation
  -- A panic is in no class of errors, and nobody asks for its class.
  | indexOutOfBounds .. => .invalidOperation

instance : ToString Error := ⟨message⟩

end Error

-- Refuses with the given error unless the condition holds.
def require (condition : Prop) [Decidable condition] (error : Error) : Except Error Unit :=
  if condition then .ok () else .error error

theorem require_eq_ok_iff {condition : Prop} [Decidable condition] {error : Error} :
    require condition error = .ok () ↔ condition := by
  unfold require
  split <;> simp [*]

end MeshSharding
