import MeshSharding.Collective.Transform
import MeshSharding.Sharding.Check

namespace MeshSharding

namespace Sharding

def checkShardCounts (mesh outMesh : Mesh) (index : Nat) :
    List (DimSharding × DimSharding) → Except Error Unit
  | [] => .ok ()
  | (dim, outDim) :: rest => do
    let count ← dim.shardCount mesh
    let outCount ← outDim.shardCount outMesh
    require (count = outCount) (.shardCountMismatch index count outCount)
    checkShardCounts mesh outMesh (index + 1) rest

-- A permutation keeps the grid of the mesh and the number of shards of each dimension.
def checkPermute (operand : Sharding) (mesh : Mesh) (out : Sharding) (outMesh : Mesh) :
    Except Error Unit := do
  require (mesh.sameGrid outMesh) (.differentGrids mesh outMesh)
  require (operand.rank = out.rank) (.rankMismatch out.rank operand.rank)
  checkShardCounts mesh outMesh 0 (operand.dims.zip out.dims)

def checkUnusedByOut (out : Sharding) : List AxisRef → Except Error Unit
  | [] => .ok ()
  | axis :: rest => do
    require (¬ AxisRef.anyOverlaps out.shardingAxes axis) (.reductionAxisInUse axis .outDims)
    checkUnusedByOut out rest

-- A reduction goes over a canonical set of axes that neither side uses, and splits the dimensions
-- as before.
def checkReduce (operand : Sharding) (axes : List AxisRef) (out : Sharding) (mesh : Mesh) :
    Except Error Unit := do
  axes.forM (·.check mesh)
  AxisRef.checkCanonical axes mesh
  operand.checkFree axes
  checkUnusedByOut out axes
  require (operand.splitsLike out) (.dimShardingMismatch operand.dimAxes out.dimAxes)

-- The declared sharding splits the dimensions as expected.
def checkDeclared (expected out : Sharding) : Except Error Unit :=
  require (expected.splitsLike out) (.outShardingMismatch (expected.withMesh out.mesh) out)

end Sharding

-- The declared sharding is the one that the collective produces from that of its operand.
def Collective.check (collective : Collective) (operand : Sharding) (mesh outMesh : Mesh) :
    Except Error Unit :=
  match collective.action with
  | .allGather axes    => do (← operand.allGather axes).checkDeclared collective.out
  | .allSlice axes     => do (← operand.allSlice axes).checkDeclared collective.out
  | .allToAll moves    => do (← operand.allToAll moves).checkDeclared collective.out
  | .collectivePermute => operand.checkPermute mesh collective.out outMesh
  | .allReduce axes    => operand.checkReduce axes collective.out mesh
  | .reduceScatter axes => do (← operand.reduceScatter axes).checkDeclared collective.out

end MeshSharding
