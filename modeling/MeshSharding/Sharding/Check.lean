import MeshSharding.Mesh.Table
import MeshSharding.Axis.CanonicalSet

namespace MeshSharding

-- The number of parts into which a dimension is split.
def DimSharding.shardCount (dim : DimSharding) (mesh : Mesh) : Except Error Nat :=
  AxisRef.totalSize dim.axes mesh

namespace Sharding

def shardCounts (sharding : Sharding) (mesh : Mesh) : Except Error (List Nat) :=
  sharding.dims.mapM (·.shardCount mesh)

-- The number of parts into which the tensor is split.
def totalShards (sharding : Sharding) (mesh : Mesh) : Except Error Nat := do
  let counts ← sharding.shardCounts mesh
  return Size.satProd counts

-- Takes the axes into use one after the other. The result holds all used axes, in order.
def useAxes (mesh : Mesh) (used : List AxisRef) : List AxisRef → Except Error (List AxisRef)
  | [] => .ok used
  | axis :: rest => do
    axis.check mesh
    match used.find? (·.overlaps axis) with
    | some other => .error (.overlappingAxes axis other)
    | none       => useAxes mesh (used ++ [axis]) rest

-- Takes the axes of the dimensions into use, where `index` is the number of the first one.
def useDims (mesh : Mesh) (index : Nat) (used : List AxisRef) :
    List (DimSharding × Nat) → Except Error (List AxisRef)
  | [] => .ok used
  | (dim, size) :: rest => do
    let used ← useAxes mesh used dim.axes
    AxisRef.checkMerged dim.axes
    let shards ← dim.shardCount mesh
    require (size % shards = 0) (.indivisibleDim index size shards)
    useDims mesh (index + 1) used rest

-- The sharding fits a tensor of the given shape on the given mesh. It has as many dimensions as the
-- tensor; its axes are well formed and do not overlap, no matter where they occur; neighbours in a
-- dimension are merged; the replicated axes are in canonical form; and the size of each dimension is
-- divisible by its number of shards.
def checkIn (sharding : Sharding) (mesh : Mesh) (shape : List Nat) : Except Error Unit := do
  require (sharding.rank = shape.length) (.rankMismatch sharding.rank shape.length)
  let used ← useDims mesh 0 [] (sharding.dims.zip shape)
  let _ ← useAxes mesh used sharding.replicated
  AxisRef.checkCanonical sharding.replicated mesh

-- The sharding fits a tensor of the given shape on the mesh that it refers to.
def check (sharding : Sharding) (meshes : MeshTable) (shape : List Nat) : Except Error Unit := do
  let mesh ← meshes.resolve sharding.mesh
  sharding.checkIn mesh shape

end Sharding

end MeshSharding
