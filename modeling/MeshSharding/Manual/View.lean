import MeshSharding.Sharding.Check

namespace MeshSharding

-- Whether an axis, or the axis that it is a part of, is one of the manual axes.
def AxisRef.isManual (axis : AxisRef) (manual : List String) : Bool :=
  manual.contains axis.name

namespace Sharding

-- The sharding as seen in the body, which is written for one device along the manual axes: without
-- these.
def localView (sharding : Sharding) (manual : List String) : Sharding :=
  { sharding with
    dims := sharding.dims.map fun dim =>
      dim.withAxes (dim.axes.filter fun axis => !axis.isManual manual)
    replicated := sharding.replicated.filter fun axis => !axis.isManual manual }

-- The sharding as seen outside, from the one seen in the body: the manual axes that the declared
-- sharding has, and after them the free ones.
def globalView (declared inner : Sharding) (manual : List String) : Sharding :=
  { mesh := declared.mesh
    dims := List.zipWith (fun dim innerDim : DimSharding =>
        innerDim.withAxes (dim.axes.filter (·.isManual manual) ++ innerDim.axes))
      declared.dims inner.dims
    replicated := declared.replicated.filter (·.isManual manual) ++ inner.replicated }

-- The sizes of dimensions in the body, where `index` is the number of the first one.
def localDims (mesh : Mesh) (manual : List String) (index : Nat) :
    List (DimSharding × Nat) → Except Error (List Nat)
  | [] => .ok []
  | (dim, size) :: rest => do
    let shards ← AxisRef.totalSize (dim.axes.filter (·.isManual manual)) mesh
    require (size % shards = 0) (.manualAxisPadding index size shards)
    let rest ← localDims mesh manual (index + 1) rest
    return size / shards :: rest

-- The shape in the body of a tensor with the given shape outside.
def localShape (sharding : Sharding) (manual : List String) (mesh : Mesh) (shape : List Nat) :
    Except Error (List Nat) :=
  localDims mesh manual 0 (sharding.dims.zip shape)

-- In a dimension, the manual axes come before the free ones. Here `free` is the last free axis.
def checkManualFirst (manual : List String) (index : Nat) (free : Option AxisRef) :
    List AxisRef → Except Error Unit
  | [] => .ok ()
  | axis :: rest =>
    if axis.isManual manual then
      match free with
      | some other => .error (.manualAxisAfterFreeAxis axis other index)
      | none       => checkManualFirst manual index none rest
    else checkManualFirst manual index (some axis) rest

def checkDimsManualFirst (manual : List String) (index : Nat) :
    List DimSharding → Except Error Unit
  | [] => .ok ()
  | dim :: rest => do
    checkManualFirst manual index none dim.axes
    checkDimsManualFirst manual (index + 1) rest

-- The type in the body of a value that crosses the boundary of a manual computation, if its
-- sharding is fit for that.
def localType (sharding : Sharding) (manual : List String) (mesh : Mesh) (type : TensorType) :
    Except Error TensorType := do
  sharding.checkIn mesh type.shape
  checkDimsManualFirst manual 0 sharding.dims
  match sharding.shardingAxes.find? fun axis => axis.isSub && axis.isManual manual with
  | some axis => throw (.manualSubAxis axis)
  | none      => pure ()
  let shape ← sharding.localShape manual mesh type.shape
  return type.withShape shape

end Sharding

end MeshSharding
