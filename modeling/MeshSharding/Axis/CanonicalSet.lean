import MeshSharding.Axis.InMesh

namespace MeshSharding

namespace AxisRef

-- The number of devices along all of the axes together.
def totalSize (axes : List AxisRef) (mesh : Mesh) : Except Error Nat := do
  let sizes ← axes.mapM (·.sizeIn mesh)
  return Size.satProd sizes

-- No two neighbours in the list are one larger factor.
def checkMerged : List AxisRef → Except Error Unit
  | axis :: other :: rest => do
    require (¬ axis.canMerge other) (.unmergedSubAxes axis other)
    checkMerged (other :: rest)
  | _ => .ok ()

-- The list is in canonical form: in the order of the mesh, without overlaps, and with no two
-- neighbours that are one larger factor. It is enough to compare neighbours.
def checkCanonical (axes : List AxisRef) (mesh : Mesh) : Except Error Unit :=
  go axes
where
  go : List AxisRef → Except Error Unit
  | axis :: other :: rest => do
    require (order mesh axis other = .lt ∧ ¬ axis.overlaps other) (.unsortedAxes axes)
    require (¬ axis.canMerge other) (.unmergedSubAxes axis other)
    go (other :: rest)
  | _ => .ok ()

-- Merges an axis with the ones that follow it, as long as they do so directly.
def mergeFrom (mesh : Mesh) (axis : AxisRef) : List AxisRef → List AxisRef
  | [] => [axis]
  | other :: rest =>
    match axis.merge? other mesh with
    | some merged => mergeFrom mesh merged rest
    | none        => axis :: mergeFrom mesh other rest

-- The canonical form of a set of axes: sorted, then merged from left to right.
def canonicalize (axes : List AxisRef) (mesh : Mesh) : List AxisRef :=
  match axes.mergeSort (fun axis other => order mesh axis other ≠ .gt) with
  | [] => []
  | axis :: rest => mergeFrom mesh axis rest

end AxisRef

end MeshSharding
