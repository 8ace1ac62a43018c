import MeshSharding.Mesh.Build

namespace MeshSharding

-- What is wrong with a sub-axis of an axis of the given size.
def SubAxis.fault? (sub : SubAxis) (axisSize : Nat) : Option SubAxisFault :=
  if sub.preSize = 0 then some .zeroPreSize
  else if sub.size ≤ 1 then some .trivialSize
  else match Size.mul? sub.preSize sub.size with
    | none => some .tooLarge
    | some next =>
      if axisSize % next ≠ 0 then some .notDividing
      else if next = axisSize ∧ sub.preSize = 1 then some .spansAxis
      else none

namespace AxisRef

-- The number of devices along a reference.
def sizeIn (axis : AxisRef) (mesh : Mesh) : Except Error Nat :=
  match axis.part with
  | some sub => .ok sub.size
  | none     => mesh.requireAxisSize axis.name

-- The pre-size of the sub-axis that would follow.
def nextPreSizeIn (axis : AxisRef) (mesh : Mesh) : Except Error Nat := do
  let size ← axis.sizeIn mesh
  match Size.mul? axis.preSize size with
  | some next => return next
  | none      => throw (.invalidSubAxis axis .tooLarge)

-- The reference names an axis of the mesh, and if it is a sub-axis, a well-formed one.
def check (axis : AxisRef) (mesh : Mesh) : Except Error Unit := do
  let axisSize ← mesh.requireAxisSize axis.name
  match axis.part.bind (·.fault? axisSize) with
  | some fault => throw (.invalidSubAxis axis fault)
  | none       => return ()

-- The factor of two neighbouring sub-axes. It is the whole axis if nothing is left of it.
def merge? (axis other : AxisRef) (mesh : Mesh) : Option AxisRef :=
  match axis.part, other.part, mesh.axisSize? axis.name with
  | some sub, some sub', some axisSize =>
    if axis.canMerge other then
      if sub.preSize = 1 ∧ sub.size * sub'.size = axisSize then some (whole axis.name)
      else some (AxisRef.sub axis.name sub.preSize (sub.size * sub'.size))
    else none
  | _, _, _ => none

-- References are ordered by the position of their axis, then by pre-size, then the whole axis
-- before its parts and smaller parts before larger ones. Axes that the mesh does not have come last,
-- by name.
def order (mesh : Mesh) (axis other : AxisRef) : Ordering :=
  (compare (mesh.axisPosition axis.name) (mesh.axisPosition other.name)).then <|
    (compare axis.name other.name).then <|
      (compare axis.preSize other.preSize).then <|
        compare (axis.part.map (·.size)) (other.part.map (·.size))

end AxisRef

end MeshSharding
