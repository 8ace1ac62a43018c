import MeshSharding.Error

namespace MeshSharding

def MeshAxis.build (name : String) (size : Nat) : Except Error MeshAxis := do
  require (name ≠ "") .emptyAxisName
  require (size ≠ 0) (.badAxisSize name)
  return ⟨name, size⟩

namespace Mesh

-- The number of devices that the axes span, where `count` of them are spanned by axes with the
-- names `seen`.
def spannedBy (seen : List String) (count : Nat) : List MeshAxis → Except Error Nat
  | [] => .ok count
  | axis :: rest => do
    require (axis.name ≠ "") .emptyAxisName
    require (axis.size ≠ 0) (.badAxisSize axis.name)
    require (axis.name ∉ seen) (.repeatedAxis axis.name)
    match Size.mul? count axis.size with
    | some count => spannedBy (axis.name :: seen) count rest
    | none       => .error (.badAxisSize axis.name)

-- Each device id stands for one of `count` devices, and for none of those already seen.
def checkDistinctIds (count : Nat) (seen : List Nat) : List Nat → Except Error Unit
  | [] => .ok ()
  | id :: rest => do
    require (id < count) (.deviceIdOutOfRange id count)
    require (id ∉ seen) (.repeatedDeviceId id)
    checkDistinctIds count (id :: seen) rest

def checkDeviceIds (count : Nat) (deviceIds : List Nat) : Except Error Unit := do
  require (deviceIds.length = count) (.deviceIdCount deviceIds.length count)
  checkDistinctIds count [] deviceIds
  require (deviceIds ≠ List.range count) .identityDeviceIds

-- A mesh with axes of distinct names and positive sizes, no more devices than the greatest size, and
-- device ids that are a permutation other than the identity, or none. The one exception is the
-- maximal mesh, which may be any device.
def build (axes : List MeshAxis) (deviceIds : List Nat := []) : Except Error Mesh := do
  let count ← spannedBy [] 1 axes
  unless deviceIds = [] ∨ (axes = [] ∧ deviceIds.length = 1) do
    checkDeviceIds count deviceIds
  return ⟨axes, deviceIds⟩

-- The size of an axis of the mesh.
def requireAxisSize (mesh : Mesh) (name : String) : Except Error Nat :=
  match mesh.axisSize? name with
  | some size => .ok size
  | none      => .error (.unknownAxis name mesh)

end Mesh

end MeshSharding
