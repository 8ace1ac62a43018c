import MeshSharding.Size
import MeshSharding.Text.Quoted

namespace MeshSharding

open Text

structure MeshAxis where
  name : String
  size : Nat
  deriving DecidableEq, Inhabited

-- A grid of devices with named axes, from major to minor. Without device ids the devices are counted
-- through the grid in order; otherwise the ids say which device stands where. A mesh without axes and
-- with one device id is maximal: it is that single device.
structure Mesh where
  axes      : List MeshAxis
  deviceIds : List Nat := []
  deriving DecidableEq, Inhabited

-- A mesh is named, or written out in place.
inductive MeshRef
  | symbol (name : String)
  | literal (mesh : Mesh)
  deriving DecidableEq, Inhabited

namespace MeshAxis

def text (axis : MeshAxis) : String :=
  s!"{quoted axis.name}={axis.size}"

instance : ToString MeshAxis := ⟨text⟩

end MeshAxis

namespace Mesh

-- The mesh that is one given device.
def maximal (deviceId : Nat) : Mesh :=
  ⟨[], [deviceId]⟩

def isMaximal (mesh : Mesh) : Bool :=
  mesh.axes.isEmpty && mesh.deviceIds.length == 1

def deviceCount (mesh : Mesh) : Nat :=
  Size.satProd (mesh.axes.map (·.size))

-- The position of an axis. Axes that the mesh does not have stand after all of its own.
def axisPosition (mesh : Mesh) (name : String) : Nat :=
  mesh.axes.findIdx (·.name = name)

def axisIndex? (mesh : Mesh) (name : String) : Option Nat :=
  mesh.axes.findIdx? (·.name = name)

def axisSize? (mesh : Mesh) (name : String) : Option Nat :=
  (mesh.axes.find? (·.name = name)).map (·.size)

-- Two meshes have the same grid if they differ at most in the order of their devices.
def sameGrid (mesh other : Mesh) : Bool :=
  mesh.axes = other.axes

def text (mesh : Mesh) : String :=
  let axes := inBrackets (mesh.axes.map toString)
  let ids := inBrackets (mesh.deviceIds.map toString)
  let order := if mesh.deviceIds.isEmpty then "" else ", device_ids=" ++ ids
  "<" ++ axes ++ order ++ ">"

instance : ToString Mesh := ⟨text⟩

end Mesh

namespace MeshRef

-- One `@` before the name of a mesh is no part of it.
def withoutAt : List Char → List Char
  | '@' :: rest => rest
  | name        => name

-- The reference to a declared mesh.
def ofName (name : String) : MeshRef :=
  symbol (String.ofList (withoutAt name.toList))

def text : MeshRef → String
  | symbol name  => s!"@{name}"
  | literal mesh => s!"mesh{mesh}"

instance : ToString MeshRef := ⟨text⟩

end MeshRef

end MeshSharding
