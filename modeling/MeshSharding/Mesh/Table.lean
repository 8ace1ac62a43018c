import MeshSharding.Mesh.Build
import MeshSharding.Text.Blank

namespace MeshSharding

open Text

-- Declared meshes in the order of their declaration, found by the positions of their names. Names are
-- distinct, and all meshes have the same number of devices, those with a single device apart.
structure MeshTable where
  meshes    : List (String × Mesh) := []
  positions : List (String × Nat) := []
  deriving DecidableEq, Inhabited

namespace MeshTable

-- The name under which a mesh is declared: without white space at its ends and without one `@`
-- before it.
def declaredName (name : String) : Except Error String := do
  let name := MeshRef.withoutAt (trimBlank name.toList)
  require (name ≠ [] ∧ ¬ name.any isBlank) (.badMeshName (String.ofList name))
  return String.ofList name

def position? (table : MeshTable) (name : String) : Option Nat :=
  table.positions.lookup name

def get? (table : MeshTable) (name : String) : Option Mesh :=
  (table.position? name).bind fun position => (table.meshes[position]?).map (·.2)

-- The first mesh whose number of devices does not go together with the given number.
def conflict? (table : MeshTable) (count : Nat) : Option (String × Mesh) :=
  table.meshes.find? fun (_, other) =>
    count ≠ 1 ∧ other.deviceCount ≠ 1 ∧ other.deviceCount ≠ count

-- The name under which a mesh can be declared beside the others.
def entryName (table : MeshTable) (name : String) (mesh : Mesh) : Except Error String := do
  let name ← declaredName name
  require (table.position? name = none) (.repeatedMesh name)
  match table.conflict? mesh.deviceCount with
  | some (other, otherMesh) =>
    throw (.deviceCountConflict name mesh.deviceCount other otherMesh.deviceCount)
  | none => return name

-- Declares a mesh in a table that is kept, whether it takes the mesh or not.
def declareInPlace (name : String) (mesh : Mesh) : StateM MeshTable (Except Error Unit) := do
  let table ← get
  match table.entryName name mesh with
  | .error error => return .error error
  | .ok name     =>
    modify fun table => { table with positions := (name, table.meshes.length) :: table.positions }
    modify fun table => { table with meshes := table.meshes ++ [(name, mesh)] }
    return .ok ()

-- The table with a mesh declared in it.
def declare (table : MeshTable) (name : String) (mesh : Mesh) : Except Error MeshTable :=
  let outcome := (declareInPlace name mesh).run table
  outcome.1.map fun _ => outcome.2

-- The mesh that a reference stands for.
def resolve (table : MeshTable) : MeshRef → Except Error Mesh
  | .literal mesh => .ok mesh
  | .symbol name  =>
    match table.get? name with
    | some mesh => .ok mesh
    | none      => .error (.unknownMesh name)

end MeshTable

end MeshSharding
