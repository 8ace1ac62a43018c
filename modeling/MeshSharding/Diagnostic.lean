import MeshSharding.Error

namespace MeshSharding

inductive Location
  | program
  | mesh (name : String)
  | operation (id : OpId) (mnemonic : String)
  deriving DecidableEq, Inhabited

-- An error together with the part of a program that it is about.
structure Diagnostic where
  location : Location
  cause    : Error
  deriving DecidableEq, Inhabited

def Location.text : Location → String
  | program               => "module"
  | mesh name             => s!"'sdy.mesh' @{name}"
  | operation id mnemonic => s!"'{mnemonic}' op #{id.index}"

instance : ToString Location := ⟨Location.text⟩

namespace Diagnostic

def kind (diagnostic : Diagnostic) : ErrorKind :=
  diagnostic.cause.kind

def message (diagnostic : Diagnostic) : String :=
  s!"{diagnostic.location}: {diagnostic.cause}"

end Diagnostic

-- Attaches a location to the error of a check.
def Location.attach {α : Type} (location : Location) : Except Error α → Except Diagnostic α :=
  Except.mapError (Diagnostic.mk location)

end MeshSharding
