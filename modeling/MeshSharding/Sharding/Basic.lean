import MeshSharding.Mesh.Basic
import MeshSharding.Axis.Basic

namespace MeshSharding

open Text

structure DimSharding where
  axes     : List AxisRef := []
  closed   : Bool := true
  priority : Option Nat := none
  deriving DecidableEq, Inhabited

-- How a tensor is split over a mesh: for each dimension, the axes that split it from major to minor.
-- A closed dimension keeps its axes; an open one may be split further. Axes can also be declared
-- replicated; an axis that occurs nowhere is replicated as well.
structure Sharding where
  mesh       : MeshRef
  dims       : List DimSharding
  replicated : List AxisRef := []
  deriving DecidableEq, Inhabited

namespace DimSharding

def withAxes (dim : DimSharding) (axes : List AxisRef) : DimSharding :=
  { dim with axes }

def isOpen (dim : DimSharding) : Bool :=
  !dim.closed

def isEmpty (dim : DimSharding) : Bool :=
  dim.axes.isEmpty

def text (dim : DimSharding) : String :=
  let mark := if dim.isOpen then ["?"] else []
  let priority := match dim.priority with
    | some p => s!"p{p}"
    | none   => ""
  inBraces (dim.axes.map toString ++ mark) ++ priority

instance : ToString DimSharding := ⟨text⟩

end DimSharding

namespace Sharding

-- The sharding that splits no dimension and is closed.
def fullyReplicated (mesh : MeshRef) (rank : Nat) : Sharding :=
  { mesh, dims := List.replicate rank {} }

-- The sharding that splits no dimension yet and is open in all of them.
def fullyOpen (mesh : MeshRef) (rank : Nat) : Sharding :=
  { mesh, dims := List.replicate rank { closed := false } }

def rank (sharding : Sharding) : Nat :=
  sharding.dims.length

def dimAxes (sharding : Sharding) : List (List AxisRef) :=
  sharding.dims.map (·.axes)

-- All axes that split a dimension, in the order of the dimensions.
def shardingAxes (sharding : Sharding) : List AxisRef :=
  sharding.dims.flatMap (·.axes)

def isFullyReplicated (sharding : Sharding) : Bool :=
  sharding.dims.all (·.isEmpty)

def withDims (sharding : Sharding) (dims : List DimSharding) : Sharding :=
  { sharding with dims }

def withReplicated (sharding : Sharding) (replicated : List AxisRef) : Sharding :=
  { sharding with replicated }

def withMesh (sharding : Sharding) (mesh : MeshRef) : Sharding :=
  { sharding with mesh }

-- Two shardings split alike if their dimensions have the same axes. Openness, priorities and
-- replicated axes do not count.
def splitsLike (sharding other : Sharding) : Bool :=
  sharding.dimAxes = other.dimAxes

-- A value with the current sharding needs no change to be sharded as required: it is on the same
-- mesh and split alike.
def satisfies (current : Option Sharding) (required : Sharding) : Bool :=
  current.any fun sharding => sharding.mesh = required.mesh && sharding.splitsLike required

def text (sharding : Sharding) : String :=
  let replicated :=
    if sharding.replicated.isEmpty then ""
    else ", replicated=" ++ AxisRef.listText sharding.replicated
  s!"<{sharding.mesh}, " ++ inBrackets (sharding.dims.map toString) ++ replicated ++ ">"

instance : ToString Sharding := ⟨text⟩

def attributeText (sharding : Sharding) : String :=
  s!"#sdy.sharding{sharding}"

-- The text of one sharding for each value of a list.
def listText (shardings : List Sharding) : String :=
  inBrackets (shardings.map toString)

def listAttributeText (shardings : List Sharding) : String :=
  s!"#sdy.sharding_per_value<{listText shardings}>"

end Sharding

end MeshSharding
