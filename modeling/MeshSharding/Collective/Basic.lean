import MeshSharding.Sharding.Basic

namespace MeshSharding

open Text

-- Axes that move from the end of one dimension to the end of another.
structure AxisMove where
  axes   : List AxisRef
  source : Nat
  target : Nat
  deriving DecidableEq, Inhabited

inductive CollectiveAction
  -- Removes axes from the end of each dimension.
  | allGather (axes : List (List AxisRef))
  -- Appends axes to the end of each dimension.
  | allSlice (axes : List (List AxisRef))
  -- Moves axes between dimensions.
  | allToAll (moves : List AxisMove)
  -- Exchanges the axes of the dimensions, with as many shards as before.
  | collectivePermute
  -- Sums the parts of the value over axes that nothing uses.
  | allReduce (axes : List AxisRef)
  -- Sums the parts of the value, and splits the dimensions over the same axes.
  | reduceScatter (axes : List (List AxisRef))
  deriving DecidableEq, Inhabited

-- Communication between the devices of a mesh, described by what it does to a sharding. A collective
-- has one operand and one result of the same type, and declares the sharding of its result.
structure Collective where
  action : CollectiveAction
  out    : Sharding
  deriving DecidableEq, Inhabited

def AxisMove.text (move : AxisMove) : String :=
  s!"{AxisRef.listText move.axes}: {move.source}->{move.target}"

instance : ToString AxisMove := ⟨AxisMove.text⟩

namespace Collective

def mnemonic (collective : Collective) : String :=
  match collective.action with
  | .allGather _       => "sdy.all_gather"
  | .allSlice _        => "sdy.all_slice"
  | .allToAll _        => "sdy.all_to_all"
  | .collectivePermute => "sdy.collective_permute"
  | .allReduce _       => "sdy.all_reduce"
  | .reduceScatter _   => "sdy.reduce_scatter"

-- The operand may have no sharding, and then counts as fully replicated.
def allowsMissingOperand (collective : Collective) : Bool :=
  match collective.action with
  | .allSlice _ | .allReduce _ | .reduceScatter _ => true
  | _                                             => false

-- Operand and result may refer to different meshes.
def allowsDifferentMeshes (collective : Collective) : Bool :=
  match collective.action with
  | .collectivePermute => true
  | _                  => false

-- On an operand with the given sharding the collective does nothing.
def isIdentityOn (collective : Collective) (operand : Sharding) : Bool :=
  match collective.action with
  | .allGather axes | .allSlice axes | .reduceScatter axes => axes.all (·.isEmpty)
  | .allToAll _        => false
  | .collectivePermute => operand.mesh = collective.out.mesh && operand.splitsLike collective.out
  | .allReduce axes    => axes.isEmpty

end Collective

end MeshSharding
