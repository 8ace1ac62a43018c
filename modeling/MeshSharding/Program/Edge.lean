import MeshSharding.Program.Nesting

namespace MeshSharding.Program

-- The edge operation on a value: the first one that is not erased. It keeps the sharding of all
-- targets of the edge that the value owns.
def edgeOfOwner? (p : Program) (owner : ValueId) : Option OpId :=
  (p.operations.findIdx? fun op =>
    !op.erased && op.kind.isEdge && op.operands.head? = some owner).map OpId.mk

-- The result of an operation that is structural and not erased.
def structuralResult? (p : Program) (o : OpId) (index : Nat) : Option ValueId :=
  let op := p.op o
  if op.isStructural && !op.erased then op.results[index]? else none

-- The edge operation of the edge that a value is a target of, as its owner or as an argument of a
-- region that has as many arguments as the operation has results.
def edgeForTarget? (p : Program) (v : ValueId) : Option OpId :=
  match p.edgeOfOwner? v with
  | some edge => some edge
  | none =>
    match p.definitionOf v with
    | .result ..        => none
    | .argument b index => do
      let parent ← (p.block b).parent
      guard ((p.block b).arguments.length = (p.op parent).results.length)
      let owner ← p.structuralResult? parent index
      p.edgeOfOwner? owner

-- The edge operation of the edge that an operand flows into: an operand of a structural operation,
-- or a returned value of a region that returns as many values as the operation has results.
def edgeForSource? (p : Program) (user : OpId) (index : Nat) : Option OpId := do
  let op := p.op user
  let owner ← match op.kind with
    | .generic _  => p.structuralResult? user index
    | .terminator => do
      let parent ← (p.block op.block).parent
      guard (op.operands.length = (p.op parent).results.length)
      p.structuralResult? parent index
    | _ => none
  p.edgeOfOwner? owner

end MeshSharding.Program
