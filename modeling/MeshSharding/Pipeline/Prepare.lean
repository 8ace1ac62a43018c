import MeshSharding.Pipeline.Outcome
import MeshSharding.Program.Builder
import MeshSharding.Program.DataFlow
import MeshSharding.Program.Group

namespace MeshSharding.Program

-- Moves a constraint that nothing uses onto its operand.
def moveConstraint (p : Program) (o : OpId) : Outcome Bool :=
  match (p.op o).kind with
  | .constraint sharding =>
    if p.hasUses (p.output o) || !p.isSettable (p.input o) then ⟨p, .ok false⟩
    else
      match p.setSharding (p.input o) sharding with
      | .ok p    => ⟨p.erase o, .ok true⟩
      | .error e => ⟨p, .error e⟩
  | _ => ⟨p, .ok false⟩

-- The place in its block after an operation.
def positionAfter (p : Program) (o : OpId) : Nat :=
  let operations := (p.block (p.op o).block).operations
  match operations.findIdx? (· = o) with
  | some position => position + 1
  | none          => operations.length

-- Puts an edge operation between an owner and its users, at a position of a block. It takes over
-- the sharding that is kept with the owner or else with one of the other targets.
def attachEdge (p : Program) (b : BlockId) (position : Nat) (owner : ValueId)
    (targets : List ValueId) : Except Diagnostic Program := do
  let values := owner :: targets
  let (p, edge) ← p.insert b position (.edge owner (values.findSome? p.storedSharding))
  let p := p.replaceUsesExcept owner (p.output edge) (some edge)
  return values.foldl (fun p v => p.storeSharding v none) p

-- Attaches edge operations to the owners that have none, one after the other from a position.
def attachEdges (view : FlowView) (b : BlockId) (p : Program) (position : Nat) (changed : Bool) :
    List ValueId → Outcome Bool
  | [] => ⟨p, .ok changed⟩
  | owner :: rest =>
    if (p.edgeOfOwner? owner).isSome then attachEdges view b p position changed rest
    else
      match p.attachEdge b position owner (view.targets p owner) with
      | .ok p    => attachEdges view b p (position + 1) true rest
      | .error e => ⟨p, .error e⟩

-- Attaches edge operations to the results of a structural operation.
def attachEdgesOf (p : Program) (o : OpId) : Outcome Bool :=
  match p.flowView? o with
  | some view@(.structural ..) =>
    attachEdges view (p.op o).block p (p.positionAfter o) false (view.owners p)
  | _ => ⟨p, .ok false⟩

-- The groups must agree as far as they are sharded. A constraint that nothing uses is moved onto its
-- operand, if the sharding of that can be replaced. Every result of a structural operation gets an
-- edge operation.
def prepare (p : Program) : Outcome Bool :=
  match p.groups.bind p.checkAgreement with
  | .error e => ⟨p, .error e⟩
  | .ok ()   =>
    (Outcome.forEach moveConstraint p false p.walk).andThen fun p changed =>
      Outcome.forEach attachEdgesOf p changed p.walk

end MeshSharding.Program
