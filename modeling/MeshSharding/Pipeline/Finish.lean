import MeshSharding.Program.DataFlow
import MeshSharding.Program.Uses

namespace MeshSharding.Program

-- Hands the sharding of an edge operation over to the owner and the other targets, and takes the
-- operation out.
def sinkEdge (p : Program) (edge : OpId) : Program :=
  let owner := p.input edge
  let q := match (p.op edge).kind, (p.definer? owner).bind p.flowView? with
    | .edge (some sharding), some view =>
      (owner :: view.targets p owner).foldl
        (fun (q : Program) v => q.storeSharding v (some (view.targetSharding p v sharding))) p
    | _, _ => p
  (q.replaceUses (q.output edge) owner).erase edge

-- Takes an operation out and lets its users use its operand.
def bypass (p : Program) (o : OpId) : Program :=
  (p.replaceUses (p.output o) (p.input o)).erase o

-- Removes an operation that guides spreading, or makes it a change of sharding.
def finishOp (p : Program) (o : OpId) : Option Program :=
  let current := p.sharding (p.input o)
  match (p.op o).kind with
  | .constraint sharding =>
    if !p.hasUses (p.output o) || Sharding.satisfies current sharding then some (p.bypass o)
    else some (p.setKind o (.reshard sharding))
  | .group _   => some (p.erase o)
  | .barrier _ =>
    match p.sharding (p.output o) with
    | none          => some (p.bypass o)
    | some sharding =>
      if Sharding.satisfies current sharding then some (p.bypass o)
      else some (p.setKind o (.reshard sharding))
  | _ => none

-- Applies the steps that apply, one after the other. Says whether there were any.
def applyWhere (step : Program → OpId → Option Program) (p : Program) (changed : Bool) :
    List OpId → Program × Bool
  | []        => (p, changed)
  | o :: rest =>
    match step p o with
    | some p => applyWhere step p true rest
    | none   => applyWhere step p changed rest

-- Hands over the sharding of an operation if it is an edge operation.
def sinkOp (p : Program) (o : OpId) : Option Program :=
  if (p.op o).kind.isEdge then some (p.sinkEdge o) else none

-- Takes out what only guides spreading, edge operations first. Says whether anything changed.
def finish (p : Program) : Program × Bool :=
  let (p, changed) := applyWhere sinkOp p false p.walk
  applyWhere finishOp p changed p.walk

end MeshSharding.Program
