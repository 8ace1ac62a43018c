import MeshSharding.Program.DataFlow
import MeshSharding.Program.Group

namespace MeshSharding

-- The members of a link are to be sharded alike. A link proposes the best of the shardings of its
-- members, of its inputs, and of those that are fixed; only members adopt it.
structure Link where
  members : List ValueId
  inputs  : List ValueId := []
  fixed   : List Sharding := []
  deriving DecidableEq, Inhabited

-- Where the sharding of a value is kept: in an edge operation, or with the value. Values that
-- share a storage have one sharding.
inductive Storage
  | edge (op : OpId)
  | value (v : ValueId)
  deriving DecidableEq

namespace Program

def storageOf (p : Program) (v : ValueId) : Storage :=
  match p.edgeForTarget? v with
  | some edge => .edge edge
  | none =>
    match p.definer? v with
    | some o => if (p.op o).kind.isEdge then .edge o else .value v
    | none   => .value v

-- The links that the rules of an operation make.
def ownLinks (p : Program) (o : OpId) : List Link :=
  let op := p.op o
  match op.kind with
  | .generic data =>
    if data.elementwise then [{ members := op.operands ++ op.results }] else []
  | .constraint sharding => [{ members := op.operands, fixed := [sharding] }]
  | .barrier .forward    => [{ members := [p.output o], inputs := [p.input o] }]
  | .barrier .backward   => [{ members := [p.input o], inputs := [p.output o] }]
  | .manual computation  =>
    let link v sharding : Link := { members := [v], fixed := [sharding] }
    let returned := (p.returned? ((op.regions[0]?).getD default)).getD []
    op.operands.zipWith link computation.inShardings ++
      returned.zipWith (fun v sharding => link v (sharding.localView computation.manualAxes))
        computation.outShardings
  | _ => []

-- The links along the data-flow edges of an operation.
def flowLinks (p : Program) (o : OpId) : List Link :=
  match p.flowView? o with
  | none      => []
  | some view => (view.owners p).map fun owner =>
    { members := owner :: (view.sources p owner ++ view.targets p owner) }

-- All links of the program: those of its operations, then one for each group.
def links (p : Program) : Except Diagnostic (List Link) := do
  let groups ← p.groups
  return p.walk.flatMap (fun o => p.ownLinks o ++ p.flowLinks o) ++
    groups.map fun group => { members := group.members }

-- The storages of the operands of collectives. Their shardings stay as they are, because the
-- declared shardings of the collectives depend on them.
def pinned (p : Program) : List Storage :=
  p.walk.filterMap fun o =>
    match (p.op o).kind with
    | .collective _ => some (p.storageOf (p.input o))
    | _             => none

end Program

end MeshSharding
