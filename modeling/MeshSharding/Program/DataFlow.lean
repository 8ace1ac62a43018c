import MeshSharding.Program.Values

namespace MeshSharding

-- An operation seen as a bundle of data-flow edges, along which values pass through it unchanged.
-- Each edge has an owner, which is one of its targets, and sources that flow into it.
inductive FlowView
  -- A structural operation, with what its edges do to shardings.
  | structural (op : OpId) (transform : TargetTransform)
  | named (op : OpId)

-- One edge with everything that spreading needs to know of it.
structure FlowEdge where
  -- The operation that the edge belongs to.
  op       : OpId
  owner    : ValueId
  sources  : List ValueId
  -- The targets other than the owner.
  targets  : List ValueId
  sharding : Option Sharding
  -- The edge operation that keeps the sharding, if there is one.
  edge     : Option OpId
  deriving DecidableEq

namespace Program

-- The view of an operation through which values flow.
def flowView? (p : Program) (o : OpId) : Option FlowView :=
  let op := p.op o
  match op.kind with
  | .generic data =>
    if op.isStructural && !op.erased then some (.structural o (p.transformOf data.name)) else none
  | .named _ => if op.erased then none else some (.named o)
  | _        => none

end Program

namespace FlowView

def op : FlowView → OpId
  | structural op _ => op
  | named op        => op

-- The owners of the edges: the results, and for a named computation the arguments of its body
-- before them.
def owners (view : FlowView) (p : Program) : List ValueId :=
  match view with
  | structural o _ => (p.op o).results
  | named o        => (p.op o).regions.flatMap (fun b => (p.block b).arguments) ++ (p.op o).results

-- The values that flow into the edge of an owner.
def sources (view : FlowView) (p : Program) (owner : ValueId) : List ValueId :=
  match view, p.definitionOf owner with
  | structural .., .argument .. => []
  | structural o _, .result _ index =>
    let op := p.op o
    let returned := op.regions.filterMap fun b => do
      let values ← p.returned? b
      guard (values.length = op.results.length)
      values[index]?
    op.operands[index]?.toList ++ returned
  | named o, .argument _ index => (p.op o).operands[index]?.toList
  | named o, .result _ index =>
    (p.op o).regions.filterMap fun b => (p.returned? b).bind (·[index]?)

-- The targets of the edge of an owner, other than the owner.
def targets (view : FlowView) (p : Program) (owner : ValueId) : List ValueId :=
  match view, p.definitionOf owner with
  | structural o _, .result _ index =>
    (p.op o).regions.filterMap fun b =>
      let arguments := (p.block b).arguments
      if arguments.length = (p.op o).results.length then arguments[index]? else none
  | _, _ => []

-- The sharding that a target gets from its edge.
def targetSharding (view : FlowView) (p : Program) (target : ValueId) (sharding : Sharding) : Sharding :=
  match view with
  | structural _ transform => transform.apply p.meshes (p.typeOf target) sharding
  | named _                => sharding

-- The edge of an owner.
def edge (view : FlowView) (p : Program) (owner : ValueId) : FlowEdge :=
  { op       := view.op
    owner
    sources  := view.sources p owner
    targets  := view.targets p owner
    sharding := p.sharding owner
    edge     := p.edgeOfOwner? owner }

def edges (view : FlowView) (p : Program) : List FlowEdge :=
  (view.owners p).map (view.edge p)

end FlowView

-- The data-flow edges of all operations of the program.
def Program.flowEdges (p : Program) : List FlowEdge :=
  (p.walk.filterMap p.flowView?).flatMap (·.edges p)

end MeshSharding
