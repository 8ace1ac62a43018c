import MeshSharding.Pipeline.Link
import MeshSharding.Pipeline.Options
import MeshSharding.Pipeline.Outcome

namespace MeshSharding

-- How good a sharding is as a proposal: first how urgent its most urgent dimension is, then how
-- many shards it has, then how many axes. Small priorities are urgent, and any is more than none.
structure Merit where
  priority : Option Nat
  shards   : Nat
  axes     : Nat

namespace Merit

-- A priority is more urgent than another one.
def moreUrgent : Option Nat → Option Nat → Bool
  | some p, some q => p < q
  | some _, none   => true
  | none,   _      => false

def exceeds (merit other : Merit) : Bool :=
  moreUrgent merit.priority other.priority ||
    (merit.priority = other.priority &&
      (other.shards < merit.shards || (other.shards = merit.shards && other.axes < merit.axes)))

end Merit

-- What spreading knows from its start: the options, the links, where the shardings of values are
-- kept, and the storages that must not change.
structure SpreadPlan where
  options : SpreadOptions
  links   : List Link
  storage : ValueId → Storage
  pinned  : List Storage

namespace SpreadPlan

-- The merit of a sharding. On an unknown mesh or with unknown axes it counts as having no
-- shards.
def merit (plan : SpreadPlan) (p : Program) (sharding : Sharding) : Merit :=
  let shards := do (← p.meshes.resolve sharding.mesh) |> sharding.totalShards
  { priority :=
      if plan.options.respectPriorities then (sharding.dims.filterMap (·.priority)).min? else none
    shards := shards.toOption.getD 0
    axes   := sharding.shardingAxes.length }

-- The first of the best shardings.
def best? (plan : SpreadPlan) (p : Program) : List Sharding → Option Sharding
  | [] => none
  | first :: rest => some (rest.foldl better first)
where
  better (best sharding : Sharding) : Sharding :=
    if (plan.merit p sharding).exceeds (plan.merit p best) then sharding else best

-- Extends the open dimensions of a sharding to those of a proposal, one at a time, as long as the
-- result fits the shape. Here `index` is the number of the first dimension of the list.
def extendDims (mesh : Mesh) (shape : List Nat) (sharding : Sharding) (index : Nat) :
    List (DimSharding × DimSharding) → Sharding
  | [] => sharding
  | (dim, proposed) :: rest =>
    let extended := sharding.withDims (sharding.dims.set index (dim.withAxes proposed.axes))
    if dim.isOpen && dim.axes ≠ proposed.axes && dim.axes.isPrefixOf proposed.axes &&
        (extended.checkIn mesh shape).isOk then
      extendDims mesh shape extended (index + 1) rest
    else extendDims mesh shape sharding (index + 1) rest

-- The sharding of a value after it has adopted what it can of a proposal.
def refine? (plan : SpreadPlan) (p : Program) (v : ValueId) (proposal : Sharding) :
    Option Sharding := do
  let shape := (p.typeOf v).shape
  let mesh ← (p.meshes.resolve proposal.mesh).toOption
  match p.sharding v with
  | none =>
    guard (!plan.options.openOnly && (proposal.checkIn mesh shape).isOk)
    return proposal
  | some current =>
    guard (current.mesh = proposal.mesh ∧ current.rank = proposal.rank)
    return extendDims mesh shape current 0 (current.dims.zip proposal.dims)

-- The new sharding of a member of a link, if it changes.
def change? (plan : SpreadPlan) (p : Program) (proposal : Sharding) (v : ValueId) :
    Option Sharding :=
  if plan.pinned.contains (plan.storage v) || !p.isSettable v then none
  else (plan.refine? p v proposal).filter fun refined => p.sharding v ≠ some refined

-- Lets the members of a link adopt a proposal. Gives those whose sharding has changed.
def adopt (plan : SpreadPlan) (proposal : Sharding) (p : Program) (updated : List ValueId) :
    List ValueId → Outcome (List ValueId)
  | [] => ⟨p, .ok updated⟩
  | v :: rest =>
    match plan.change? p proposal v with
    | none         => adopt plan proposal p updated rest
    | some refined =>
      match p.setSharding v refined with
      | .ok p    => adopt plan proposal p (updated ++ [v]) rest
      | .error e => ⟨p, .error e⟩

-- Evaluates a link. Gives the members whose sharding has changed.
def evaluate (plan : SpreadPlan) (p : Program) (link : Link) : Outcome (List ValueId) :=
  match plan.best? p ((link.members ++ link.inputs).filterMap p.sharding ++ link.fixed) with
  | none          => ⟨p, .ok []⟩
  | some proposal => plan.adopt proposal p [] link.members

-- Whether a link has a member or an input that is kept in a storage.
def concerns (plan : SpreadPlan) (storage : Storage) (link : Link) : Bool :=
  (link.members ++ link.inputs).any fun v => plan.storage v = storage

-- The queue with the links that a changed value concerns, those apart that wait in it already.
def enqueue (plan : SpreadPlan) (queue : List Nat) (v : ValueId) : List Nat :=
  let concerned := plan.links.zipIdx.filter fun (link, _) => plan.concerns (plan.storage v) link
  queue ++ (concerned.map (·.2)).filter fun index => !queue.contains index

-- Evaluates the links in the queue until it is empty. A link whose values have changed is put back
-- into the queue. At most `budget` links are evaluated.
def run (plan : SpreadPlan) : (budget : Nat) → (queue : List Nat) → (changed : Bool) →
    Program → Outcome Bool
  | _,          [],             changed, p => ⟨p, .ok changed⟩
  | 0,          _ :: _,         _,       p =>
    ⟨p, .error ⟨.program, .notConverged plan.options.maxIterations⟩⟩
  | budget + 1, index :: queue, changed, p =>
    (plan.evaluate p ((plan.links[index]?).getD default)).andThen fun p updated =>
      run plan budget (updated.foldl plan.enqueue queue) (changed || !updated.isEmpty) p

end SpreadPlan

namespace Program

def spreadPlan (p : Program) (options : SpreadOptions) : Except Diagnostic SpreadPlan := do
  let links ← p.links
  return { options, links, storage := p.storageOf, pinned := p.pinned }

-- Spreads shardings over the program. In the end the members of each group must agree.
def spread (p : Program) (options : SpreadOptions) : Outcome Bool :=
  match p.spreadPlan options with
  | .error e => ⟨p, .error e⟩
  | .ok plan =>
    (plan.run options.maxIterations (List.range plan.links.length) false p).andThen
      fun p changed => ⟨p, do p.checkAgreement (← p.groups); return changed⟩

end Program

end MeshSharding
