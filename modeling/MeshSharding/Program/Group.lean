import MeshSharding.Program.Uses
import MeshSharding.Program.Values

namespace MeshSharding

-- A group operation with the value and the id that it brings together.
structure GroupEntry where
  op    : OpId
  value : ValueId
  id    : Int
  deriving DecidableEq

-- Values that are to be sharded alike. Each group operation puts its operand into the group with its
-- id. Groups that share a value are one group, named by the smallest of their ids.
structure ShardingGroup where
  id         : Int
  -- The values of the group, in the order of the operations that put them there first.
  members    : List ValueId
  operations : List OpId
  deriving DecidableEq

namespace GroupEntry

-- Ids with the group that each of them belongs to.
abbrev Merged := List (Int × Int)

def groupOf (merged : Merged) (id : Int) : Int :=
  ((merged.find? (·.1 = id)).map (·.2)).getD id

-- Makes the groups of two ids one.
def unite (merged : Merged) (id other : Int) : Merged :=
  let group := groupOf merged id
  let otherGroup := groupOf merged other
  merged.map fun (id, g) => (id, if g = max group otherGroup then min group otherGroup else g)

-- The groups of all ids: each group operation unites its id with the first id of its value.
def merge (entries : List GroupEntry) : Merged :=
  entries.foldl step (entries.map fun entry => (entry.id, entry.id))
where
  step (merged : Merged) (entry : GroupEntry) : Merged :=
    match entries.find? (·.value = entry.value) with
    | some first => unite merged first.id entry.id
    | none       => merged

-- The groups, in the order of their first operations.
def groups (entries : List GroupEntry) : List ShardingGroup :=
  let merged := merge entries
  let ids := (entries.map fun entry => groupOf merged entry.id).eraseDups
  ids.map fun id =>
    let inGroup := entries.filter fun entry => groupOf merged entry.id = id
    { id
      members    := (inGroup.map (·.value)).eraseDups
      operations := inGroup.map (·.op) }

end GroupEntry

namespace ShardingGroup

-- The group that a value belongs to.
def ofValue? (groups : List ShardingGroup) (v : ValueId) : Option ShardingGroup :=
  groups.find? (·.members.contains v)

-- The first operation of the group on a value.
def opOn (group : ShardingGroup) (p : Program) (v : ValueId) : OpId :=
  (group.operations.find? fun o => p.input o = v).getD (group.operations.headD default)

-- The first two shardings of members that differ, the first one found being compared with all
-- others.
def conflict? (group : ShardingGroup) (p : Program) : Option (Sharding × Sharding) :=
  match group.members.filterMap p.sharding with
  | []            => none
  | first :: rest => (rest.find? (· ≠ first)).map (first, ·)

end ShardingGroup

namespace Program

def groupEntries (p : Program) : List GroupEntry :=
  p.walk.filterMap fun o =>
    match (p.op o).kind with
    | .group id => some ⟨o, p.input o, id⟩
    | _         => none

-- The innermost manual computation around the place where a value is defined.
def manualAround? (p : Program) (v : ValueId) : Option OpId :=
  p.enclosingManual? (p.definingBlock v)

def checkNotCrossing (p : Program) (group : ShardingGroup) : Except Diagnostic Unit :=
  let first := p.manualAround? (group.members.headD default)
  match group.members.find? fun v => p.manualAround? v ≠ first with
  | some v => .error ⟨p.locationOf (group.opOn p v), .groupCrossesManual group.id⟩
  | none   => .ok ()

-- The groups of the program. No group crosses the boundary of a manual computation.
def groups (p : Program) : Except Diagnostic (List ShardingGroup) := do
  let groups := GroupEntry.groups p.groupEntries
  groups.forM p.checkNotCrossing
  return groups

-- The members of each group that have a sharding agree on it.
def checkAgreement (p : Program) (groups : List ShardingGroup) : Except Diagnostic Unit :=
  groups.forM fun group =>
    match group.conflict? p with
    | some (sharding, other) =>
      let first := group.operations.headD default
      .error ⟨p.locationOf first, .groupConflict group.id sharding other⟩
    | none => .ok ()

end Program

end MeshSharding
