import MeshSharding.Manual.View
import MeshSharding.Program.Edge

namespace MeshSharding.Program

-- The sharding of a result that its operation states, or else the one kept with it.
def shardingOfResult (p : Program) (v : ValueId) (o : OpId) (index : Nat) : Option Sharding :=
  match (p.op o).kind with
  | .constraint sharding | .reshard sharding => some sharding
  | .edge sharding           => sharding
  | .manual computation      => computation.outShardings[index]?
  | .named computation       => computation.outShardings.bind (·[index]?)
  | .collective collective   => some collective.out
  | .group _ | .constant _ | .barrier _ | .terminator | .generic _ => p.storedSharding v

-- The sharding of an argument that the operation around its block states, or else the one kept
-- with it.
def shardingOfArgument (p : Program) (v : ValueId) (b : BlockId) (index : Nat) : Option Sharding :=
  match p.parentKind? b with
  | some (.manual computation) =>
    computation.inShardings[index]?.map (·.localView computation.manualAxes)
  | some (.named computation) => computation.inShardings.bind (·[index]?)
  | _                         => p.storedSharding v

-- The sharding of the data-flow edge that the value is a target of; else the one that its defining
-- operation, or the operation around its block, states for it; else the one kept with the value.
def sharding (p : Program) (v : ValueId) : Option Sharding :=
  match (p.edgeForTarget? v).map fun edge => (p.op edge).kind with
  | some (.edge sharding) => sharding
  | _ =>
    match p.definitionOf v with
    | .result o index   => p.shardingOfResult v o index
    | .argument b index => p.shardingOfArgument v b index

-- The sharding of the value can be replaced. What operations state is fixed, named computations and
-- edges apart.
def isSettable (p : Program) (v : ValueId) : Bool :=
  (p.edgeForTarget? v).isSome ||
    match p.definitionOf v with
    | .result o _ =>
      match (p.op o).kind with
      | .edge _ | .named _ => true
      | kind               => kind.storesResultShardings
    | .argument b _ => !(p.parentKind? b).any (·.isManual)

-- The number of entries of a list of shardings for values. A list that is not there is made with one
-- entry for each of them.
def entryCount (shardings : Option (List Sharding)) (values : List ValueId) : Nat :=
  (shardings.map List.length).getD values.length

-- The shardings of some values with that of one value replaced. If the values had none, the others
-- are open on the mesh of the new one. There is none if the list ends before the entry: to replace it
-- is a panic then, as `writeFault` says.
def replaceIn (p : Program) (shardings : Option (List Sharding)) (values : List ValueId)
    (index : Nat) (sharding : Sharding) : Option (List Sharding) :=
  let current := shardings.getD <|
    values.map fun v => Sharding.fullyOpen sharding.mesh (p.typeOf v).rank
  if index < current.length then some (current.set index sharding) else none

-- Writes a sharding to the place where that of the value is kept, if it can be replaced and the place
-- is there.
def writeSharding? (p : Program) (v : ValueId) (sharding : Sharding) : Option Program :=
  match p.edgeForTarget? v with
  | some edge => some (p.setKind edge (.edge (some sharding)))
  | none =>
    match p.definitionOf v with
    | .result o index =>
      match (p.op o).kind with
      | .generic _ | .constant _ | .barrier _ => some (p.storeSharding v (some sharding))
      | .edge _ => some (p.setKind o (.edge (some sharding)))
      | .named computation =>
        (p.replaceIn computation.outShardings (p.op o).results index sharding).map fun shardings =>
          p.setKind o (.named { computation with outShardings := some shardings })
      | _ => none
    | .argument b index =>
      match (p.block b).parent with
      | none   => some (p.storeSharding v (some sharding))
      | some o =>
        match (p.op o).kind with
        | .manual _ => none
        | .named computation =>
          (p.replaceIn computation.inShardings (p.block b).arguments index sharding).map
            fun shardings => p.setKind o (.named { computation with inShardings := some shardings })
        | _ => some (p.storeSharding v (some sharding))

-- Why a sharding cannot be written. Either that of the value is fixed, which is an error; or a named
-- computation keeps it in a list that ends before the entry of the value, which is a panic.
def writeFault (p : Program) (v : ValueId) : Error :=
  match p.definitionOf v with
  | .result o index =>
    match (p.op o).kind with
    | .named computation =>
      .indexOutOfBounds (entryCount computation.outShardings (p.op o).results) index
    | _ => .shardingNotSettable v
  | .argument b index =>
    match p.parentKind? b with
    | some (.named computation) =>
      .indexOutOfBounds (entryCount computation.inShardings (p.block b).arguments) index
    | _ => .shardingNotSettable v

-- Replaces the sharding of a value by one that fits its type.
def setSharding (p : Program) (v : ValueId) (sharding : Sharding) : Except Diagnostic Program := do
  (p.locationOfValue v).attach (sharding.check p.meshes (p.typeOf v).shape)
  match p.writeSharding? v sharding with
  | some p => return p
  | none   => throw ⟨p.locationOfValue v, p.writeFault v⟩

end MeshSharding.Program
