import MeshSharding.Collective.Basic
import MeshSharding.Diagnostic
import MeshSharding.Handle
import MeshSharding.Mesh.Table
import MeshSharding.Tensor

namespace MeshSharding

-- The directions in which shardings may cross a barrier.
inductive Direction
  | forward
  | backward
  | neither
  | both
  deriving DecidableEq, Inhabited

-- A computation whose body is written for one device along the manual axes. The shardings are
-- those of the operands and the results as seen outside.
structure ManualComputation where
  inShardings  : List Sharding
  outShardings : List Sharding
  manualAxes   : List String
  deriving DecidableEq, Inhabited

-- A computation that is a named part of the program. The shardings are those of the arguments of
-- its body and of its results.
structure NamedComputation where
  name         : String
  inShardings  : Option (List Sharding)
  outShardings : Option (List Sharding)
  deriving DecidableEq, Inhabited

-- An operation of another dialect. If it is element-wise, its operands and results are all sharded
-- alike.
structure GenericOp where
  name        : String
  elementwise : Bool := false
  deriving DecidableEq, Inhabited

inductive OpKind
  -- Says how a value should be sharded.
  | constraint (sharding : Sharding)
  -- Changes how a value is sharded.
  | reshard (sharding : Sharding)
  -- Puts a value into a group of values that are sharded alike.
  | group (id : Int)
  | collective (collective : Collective)
  -- Stands between a result of a structural operation and its users, and keeps the sharding of the
  -- values that flow into this result.
  | edge (sharding : Option Sharding)
  | manual (computation : ManualComputation)
  | named (computation : NamedComputation)
  | constant (literal : String)
  | barrier (allowed : Direction)
  -- Ends a block.
  | terminator
  | generic (op : GenericOp)
  deriving DecidableEq, Inhabited

-- Where a value comes from.
inductive Definition
  | argument (block : BlockId) (index : Nat)
  | result (op : OpId) (index : Nat)
  deriving DecidableEq, Inhabited

-- An operand of an operation.
structure Use where
  user  : OpId
  index : Nat
  deriving DecidableEq, Inhabited

-- A value with the sharding that is kept with it and its uses in the order in which they were
-- made. Uses by operations that are not live may be among them.
structure Value where
  type       : TensorType := ⟨[], .i1⟩
  definition : Definition := .argument ⟨0⟩ 0
  sharding   : Option Sharding := none
  uses       : List Use := []
  deriving DecidableEq, Inhabited

structure Operation where
  kind     : OpKind := .terminator
  operands : List ValueId := []
  results  : List ValueId := []
  regions  : List BlockId := []
  block    : BlockId := ⟨0⟩
  erased   : Bool := true
  deriving DecidableEq

structure Block where
  arguments  : List ValueId := []
  operations : List OpId := []
  parent     : Option OpId := none
  deriving DecidableEq, Inhabited

-- How the sharding of a data-flow edge is carried over to the values of the edge. Any function of the
-- sharding, the meshes and the type of the value will do, also one of which the answers do not fit
-- the values. Transforms that look at other parts of the program are left out.
structure TargetTransform where
  apply : MeshTable → TensorType → Sharding → Sharding

-- Values, the operations that compute them, and the blocks that hold the operations, all referred to
-- by handles. Block 0 is the body of the program. An operation may have regions, which are blocks of
-- their own; the operation is then the parent of these blocks. Erased operations stay in their list,
-- marked as such.
structure Program where
  name       : String
  meshes     : MeshTable := {}
  values     : List Value := []
  operations : List Operation := []
  blocks     : List Block := [{}]
  transforms : List (String × TargetTransform) := []

instance : Inhabited Operation := ⟨{}⟩

instance : Inhabited Program := ⟨{ name := "" }⟩

namespace Direction

def allowsForward : Direction → Bool
  | forward | both => true
  | _              => false

def allowsBackward : Direction → Bool
  | backward | both => true
  | _               => false

def all : List Direction :=
  [forward, backward, neither, both]

def text : Direction → String
  | forward  => "FORWARD"
  | backward => "BACKWARD"
  | neither  => "NONE"
  | both     => "BOTH"

instance : ToString Direction := ⟨text⟩

def ofText? (text : String) : Option Direction :=
  all.find? (·.text = text)

end Direction

namespace GenericOp

-- The dialect is the part of the name before its first dot.
def dialect (op : GenericOp) : String :=
  String.ofList (op.name.toList.takeWhile (· ≠ '.'))

end GenericOp

namespace OpKind

def mnemonic : OpKind → String
  | constraint _ => "sdy.sharding_constraint"
  | reshard _    => "sdy.reshard"
  | group _      => "sdy.sharding_group"
  | collective c => c.mnemonic
  | edge _       => "sdy.data_flow_edge"
  | manual _     => "sdy.manual_computation"
  | named _      => "sdy.named_computation"
  | constant _   => "sdy.constant"
  | barrier _    => "sdy.propagation_barrier"
  | terminator   => "sdy.return"
  | generic op   => op.name

-- The shardings of the results are kept with the results, and are no part of the operation.
def storesResultShardings : OpKind → Bool
  | generic _ | constant _ | barrier _ => true
  | _                                  => false

-- The regions of the operation do not see the values around it.
def isIsolated : OpKind → Bool
  | manual _ | named _ => true
  | _                  => false

def isTerminator : OpKind → Bool
  | terminator => true
  | _          => false

def isEdge : OpKind → Bool
  | edge _ => true
  | _      => false

def isManual : OpKind → Bool
  | manual _ => true
  | _        => false

def isGeneric : OpKind → Bool
  | generic _ => true
  | _         => false

end OpKind

namespace Operation

def mnemonic (op : Operation) : String :=
  op.kind.mnemonic

-- An operation of another dialect with regions, such as a loop.
def isStructural (op : Operation) : Bool :=
  op.kind.isGeneric && !op.regions.isEmpty

end Operation

namespace TargetTransform

-- The sharding as it is.
def identity : TargetTransform :=
  ⟨fun _ _ sharding => sharding⟩

-- Without its replicated axes, because unused axes are replicated anyway.
def implicitReplication : TargetTransform :=
  ⟨fun _ _ sharding => sharding.withReplicated []⟩

end TargetTransform

namespace Program

-- The body of every program.
def entry : BlockId :=
  ⟨0⟩

-- Looking up a handle that the program does not have gives the default record.
def value (p : Program) (v : ValueId) : Value :=
  (p.values[v.index]?).getD {}

def op (p : Program) (o : OpId) : Operation :=
  (p.operations[o.index]?).getD {}

def block (p : Program) (b : BlockId) : Block :=
  (p.blocks[b.index]?).getD {}

def modifyValue (p : Program) (v : ValueId) (f : Value → Value) : Program :=
  { p with values := p.values.modify v.index f }

def modifyOp (p : Program) (o : OpId) (f : Operation → Operation) : Program :=
  { p with operations := p.operations.modify o.index f }

def modifyBlock (p : Program) (b : BlockId) (f : Block → Block) : Program :=
  { p with blocks := p.blocks.modify b.index f }

def setKind (p : Program) (o : OpId) (kind : OpKind) : Program :=
  p.modifyOp o fun op => { op with kind }

def storeSharding (p : Program) (v : ValueId) (sharding : Option Sharding) : Program :=
  p.modifyValue v fun value => { value with sharding }

def typeOf (p : Program) (v : ValueId) : TensorType :=
  (p.value v).type

def definitionOf (p : Program) (v : ValueId) : Definition :=
  (p.value v).definition

def storedSharding (p : Program) (v : ValueId) : Option Sharding :=
  (p.value v).sharding

-- The operation that a value is a result of.
def definer? (p : Program) (v : ValueId) : Option OpId :=
  match p.definitionOf v with
  | .result op _   => some op
  | .argument .. => none

def definingBlock (p : Program) (v : ValueId) : BlockId :=
  match p.definitionOf v with
  | .result op _    => (p.op op).block
  | .argument b _ => b

-- The operand of an operation with one operand.
def input (p : Program) (o : OpId) : ValueId :=
  ((p.op o).operands[0]?).getD default

-- The result of an operation with one result.
def output (p : Program) (o : OpId) : ValueId :=
  ((p.op o).results[0]?).getD default

def parentKind? (p : Program) (b : BlockId) : Option OpKind :=
  (p.block b).parent.map fun parent => (p.op parent).kind

-- The transform of the data-flow edges of the operations with a name.
def transformOf (p : Program) (name : String) : TargetTransform :=
  ((p.transforms.find? (·.1 = name)).map (·.2)).getD .identity

def registerTransform (p : Program) (name : String) (transform : TargetTransform) : Program :=
  { p with transforms := (name, transform) :: p.transforms }

-- The location of errors about an operation.
def locationOf (p : Program) (o : OpId) : Location :=
  .operation o (p.op o).mnemonic

-- The location of errors about a value: the operation that defines it, or else the program.
def locationOfValue (p : Program) (v : ValueId) : Location :=
  match p.definer? v with
  | some op => p.locationOf op
  | none    => .program

end Program

end MeshSharding
