import MeshSharding.Program.OpCheck
import MeshSharding.Program.Uses

namespace MeshSharding

-- An operation to be added to a program.
inductive NewOp
  | constraint (input : ValueId) (sharding : Sharding)
  | reshard (input : ValueId) (sharding : Sharding)
  | group (input : ValueId) (id : Int)
  | collective (input : ValueId) (collective : Collective)
  | edge (input : ValueId) (sharding : Option Sharding)
  | barrier (input : ValueId) (allowed : Direction)
  | constant (literal : String) (type : TensorType)
  | generic (op : GenericOp) (operands : List ValueId) (results : List TensorType)
      (regions : List BlockId)
  | terminator (values : List ValueId)
  | manual (computation : ManualComputation) (operands : List ValueId) (body : BlockId)
      (results : List TensorType)
  | named (computation : NamedComputation) (operands : List ValueId) (body : BlockId)
  deriving DecidableEq

namespace NewOp

def kind : NewOp → OpKind
  | constraint _ sharding  => .constraint sharding
  | reshard _ sharding     => .reshard sharding
  | group _ id             => .group id
  | collective _ c         => .collective c
  | edge _ sharding        => .edge sharding
  | barrier _ allowed      => .barrier allowed
  | constant literal _     => .constant literal
  | generic op _ _ _       => .generic op
  | terminator _           => .terminator
  | manual computation ..  => .manual computation
  | named computation _ _  => .named computation

def operands : NewOp → List ValueId
  | constraint input _ | reshard input _ | group input _ | collective input _ | edge input _
  | barrier input _      => [input]
  | constant _ _         => []
  | generic _ operands _ _ | manual _ operands _ _ | named _ operands _ => operands
  | terminator values    => values

def regions : NewOp → List BlockId
  | generic _ _ _ regions             => regions
  | manual _ _ body _ | named _ _ body => [body]
  | _                                 => []

-- The types of the results: given, or those of the operand or of what the body returns.
def resultTypes (new : NewOp) (p : Program) : List TensorType :=
  match new with
  | constraint input _ | reshard input _ | collective input _ | edge input _ | barrier input _ =>
    if input.index < p.values.length then [p.typeOf input] else []
  | group _ _ | terminator _               => []
  | constant _ type                        => [type]
  | generic _ _ results _ | manual _ _ _ results => results
  | named _ _ body                         => ((p.returned? body).getD []).map p.typeOf

end NewOp

namespace Program

-- The program without any operation.
def empty (name : String) : Program :=
  { name }

def declareMesh (p : Program) (name : String) (mesh : Mesh) : Except Diagnostic Program := do
  let meshes ← (Location.mesh name).attach (p.meshes.declare name mesh)
  return { p with meshes }

-- The handles of the next values.
def nextValues (p : Program) (count : Nat) : List ValueId :=
  (List.range' p.values.length count).map ValueId.mk

def pushValues (p : Program) (types : List TensorType) (definition : Nat → Definition) :
    Program :=
  let values : List Value :=
    types.mapIdx fun index type => { type, definition := definition index }
  { p with values := p.values ++ values }

-- Adds an argument to the body of the program.
def addArgument (p : Program) (type : TensorType) (sharding : Option Sharding) :
    Except Diagnostic (Program × ValueId) := do
  Location.program.attach (sharding.toList.forM (·.check p.meshes type.shape))
  let v : ValueId := ⟨p.values.length⟩
  let definition := Definition.argument entry (p.block entry).arguments.length
  let value : Value := { type, definition, sharding }
  let p := { p with values := p.values ++ [value] }
  let p := p.modifyBlock entry fun block => { block with arguments := block.arguments ++ [v] }
  return (p, v)

-- Adds a block that is not yet a region of an operation.
def addRegion (p : Program) (types : List TensorType) : Program × BlockId :=
  let b : BlockId := ⟨p.blocks.length⟩
  let arguments := p.nextValues types.length
  let p := p.pushValues types (.argument b)
  ({ p with blocks := p.blocks ++ [{ arguments }] }, b)

-- The program with a new operation at a position of a block, whether its rules hold or not.
def place (p : Program) (b : BlockId) (position : Nat) (new : NewOp) : Program :=
  let o : OpId := ⟨p.operations.length⟩
  let types := new.resultTypes p
  let op : Operation :=
    { kind     := new.kind
      operands := new.operands
      results  := p.nextValues types.length
      regions  := new.regions
      block    := b
      erased   := false }
  let p := p.pushValues types (.result o)
  let p := { p with operations := p.operations ++ [op] }
  let uses := new.operands.zipIdx.map fun (v, index) => (v, Use.mk o index)
  let p := uses.foldl (fun p (v, use) => p.addUse v use) p
  let p := new.regions.foldl
    (fun p region => p.modifyBlock region fun block => { block with parent := some o }) p
  p.modifyBlock b fun block => { block with operations := block.operations.insertIdx position o }

-- The operands exist, and the regions are complete and belong to no operation yet.
def checkNew (p : Program) (new : NewOp) : Except Error Unit := do
  match new.operands.find? (p.values.length ≤ ·.index) with
  | some v => throw (.unknownValue v)
  | none   => pure ()
  match new.regions.find? fun b => (p.block b).parent.isSome with
  | some b => throw (.regionAlreadyAttached b)
  | none   => pure ()
  require (∀ b ∈ new.regions, (p.terminator? b).isSome) .missingTerminator

-- Adds an operation at a position of a block.
def insert (p : Program) (b : BlockId) (position : Nat) (new : NewOp) :
    Except Diagnostic (Program × OpId) :=
  let o : OpId := ⟨p.operations.length⟩
  let placed := p.place b position new
  (Location.operation o new.kind.mnemonic).attach do
    p.checkNew new
    placed.checkOp o
    return (placed, o)

-- Adds an operation at the end of a block.
def append (p : Program) (b : BlockId) (new : NewOp) : Except Diagnostic (Program × OpId) :=
  p.insert b (p.block b).operations.length new

end Program

end MeshSharding
