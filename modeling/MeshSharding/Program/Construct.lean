import MeshSharding.Pipeline.Outcome
import MeshSharding.Program.Builder

namespace MeshSharding

-- A call that adds to a program, or that replaces the sharding of a value.
inductive Construction
  | mesh (name : String) (mesh : Mesh)
  | argument (type : TensorType) (sharding : Option Sharding)
  | operation (b : BlockId) (position : Nat) (new : NewOp)
  | sharding (v : ValueId) (sharding : Sharding)
  deriving DecidableEq

namespace Outcome

-- A call that has checked everything before it changes the program.
def ofChecked {α : Type} (p : Program) : Except Diagnostic (Program × α) → Outcome α
  | .ok (q, a) => ⟨q, .ok a⟩
  | .error e   => ⟨p, .error e⟩

def ignore {α : Type} (outcome : Outcome α) : Outcome Unit :=
  ⟨outcome.program, outcome.result.map fun _ => ()⟩

end Outcome

namespace Program

-- Takes the last operation out of the program, which stands at a position of a block. The values
-- from a number on go with it.
def withdraw (p : Program) (b : BlockId) (position count : Nat) : Program :=
  let o : OpId := ⟨p.operations.length - 1⟩
  let p := p.modifyBlock b fun block =>
    { block with operations := block.operations.eraseIdx position }
  let p := (p.op o).regions.foldl
    (fun p region => p.modifyBlock region fun block => { block with parent := none }) p
  let p := p.dropUsesBy o
  { p with operations := p.operations.dropLast, values := p.values.take count }

-- Puts an operation into a block at a position, and withdraws it if it breaks its rules there. The
-- rules are about the operation where it stands, so it has to be put in first.
def insertInPlace (p : Program) (b : BlockId) (position : Nat) (new : NewOp) : Outcome OpId :=
  let o : OpId := ⟨p.operations.length⟩
  let location := Location.operation o new.kind.mnemonic
  match location.attach (p.checkNew new) with
  | .error e => ⟨p, .error e⟩
  | .ok ()   =>
    let placed := p.place b position new
    match location.attach (placed.checkOp o) with
    | .error e => ⟨placed.withdraw b position p.values.length, .error e⟩
    | .ok ()   => ⟨placed, .ok o⟩

-- Puts an operation at the end of a block.
def appendInPlace (p : Program) (b : BlockId) (new : NewOp) : Outcome OpId :=
  p.insertInPlace b (p.block b).operations.length new

def construct (p : Program) : Construction → Outcome Unit
  | .mesh name mesh           => .ofChecked p ((p.declareMesh name mesh).map (·, ()))
  | .argument type sharding   => (Outcome.ofChecked p (p.addArgument type sharding)).ignore
  | .operation b position new => (p.insertInPlace b position new).ignore
  | .sharding v sharding      => .ofChecked p ((p.setSharding v sharding).map (·, ()))

end Program

end MeshSharding
