import MeshSharding.Program.Nesting

namespace MeshSharding.Program

-- The uses of a value by live operations, in the order in which they were made.
def uses (p : Program) (v : ValueId) : List Use :=
  (p.value v).uses.filter fun use => p.isLive use.user

def hasUses (p : Program) (v : ValueId) : Bool :=
  (p.value v).uses.any fun use => p.isLive use.user

def addUse (p : Program) (v : ValueId) (use : Use) : Program :=
  p.modifyValue v fun value => { value with uses := value.uses ++ [use] }

def filterUses (p : Program) (v : ValueId) (keep : Use → Bool) : Program :=
  p.modifyValue v fun value => { value with uses := value.uses.filter keep }

def writeOperand (p : Program) (use : Use) (v : ValueId) : Program :=
  p.modifyOp use.user fun op => { op with operands := op.operands.set use.index v }

-- Redirects one use to another value.
def moveUse (target : ValueId) (p : Program) (use : Use) : Program :=
  (p.writeOperand use target).addUse target use

-- Redirects the uses of a value by live operations, those by one operation excepted.
def replaceUsesExcept (p : Program) (source target : ValueId) (except : Option OpId) : Program :=
  if source = target then p
  else
    let moves use := some use.user ≠ except && p.isLive use.user
    let moved := (p.value source).uses.filter moves
    moved.foldl (moveUse target) (p.filterUses source (!moves ·))

def replaceUses (p : Program) (source target : ValueId) : Program :=
  p.replaceUsesExcept source target none

-- Replaces an operand of an operation.
def setOperand (p : Program) (o : OpId) (index : Nat) (v : ValueId) : Program :=
  match (p.op o).operands[index]? with
  | none          => p
  | some previous =>
    moveUse v (p.filterUses previous (· ≠ ⟨o, index⟩)) ⟨o, index⟩

-- Removes the uses by an operation from the values that it uses.
def dropUsesBy (p : Program) (o : OpId) : Program :=
  (p.op o).operands.foldl (fun p v => p.filterUses v (·.user ≠ o)) p

-- Marks an operation as erased and empties its regions.
def eraseAlone (p : Program) (o : OpId) : Program :=
  let p := (p.modifyOp o fun op => { op with erased := true }).dropUsesBy o
  (p.op o).regions.foldl (fun p b => p.modifyBlock b fun block => { block with operations := [] }) p

-- Takes an operation out of its block and erases it with all that is nested in it.
def erase (p : Program) (o : OpId) : Program :=
  let p := p.modifyBlock (p.op o).block fun block =>
    { block with operations := block.operations.filter (· ≠ o) }
  (o :: p.nestedIn o).foldl eraseAlone p

end MeshSharding.Program
