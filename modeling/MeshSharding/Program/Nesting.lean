import MeshSharding.Program.Basic

namespace MeshSharding.Program

-- The last operation of a block, if it is a terminator.
def terminator? (p : Program) (b : BlockId) : Option OpId :=
  (p.block b).operations.getLast?.filter fun o => (p.op o).kind.isTerminator

-- The values that a block returns, if it ends with a terminator.
def returned? (p : Program) (b : BlockId) : Option (List ValueId) :=
  (p.terminator? b).map fun o => (p.op o).operands

-- The operations of a block and of what is nested in it through `depth` blocks, each operation
-- before those in its regions.
def walkBlock (p : Program) : (depth : Nat) → BlockId → List OpId
  | 0,         _ => []
  | depth + 1, b =>
    (p.block b).operations.flatMap fun o => o :: (p.op o).regions.flatMap (walkBlock p depth)

-- All operations nested in the body of the program. No chain of different blocks is longer than the
-- number of blocks.
def walk (p : Program) : List OpId :=
  p.walkBlock p.blocks.length entry

-- The operations nested in the regions of an operation.
def nestedIn (p : Program) (o : OpId) : List OpId :=
  (p.op o).regions.flatMap (p.walkBlock p.blocks.length)

-- The operation is not erased, and neither is an operation around it, up to the body.
def isLiveWithin (p : Program) : (height : Nat) → OpId → Bool
  | 0,          _ => false
  | height + 1, o =>
    !(p.op o).erased &&
      ((p.op o).block = entry ||
        match (p.block (p.op o).block).parent with
        | some parent => isLiveWithin p height parent
        | none        => false)

-- The operation is part of the program: it lies in the body or in a region of such a one. The way up
-- meets each operation once and ends, unless a block that is cut off from the body is nested in
-- itself. A climb without a bound would not come back from there; this one answers that the operation
-- is no part of the program.
def isLive (p : Program) (o : OpId) : Bool :=
  p.isLiveWithin p.operations.length o

def enclosingManualWithin (p : Program) : (height : Nat) → BlockId → Option OpId
  | 0,          _ => none
  | height + 1, b =>
    match (p.block b).parent with
    | none        => none
    | some parent =>
      if (p.op parent).kind.isManual then some parent
      else enclosingManualWithin p height (p.op parent).block

-- The innermost manual computation around a block. On a way up without an end, where a climb without
-- a bound would not come back, it is none if there is none on the way.
def enclosingManual? (p : Program) (b : BlockId) : Option OpId :=
  p.enclosingManualWithin p.operations.length b

end MeshSharding.Program
