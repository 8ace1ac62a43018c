import MeshSharding.Program.Group
import MeshSharding.Program.OpCheck
import MeshSharding.Program.Uses

namespace MeshSharding.Program

-- The rules for an operation in a block, of which `visible` are the values it can see and `last`
-- says whether it is the last operation.
def verifyOp (p : Program) (visible : List ValueId) (last : Bool) (o : OpId) :
    Except Diagnostic Unit :=
  let op := p.op o
  (p.locationOf o).attach do
    require (op.kind.isTerminator = last) .missingTerminator
    match op.operands.find? fun v => !visible.contains v with
    | some v => throw (.valueNotInScope v)
    | none   => pure ()
    p.checkOp o

-- The rules for the operations of a block in turn, where `region` are those for a region that sees
-- the given values.
def verifyOps (p : Program) (region : List ValueId → BlockId → Except Diagnostic Unit)
    (visible : List ValueId) : List OpId → Except Diagnostic Unit
  | [] => .ok ()
  | o :: rest => do
    p.verifyOp visible rest.isEmpty o
    let outer := if (p.op o).kind.isIsolated then [] else visible
    (p.op o).regions.forM (region outer)
    verifyOps p region (visible ++ (p.op o).results) rest

-- The rules for a block and for what is nested in it, where `outer` are the values that the block
-- sees around it. Nesting is followed through `depth` blocks.
def verifyBlock (p : Program) : (depth : Nat) → (outer : List ValueId) → BlockId →
    Except Diagnostic Unit
  | 0,         _,     _ => .error ⟨.program, .missingTerminator⟩
  | depth + 1, outer, b =>
    p.verifyOps (verifyBlock p depth) (outer ++ (p.block b).arguments) (p.block b).operations

-- An edge operation is the only user of its owner.
def verifyEdge (p : Program) (o : OpId) : Except Diagnostic Unit :=
  (p.locationOf o).attach <|
    require ((p.op o).kind.isEdge → p.uses (p.input o) = [⟨o, 0⟩])
      (.edgeOwnerHasOtherUsers (p.input o))

-- A sharding that is kept with a value fits it, unless the value is the result of an erased
-- operation.
def verifyStored (p : Program) (v : ValueId) : Except Diagnostic Unit :=
  match p.storedSharding v with
  | none => .ok ()
  | some sharding =>
    if (p.definer? v).any fun o => (p.op o).erased then .ok ()
    else (p.locationOfValue v).attach (p.checkFits sharding v)

-- Every block ends with its only terminator. Every operation obeys its own rules and uses values that
-- are defined before it, in its block or in one around it that it can see. An edge operation is the
-- only user of its owner. Groups do not cross manual computations. Shardings that are kept with
-- values fit them.
def verify (p : Program) : Except Diagnostic Unit := do
  Location.program.attach (require (p.terminator? entry).isSome .missingTerminator)
  p.verifyBlock p.blocks.length [] entry
  p.walk.forM p.verifyEdge
  let _ ← p.groups
  ((List.range p.values.length).map ValueId.mk).forM p.verifyStored

-- The rules for programs after spreading: nothing is left that only guides it.
def verifyFinished (p : Program) : Except Diagnostic Unit := do
  p.verify
  p.walk.forM fun o =>
    match (p.op o).kind with
    | .constraint _ | .group _ => .error ⟨p.locationOf o, .unexpectedConstraint⟩
    | _                        => .ok ()

end MeshSharding.Program
