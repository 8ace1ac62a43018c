import MeshSharding.Pipeline.Finish

namespace MeshSharding

-- One simplification of an operation.
inductive Simplification
  -- The users of the operation use its operand instead.
  | bypass
  | erase
  -- The operation uses a value from further up.
  | readFrom (v : ValueId)
  deriving DecidableEq

namespace Program

-- All users of a value take one without a sharding.
def usersAllowMissing (p : Program) (v : ValueId) : Bool :=
  (p.uses v).all fun use =>
    match (p.op use.user).kind with
    | .collective collective => collective.allowsMissingOperand
    | _                      => true

-- A collective is taken out if it does nothing. One on a value without a sharding is looked at
-- only if its users take such a value too.
def simplifyCollective? (p : Program) (o : OpId) (collective : Collective) :
    Option Simplification := do
  let operand ← match p.sharding (p.input o) with
    | some sharding => some sharding
    | none =>
      if collective.allowsMissingOperand && p.usersAllowMissing (p.output o) then
        some (Sharding.fullyReplicated collective.out.mesh (p.typeOf (p.input o)).rank)
      else none
  if collective.isIdentityOn operand then some .bypass else none

-- A change of sharding is taken out if its operand is sharded like that already or nothing uses
-- it. One that follows another one reads from before that.
def simplifyReshard? (p : Program) (o : OpId) (sharding : Sharding) : Option Simplification :=
  let input := p.input o
  if Sharding.satisfies (p.sharding input) sharding then some .bypass
  else if !p.hasUses (p.output o) then some .erase
  else do
    let inner ← p.definer? input
    match (p.op inner).kind with
    | .reshard _ => some (.readFrom (p.input inner))
    | _          => none

-- The simplification of an operation, if there is one.
def simplification? (p : Program) (o : OpId) : Option Simplification :=
  if (p.op o).erased then none
  else match (p.op o).kind with
    | .collective collective => p.simplifyCollective? o collective
    | .reshard sharding      => p.simplifyReshard? o sharding
    | _                      => none

def applySimplification (p : Program) (o : OpId) : Simplification → Program
  | .bypass     => p.bypass o
  | .erase      => p.erase o
  | .readFrom v => p.setOperand o 0 v

def simplifyOp (p : Program) (o : OpId) : Option Program :=
  (p.simplification? o).map (p.applySimplification o)

-- Goes over the program again and again, at most `rounds` times.
def simplifyRounds : (rounds : Nat) → Program → (changed : Bool) → Program × Bool
  | 0,          p, changed => (p, changed)
  | rounds + 1, p, changed =>
    match applyWhere simplifyOp p false p.walk with
    | (p, true)  => simplifyRounds rounds p true
    | (p, false) => (p, changed)

-- Simplifies the program. Says whether anything changed. Each round takes an operation out or
-- shortens the way from an operation back to its source, so there is a last round that changes nothing
-- after at most as many rounds as there are pairs of operations.
def simplify (p : Program) : Program × Bool :=
  let count := p.operations.length + 1
  simplifyRounds (count * count + 1) p false

end Program

end MeshSharding
