import MeshSharding.Collective.Check
import MeshSharding.Program.Values

namespace MeshSharding.Program

def checkArity (counted : Counted) (expected actual : Nat) : Except Error Unit :=
  require (expected = actual) (.arityMismatch counted expected actual)

def checkType (place : TypedPlace) (expected actual : TensorType) : Except Error Unit :=
  require (expected = actual) (.typeMismatch place expected actual)

-- The values have the given types one by one, where `index` is the number of the first one.
def checkTypes (p : Program) (place : Nat → TypedPlace) (index : Nat) :
    List (TensorType × ValueId) → Except Error Unit
  | [] => .ok ()
  | (expected, v) :: rest => do
    checkType (place index) expected (p.typeOf v)
    checkTypes p place (index + 1) rest

-- The operation has one operand and one result, of the same type. Gives the operand.
def checkUnary (p : Program) (op : Operation) : Except Error ValueId := do
  checkArity .operands 1 op.operands.length
  checkArity .results 1 op.results.length
  let input := (op.operands[0]?).getD default
  let output := (op.results[0]?).getD default
  checkType .result (p.typeOf input) (p.typeOf output)
  return input

def checkFits (p : Program) (sharding : Sharding) (v : ValueId) : Except Error Unit :=
  sharding.check p.meshes (p.typeOf v).shape

-- An edge operation stands on a result of a structural operation.
def checkEdgeOwner (p : Program) (owner : ValueId) : Except Error Unit :=
  match p.definer? owner with
  | some o => require (p.op o).isStructural (.invalidEdgeOwner (some (p.op o).mnemonic))
  | none   => .error (.invalidEdgeOwner none)

-- All values of an element-wise operation have the same shape.
def checkElementwise (p : Program) : List ValueId → Except Error Unit
  | [] => .ok ()
  | first :: rest => go (p.typeOf first) 1 rest
where
  go (expected : TensorType) (index : Nat) : List ValueId → Except Error Unit
    | [] => .ok ()
    | v :: rest => do
      let actual := p.typeOf v
      require (actual.shape = expected.shape)
        (.typeMismatch (.elementwiseValue index) expected actual)
      go expected (index + 1) rest

-- The sharding that a collective finds on its operand.
def operandSharding (p : Program) (collective : Collective) (input : ValueId) :
    Except Error Sharding :=
  match p.sharding input with
  | some sharding => .ok sharding
  | none =>
    if collective.allowsMissingOperand then
      .ok (Sharding.fullyReplicated collective.out.mesh (p.typeOf input).rank)
    else .error .missingOperandSharding

def checkCollective (p : Program) (collective : Collective) (input : ValueId) :
    Except Error Unit := do
  p.checkFits collective.out input
  let operand ← p.operandSharding collective input
  let mesh ← p.meshes.resolve operand.mesh
  let outMesh ← p.meshes.resolve collective.out.mesh
  require (collective.allowsDifferentMeshes ∨ mesh = outMesh)
    (.incompatibleMeshes operand.mesh collective.out.mesh)
  collective.check operand mesh outMesh

-- There is one sharding for each value, and it fits the value.
def checkShardings (p : Program) (counted : Counted) (shardings : Option (List Sharding))
    (values : List ValueId) : Except Error Unit :=
  match shardings with
  | none => .ok ()
  | some shardings => do
    checkArity counted values.length shardings.length
    (shardings.zip values).forM fun (sharding, v) => p.checkFits sharding v

-- The values that the region of an operation returns.
def returnedBy (p : Program) (b : BlockId) : Except Error (List ValueId) :=
  match p.returned? b with
  | some values => .ok values
  | none        => .error .missingTerminator

-- The body of a named computation takes the operands and returns the results.
def checkNamed (p : Program) (op : Operation) (computation : NamedComputation) :
    Except Error Unit := do
  checkArity .regions 1 op.regions.length
  let body := (op.regions[0]?).getD default
  let arguments := (p.block body).arguments
  checkArity .blockArguments op.operands.length arguments.length
  p.checkTypes .blockArgument 0 ((op.operands.map p.typeOf).zip arguments)
  let returned ← p.returnedBy body
  checkArity .returnedValues op.results.length returned.length
  p.checkTypes .returnedValue 0 ((op.results.map p.typeOf).zip returned)
  p.checkShardings .inShardings computation.inShardings arguments
  p.checkShardings .outShardings computation.outShardings op.results

-- The mesh that all shardings refer to, directly or by a name.
def commonMesh (p : Program) (first : MeshRef) (shardings : List Sharding) :
    Except Error Mesh := do
  let mesh ← p.meshes.resolve first
  shardings.forM fun sharding => do
    let other ← p.meshes.resolve sharding.mesh
    require (other = mesh) (.incompatibleMeshes first sharding.mesh)
  return mesh

-- The manual axes are axes of the mesh, in its order.
def checkManualAxes (ref : MeshRef) (mesh : Mesh) (manual : List String) : Except Error Unit := do
  let positions ← manual.mapM fun axis =>
    match mesh.axisIndex? axis with
    | some position => pure position
    | none          => throw (.unknownManualAxis axis ref)
  require (ascending positions) (.unsortedAxes (manual.map .whole))
where
  ascending : List Nat → Bool
    | a :: b :: rest => a < b && ascending (b :: rest)
    | _              => true

-- Values cross the boundary of a manual computation: each one outside has a sharding that allows
-- it, and its counterpart in the body has the type that is left there.
def checkBoundary (p : Program) (place : Nat → TypedPlace) (manual : List String) (mesh : Mesh)
    (index : Nat) : List (Sharding × ValueId × ValueId) → Except Error Unit
  | [] => .ok ()
  | (sharding, outer, inner) :: rest => do
    let type ← sharding.localType manual mesh (p.typeOf outer)
    checkType (place index) type (p.typeOf inner)
    checkBoundary p place manual mesh (index + 1) rest

def checkManual (p : Program) (op : Operation) (computation : ManualComputation) :
    Except Error Unit := do
  let ⟨inShardings, outShardings, manual⟩ := computation
  let body := (op.regions[0]?).getD default
  let arguments := (p.block body).arguments
  let returned ← p.returnedBy body
  checkArity .inShardings op.operands.length inShardings.length
  checkArity .blockArguments op.operands.length arguments.length
  checkArity .outShardings op.results.length outShardings.length
  checkArity .returnedValues op.results.length returned.length
  match inShardings ++ outShardings with
  | [] => require (manual = []) (.manualAxesWithoutMesh (manual.map .whole))
  | first :: rest => do
    let mesh ← p.commonMesh first.mesh rest
    checkManualAxes first.mesh mesh manual
    p.checkBoundary .blockArgument manual mesh 0 (inShardings.zip (op.operands.zip arguments))
    p.checkBoundary .returnedValue manual mesh 0 (outShardings.zip (op.results.zip returned))

-- The rules for an operation of the program.
def checkOp (p : Program) (o : OpId) : Except Error Unit := do
  let op := p.op o
  match op.kind with
  | .constraint sharding | .reshard sharding =>
    p.checkFits sharding (← p.checkUnary op)
  | .group _ =>
    checkArity .operands 1 op.operands.length
    checkArity .results 0 op.results.length
  | .collective collective =>
    p.checkCollective collective (← p.checkUnary op)
  | .edge sharding =>
    let owner ← p.checkUnary op
    p.checkEdgeOwner owner
    sharding.toList.forM (p.checkFits · owner)
  | .manual computation => p.checkManual op computation
  | .named computation  => p.checkNamed op computation
  | .constant _ =>
    checkArity .operands 0 op.operands.length
    checkArity .results 1 op.results.length
  | .barrier allowed =>
    let _ ← p.checkUnary op
    require (¬ (allowed.allowsForward ∧ allowed.allowsBackward)) .bothDirectionBarrier
  | .terminator => checkArity .results 0 op.results.length
  | .generic data =>
    if data.elementwise then p.checkElementwise (op.operands ++ op.results)

end MeshSharding.Program
