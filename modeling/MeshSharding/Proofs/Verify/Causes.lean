import MeshSharding.Program.Verify
import MeshSharding.Proofs.Verify.Operand

namespace MeshSharding

-- The errors of a computation are among those with a property.
def FailsWith {ε α : Type} (P : ε → Prop) (x : Except ε α) : Prop :=
  ∀ e, x = .error e → P e

-- The error is not about scopes.
def Error.Local : Error → Prop
  | .valueNotInScope _ => False
  | _                  => True

namespace FailsWith

section Except

variable {ε α β : Type} {P : ε → Prop} {x : Except ε α} {f : α → Except ε β} {e : ε} {a : α} {as : List α}

@[simp]
theorem ok : FailsWith P (.ok a : Except ε α) :=
  nofun

@[simp]
theorem pure : FailsWith P (pure a : Except ε α) :=
  nofun

@[simp]
theorem error_iff : FailsWith P (.error e : Except ε α) ↔ P e := by
  simp [FailsWith]

@[simp]
theorem throw_iff : FailsWith P (throw e : Except ε α) ↔ P e :=
  error_iff

theorem bind (hx : FailsWith P x) (hf : ∀ a, FailsWith P (f a)) : FailsWith P (x >>= f) := by
  cases x with
  | error e => exact error_iff.mpr (error_iff.mp hx)
  | ok a    => exact hf a

theorem forM_mem {check : α → Except ε Unit} (h : ∀ a ∈ as, FailsWith P (check a)) :
    FailsWith P (as.forM check) := by
  induction as with
  | nil          => exact .ok
  | cons a as ih =>
    obtain ⟨ha, h⟩ := List.forall_mem_cons.mp h
    exact ha.bind fun _ => ih h

theorem forM {check : α → Except ε Unit} (h : ∀ a, FailsWith P (check a)) : FailsWith P (as.forM check) :=
  forM_mem fun a _ => h a

theorem mapM (h : ∀ a, FailsWith P (f a)) : FailsWith P (as.mapM f) := by
  induction as with
  | nil          => exact .ok
  | cons a as ih =>
    rw [List.mapM_cons]
    exact (h a).bind fun _ => ih.bind fun _ => .pure

theorem foldlM {step : β → α → Except ε β} (h : ∀ b a, FailsWith P (step b a)) (b : β) :
    FailsWith P (as.foldlM step b) := by
  induction as generalizing b with
  | nil          => exact .ok
  | cons a as ih =>
    rw [List.foldlM_cons]
    exact (h b a).bind ih

end Except

end FailsWith

-- A check that is not about scopes.
abbrev LocalCheck {α : Type} (check : Except Error α) : Prop :=
  FailsWith Error.Local check

section Axes

variable {mesh : Mesh} {axis : AxisRef} {axes used : List AxisRef}

theorem local_require {condition : Prop} [Decidable condition] {e : Error}
    (h : e.Local) : LocalCheck (require condition e) := by
  rw [require]
  split <;> simp [h]

theorem local_require_bind {α : Type} {condition : Prop} [Decidable condition] {e : Error}
    {f : Unit → Except Error α} (h : e.Local) (hf : ∀ u, LocalCheck (f u)) :
    LocalCheck (require condition e >>= f) :=
  (local_require h).bind hf

theorem local_requireAxisSize (name : String) : LocalCheck (mesh.requireAxisSize name) := by
  rw [Mesh.requireAxisSize]
  split <;> simp [Error.Local]

theorem local_sizeIn : LocalCheck (axis.sizeIn mesh) := by
  rw [AxisRef.sizeIn]
  split
  · exact .ok
  · exact local_requireAxisSize _

theorem local_check : LocalCheck (axis.check mesh) := by
  refine (local_requireAxisSize _).bind fun size => ?_
  split <;> simp [Error.Local]

theorem local_totalSize : LocalCheck (AxisRef.totalSize axes mesh) :=
  (FailsWith.mapM fun _ => local_sizeIn).bind fun _ => .pure

theorem local_checkMerged : LocalCheck (AxisRef.checkMerged axes) := by
  induction axes with
  | nil => exact .ok
  | cons axis axes ih =>
    cases axes with
    | nil      => exact .ok
    | cons _ _ => exact local_require_bind trivial fun _ => ih

theorem local_checkCanonical : LocalCheck (AxisRef.checkCanonical axes mesh) := by
  have hgo (rest : List AxisRef) : LocalCheck (AxisRef.checkCanonical.go axes mesh rest) := by
    induction rest with
    | nil => exact .ok
    | cons axis rest ih =>
      cases rest with
      | nil      => exact .ok
      | cons _ _ => exact local_require_bind trivial fun _ => local_require_bind trivial fun _ => ih
  exact hgo axes

theorem local_useAxes : LocalCheck (Sharding.useAxes mesh used axes) := by
  induction axes generalizing used with
  | nil => exact .ok
  | cons axis axes ih =>
    refine local_check.bind fun _ => ?_
    split
    · simp [Error.Local]
    · exact ih

theorem local_useDims {index : Nat} {dims : List (DimSharding × Nat)} :
    LocalCheck (Sharding.useDims mesh index used dims) := by
  induction dims generalizing index used with
  | nil => exact .ok
  | cons dim dims ih =>
    exact local_useAxes.bind fun _ => local_checkMerged.bind fun _ => local_totalSize.bind fun _ =>
      local_require_bind trivial fun _ => ih

theorem local_checkIn {sharding : Sharding} {shape : List Nat} : LocalCheck (sharding.checkIn mesh shape) :=
  local_require_bind trivial fun _ => local_useDims.bind fun _ => local_useAxes.bind fun _ =>
    local_checkCanonical

theorem local_resolve {meshes : MeshTable} {ref : MeshRef} : LocalCheck (meshes.resolve ref) := by
  rw [MeshTable.resolve.eq_def]
  split
  · exact .ok
  · split <;> simp [Error.Local]

end Axes

section Collectives

variable {operand out : Sharding} {mesh outMesh : Mesh} {axes : List (List AxisRef)}

theorem local_checkDeclared : LocalCheck (operand.checkDeclared out) :=
  local_require trivial

theorem local_allGather : LocalCheck (operand.allGather axes) := by
  have hdims (index : Nat) (dims : List (DimSharding × List AxisRef)) :
      LocalCheck (Sharding.gatherDims index dims) := by
    induction dims generalizing index with
    | nil => exact .ok
    | cons dim dims ih =>
      rw [Sharding.gatherDims]
      split
      · simp [Error.Local]
      · exact (ih _).bind fun _ => .pure
  exact local_require_bind trivial fun _ => (hdims _ _).bind fun _ => .pure

theorem local_allSlice : LocalCheck (operand.allSlice axes) := by
  have hdim (index : Nat) (sliced axes : List AxisRef) :
      LocalCheck (operand.takeSlices index sliced axes) := by
    induction axes generalizing sliced with
    | nil => exact .ok
    | cons axis axes ih =>
      refine local_require_bind trivial fun _ => ?_
      split
      · simp [Error.Local]
      · exact ih _
  have hdims (index : Nat) (sliced : List AxisRef) (axes : List (List AxisRef)) :
      LocalCheck (operand.takeAllSlices index sliced axes) := by
    induction axes generalizing index sliced with
    | nil          => exact .ok
    | cons _ _ ih => exact (hdim _ _ _).bind fun _ => ih _ _
  exact local_require_bind trivial fun _ => (hdims _ _ _).bind fun _ => .pure

theorem local_checkMovesFrom {rank : Nat} {previous : Option Nat} {used : List Nat} {moves : List AxisMove} :
    LocalCheck (Sharding.checkMovesFrom rank previous used moves) := by
  induction moves generalizing previous used with
  | nil => exact .ok
  | cons move moves ih =>
    refine local_require_bind trivial fun _ => local_require_bind trivial fun _ =>
      local_require_bind trivial fun _ => local_require_bind trivial fun _ => ?_
    split
    · exact local_require_bind trivial fun _ => local_require_bind trivial fun _ =>
        local_require_bind trivial fun _ => ih
    · exact local_require_bind trivial fun _ => local_require_bind trivial fun _ => ih

theorem local_allToAll {moves : List AxisMove} : LocalCheck (operand.allToAll moves) := by
  refine FailsWith.bind ?_ fun _ => FailsWith.bind (.foldlM (fun dims move => ?_) _) fun _ => .pure
  · exact local_require_bind trivial fun _ => local_checkMovesFrom
  · rw [Sharding.applyMove.eq_def]
    dsimp only
    split <;> simp [Error.Local]

theorem local_checkPermute : LocalCheck (operand.checkPermute mesh out outMesh) := by
  have hcounts (index : Nat) (dims : List (DimSharding × DimSharding)) :
      LocalCheck (Sharding.checkShardCounts mesh outMesh index dims) := by
    induction dims generalizing index with
    | nil => exact .ok
    | cons dim dims ih =>
      exact local_totalSize.bind fun _ => local_totalSize.bind fun _ =>
        local_require_bind trivial fun _ => ih _
  exact local_require_bind trivial fun _ => local_require_bind trivial fun _ => hcounts _ _

theorem local_checkFree {axes : List AxisRef} : LocalCheck (operand.checkFree axes) := by
  induction axes with
  | nil => exact .ok
  | cons axis axes ih => exact local_require_bind trivial fun _ => local_require_bind trivial fun _ => ih

theorem local_checkReduce {axes : List AxisRef} : LocalCheck (operand.checkReduce axes out mesh) := by
  have hunused (axes : List AxisRef) : LocalCheck (Sharding.checkUnusedByOut out axes) := by
    induction axes with
    | nil            => exact .ok
    | cons _ axes ih => exact local_require_bind trivial fun _ => ih
  exact (FailsWith.forM fun _ => local_check).bind fun _ => local_checkCanonical.bind fun _ =>
    local_checkFree.bind fun _ => (hunused _).bind fun _ => local_require trivial

theorem local_reduceScatter : LocalCheck (operand.reduceScatter axes) :=
  local_require_bind trivial fun _ => local_checkFree.bind fun _ => local_allSlice

theorem local_collective (collective : Collective) : LocalCheck (collective.check operand mesh outMesh) := by
  rw [Collective.check]
  split
  · exact local_allGather.bind fun _ => local_checkDeclared
  · exact local_allSlice.bind fun _ => local_checkDeclared
  · exact local_allToAll.bind fun _ => local_checkDeclared
  · exact local_checkPermute
  · exact local_checkReduce
  · exact local_reduceScatter.bind fun _ => local_checkDeclared

end Collectives

namespace Program

variable {p : Program} {op : Operation} {o : OpId} {v : ValueId} {vs : List ValueId} {b : BlockId}

section Values

theorem local_checkArity {counted : Counted} {n m : Nat} : LocalCheck (checkArity counted n m) :=
  local_require trivial

theorem local_checkType {place : TypedPlace} {s t : TensorType} : LocalCheck (checkType place s t) :=
  local_require trivial

theorem local_checkTypes {place : Nat → TypedPlace} {index : Nat} {pairs : List (TensorType × ValueId)} :
    LocalCheck (p.checkTypes place index pairs) := by
  induction pairs generalizing index with
  | nil              => exact .ok
  | cons pair pairs ih => exact local_checkType.bind fun _ => ih

theorem local_checkUnary : LocalCheck (p.checkUnary op) :=
  local_checkArity.bind fun _ => local_checkArity.bind fun _ => local_checkType.bind fun _ => .pure

theorem local_checkFits {s : Sharding} : LocalCheck (p.checkFits s v) :=
  local_resolve.bind fun _ => local_checkIn

theorem local_checkShardings {counted : Counted} {shardings : Option (List Sharding)} :
    LocalCheck (p.checkShardings counted shardings vs) := by
  rw [checkShardings.eq_def]
  split
  · exact .ok
  · exact local_checkArity.bind fun _ => .forM fun _ => local_checkFits

theorem local_returnedBy : LocalCheck (p.returnedBy b) := by
  rw [returnedBy]
  split <;> simp [Error.Local]

end Values

section Kinds

theorem local_checkEdgeOwner : LocalCheck (p.checkEdgeOwner v) := by
  rw [checkEdgeOwner]
  split
  · exact local_require trivial
  · simp [Error.Local]

theorem local_checkElementwise : LocalCheck (p.checkElementwise vs) := by
  have hgo (expected : TensorType) (index : Nat) (vs : List ValueId) :
      LocalCheck (checkElementwise.go p expected index vs) := by
    induction vs generalizing index with
    | nil          => exact .ok
    | cons v vs ih => exact local_require_bind trivial fun _ => ih _
  cases vs with
  | nil       => exact .ok
  | cons v vs => exact hgo _ _ _

theorem local_checkCollective {collective : Collective} : LocalCheck (p.checkCollective collective v) := by
  have hoperand : LocalCheck (p.operandSharding collective v) := by
    rw [operandSharding]
    split
    · exact .ok
    · split <;> simp [Error.Local]
  exact local_checkFits.bind fun _ => hoperand.bind fun _ => local_resolve.bind fun _ =>
    local_resolve.bind fun _ => local_require_bind trivial fun _ => local_collective collective

theorem local_checkNamed {computation : NamedComputation} : LocalCheck (p.checkNamed op computation) :=
  local_checkArity.bind fun _ => local_checkArity.bind fun _ => local_checkTypes.bind fun _ =>
    local_returnedBy.bind fun _ => local_checkArity.bind fun _ => local_checkTypes.bind fun _ =>
    local_checkShardings.bind fun _ => local_checkShardings

theorem local_commonMesh {first : MeshRef} {shardings : List Sharding} :
    LocalCheck (p.commonMesh first shardings) :=
  local_resolve.bind fun _ => FailsWith.bind
    (.forM fun _ => local_resolve.bind fun _ => local_require trivial) fun _ => .pure

theorem local_checkManualAxes {ref : MeshRef} {mesh : Mesh} {manual : List String} :
    LocalCheck (checkManualAxes ref mesh manual) := by
  refine FailsWith.bind (.mapM fun axis => ?_) fun _ => local_require trivial
  split <;> simp [Error.Local]

theorem local_localType {sharding : Sharding} {manual : List String} {mesh : Mesh} {type : TensorType} :
    LocalCheck (sharding.localType manual mesh type) := by
  have hfirst (index : Nat) (free : Option AxisRef) (axes : List AxisRef) :
      LocalCheck (Sharding.checkManualFirst manual index free axes) := by
    induction axes generalizing free with
    | nil => exact .ok
    | cons axis axes ih =>
      rw [Sharding.checkManualFirst.eq_def]
      dsimp only
      split
      · split
        · simp [Error.Local]
        · exact ih none
      · exact ih _
  have hdims (index : Nat) (dims : List DimSharding) :
      LocalCheck (Sharding.checkDimsManualFirst manual index dims) := by
    induction dims generalizing index with
    | nil             => exact .ok
    | cons dim dims ih => exact (hfirst _ _ _).bind fun _ => ih _
  have hlocal (index : Nat) (dims : List (DimSharding × Nat)) :
      LocalCheck (Sharding.localDims mesh manual index dims) := by
    induction dims generalizing index with
    | nil => exact .ok
    | cons dim dims ih =>
      exact local_totalSize.bind fun _ => local_require_bind trivial fun _ => (ih _).bind fun _ => .pure
  refine local_checkIn.bind fun _ => (hdims _ _).bind fun _ => ?_
  split
  · exact FailsWith.error_iff.mpr trivial
  · exact (hlocal _ _).bind fun _ => .pure

theorem local_checkManual {computation : ManualComputation} : LocalCheck (p.checkManual op computation) := by
  have hboundary (place : Nat → TypedPlace) (manual : List String) (mesh : Mesh) (index : Nat)
      (entries : List (Sharding × ValueId × ValueId)) :
      LocalCheck (p.checkBoundary place manual mesh index entries) := by
    induction entries generalizing index with
    | nil             => exact .ok
    | cons _ _ ih => exact local_localType.bind fun _ => local_checkType.bind fun _ => ih _
  refine local_returnedBy.bind fun _ => local_checkArity.bind fun _ => local_checkArity.bind fun _ =>
    local_checkArity.bind fun _ => local_checkArity.bind fun _ => ?_
  split
  · exact local_require trivial
  · exact local_commonMesh.bind fun _ => local_checkManualAxes.bind fun _ =>
      (hboundary _ _ _ _ _).bind fun _ => hboundary _ _ _ _ _

theorem local_checkOp : LocalCheck (p.checkOp o) := by
  rw [checkOp]
  split
  · exact local_checkUnary.bind fun _ => local_checkFits
  · exact local_checkUnary.bind fun _ => local_checkFits
  · exact local_checkArity.bind fun _ => local_checkArity
  · exact local_checkUnary.bind fun _ => local_checkCollective
  · exact local_checkUnary.bind fun _ => local_checkEdgeOwner.bind fun _ => .forM fun _ => local_checkFits
  · exact local_checkManual
  · exact local_checkNamed
  · exact local_checkArity.bind fun _ => local_checkArity
  · exact local_checkUnary.bind fun _ => local_require trivial
  · exact local_checkArity
  · split
    · exact local_checkElementwise
    · exact .pure

end Kinds

end Program

end MeshSharding
