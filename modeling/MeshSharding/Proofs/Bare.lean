import MeshSharding.Pipeline.Spread
import MeshSharding.Proofs.Lookup

namespace MeshSharding

def OpKind.bare : OpKind → OpKind
  | edge _            => edge none
  | named computation => named { computation with inShardings := none, outShardings := none }
  | kind              => kind

def Operation.bare (op : Operation) : Operation :=
  { op with kind := op.kind.bare }

def Value.bare (value : Value) : Value :=
  { value with sharding := none }

-- The program without the shardings that spreading may change: those of edge operations, of named
-- computations, and those that are kept with values. What spreading knows from its start depends on
-- this only.
def Program.bare (p : Program) : Program :=
  { p with values := p.values.map Value.bare, operations := p.operations.map Operation.bare }

namespace OpKind

variable {kind : OpKind}

@[simp]
theorem bare_bare : kind.bare.bare = kind.bare := by
  cases kind <;> rfl

theorem eq_named_of_bare {computation : NamedComputation}
    (h : kind.bare = (named computation).bare) : ∃ other, kind = named other := by
  cases kind <;> simp [bare] at h
  exact ⟨_, rfl⟩

-- Kinds differ in shardings only.
theorem bare_cases {other : OpKind} (h : other.bare = kind.bare) : other = kind ∨
    (∃ s t, kind = edge s ∧ other = edge t) ∨ ∃ c d, kind = named c ∧ other = named d := by
  cases kind <;> cases other <;> simp_all [bare]

@[simp]
theorem bare_mnemonic : kind.bare.mnemonic = kind.mnemonic := by
  cases kind <;> rfl

@[simp]
theorem bare_isTerminator : kind.bare.isTerminator = kind.isTerminator := by
  cases kind <;> rfl

@[simp]
theorem bare_isEdge : kind.bare.isEdge = kind.isEdge := by
  cases kind <;> rfl

@[simp]
theorem bare_isManual : kind.bare.isManual = kind.isManual := by
  cases kind <;> rfl

@[simp]
theorem bare_isGeneric : kind.bare.isGeneric = kind.isGeneric := by
  cases kind <;> rfl

end OpKind

namespace Operation

variable (op : Operation)

@[simp]
theorem bare_kind : op.bare.kind = op.kind.bare :=
  rfl

@[simp]
theorem bare_operands : op.bare.operands = op.operands :=
  rfl

@[simp]
theorem bare_results : op.bare.results = op.results :=
  rfl

@[simp]
theorem bare_regions : op.bare.regions = op.regions :=
  rfl

@[simp]
theorem bare_block : op.bare.block = op.block :=
  rfl

@[simp]
theorem bare_erased : op.bare.erased = op.erased :=
  rfl

@[simp]
theorem bare_isStructural : op.bare.isStructural = op.isStructural := by
  simp [isStructural]

end Operation

namespace Program

variable (p : Program)

@[simp]
theorem bare_meshes : p.bare.meshes = p.meshes :=
  rfl

@[simp]
theorem bare_blocks : p.bare.blocks = p.blocks :=
  rfl

@[simp]
theorem bare_block (b : BlockId) : p.bare.block b = p.block b :=
  rfl

@[simp]
theorem bare_op (o : OpId) : p.bare.op o = (p.op o).bare := by
  cases h : p.operations[o.index]? <;> simp [op, bare, h, Operation.bare, OpKind.bare]

@[simp]
theorem bare_value (v : ValueId) : p.bare.value v = (p.value v).bare := by
  cases h : p.values[v.index]? <;> simp [value, bare, h, Value.bare]

@[simp]
theorem bare_length_values : p.bare.values.length = p.values.length := by
  simp [bare]

@[simp]
theorem bare_length_operations : p.bare.operations.length = p.operations.length := by
  simp [bare]

@[simp]
theorem bare_typeOf (v : ValueId) : p.bare.typeOf v = p.typeOf v := by
  simp [typeOf, Value.bare]

@[simp]
theorem bare_definitionOf (v : ValueId) : p.bare.definitionOf v = p.definitionOf v := by
  simp [definitionOf, Value.bare]

@[simp]
theorem bare_definer? (v : ValueId) : p.bare.definer? v = p.definer? v := by
  simp [definer?]

@[simp]
theorem bare_definingBlock (v : ValueId) : p.bare.definingBlock v = p.definingBlock v := by
  simp [definingBlock]

@[simp]
theorem bare_input (o : OpId) : p.bare.input o = p.input o := by
  simp [input]

@[simp]
theorem bare_output (o : OpId) : p.bare.output o = p.output o := by
  simp [output]

@[simp]
theorem bare_locationOf (o : OpId) : p.bare.locationOf o = p.locationOf o := by
  simp [locationOf, Operation.mnemonic]

@[simp]
theorem bare_terminator? (b : BlockId) : p.bare.terminator? b = p.terminator? b := by
  simp [terminator?]

@[simp]
theorem bare_returned? (b : BlockId) : p.bare.returned? b = p.returned? b := by
  simp [returned?]

@[simp]
theorem bare_walkBlock (depth : Nat) : p.bare.walkBlock depth = p.walkBlock depth := by
  induction depth with
  | zero => rfl
  | succ depth ih => funext b; simp [walkBlock, ih]

@[simp]
theorem bare_walk : p.bare.walk = p.walk := by
  simp [walk]

@[simp]
theorem bare_enclosingManualWithin (height : Nat) (b : BlockId) :
    p.bare.enclosingManualWithin height b = p.enclosingManualWithin height b := by
  induction height generalizing b with
  | zero => rfl
  | succ height ih => simp [enclosingManualWithin, ih]

@[simp]
theorem bare_manualAround? (v : ValueId) : p.bare.manualAround? v = p.manualAround? v := by
  simp [manualAround?, enclosingManual?]

@[simp]
theorem bare_edgeOfOwner? (owner : ValueId) : p.bare.edgeOfOwner? owner = p.edgeOfOwner? owner := by
  simp [edgeOfOwner?, bare, List.findIdx?_map, Function.comp_def]
  rfl

@[simp]
theorem bare_structuralResult? (o : OpId) (index : Nat) :
    p.bare.structuralResult? o index = p.structuralResult? o index := by
  simp [structuralResult?]

@[simp]
theorem bare_edgeForTarget? (v : ValueId) : p.bare.edgeForTarget? v = p.edgeForTarget? v := by
  simp [edgeForTarget?]

@[simp]
theorem bare_storageOf (v : ValueId) : p.bare.storageOf v = p.storageOf v := by
  simp [storageOf]

@[simp]
theorem bare_flowView? (o : OpId) : p.bare.flowView? o = p.flowView? o := by
  simp only [flowView?, bare_op, Operation.bare_kind, Operation.bare_isStructural]
  cases (p.op o).kind <;> simp [OpKind.bare, bare, transformOf]
  case named => rfl

@[simp]
theorem bare_owners (view : FlowView) : view.owners p.bare = view.owners p := by
  cases view <;> simp [FlowView.owners]

@[simp]
theorem bare_sources (view : FlowView) (owner : ValueId) :
    view.sources p.bare owner = view.sources p owner := by
  cases view <;> simp [FlowView.sources]

@[simp]
theorem bare_targets (view : FlowView) (owner : ValueId) :
    view.targets p.bare owner = view.targets p owner := by
  cases view <;> simp [FlowView.targets]

@[simp]
theorem bare_isSettable (v : ValueId) : p.bare.isSettable v = p.isSettable v := by
  simp only [isSettable, bare_edgeForTarget?, bare_definitionOf, bare_op, parentKind?, bare_block]
  cases p.definitionOf v with
  | argument b index => cases h : (p.block b).parent <;> simp [h]
  | result o index   => cases h : (p.op o).kind <;> simp [OpKind.bare, h]

@[simp]
theorem bare_ownLinks (o : OpId) : p.bare.ownLinks o = p.ownLinks o := by
  cases h : (p.op o).kind <;> simp [ownLinks, OpKind.bare, h]

@[simp]
theorem bare_flowLinks (o : OpId) : p.bare.flowLinks o = p.flowLinks o := by
  simp [flowLinks]

@[simp]
theorem bare_groupEntries : p.bare.groupEntries = p.groupEntries := by
  simp only [groupEntries, bare_walk, bare_op, bare_input]
  congr 1
  funext o
  cases h : (p.op o).kind <;> simp [OpKind.bare, h]

@[simp]
theorem bare_checkNotCrossing (group : ShardingGroup) :
    p.bare.checkNotCrossing group = p.checkNotCrossing group := by
  simp [checkNotCrossing, ShardingGroup.opOn]

@[simp]
theorem bare_groups : p.bare.groups = p.groups := by
  simp only [groups, bare_groupEntries]
  congr 2
  funext group
  exact p.bare_checkNotCrossing group

@[simp]
theorem bare_links : p.bare.links = p.links := by
  simp [links]

@[simp]
theorem bare_pinned : p.bare.pinned = p.pinned := by
  simp only [pinned, bare_walk, bare_op, bare_input, bare_storageOf]
  congr 1
  funext o
  cases h : (p.op o).kind <;> simp [OpKind.bare, h]

-- What spreading knows from its start.
@[simp]
theorem bare_spreadPlan (options : SpreadOptions) : p.bare.spreadPlan options = p.spreadPlan options := by
  simp [spreadPlan, funext p.bare_storageOf]

-- What can be read from the bare program is the same in all programs that share it.
theorem read_of_bare_eq {α : Type} {p q : Program} (read : Program → α)
    (hr : ∀ r : Program, read r.bare = read r) (h : q.bare = p.bare) : read q = read p := by
  rw [← hr q, h, hr p]

end Program

end MeshSharding
