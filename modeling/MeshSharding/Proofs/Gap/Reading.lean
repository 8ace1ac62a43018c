import MeshSharding.Pipeline.Spread
import MeshSharding.Proofs.Gap.Nesting

namespace MeshSharding

variable {p : Program} {g : Gap} {o u : OpId} {v owner : ValueId} {b : BlockId} {i : Nat} {s : Sharding}

section Records

def FlowView.past (view : FlowView) (g : Gap) : FlowView :=
  match view with
  | structural o transform => structural (o.past g) transform
  | named o                => named (o.past g)

def Storage.past (storage : Storage) (g : Gap) : Storage :=
  match storage with
  | edge o  => edge (o.past g)
  | value v => value (v.past g)

def Link.past (link : Link) (g : Gap) : Link :=
  { link with
    members := link.members.map (·.past g)
    inputs  := link.inputs.map (·.past g) }

def GroupEntry.past (entry : GroupEntry) (g : Gap) : GroupEntry :=
  { entry with
    op    := entry.op.past g
    value := entry.value.past g }

def ShardingGroup.past (group : ShardingGroup) (g : Gap) : ShardingGroup :=
  { group with
    members    := group.members.map (·.past g)
    operations := group.operations.map (·.past g) }

@[simp]
theorem Storage.past_edge : (edge o).past g = edge (o.past g) :=
  rfl

@[simp]
theorem Storage.past_value : (value v).past g = value (v.past g) :=
  rfl

@[simp]
theorem Storage.past_inj {storage other : Storage} : storage.past g = other.past g ↔ storage = other := by
  cases storage <;> cases other <;> simp [past]

@[simp]
theorem Link.past_members {link : Link} : (link.past g).members = link.members.map (·.past g) :=
  rfl

@[simp]
theorem Link.past_inputs {link : Link} : (link.past g).inputs = link.inputs.map (·.past g) :=
  rfl

@[simp]
theorem Link.past_fixed {link : Link} : (link.past g).fixed = link.fixed :=
  rfl

@[simp]
theorem FlowView.past_op {view : FlowView} : (view.past g).op = view.op.past g := by
  cases view <;> rfl

end Records

namespace Program

section Edges

@[simp]
theorem past_edgeOfOwner? :
    (p.past g).edgeOfOwner? (owner.past g) = (p.edgeOfOwner? owner).map (·.past g) := by
  simp only [edgeOfOwner?, past]
  rw [findIdx?_insertIdx_past (by simp [g.erased])]
  simp only [List.findIdx?_map, Option.map_map]
  congr 1
  · funext j
    simp only [Function.comp_apply, OpId.past, apply_ite OpId.mk]
  · congr 1
    funext op
    simp [List.head?_map]

@[simp]
theorem past_structuralResult? :
    (p.past g).structuralResult? (o.past g) i = (p.structuralResult? o i).map (·.past g) := by
  simp only [structuralResult?, past_op, Operation.past_isStructural, Operation.past_erased,
    Operation.past_results, List.getElem?_map]
  split <;> rfl

@[simp]
theorem past_edgeForTarget? :
    (p.past g).edgeForTarget? (v.past g) = (p.edgeForTarget? v).map (·.past g) := by
  cases he : p.edgeOfOwner? v with
  | some edge => simp [edgeForTarget?, he]
  | none =>
    cases hd : p.definitionOf v with
    | result o j   => simp [edgeForTarget?, he, hd]
    | argument b j =>
      simp [edgeForTarget?, he, hd, Option.map_bind, Option.bind_map]

@[simp]
theorem past_shardingOfResult :
    (p.past g).shardingOfResult (v.past g) (o.past g) i = p.shardingOfResult v o i := by
  simp [shardingOfResult]

@[simp]
theorem past_shardingOfArgument :
    (p.past g).shardingOfArgument (v.past g) b i = p.shardingOfArgument v b i := by
  simp [shardingOfArgument]

@[simp]
theorem past_sharding : (p.past g).sharding (v.past g) = p.sharding v := by
  cases h : p.definitionOf v <;> simp [sharding, h, Function.comp_def]

@[simp]
theorem past_isSettable : (p.past g).isSettable (v.past g) = p.isSettable v := by
  cases h : p.definitionOf v <;> simp [isSettable, h]

@[simp]
theorem past_storageOf : (p.past g).storageOf (v.past g) = (p.storageOf v).past g := by
  cases he : p.edgeForTarget? v with
  | some edge => simp [storageOf, he]
  | none =>
    cases hd : p.definer? v with
    | none   => simp [storageOf, he, hd]
    | some o => cases hk : (p.op o).kind.isEdge <;> simp [storageOf, he, hd, hk]

end Edges

section Flow

variable {view : FlowView}

@[simp]
theorem past_flowView? : (p.past g).flowView? (o.past g) = (p.flowView? o).map (·.past g) := by
  cases h : (p.op o).kind <;> simp [flowView?, h, apply_ite, FlowView.past]

@[simp]
theorem past_owners : (view.past g).owners (p.past g) = (view.owners p).map (·.past g) := by
  cases view <;> simp [FlowView.past, FlowView.owners, List.map_flatMap]

@[simp]
theorem past_sources :
    (view.past g).sources (p.past g) (owner.past g) = (view.sources p owner).map (·.past g) := by
  cases view <;> cases h : p.definitionOf owner <;>
    simp [FlowView.past, FlowView.sources, h, List.map_filterMap, Option.map_bind, Option.bind_map,
      Option.toList_map]

@[simp]
theorem past_targets :
    (view.past g).targets (p.past g) (owner.past g) = (view.targets p owner).map (·.past g) := by
  cases view <;> cases h : p.definitionOf owner <;>
    simp [FlowView.past, FlowView.targets, h, List.map_filterMap, apply_ite]

@[simp]
theorem past_targetSharding :
    (view.past g).targetSharding (p.past g) (v.past g) s = view.targetSharding p v s := by
  cases view <;> simp [FlowView.past, FlowView.targetSharding]

end Flow

section Links

@[simp]
theorem past_ownLinks : (p.past g).ownLinks (o.past g) = (p.ownLinks o).map (·.past g) := by
  cases h : (p.op o).kind with
  | barrier allowed  => cases allowed <;> simp [ownLinks, h, Link.past]
  | generic data     => cases he : data.elementwise <;> simp [ownLinks, h, he, Link.past]
  | manual computation =>
    have hr (r : Option (List ValueId)) : (r.map (·.map (·.past g))).getD [] = (r.getD []).map (·.past g) := by
      cases r <;> rfl
    simp [ownLinks, h, Link.past, hr, List.zipWith_map_left]
  | _ => simp [ownLinks, h, Link.past]

@[simp]
theorem past_flowLinks : (p.past g).flowLinks (o.past g) = (p.flowLinks o).map (·.past g) := by
  cases h : p.flowView? o <;> simp [flowLinks, h, Link.past, Function.comp_def]

@[simp]
theorem past_pinned : (p.past g).pinned = p.pinned.map (·.past g) := by
  simp only [pinned, past_walk, List.filterMap_map, List.map_filterMap]
  congr 1
  funext o
  cases h : (p.op o).kind <;> simp [h]

end Links

end Program

end MeshSharding
