import MeshSharding.Program.Uses
import MeshSharding.Proofs.Lookup

namespace MeshSharding

-- An operation and a value of a program that nothing refers to, with their handles. The program that keeps
-- them in its lists is the one without them, but that all handles from there on are larger by one.
structure Gap where
  op          : OpId
  value       : ValueId
  unusedOp    : Operation
  unusedValue : Value
  op_pos      : 0 < op.index
  value_pos   : 0 < value.index
  erased      : unusedOp.erased = true
  unset       : unusedValue.sharding = none

variable {g : Gap}

section Handles

def OpId.past (o : OpId) (g : Gap) : OpId :=
  if o.index < g.op.index then o else ⟨o.index + 1⟩

def ValueId.past (v : ValueId) (g : Gap) : ValueId :=
  if v.index < g.value.index then v else ⟨v.index + 1⟩

variable {o u : OpId} {v w : ValueId}

theorem OpId.past_of_lt (h : o.index < g.op.index) : o.past g = o :=
  if_pos h

theorem ValueId.past_of_lt (h : v.index < g.value.index) : v.past g = v :=
  if_pos h

theorem OpId.past_of_le (h : g.op.index ≤ o.index) : o.past g = ⟨o.index + 1⟩ :=
  if_neg (Nat.not_lt.mpr h)

theorem ValueId.past_of_le (h : g.value.index ≤ v.index) : v.past g = ⟨v.index + 1⟩ :=
  if_neg (Nat.not_lt.mpr h)

theorem OpId.past_injective : Function.Injective fun o : OpId => o.past g := by
  rintro ⟨i⟩ ⟨j⟩ h
  simp only [past] at h
  split at h <;> split at h <;> simp only [OpId.mk.injEq] at h ⊢ <;> omega

theorem ValueId.past_injective : Function.Injective fun v : ValueId => v.past g := by
  rintro ⟨i⟩ ⟨j⟩ h
  simp only [past] at h
  split at h <;> split at h <;> simp only [ValueId.mk.injEq] at h ⊢ <;> omega

@[simp]
theorem OpId.past_inj : o.past g = u.past g ↔ o = u :=
  OpId.past_injective.eq_iff

@[simp]
theorem ValueId.past_inj : v.past g = w.past g ↔ v = w :=
  ValueId.past_injective.eq_iff

@[simp]
theorem OpId.past_ne_gap : o.past g ≠ g.op := by
  obtain ⟨i⟩ := o
  intro h
  have h := congrArg OpId.index h
  simp only [past] at h
  split at h <;> simp only at h <;> omega

@[simp]
theorem ValueId.past_ne_gap : v.past g ≠ g.value := by
  obtain ⟨i⟩ := v
  intro h
  have h := congrArg ValueId.index h
  simp only [past] at h
  split at h <;> simp only at h <;> omega

-- Every value is that of the gap or comes from a program without it.
theorem ValueId.eq_gap_or_past (g : Gap) (w : ValueId) : w = g.value ∨ ∃ v : ValueId, w = v.past g := by
  obtain ⟨i⟩ := w
  by_cases hlt : i < g.value.index
  case pos => exact .inr ⟨⟨i⟩, (past_of_lt hlt).symm⟩
  case neg =>
    by_cases heq : i = g.value.index
    case pos => exact .inl (congrArg ValueId.mk heq)
    case neg => exact .inr ⟨⟨i - 1⟩, by rw [past_of_le (by simp only; omega)]; simp only [ValueId.mk.injEq]; omega⟩

@[simp]
theorem OpId.default_past : (default : OpId).past g = default :=
  past_of_lt g.op_pos

@[simp]
theorem ValueId.default_past : (default : ValueId).past g = default :=
  past_of_lt g.value_pos

end Handles

section Records

def Use.past (use : Use) (g : Gap) : Use :=
  { use with user := use.user.past g }

def Definition.past (definition : Definition) (g : Gap) : Definition :=
  match definition with
  | argument b index => argument b index
  | result o index   => result (o.past g) index

def Value.past (value : Value) (g : Gap) : Value :=
  { value with
    definition := value.definition.past g
    uses       := value.uses.map (·.past g) }

def Operation.past (op : Operation) (g : Gap) : Operation :=
  { op with
    operands := op.operands.map (·.past g)
    results  := op.results.map (·.past g) }

def Block.past (block : Block) (g : Gap) : Block where
  arguments  := block.arguments.map (·.past g)
  operations := block.operations.map (·.past g)
  parent     := block.parent.map (·.past g)

-- The program with the gap.
def Program.past (p : Program) (g : Gap) : Program :=
  { p with
    values     := (p.values.map (·.past g)).insertIdx g.value.index g.unusedValue
    operations := (p.operations.map (·.past g)).insertIdx g.op.index g.unusedOp
    blocks     := p.blocks.map (·.past g) }

variable {use other : Use} {value : Value} {op : Operation} {block : Block} {o : OpId} {b : BlockId} {index : Nat}

@[simp]
theorem Use.past_inj : use.past g = other.past g ↔ use = other := by
  cases use
  cases other
  simp [past]

@[simp]
theorem Use.past_user : (use.past g).user = use.user.past g :=
  rfl

@[simp]
theorem Use.past_index : (use.past g).index = use.index :=
  rfl

@[simp]
theorem Definition.past_argument : (argument b index).past g = argument b index :=
  rfl

@[simp]
theorem Definition.past_result : (result o index).past g = result (o.past g) index :=
  rfl

@[simp]
theorem Value.past_type : (value.past g).type = value.type :=
  rfl

@[simp]
theorem Value.past_definition : (value.past g).definition = value.definition.past g :=
  rfl

@[simp]
theorem Value.past_sharding : (value.past g).sharding = value.sharding :=
  rfl

@[simp]
theorem Value.past_uses : (value.past g).uses = value.uses.map (·.past g) :=
  rfl

@[simp]
theorem Operation.past_kind : (op.past g).kind = op.kind :=
  rfl

@[simp]
theorem Operation.past_operands : (op.past g).operands = op.operands.map (·.past g) :=
  rfl

@[simp]
theorem Operation.past_results : (op.past g).results = op.results.map (·.past g) :=
  rfl

@[simp]
theorem Operation.past_regions : (op.past g).regions = op.regions :=
  rfl

@[simp]
theorem Operation.past_block : (op.past g).block = op.block :=
  rfl

@[simp]
theorem Operation.past_erased : (op.past g).erased = op.erased :=
  rfl

@[simp]
theorem Operation.past_mnemonic : (op.past g).mnemonic = op.mnemonic :=
  rfl

@[simp]
theorem Operation.past_isStructural : (op.past g).isStructural = op.isStructural :=
  rfl

@[simp]
theorem Block.past_arguments : (block.past g).arguments = block.arguments.map (·.past g) :=
  rfl

@[simp]
theorem Block.past_operations : (block.past g).operations = block.operations.map (·.past g) :=
  rfl

@[simp]
theorem Block.past_parent : (block.past g).parent = block.parent.map (·.past g) :=
  rfl

end Records

section Lists

variable {α β : Type}

-- A list with an item put in between has the others at their old or next places.
theorem getElem?_insertIdx_past {l : List α} {a : α} {n i : Nat} :
    (l.insertIdx n a)[if i < n then i else i + 1]? = l[i]? := by
  rw [List.getElem?_insertIdx]
  by_cases hi : i < n
  case pos => simp [hi]
  case neg => simp only [hi, if_false, Nat.add_sub_cancel]; split_ifs <;> first | rfl | omega

theorem modify_insertIdx_past {l : List α} {a : α} {n i : Nat} (f : α → α) :
    (l.insertIdx n a).modify (if i < n then i else i + 1) f = (l.modify i f).insertIdx n a := by
  apply List.ext_getElem?
  intro j
  simp only [List.getElem?_modify, List.getElem?_insertIdx, List.length_modify]
  split_ifs <;> first | rfl | omega

theorem modify_map {f : α → β} {h : β → β} {k : α → α} (hf : ∀ a, h (f a) = f (k a)) (l : List α) (i : Nat) :
    (l.map f).modify i h = (l.modify i k).map f := by
  apply List.ext_getElem?
  intro j
  simp only [List.getElem?_modify, List.getElem?_map]
  by_cases hij : i = j
  case pos => cases l[j]? <;> simp [hf, hij]
  case neg => simp [hij]

theorem findIdx?_insertIdx_past {l : List α} {a : α} {n : Nat} {P : α → Bool} (ha : P a = false) :
    (l.insertIdx n a).findIdx? P = (l.findIdx? P).map fun i => if i < n then i else i + 1 := by
  induction l generalizing n with
  | nil         => cases n <;> simp [ha]
  | cons b l ih =>
    cases n with
    | zero   => cases h : P b <;> simp [List.findIdx?_cons, ha, h, Function.comp_def]
    | succ n =>
      cases h : P b
      case true  => simp [List.findIdx?_cons, h]
      case false =>
        simp only [List.insertIdx_succ_cons, List.findIdx?_cons, h, Bool.false_eq_true, if_false, ih,
          Option.map_map]
        congr 1
        funext i
        simp only [Function.comp_apply]
        split_ifs <;> omega

end Lists

namespace Program

variable {p : Program} {o : OpId} {v : ValueId} {b : BlockId}

section Lookup

@[simp]
theorem past_name : (p.past g).name = p.name :=
  rfl

@[simp]
theorem past_meshes : (p.past g).meshes = p.meshes :=
  rfl

@[simp]
theorem past_transforms : (p.past g).transforms = p.transforms :=
  rfl

@[simp]
theorem past_length_blocks : (p.past g).blocks.length = p.blocks.length :=
  List.length_map _

@[simp]
theorem past_op : (p.past g).op (o.past g) = (p.op o).past g := by
  have ho : (o.past g).index = if o.index < g.op.index then o.index else o.index + 1 := by
    simp only [OpId.past, apply_ite OpId.index]
  simp only [op, past, ho, getElem?_insertIdx_past, List.getElem?_map]
  cases p.operations[o.index]? <;> rfl

@[simp]
theorem past_value : (p.past g).value (v.past g) = (p.value v).past g := by
  have hv : (v.past g).index = if v.index < g.value.index then v.index else v.index + 1 := by
    simp only [ValueId.past, apply_ite ValueId.index]
  simp only [value, past, hv, getElem?_insertIdx_past, List.getElem?_map]
  cases p.values[v.index]? <;> rfl

@[simp]
theorem past_block : (p.past g).block b = (p.block b).past g := by
  simp only [block, past, List.getElem?_map]
  cases p.blocks[b.index]? <;> rfl

-- The value in the gap stores nothing, also where the gap lies beyond the end of the list.
theorem past_value_gap : ((p.past g).value g.value).sharding = none := by
  simp only [value, past, List.getElem?_insertIdx_self]
  split
  case isTrue  => exact g.unset
  case isFalse => rfl

end Lookup

section Modify

-- A record is edited as the one that it stands for.
theorem past_modifyOp {f h : Operation → Operation} (hf : ∀ op, h (op.past g) = (f op).past g) :
    (p.past g).modifyOp (o.past g) h = (p.modifyOp o f).past g := by
  have ho : (o.past g).index = if o.index < g.op.index then o.index else o.index + 1 := by
    simp only [OpId.past, apply_ite OpId.index]
  simp only [modifyOp, past, ho, modify_insertIdx_past, modify_map hf]

theorem past_modifyValue {f h : Value → Value} (hf : ∀ value, h (value.past g) = (f value).past g) :
    (p.past g).modifyValue (v.past g) h = (p.modifyValue v f).past g := by
  have hv : (v.past g).index = if v.index < g.value.index then v.index else v.index + 1 := by
    simp only [ValueId.past, apply_ite ValueId.index]
  simp only [modifyValue, past, hv, modify_insertIdx_past, modify_map hf]

theorem past_modifyBlock {f h : Block → Block} (hf : ∀ block, h (block.past g) = (f block).past g) :
    (p.past g).modifyBlock b h = (p.modifyBlock b f).past g := by
  simp only [modifyBlock, past, modify_map hf]

end Modify

end Program

end MeshSharding
