import Mathlib
import MeshSharding.Program.Uses

namespace MeshSharding

theorem OpId.index_injective : Function.Injective OpId.index := by
  rintro ⟨_⟩ ⟨_⟩ rfl
  rfl

theorem BlockId.index_injective : Function.Injective BlockId.index := by
  rintro ⟨_⟩ ⟨_⟩ rfl
  rfl

namespace Program

variable {p : Program}

theorem value_of_length_le {v : ValueId} (h : p.values.length ≤ v.index) : p.value v = {} := by
  simp [value, List.getElem?_eq_none h]

theorem op_of_length_le {o : OpId} (h : p.operations.length ≤ o.index) : p.op o = {} := by
  simp [op, List.getElem?_eq_none h]

theorem block_of_length_le {b : BlockId} (h : p.blocks.length ≤ b.index) : p.block b = {} := by
  simp [block, List.getElem?_eq_none h]

-- Only the default operation, which is erased, is looked up beyond the end of the list.
theorem index_lt_of_not_erased {o : OpId} (h : (p.op o).erased = false) :
    o.index < p.operations.length := by
  by_contra hc
  simp [op_of_length_le (Nat.le_of_not_lt hc)] at h

theorem op_mem_of_not_erased {o : OpId} (h : (p.op o).erased = false) :
    p.op o ∈ p.operations := by
  have hl := index_lt_of_not_erased h
  rw [op, List.getElem?_eq_getElem hl, Option.getD_some]
  exact List.getElem_mem hl

theorem index_lt_of_kind_ne {o : OpId} (h : (p.op o).kind ≠ .terminator) :
    o.index < p.operations.length := by
  by_contra hc
  simp [op_of_length_le (Nat.le_of_not_lt hc)] at h

theorem index_lt_of_operand {o : OpId} {v : ValueId} {i : Nat} (h : (p.op o).operands[i]? = some v) :
    o.index < p.operations.length := by
  by_contra hc
  simp [op_of_length_le (Nat.le_of_not_lt hc)] at h

-- Pairwise different handles below a bound are not more than this.
theorem length_le_of_index_lt {α : Type} {index : α → Nat} (hi : Function.Injective index) {handles : List α}
    (hn : handles.Nodup) {bound : Nat} (hl : ∀ a ∈ handles, index a < bound) : handles.length ≤ bound := by
  have hs : handles.map index ⊆ List.range bound := by
    intro i hm
    obtain ⟨a, ha, rfl⟩ := List.mem_map.mp hm
    exact List.mem_range.mpr (hl a ha)
  simpa using ((hn.map hi).subperm hs).length_le

theorem getD_concat {α : Type} (l : List α) (a d : α) (i : Nat) :
    ((l ++ [a])[i]?).getD d = if i = l.length then a else (l[i]?).getD d := by
  by_cases hi : i = l.length
  case pos => simp [hi]
  case neg =>
    by_cases hl : i < l.length
    · simp [hi, List.getElem?_append_left hl]
    · have hn : (l ++ [a]).length ≤ i := by
        rw [List.length_append, List.length_singleton]
        omega
      simp [hi, List.getElem?_eq_none hn, List.getElem?_eq_none (Nat.le_of_not_lt hl)]

-- What no step changes is not changed by all of them.
theorem foldl_keeps {α β : Type} {step : Program → α → Program} (read : Program → β)
    (h : ∀ q a, read (step q a) = read q) (items : List α) :
    read (items.foldl step p) = read p := by
  induction items generalizing p with
  | nil             => rfl
  | cons a items ih => exact ih.trans (h p a)

section Modify

variable {v w : ValueId} {o u : OpId} {b c : BlockId}

theorem value_modifyValue (f : Value → Value) :
    (p.modifyValue v f).value w =
      if w = v ∧ v.index < p.values.length then f (p.value w) else p.value w := by
  obtain ⟨i⟩ := v
  obtain ⟨j⟩ := w
  by_cases h : j = i
  case neg => simp [modifyValue, value, Ne.symm h, h]
  case pos =>
    subst h
    by_cases hj : j < p.values.length <;> simp [modifyValue, value, hj]

theorem op_modifyOp (f : Operation → Operation) :
    (p.modifyOp o f).op u = if u = o ∧ o.index < p.operations.length then f (p.op u) else p.op u := by
  obtain ⟨i⟩ := o
  obtain ⟨j⟩ := u
  by_cases h : j = i
  case neg => simp [modifyOp, op, Ne.symm h, h]
  case pos =>
    subst h
    by_cases hj : j < p.operations.length <;> simp [modifyOp, op, hj]

theorem block_modifyBlock (f : Block → Block) :
    (p.modifyBlock b f).block c =
      if c = b ∧ b.index < p.blocks.length then f (p.block c) else p.block c := by
  obtain ⟨i⟩ := b
  obtain ⟨j⟩ := c
  by_cases h : j = i
  case neg => simp [modifyBlock, block, Ne.symm h, h]
  case pos =>
    subst h
    by_cases hj : j < p.blocks.length <;> simp [modifyBlock, block, hj]

@[simp]
theorem op_modifyValue (f : Value → Value) : (p.modifyValue v f).op o = p.op o :=
  rfl

@[simp]
theorem block_modifyValue (f : Value → Value) : (p.modifyValue v f).block b = p.block b :=
  rfl

@[simp]
theorem value_modifyOp (f : Operation → Operation) : (p.modifyOp o f).value v = p.value v :=
  rfl

@[simp]
theorem block_modifyOp (f : Operation → Operation) : (p.modifyOp o f).block b = p.block b :=
  rfl

@[simp]
theorem value_modifyBlock (f : Block → Block) : (p.modifyBlock b f).value v = p.value v :=
  rfl

@[simp]
theorem op_modifyBlock (f : Block → Block) : (p.modifyBlock b f).op o = p.op o :=
  rfl

@[simp]
theorem values_modifyOp (f : Operation → Operation) : (p.modifyOp o f).values = p.values :=
  rfl

@[simp]
theorem blocks_modifyOp (f : Operation → Operation) : (p.modifyOp o f).blocks = p.blocks :=
  rfl

@[simp]
theorem operations_modifyValue (f : Value → Value) :
    (p.modifyValue v f).operations = p.operations :=
  rfl

@[simp]
theorem blocks_modifyValue (f : Value → Value) : (p.modifyValue v f).blocks = p.blocks :=
  rfl

@[simp]
theorem values_modifyBlock (f : Block → Block) : (p.modifyBlock b f).values = p.values :=
  rfl

@[simp]
theorem operations_modifyBlock (f : Block → Block) :
    (p.modifyBlock b f).operations = p.operations :=
  rfl

@[simp]
theorem length_values_modifyValue (f : Value → Value) :
    (p.modifyValue v f).values.length = p.values.length := by
  simp [modifyValue]

@[simp]
theorem length_operations_modifyOp (f : Operation → Operation) :
    (p.modifyOp o f).operations.length = p.operations.length := by
  simp [modifyOp]

@[simp]
theorem length_blocks_modifyBlock (f : Block → Block) :
    (p.modifyBlock b f).blocks.length = p.blocks.length := by
  simp [modifyBlock]

end Modify

end Program

end MeshSharding
