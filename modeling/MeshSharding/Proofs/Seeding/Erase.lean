import MeshSharding.Proofs.Flow.Edits
import MeshSharding.Proofs.Seeding.Write
import MeshSharding.Proofs.Verify.Frame

namespace MeshSharding.Program

variable {p q : Program} {o u : OpId} {v w : ValueId} {s t : Sharding} {a : Place} {kind : OpKind}

section Leaf

-- An operation without regions is erased by an edit in each of the lists.
theorem erase_eq_of_leaf (ho : (p.op o).operands = [v]) (hr : (p.op o).regions = []) : p.erase o = { p with
    values     := p.values.modify v.index fun value => { value with uses := value.uses.filter (·.user ≠ o) }
    operations := p.operations.modify o.index fun op => { op with erased := true }
    blocks     := p.blocks.modify (p.op o).block.index fun block =>
      { block with operations := block.operations.filter (· ≠ o) } } := by
  have hop : (((p.detach o).modifyOp o fun op => { op with erased := true }).op o).operands = [v] ∧
      (((p.detach o).modifyOp o fun op => { op with erased := true }).op o).regions = [] := by
    rw [op_modifyOp, detach, op_modifyBlock]
    split <;> exact ⟨ho, hr⟩
  have hn : (p.detach o).nestedIn o = [] := by
    rw [nestedIn, detach, op_modifyBlock, hr, List.flatMap_nil]
  rw [erase_eq, hn, List.foldl_cons, List.foldl_nil, eraseAlone]
  simp only [op_dropUsesBy, hop.right, List.foldl_nil]
  simp only [dropUsesBy, hop.left, List.foldl_cons, List.foldl_nil]
  rfl

variable (ho : (p.op o).operands = [v]) (hr : (p.op o).regions = [])
include ho hr

theorem value_erase_leaf : (p.erase o).value w =
    if w = v then { p.value w with uses := (p.value w).uses.filter (·.user ≠ o) } else p.value w := by
  rw [erase_eq_of_leaf ho hr]
  exact value_filterUses _

theorem erase_setKind : (p.setKind u kind).erase o = (p.erase o).setKind u kind := by
  have hop : ((p.setKind u kind).op o).operands = [v] ∧ ((p.setKind u kind).op o).regions = [] ∧
      ((p.setKind u kind).op o).block = (p.op o).block := by
    rw [setKind, op_modifyOp]
    split <;> exact ⟨ho, hr, rfl⟩
  rw [erase_eq_of_leaf ho hr, erase_eq_of_leaf hop.left hop.right.left, hop.right.right]
  simp only [setKind, modifyOp, Program.mk.injEq, true_and, and_true]
  exact modify_comm (by simp) _

theorem erase_storeSharding {sharding : Option Sharding} :
    (p.storeSharding w sharding).erase o = (p.erase o).storeSharding w sharding := by
  have ho' : ((p.storeSharding w sharding).op o).operands = [v] := ho
  rw [erase_eq_of_leaf ho hr, erase_eq_of_leaf ho' hr]
  simp only [storeSharding, modifyValue, Program.mk.injEq, true_and, and_true]
  exact ⟨modify_comm (by simp) _, rfl⟩

theorem erase_erase (hu : (p.op u).operands = [w]) (hr' : (p.op u).regions = []) :
    (p.erase u).erase o = (p.erase o).erase u := by
  have hou : ((p.erase u).op o).operands = [v] := by rwa [op_erase]
  have huo : ((p.erase o).op u).operands = [w] := by rwa [op_erase]
  have hro : ((p.erase u).op o).regions = [] := by rwa [op_erase]
  have hru : ((p.erase o).op u).regions = [] := by rwa [op_erase]
  have hbo : ((p.erase u).op o).block = (p.op o).block := by rw [op_erase]
  have hbu : ((p.erase o).op u).block = (p.op u).block := by rw [op_erase]
  rw [erase_eq_of_leaf hou hro, erase_eq_of_leaf huo hru, hbo, hbu, erase_eq_of_leaf ho hr, erase_eq_of_leaf hu hr']
  simp only [Program.mk.injEq, true_and, and_true]
  exact ⟨modify_comm (fun _ _ => by rw [List.filter_comm]) _, modify_comm (fun _ _ => rfl) _,
    modify_comm (fun _ _ => by rw [List.filter_comm]) _⟩

theorem erase_idem : (p.erase o).erase o = p.erase o := by
  have ho' : ((p.erase o).op o).operands = [v] := by rwa [op_erase]
  have hr' : ((p.erase o).op o).regions = [] := by rwa [op_erase]
  have hb : ((p.erase o).op o).block = (p.op o).block := by rw [op_erase]
  rw [erase_eq_of_leaf ho' hr', hb, erase_eq_of_leaf ho hr]
  simp only [List.modify_modify_eq, Function.comp_def, List.filter_filter, Bool.and_self]

end Leaf

section Bare

@[simp]
theorem bare_isLiveWithin (p : Program) (height : Nat) : p.bare.isLiveWithin height o = p.isLiveWithin height o := by
  induction height generalizing o with
  | zero           => rfl
  | succ height ih =>
    simp only [isLiveWithin, bare_op, Operation.bare_erased, Operation.bare_block, bare_block]
    cases (p.block (p.op o).block).parent <;> simp [ih]

@[simp]
theorem bare_hasUses (p : Program) (v : ValueId) : p.bare.hasUses v = p.hasUses v := by
  simp [hasUses, isLive, Value.bare]

end Bare

section Constraint

variable (hp : p.WellFormed) (hk : (p.op o).kind = .constraint s)
include hp hk

theorem WellFormed.constraint_leaf : (p.op o).operands = [p.input o] ∧ (p.op o).regions = [] :=
  ⟨hp.operands_eq (by simp [hk, OpKind.isUnary]), hp.regions_eq_nil (by simp [hk, OpKind.takesRegions])⟩

theorem isLiveWithin_erase {height : Nat} :
    (p.erase o).isLiveWithin height u = (p.isLiveWithin height u && u ≠ o) := by
  have hr := (hp.constraint_leaf hk).right
  induction height generalizing u with
  | zero           => rfl
  | succ height ih =>
    -- The operation around another one has a region, and is not erased with a leaf.
    have hparent {b : BlockId} {w : OpId} (hw : (p.block b).parent = some w) : w ≠ o := by
      rintro rfl
      simpa [hr] using (hp.regions b w).mpr hw
    simp only [isLiveWithin, op_erase_leaf hr, Frame.erase.parents]
    cases hb : (p.block (p.op u).block).parent with
    | none   => cases (p.op u).erased <;> simp [Bool.and_comm]
    | some w => cases (p.op u).erased <;> simp [ih, hparent hb, Bool.and_comm]

theorem isLive_erase : (p.erase o).isLive u = (p.isLive u && u ≠ o) := by
  rw [isLive, length_operations_erase, isLiveWithin_erase hp hk, isLive]

-- A constraint uses its operand only.
theorem hasUses_erase (hv : v ≠ p.input o) : (p.erase o).hasUses v = p.hasUses v := by
  obtain ⟨ho, hr⟩ := hp.constraint_leaf hk
  have hvalue : (p.erase o).value v = p.value v := by rw [value_erase_leaf ho hr, if_neg hv]
  have hother : ∀ use ∈ (p.value v).uses, p.isLive use.user → use.user ≠ o := by
    intro use hu hl heq
    have hi := List.mem_of_getElem? (hp.operand_of_use hu (erased_of_isLive hl))
    rw [heq, ho, List.mem_singleton] at hi
    exact hv hi
  rw [Bool.eq_iff_iff]
  simp only [hasUses, hvalue, List.any_eq_true, isLive_erase hp hk]
  constructor
  case mp =>
    rintro ⟨use, hu, hl⟩
    exact ⟨use, hu, (Bool.and_eq_true_iff.mp hl).left⟩
  case mpr =>
    rintro ⟨use, hu, hl⟩
    exact ⟨use, hu, by simp [hl, hother use hu hl]⟩

theorem hasUses_of_erase (h : (p.erase o).hasUses v) : p.hasUses v := by
  obtain ⟨uses, hv, hs, _⟩ := value_erase (p := p) (o := o) (v := v)
  simp only [hasUses, hv, List.any_eq_true, isLive_erase hp hk, Bool.and_eq_true] at h ⊢
  obtain ⟨use, hu, hl, _⟩ := h
  exact ⟨use, hs hu, hl⟩

-- Neither edge operations nor structural operations go with it.
theorem edgeForTarget?_erase : (p.erase o).edgeForTarget? = p.edgeForTarget? := by
  have hr := (hp.constraint_leaf hk).right
  refine Frame.erase.edgeForTarget? (fun v e => ?_) fun u hu => ?_
  case refine_1 =>
    by_cases he : e = o
    case pos => simp [marks, op_erase_leaf hr, he, hk, OpKind.isEdge]
    case neg => simp [marks, op_erase_leaf hr, he]
  case refine_2 =>
    have hne : u ≠ o := by
      rintro rfl
      simp [Operation.isStructural, hk, OpKind.isGeneric] at hu
    simp [op_erase_leaf hr, hne]

theorem place?_erase : (p.erase o).place? v = p.place? v := by
  simp only [place?, edgeForTarget?_erase hp hk, definitionOf_erase, parentKind?, Frame.erase.parents, op_erase]

theorem isSettable_erase : (p.erase o).isSettable v = p.isSettable v := by
  rw [Bool.eq_iff_iff]
  simp only [isSettable_iff, place?_erase hp hk]

theorem writeAt?_erase : (p.erase o).writeAt? t a = (p.writeAt? t a).map (·.erase o) := by
  obtain ⟨ho, hr⟩ := hp.constraint_leaf hk
  by_cases hv : ∃ v, a = .value v
  case pos =>
    obtain ⟨v, rfl⟩ := hv
    exact congrArg some (erase_storeSharding ho hr).symm
  case neg =>
    rw [not_exists] at hv
    have hkeeper : (p.erase o).keeper? a = p.keeper? a := by
      cases a <;> simp only [keeper?, Frame.erase.parents]
    cases hu : p.keeper? a with
    | none   => rw [writeAt?_eq_none hu hv, writeAt?_eq_none (hkeeper.trans hu) hv, Option.map_none]
    | some u =>
      rw [writeAt?_eq hu, writeAt?_eq (hkeeper.trans hu), op_erase,
        fill?_congr Frame.erase.types Frame.erase.arguments Frame.erase.results, Option.map_map]
      simp only [Function.comp_def, erase_setKind ho hr]

theorem seed?_erase : (p.erase o).seed? v t = (p.seed? v t).map (·.erase o) := by
  rw [seed?_eq, seed?_eq, meshes_erase, typeOf_erase, place?_erase hp hk]
  split
  case isTrue =>
    cases p.place? v with
    | none   => rfl
    | some a => exact writeAt?_erase hp hk
  case isFalse => rfl

end Constraint

end MeshSharding.Program
