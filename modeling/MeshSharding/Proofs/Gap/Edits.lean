import MeshSharding.Proofs.Edit.Insert
import MeshSharding.Proofs.Gap.Rules

namespace MeshSharding

variable {p : Program} {g : Gap} {o u : OpId} {v w source target : ValueId} {b : BlockId} {i : Nat} {s : Sharding}

namespace Program

theorem past_foldl {α β : Type} {step : Program → α → Program} {step' : Program → β → Program} {f : α → β}
    (h : ∀ q a, step' (q.past g) (f a) = (step q a).past g) (items : List α) :
    (items.map f).foldl step' (p.past g) = (items.foldl step p).past g := by
  induction items generalizing p with
  | nil             => rfl
  | cons a items ih => rw [List.map_cons, List.foldl_cons, h, ih, List.foldl_cons]

theorem past_foldl_modifyBlock {f h : Block → Block} (hf : ∀ block, h (block.past g) = (f block).past g)
    (bs : List BlockId) : bs.foldl (fun q b => q.modifyBlock b h) (p.past g) =
      (bs.foldl (fun q b => q.modifyBlock b f) p).past g := by
  induction bs generalizing p with
  | nil          => rfl
  | cons b bs ih => rw [List.foldl_cons, past_modifyBlock hf, ih, List.foldl_cons]

section Shardings

@[simp]
theorem past_setKind {kind : OpKind} : (p.past g).setKind (o.past g) kind = (p.setKind o kind).past g :=
  past_modifyOp fun _ => rfl

@[simp]
theorem past_storeSharding {sharding : Option Sharding} :
    (p.past g).storeSharding (v.past g) sharding = (p.storeSharding v sharding).past g :=
  past_modifyValue fun _ => rfl

@[simp]
theorem past_replaceIn {shardings : Option (List Sharding)} {values : List ValueId} :
    (p.past g).replaceIn shardings (values.map (·.past g)) i s = p.replaceIn shardings values i s := by
  simp [replaceIn, Function.comp_def]

@[simp]
theorem past_writeSharding? :
    (p.past g).writeSharding? (v.past g) s = (p.writeSharding? v s).map (·.past g) := by
  cases he : p.edgeForTarget? v with
  | some edge => simp [writeSharding?, he]
  | none =>
    cases hd : p.definitionOf v with
    | result o i   => cases hk : (p.op o).kind <;> simp [writeSharding?, he, hd, hk, Function.comp_def]
    | argument b i =>
      cases hb : (p.block b).parent with
      | none   => simp [writeSharding?, he, hd, hb]
      | some o => cases hk : (p.op o).kind <;> simp [writeSharding?, he, hd, hb, hk, Function.comp_def]

theorem past_setSharding :
    ((p.past g).setSharding (v.past g) s).toOption = (p.setSharding v s).toOption.map (·.past g) := by
  have ha {check : Except Error Unit} :
      (((p.past g).locationOfValue (v.past g)).attach check).toOption =
        ((p.locationOfValue v).attach check).toOption := by
    cases check <;> rfl
  simp only [setSharding, toOption_bind, past_typeOf, past_meshes, past_writeSharding?, ha]
  cases ((p.locationOfValue v).attach (s.check p.meshes (p.typeOf v).shape)).toOption <;>
    cases p.writeSharding? v s <;> rfl

end Shardings

section Uses

variable {use : Use} {uses : List Use}

@[simp]
theorem past_addUse : (p.past g).addUse (v.past g) (use.past g) = (p.addUse v use).past g :=
  past_modifyValue fun _ => by simp [Value.past]

theorem past_filterUses {k k' : Use → Bool} (h : ∀ use, k' (use.past g) = k use) :
    (p.past g).filterUses (v.past g) k' = (p.filterUses v k).past g :=
  past_modifyValue fun _ => by simp [Value.past, List.filter_map, Function.comp_def, h]

@[simp]
theorem past_writeOperand : (p.past g).writeOperand (use.past g) (v.past g) = (p.writeOperand use v).past g :=
  past_modifyOp fun _ => by simp [Operation.past, List.map_set]

@[simp]
theorem past_moveUse : moveUse (target.past g) (p.past g) (use.past g) = (moveUse target p use).past g := by
  simp [moveUse]

@[simp]
theorem past_replaceUsesExcept {except : Option OpId} :
    (p.past g).replaceUsesExcept (source.past g) (target.past g) (except.map (·.past g)) =
      (p.replaceUsesExcept source target except).past g := by
  have he {u : OpId} : some (u.past g) ≠ except.map (·.past g) ↔ some u ≠ except :=
    ((Option.map_injective OpId.past_injective).eq_iff (a := some u)).not
  have hk {use : Use} : (decide (some (use.past g).user ≠ except.map (·.past g)) && (p.past g).isLive (use.past g).user) =
      (decide (some use.user ≠ except) && p.isLive use.user) := by
    rw [Use.past_user, past_isLive, decide_eq_decide.mpr he]
  simp only [replaceUsesExcept, ValueId.past_inj, past_value, Value.past_uses, List.filter_map, Function.comp_def, hk]
  split
  case isTrue  => rfl
  case isFalse =>
    rw [past_filterUses (k := fun use => !(decide (some use.user ≠ except) && p.isLive use.user)) fun use => by rw [hk]]
    exact past_foldl (fun _ _ => past_moveUse) _

@[simp]
theorem past_replaceUses :
    (p.past g).replaceUses (source.past g) (target.past g) = (p.replaceUses source target).past g :=
  @past_replaceUsesExcept p g source target none

@[simp]
theorem past_setOperand : (p.past g).setOperand (o.past g) i (v.past g) = (p.setOperand o i v).past g := by
  simp only [setOperand, past_op, Operation.past_operands, List.getElem?_map]
  cases (p.op o).operands[i]? with
  | none          => rfl
  | some previous =>
    have hi {use : Use} : use.past g = ⟨o.past g, i⟩ ↔ use = ⟨o, i⟩ := @Use.past_inj g use ⟨o, i⟩
    have hf : (p.past g).filterUses (previous.past g) (· ≠ ⟨o.past g, i⟩) =
        (p.filterUses previous (· ≠ ⟨o, i⟩)).past g :=
      past_filterUses fun use => decide_eq_decide.mpr hi.not
    have hm : moveUse (v.past g) ((p.filterUses previous (· ≠ ⟨o, i⟩)).past g) ⟨o.past g, i⟩ =
        (moveUse v (p.filterUses previous (· ≠ ⟨o, i⟩)) ⟨o, i⟩).past g := @past_moveUse _ g v ⟨o, i⟩
    simp only [Option.map_some, hf]
    exact hm

end Uses

section Erase

@[simp]
theorem past_dropUsesBy : (p.past g).dropUsesBy (o.past g) = (p.dropUsesBy o).past g := by
  simp only [dropUsesBy, past_op, Operation.past_operands]
  exact past_foldl (fun _ _ => past_filterUses fun _ => by simp) _

@[simp]
theorem past_eraseAlone : (p.past g).eraseAlone (o.past g) = (p.eraseAlone o).past g := by
  have hm : (p.past g).modifyOp (o.past g) (fun op => { op with erased := true }) =
      (p.modifyOp o fun op => { op with erased := true }).past g := past_modifyOp fun _ => rfl
  simp only [eraseAlone, hm, past_dropUsesBy, past_op, Operation.past_regions]
  exact past_foldl_modifyBlock (fun _ => rfl) _

@[simp]
theorem past_erase : (p.past g).erase (o.past g) = (p.erase o).past g := by
  have hm : (p.past g).modifyBlock (p.op o).block (fun block =>
      { block with operations := block.operations.filter (· ≠ o.past g) }) =
      (p.modifyBlock (p.op o).block fun block =>
        { block with operations := block.operations.filter (· ≠ o) }).past g :=
    past_modifyBlock fun _ => by simp [Block.past, List.filter_map, Function.comp_def]
  simp only [erase, past_op, Operation.past_block, hm, past_nestedIn]
  have hl (os : List OpId) : o.past g :: os.map (·.past g) = (o :: os).map (·.past g) := rfl
  rw [hl]
  exact past_foldl (fun _ _ => past_eraseAlone) _

end Erase

end Program

def NewOp.past (new : NewOp) (g : Gap) : NewOp :=
  match new with
  | constraint input sharding             => constraint (input.past g) sharding
  | reshard input sharding                => reshard (input.past g) sharding
  | group input id                        => group (input.past g) id
  | collective input c                    => collective (input.past g) c
  | edge input sharding                   => edge (input.past g) sharding
  | barrier input allowed                 => barrier (input.past g) allowed
  | constant literal type                 => constant literal type
  | generic op operands results regions   => generic op (operands.map (·.past g)) results regions
  | terminator values                     => terminator (values.map (·.past g))
  | manual computation operands body results => manual computation (operands.map (·.past g)) body results
  | named computation operands body       => named computation (operands.map (·.past g)) body

namespace NewOp

variable {new : NewOp}

@[simp]
theorem past_kind : (new.past g).kind = new.kind := by
  cases new <;> rfl

@[simp]
theorem past_operands : (new.past g).operands = new.operands.map (·.past g) := by
  cases new <;> rfl

@[simp]
theorem past_regions : (new.past g).regions = new.regions := by
  cases new <;> rfl

end NewOp

namespace Program

section Insert

variable {new : NewOp} {position : Nat}

-- What comes in at the end of the lists comes after the gap.
structure Spans (p : Program) (g : Gap) : Prop where
  op    : g.op.index ≤ p.operations.length
  value : g.value.index ≤ p.values.length

theorem insertIdx_append_of_le {α : Type} {l : List α} {n : Nat} (h : n ≤ l.length) (a : α) (m : List α) :
    l.insertIdx n a ++ m = (l ++ m).insertIdx n a := by
  induction n generalizing l with
  | zero      => rfl
  | succ n ih =>
    cases l with
    | nil      => simp at h
    | cons b l => simp [ih (Nat.le_of_succ_le_succ h)]

namespace Spans

variable (h : p.Spans g)
include h

theorem length_operations : (p.past g).operations.length = p.operations.length + 1 := by
  simp [past, List.length_insertIdx, h.op]

theorem length_values : (p.past g).values.length = p.values.length + 1 := by
  simp [past, List.length_insertIdx, h.value]

theorem nextOp : (p.past g).nextOp = p.nextOp.past g := by
  rw [Program.nextOp, Program.nextOp, h.length_operations, OpId.past_of_le h.op]

theorem nextValues (count : Nat) : (p.past g).nextValues count = (p.nextValues count).map (·.past g) := by
  simp only [Program.nextValues, h.length_values, List.map_map, List.range'_eq_map_range, Function.comp_def]
  refine List.map_congr_left fun i _ => ?_
  rw [ValueId.past_of_le (Nat.le_add_right_of_le h.value), Nat.add_right_comm]

theorem lt_iff : (v.past g).index < (p.past g).values.length ↔ v.index < p.values.length := by
  have := h.value
  rw [h.length_values]
  by_cases hv : v.index < g.value.index
  case pos => rw [ValueId.past_of_lt hv]; omega
  case neg => rw [ValueId.past_of_le (Nat.le_of_not_lt hv)]; simp

theorem resultTypes : (new.past g).resultTypes (p.past g) = new.resultTypes p := by
  cases new <;> simp [NewOp.past, NewOp.resultTypes, h.lt_iff]
  case named computation operands body => cases p.returned? body <;> simp

theorem pushOp : (p.past g).pushOp b (new.past g) = (p.pushOp b new).past g := by
  have hop : (p.past g).placed b (new.past g) = (p.placed b new).past g := by
    simp [placed, h.resultTypes, h.nextValues, Operation.past]
  have hvalues : (p.past g).values ++ (new.resultTypes p).mapIdx (fun index type =>
      { type, definition := .result (p.nextOp.past g) index : Value }) =
      ((p.values ++ (new.resultTypes p).mapIdx fun index type =>
        { type, definition := .result p.nextOp index : Value }).map (·.past g)).insertIdx g.value.index g.unusedValue := by
    rw [List.map_append, ← insertIdx_append_of_le (by simpa using h.value), List.mapIdx_eq_zipIdx_map,
      List.mapIdx_eq_zipIdx_map, List.map_map]
    rfl
  have hops : (p.past g).operations ++ [(p.placed b new).past g] =
      ((p.operations ++ [p.placed b new]).map (·.past g)).insertIdx g.op.index g.unusedOp := by
    rw [List.map_append, ← insertIdx_append_of_le (by simpa using h.op)]
    rfl
  simp only [Program.pushOp, pushValues, h.resultTypes, h.nextOp, hop, hvalues, hops]
  rfl

theorem place : (p.past g).place b position (new.past g) = (p.place b position new).past g := by
  have huses (q : Program) : (q.past g).addUsesBy (p.nextOp.past g) (new.operands.map (·.past g)) =
      (q.addUsesBy p.nextOp new.operands).past g := by
    have hl : (new.operands.map (·.past g)).zipIdx.map (fun pair => (pair.1, Use.mk (p.nextOp.past g) pair.2)) =
        (new.operands.zipIdx.map fun pair => (pair.1, Use.mk p.nextOp pair.2)).map
          fun pair => (pair.1.past g, pair.2.past g) := by
      simp [List.zipIdx_map, Use.past]
    rw [addUsesBy, hl]
    exact past_foldl (fun _ _ => past_addUse) _
  simp only [place_eq, h.pushOp, h.nextOp, NewOp.past_operands, NewOp.past_regions, huses, adoptRegions]
  rw [past_foldl_modifyBlock (f := fun block => { block with parent := some p.nextOp }) fun _ => rfl]
  exact past_modifyBlock fun block => by simp [Block.past, List.map_insertIdx]

theorem checkNew : (p.past g).checkNew (new.past g) = .ok () ↔ p.checkNew new = .ok () := by
  simp [checkNew_eq_ok_iff, h.lt_iff]

theorem insert (b : BlockId) (position : Nat) (new : NewOp) : ((p.past g).insert b position (new.past g)).toOption =
    (p.insert b position new).toOption.map fun (q, o) => (q.past g, o.past g) := by
  ext ⟨q, o⟩
  simp only [Option.map_eq_some_iff, toOption_eq_some_iff, Prod.exists, Prod.mk.injEq, insert_eq_ok_iff, h.checkNew,
    h.place, h.nextOp]
  constructor
  case mp =>
    rintro ⟨hn, rfl, rfl, hc⟩
    exact ⟨_, _, ⟨hn, rfl, rfl, past_checkOp.symm.trans hc⟩, rfl, rfl⟩
  case mpr =>
    rintro ⟨_, _, ⟨hn, rfl, rfl, hc⟩, rfl, rfl⟩
    exact ⟨hn, rfl, rfl, past_checkOp.trans hc⟩

end Spans

end Insert

end Program

end MeshSharding
