import MeshSharding.Program.Construct
import MeshSharding.Proofs.Reachable

namespace MeshSharding.Program

variable {p q : Program} {v : ValueId} {o u : OpId} {b c : BlockId} {new : NewOp}
  {position count : Nat}

-- Programs are equal if all that is looked up in them is.
theorem eq_of_lookups (hh : q.header = p.header) (hlv : q.values.length = p.values.length)
    (hlo : q.operations.length = p.operations.length) (hlb : q.blocks.length = p.blocks.length)
    (hv : ∀ v, v.index < p.values.length → q.value v = p.value v)
    (ho : ∀ o, o.index < p.operations.length → q.op o = p.op o)
    (hb : ∀ b, b.index < p.blocks.length → q.block b = p.block b) : q = p := by
  obtain ⟨_, _, _, _, _, _⟩ := p
  obtain ⟨_, _, _, _, _, _⟩ := q
  simp only [header, Prod.mk.injEq] at hh
  obtain ⟨rfl, rfl, rfl⟩ := hh
  congr 1
  · refine List.ext_getElem hlv fun i hi hj => ?_
    simpa [value, List.getElem?_eq_getElem hi, List.getElem?_eq_getElem hj] using hv ⟨i⟩ hj
  · refine List.ext_getElem hlo fun i hi hj => ?_
    simpa [op, List.getElem?_eq_getElem hi, List.getElem?_eq_getElem hj] using ho ⟨i⟩ hj
  · refine List.ext_getElem hlb fun i hi hj => ?_
    simpa [block, List.getElem?_eq_getElem hi, List.getElem?_eq_getElem hj] using hb ⟨i⟩ hj

section Withdraw

-- The steps of withdrawing an operation: it leaves its block, its regions are on their own again, its
-- uses are dropped, and then it goes with its results.
def leaveBlock (p : Program) (b : BlockId) (position : Nat) : Program :=
  p.modifyBlock b fun block => { block with operations := block.operations.eraseIdx position }

def releaseRegions (p : Program) (bs : List BlockId) : Program :=
  bs.foldl (fun p b => p.modifyBlock b fun block => { block with parent := none }) p

theorem withdraw_eq (hl : p.operations.length = o.index + 1) : p.withdraw b position count =
    let q := ((p.leaveBlock b position).releaseRegions (p.op o).regions).dropUsesBy o
    { q with operations := q.operations.dropLast, values := q.values.take count } := by
  have ho : (⟨p.operations.length - 1⟩ : OpId) = o := by rw [hl, Nat.add_sub_cancel]
  simp only [withdraw, ho]
  rfl

@[simp]
theorem values_releaseRegions (bs : List BlockId) : (p.releaseRegions bs).values = p.values := by
  apply foldl_keeps fun q => q.values
  exact fun _ _ => rfl

@[simp]
theorem operations_releaseRegions (bs : List BlockId) :
    (p.releaseRegions bs).operations = p.operations := by
  apply foldl_keeps fun q => q.operations
  exact fun _ _ => rfl

@[simp]
theorem length_blocks_releaseRegions (bs : List BlockId) :
    (p.releaseRegions bs).blocks.length = p.blocks.length := by
  apply foldl_keeps fun q => q.blocks.length
  simp

theorem block_releaseRegions (bs : List BlockId) : (p.releaseRegions bs).block c =
    { p.block c with parent := if c ∈ bs then none else (p.block c).parent } := by
  rw [releaseRegions]
  induction bs generalizing p with
  | nil => simp
  | cons b bs ih =>
    rw [List.foldl_cons, ih, block_modifyBlock]
    by_cases hb : c = b
    case neg => simp [hb]
    case pos =>
      subst hb
      by_cases hl : c.index < p.blocks.length
      · simp [hl]
      · simp [hl, block_of_length_le (Nat.le_of_not_lt hl)]

theorem block_leaveBlock : (p.leaveBlock b position).block c = { p.block c with
    operations :=
      if c = b then (p.block c).operations.eraseIdx position else (p.block c).operations } := by
  rw [leaveBlock, block_modifyBlock]
  by_cases hb : c = b
  case neg => simp [hb]
  case pos =>
    subst hb
    by_cases hl : c.index < p.blocks.length
    · simp [hl]
    · simp [hl, block_of_length_le (Nat.le_of_not_lt hl)]

variable (hl : p.operations.length = o.index + 1)
include hl

theorem length_values_withdraw :
    (p.withdraw b position count).values.length = min count p.values.length := by
  simp [withdraw_eq hl, leaveBlock]

theorem length_operations_withdraw : (p.withdraw b position count).operations.length = o.index := by
  simp [withdraw_eq hl, leaveBlock, hl]

theorem length_blocks_withdraw : (p.withdraw b position count).blocks.length = p.blocks.length := by
  simp [withdraw_eq hl, leaveBlock]

theorem op_withdraw (hu : u.index < o.index) : (p.withdraw b position count).op u = p.op u := by
  have hi : u.index < p.operations.length - 1 := by omega
  simp only [withdraw_eq hl, op, operations_dropUsesBy, operations_releaseRegions, leaveBlock,
    operations_modifyBlock, List.getElem?_dropLast, if_pos hi]

theorem value_withdraw (hv : v.index < count) : (p.withdraw b position count).value v =
    if v ∈ (p.op o).operands then
      { p.value v with uses := (p.value v).uses.filter (·.user ≠ o) }
    else p.value v := by
  have hd : (p.withdraw b position count).value v =
      (((p.leaveBlock b position).releaseRegions (p.op o).regions).dropUsesBy o).value v := by
    simp [withdraw_eq hl, value, hv]
  rw [hd, value_dropUsesBy]
  simp [op, value, leaveBlock]

theorem block_withdraw : (p.withdraw b position count).block c =
    { p.block c with
      parent     := if c ∈ (p.op o).regions then none else (p.block c).parent
      operations :=
        if c = b then (p.block c).operations.eraseIdx position else (p.block c).operations } := by
  have hd : (p.withdraw b position count).block c =
      ((p.leaveBlock b position).releaseRegions (p.op o).regions).block c := by
    simp [withdraw_eq hl, block]
  rw [hd, block_releaseRegions, block_leaveBlock]

omit hl in
theorem header_withdraw : (p.withdraw b position count).header = p.header := by
  have hd (q : Program) (o : OpId) : (q.dropUsesBy o).header = q.header := by
    apply foldl_keeps fun q => q.header
    exact fun _ _ => rfl
  have hr (q : Program) (bs : List BlockId) : (q.releaseRegions bs).header = q.header := by
    apply foldl_keeps fun q => q.header
    exact fun _ _ => rfl
  exact (hd _ _).trans (hr _ _)

end Withdraw

section Place

-- No use of another operation is dropped, and all uses by the new one are.
theorem WellFormed.uses_placed (hp : p.WellFormed) (v : ValueId) :
    ((p.value v).uses ++ usesBy p.nextOp new.operands v).filter (·.user ≠ p.nextOp) =
      (p.value v).uses := by
  rw [List.filter_append, List.filter_eq_self.mpr, List.filter_eq_nil_iff.mpr, List.append_nil]
  · intro use hu
    simp [(mem_usesBy.mp hu).left]
  · intro use hu
    simpa using ne_nextOp (hp.users v use hu)

theorem WellFormed.withdraw_place (hp : p.WellFormed) (h : p.Accepts new) (b : BlockId)
    (position : Nat) :
    (p.place b position new).withdraw b position p.values.length = p := by
  have hl : (p.place b position new).operations.length = p.nextOp.index + 1 := by
    simp [nextOp]
  have ho : (p.place b position new).op p.nextOp = p.placed b new := op_place_nextOp
  apply eq_of_lookups (header_withdraw.trans header_place)
  case hlv => simp [length_values_withdraw hl]
  case hlo => exact length_operations_withdraw hl
  case hlb => simp [length_blocks_withdraw hl]
  case hv =>
    intro v hv
    rw [value_withdraw hl hv, ho, value_place, value_pushValues_of_lt hv,
      if_pos (Nat.lt_add_right _ hv)]
    split
    case isTrue => rw [hp.uses_placed]
    case isFalse hm =>
      have hn : usesBy p.nextOp new.operands v = [] := by
        refine List.eq_nil_iff_forall_not_mem.mpr fun use hu => hm ?_
        exact List.mem_of_getElem? (mem_usesBy.mp hu).right
      rw [hn, List.append_nil]
  case ho =>
    intro u hu
    rw [op_withdraw hl hu, op_place_of_ne (ne_nextOp hu)]
  case hb =>
    intro c hc
    rw [block_withdraw hl, ho, block_place]
    have hparent : (if c ∈ new.regions then none else (p.block c).parent) = (p.block c).parent := by
      split
      case isTrue hm  => exact (h.regions c hm).right.symm
      case isFalse    => rfl
    by_cases hcb : c = b
    case neg => simp_all [placed]
    case pos =>
      subst hcb
      simp_all [placed]

end Place

section Construct

theorem ofChecked_atomic {α : Type} {checked : Except Diagnostic (Program × α)} {e : Diagnostic}
    (h : (Outcome.ofChecked p checked).result = .error e) :
    (Outcome.ofChecked p checked).program = p := by
  cases checked with
  | ok pair => cases h
  | error _ => rfl

theorem WellFormed.insertInPlace_eq (hp : p.WellFormed) :
    p.insertInPlace b position new = .ofChecked p (p.insert b position new) := by
  simp only [insertInPlace, Program.insert, Location.attach, bind, Except.bind]
  cases hn : p.checkNew new with
  | error e => rfl
  | ok _ =>
    cases hc : (p.place b position new).checkOp ⟨p.operations.length⟩ with
    | error e =>
      have hw := hp.withdraw_place (accepts_of_checkNew hn) b position
      simp only [Except.mapError, hw, Outcome.ofChecked]
    | ok _    => rfl

theorem ignore_atomic {α : Type} {outcome : Outcome α} {e : Diagnostic}
    (h : ∀ e, outcome.result = .error e → outcome.program = p)
    (he : outcome.ignore.result = .error e) : outcome.ignore.program = p := by
  obtain ⟨q, result⟩ := outcome
  cases result with
  | ok a    => cases he
  | error e => exact h e rfl

-- A call that is refused leaves the program as it was, whatever it had changed before.
theorem construct_atomic (hp : p.Reachable) (call : Construction) {e : Diagnostic}
    (h : (p.construct call).result = .error e) : (p.construct call).program = p := by
  cases call with
  | mesh name mesh           => exact ofChecked_atomic h
  | argument type sharding   => exact ignore_atomic (fun _ => ofChecked_atomic) h
  | sharding v sharding      => exact ofChecked_atomic h
  | operation b position new =>
    refine ignore_atomic (fun e he => ?_) h
    rw [hp.wellFormed.insertInPlace_eq] at he ⊢
    exact ofChecked_atomic he

-- A block with two arguments, which is to be the body of a named computation that states a sharding of
-- the wrong rank for one of them.
def misfitBody? : Option Program :=
  let type : TensorType := ⟨[8], .f32⟩
  build "main" [
    .mesh "mesh" { axes := [⟨"a", 2⟩] },
    .argument type none,
    .region [type, type],
    .append ⟨1⟩ (.terminator [⟨1⟩, ⟨2⟩])]

def misfit : Construction :=
  let inShardings : List Sharding := [⟨.symbol "mesh", [{}], []⟩, ⟨.symbol "mesh", [{}, {}], []⟩]
  .operation entry 0 (.named ⟨"f", some inShardings, none⟩ [⟨0⟩, ⟨0⟩] ⟨1⟩)

theorem construct_atomic_misfit :
    let p := misfitBody?.get (by rfl)
    let refused : Diagnostic := ⟨.operation ⟨1⟩ "sdy.named_computation", .rankMismatch 2 1⟩
    p.Reachable ∧ (p.construct misfit).result = .error refused ∧ (p.construct misfit).program = p := by
  intro p refused
  have hp : p.Reachable := build_reachable (Option.some_get _).symm
  have he : (p.construct misfit).result = .error refused := by rfl
  exact ⟨hp, he, construct_atomic hp misfit he⟩

end Construct

end MeshSharding.Program
