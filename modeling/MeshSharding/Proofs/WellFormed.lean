import MeshSharding.Proofs.Bare

namespace MeshSharding

namespace OpKind

-- The operation has one operand and one result.
def isUnary : OpKind → Bool
  | constraint _ | reshard _ | collective _ | edge _ | barrier _ => true
  | _                                                            => false

def isGroup : OpKind → Bool
  | group _ => true
  | _       => false

def takesRegions : OpKind → Bool
  | generic _ | manual _ | named _ => true
  | _                              => false

variable {kind : OpKind}

@[simp]
theorem bare_isUnary : kind.bare.isUnary = kind.isUnary := by
  cases kind <;> rfl

@[simp]
theorem bare_isGroup : kind.bare.isGroup = kind.isGroup := by
  cases kind <;> rfl

@[simp]
theorem bare_takesRegions : kind.bare.takesRegions = kind.takesRegions := by
  cases kind <;> rfl

@[simp]
theorem bare_isIsolated : kind.bare.isIsolated = kind.isIsolated := by
  cases kind <;> rfl

theorem takesRegions_of_isUnary (h : kind.isUnary) : kind.takesRegions = false := by
  cases kind <;> first | rfl | contradiction

theorem isIsolated_of_isUnary (h : kind.isUnary) : kind.isIsolated = false := by
  cases kind <;> first | rfl | contradiction

theorem isIsolated_of_isManual (h : kind.isManual) : kind.isIsolated := by
  cases kind <;> simp [isManual] at h
  rfl

theorem isGroup_of_isUnary (h : kind.isUnary) : kind.isGroup = false := by
  cases kind <;> first | rfl | contradiction

theorem isUnary_of_isEdge (h : kind.isEdge) : kind.isUnary := by
  cases kind <;> first | rfl | contradiction

end OpKind

-- What the kind of an operation says of its operands, results and regions.
structure Operation.Shaped (op : Operation) : Prop where
  unary : op.kind.isUnary → ∃ input output, op.operands = [input] ∧ op.results = [output]
  group : op.kind.isGroup → ∃ input, op.operands = [input] ∧ op.results = []
  leaf  : op.regions ≠ [] → op.kind.takesRegions
  body  : op.kind.isIsolated → ∃ b, op.regions = [b]

@[simp]
theorem Operation.bare_shaped {op : Operation} : op.bare.Shaped ↔ op.Shaped where
  mp h  := ⟨by simpa using h.unary, by simpa using h.group, by simpa using h.leaf, by simpa using h.body⟩
  mpr h := ⟨by simpa using h.unary, by simpa using h.group, by simpa using h.leaf, by simpa using h.body⟩

theorem Operation.Shaped.withUnary {op : Operation} (h : op.Shaped) (hu : op.kind.isUnary)
    {kind : OpKind} (hk : kind.isUnary) : { op with kind }.Shaped where
  unary _  := h.unary hu
  group hg := by simp [OpKind.isGroup_of_isUnary hk] at hg
  leaf hr  := by simpa [OpKind.takesRegions_of_isUnary hu] using h.leaf hr
  body hi  := by simp [OpKind.isIsolated_of_isUnary hk] at hi

-- Only the number of operands matters.
theorem Operation.Shaped.withOperands {op : Operation} (h : op.Shaped) {operands : List ValueId}
    (hl : operands.length = op.operands.length) : { op with operands }.Shaped where
  unary hk := by
    have ⟨_, output, hi, ho⟩ := h.unary hk
    have ⟨input, hi⟩ := List.length_eq_one_iff.mp (hl.trans (by simp [hi]))
    exact ⟨input, output, hi, ho⟩
  group hk := by
    have ⟨_, hi, ho⟩ := h.group hk
    have ⟨input, hi⟩ := List.length_eq_one_iff.mp (hl.trans (by simp [hi]))
    exact ⟨input, hi, ho⟩
  leaf     := h.leaf
  body     := h.body

namespace Program

-- The lists of values, operations and blocks refer to each other consistently.
structure WellFormed (p : Program) : Prop where
  body      : entry.index < p.blocks.length
  arguments : ∀ v b i, (p.block b).arguments[i]? = some v ↔
    v.index < p.values.length ∧ p.definitionOf v = .argument b i
  results   : ∀ v o i, (p.op o).results[i]? = some v ↔
    v.index < p.values.length ∧ p.definitionOf v = .result o i
  operands  : ∀ o, ∀ v ∈ (p.op o).operands, v.index < p.values.length
  regions   : ∀ b o, b ∈ (p.op o).regions ↔ (p.block b).parent = some o
  members   : ∀ b, ∀ o ∈ (p.block b).operations, (p.op o).erased = false ∧ (p.op o).block = b
  nodup     : ∀ b, (p.block b).operations.Nodup
  shaped    : ∀ o, (p.op o).Shaped
  -- The uses by erased operations are not kept up to date.
  uses      : ∀ v use, (p.op use.user).erased = false → (p.value v).uses.count use =
    if (p.op use.user).operands[use.index]? = some v then 1 else 0
  users     : ∀ v, ∀ use ∈ (p.value v).uses, use.user.index < p.operations.length

variable {p q : Program}

@[simp]
theorem bare_wellFormed : p.bare.WellFormed ↔ p.WellFormed where
  mp h  := {
    body      := by simpa using h.body
    arguments := by simpa using h.arguments
    results   := by simpa using h.results
    operands  := by simpa using h.operands
    regions   := by simpa using h.regions
    members   := by simpa using h.members
    nodup     := by simpa using h.nodup
    shaped    := by simpa using h.shaped
    uses      := by simpa [Value.bare] using h.uses
    users     := by simpa [Value.bare] using h.users }
  mpr h := {
    body      := by simpa using h.body
    arguments := by simpa using h.arguments
    results   := by simpa using h.results
    operands  := by simpa using h.operands
    regions   := by simpa using h.regions
    members   := by simpa using h.members
    nodup     := by simpa using h.nodup
    shaped    := by simpa using h.shaped
    uses      := by simpa [Value.bare] using h.uses
    users     := by simpa [Value.bare] using h.users }

namespace WellFormed

variable {v w : ValueId} {o u : OpId} {b c : BlockId} {i j : Nat}

theorem of_bare_eq (hp : p.WellFormed) (h : q.bare = p.bare) : q.WellFormed :=
  bare_wellFormed.mp (h ▸ bare_wellFormed.mpr hp)

theorem result_lt (hp : p.WellFormed) (h : v ∈ (p.op o).results) : v.index < p.values.length := by
  have ⟨i, hi⟩ := List.mem_iff_getElem?.mp h
  exact ((hp.results v o i).mp hi).left

theorem argument_lt (hp : p.WellFormed) (h : v ∈ (p.block b).arguments) :
    v.index < p.values.length := by
  have ⟨i, hi⟩ := List.mem_iff_getElem?.mp h
  exact ((hp.arguments v b i).mp hi).left

theorem definer?_of_result (hp : p.WellFormed) (h : v ∈ (p.op o).results) : p.definer? v = some o := by
  have ⟨i, hi⟩ := List.mem_iff_getElem?.mp h
  simp [definer?, ((hp.results v o i).mp hi).right]

theorem definer?_of_argument (hp : p.WellFormed) (h : v ∈ (p.block b).arguments) :
    p.definer? v = none := by
  have ⟨i, hi⟩ := List.mem_iff_getElem?.mp h
  simp [definer?, ((hp.arguments v b i).mp hi).right]

theorem definingBlock_of_result (hp : p.WellFormed) (h : v ∈ (p.op o).results) :
    p.definingBlock v = (p.op o).block := by
  have ⟨i, hi⟩ := List.mem_iff_getElem?.mp h
  simp [definingBlock, ((hp.results v o i).mp hi).right]

theorem definingBlock_of_argument (hp : p.WellFormed) (h : v ∈ (p.block b).arguments) :
    p.definingBlock v = b := by
  have ⟨i, hi⟩ := List.mem_iff_getElem?.mp h
  simp [definingBlock, ((hp.arguments v b i).mp hi).right]

theorem results_nodup (hp : p.WellFormed) (o : OpId) : (p.op o).results.Nodup := by
  rw [List.nodup_iff_getElem?_ne_getElem?]
  intro i j hij hj he
  have hv := List.getElem?_eq_getElem hj
  have hj := (hp.results _ o j).mp hv
  have hi := (hp.results _ o i).mp (he.trans hv)
  have := hi.right.symm.trans hj.right
  simp only [Definition.result.injEq, true_and] at this
  omega

theorem member_lt (hp : p.WellFormed) (h : o ∈ (p.block b).operations) :
    o.index < p.operations.length :=
  index_lt_of_not_erased (hp.members b o h).left

theorem parent_unique (hp : p.WellFormed) (ho : b ∈ (p.op o).regions) (hu : b ∈ (p.op u).regions) :
    o = u := by
  have ho := (hp.regions b o).mp ho
  have hu := (hp.regions b u).mp hu
  exact Option.some.inj (ho.symm.trans hu)

theorem member_unique (hp : p.WellFormed) (hb : o ∈ (p.block b).operations) (hc : o ∈ (p.block c).operations) :
    b = c :=
  (hp.members b o hb).right.symm.trans (hp.members c o hc).right

-- The block around a region.
theorem around_unique (hp : p.WellFormed) {d : BlockId} (ho : o ∈ (p.block b).operations) (hd : d ∈ (p.op o).regions)
    (hu : u ∈ (p.block c).operations) (hd' : d ∈ (p.op u).regions) : b = c := by
  obtain rfl := hp.parent_unique hd hd'
  exact hp.member_unique ho hu

theorem region_unique (hp : p.WellFormed) {o : OpId} {b c : BlockId} (hi : (p.op o).kind.isIsolated)
    (hb : (p.block b).parent = some o) (hc : (p.block c).parent = some o) : b = c := by
  have ⟨body, hr⟩ := (hp.shaped o).body hi
  have hb := (hp.regions b o).mpr hb
  have hc := (hp.regions c o).mpr hc
  rw [hr, List.mem_singleton] at hb hc
  exact hb.trans hc.symm

theorem eq_of_definitionOf (hp : p.WellFormed) (hv : v.index < p.values.length)
    (hw : w.index < p.values.length) (h : p.definitionOf v = p.definitionOf w) : v = w := by
  cases hd : p.definitionOf w with
  | argument b i =>
    have hv := (hp.arguments v b i).mpr ⟨hv, h.trans hd⟩
    have hw := (hp.arguments w b i).mpr ⟨hw, hd⟩
    exact Option.some.inj (hv.symm.trans hw)
  | result o i =>
    have hv := (hp.results v o i).mpr ⟨hv, h.trans hd⟩
    have hw := (hp.results w o i).mpr ⟨hw, hd⟩
    exact Option.some.inj (hv.symm.trans hw)

theorem operands_eq (hp : p.WellFormed) (h : (p.op o).kind.isUnary) : (p.op o).operands = [p.input o] := by
  have ⟨a, _, ha, _⟩ := (hp.shaped o).unary h
  simp [input, ha]

theorem results_eq (hp : p.WellFormed) (h : (p.op o).kind.isUnary) : (p.op o).results = [p.output o] := by
  have ⟨_, r, _, hr⟩ := (hp.shaped o).unary h
  simp [output, hr]

theorem input_lt (hp : p.WellFormed) (h : (p.op o).kind.isUnary) : (p.input o).index < p.values.length :=
  hp.operands o (p.input o) (by simp [hp.operands_eq h])

theorem output_lt (hp : p.WellFormed) (h : (p.op o).kind.isUnary) :
    (p.output o).index < p.values.length := by
  have ho : p.output o ∈ (p.op o).results := by simp [hp.results_eq h]
  exact hp.result_lt ho

theorem regions_eq_nil (hp : p.WellFormed) (h : (p.op o).kind.takesRegions = false) :
    (p.op o).regions = [] := by
  by_contra hc
  simp [(hp.shaped o).leaf hc] at h

-- A live use of a value is an operand.
theorem operand_of_use (hp : p.WellFormed) {use : Use} (h : use ∈ (p.value v).uses)
    (he : (p.op use.user).erased = false) : (p.op use.user).operands[use.index]? = some v := by
  by_contra hc
  have hu := hp.uses v use he
  rw [if_neg hc, List.count_eq_zero] at hu
  exact hu h

theorem use_of_operand (hp : p.WellFormed) (h : (p.op o).operands[i]? = some v)
    (he : (p.op o).erased = false) : ⟨o, i⟩ ∈ (p.value v).uses := by
  have hu := hp.uses v ⟨o, i⟩ he
  rw [if_pos h] at hu
  exact List.count_pos_iff.mp (by omega)

end WellFormed

end Program

end MeshSharding
