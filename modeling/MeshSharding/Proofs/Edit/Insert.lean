import MeshSharding.Program.Builder
import MeshSharding.Proofs.WellFormed

namespace MeshSharding.Program

-- What is neither a value nor an operation nor a block.
def header (p : Program) : String × MeshTable × List (String × TargetTransform) :=
  (p.name, p.meshes, p.transforms)

variable {p : Program} {v w : ValueId} {o u : OpId} {b c : BlockId} {new : NewOp} {position : Nat}

section PushValues

variable {types : List TensorType} {definition : Nat → Definition}

@[simp]
theorem length_values_pushValues :
    (p.pushValues types definition).values.length = p.values.length + types.length := by
  simp [pushValues]

@[simp]
theorem operations_pushValues : (p.pushValues types definition).operations = p.operations :=
  rfl

@[simp]
theorem blocks_pushValues : (p.pushValues types definition).blocks = p.blocks :=
  rfl

theorem value_pushValues_of_lt (h : v.index < p.values.length) :
    (p.pushValues types definition).value v = p.value v := by
  simp [pushValues, value, List.getElem?_append_left h]

theorem definitionOf_pushValues {i : Nat} (hv : v.index = p.values.length + i) (hi : i < types.length) :
    (p.pushValues types definition).definitionOf v = definition i := by
  simp [pushValues, definitionOf, value, hv, hi]

theorem uses_pushValues : ((p.pushValues types definition).value v).uses = (p.value v).uses := by
  by_cases hv : v.index < p.values.length
  case pos => rw [value_pushValues_of_lt hv]
  case neg =>
    rw [value_of_length_le (Nat.le_of_not_lt hv)]
    simp only [pushValues, value, List.getElem?_append_right (Nat.le_of_not_lt hv)]
    cases h : types[v.index - p.values.length]? <;> simp [h]

-- The new values have no shardings.
theorem storedSharding_pushValues : (p.pushValues types definition).storedSharding v = p.storedSharding v := by
  by_cases hv : v.index < p.values.length
  case pos => rw [storedSharding, value_pushValues_of_lt hv, storedSharding]
  case neg =>
    rw [storedSharding, storedSharding, value_of_length_le (Nat.le_of_not_lt hv)]
    simp only [pushValues, value, List.getElem?_append_right (Nat.le_of_not_lt hv)]
    cases h : types[v.index - p.values.length]? <;> simp [h]

-- The new values are those behind the others, and have the new definitions.
theorem definitionOf_pushValues_iff (d : Definition) :
    (v.index < (p.pushValues types definition).values.length ∧
      (p.pushValues types definition).definitionOf v = d) ↔
    (v.index < p.values.length ∧ p.definitionOf v = d) ∨
      ∃ i < types.length, v.index = p.values.length + i ∧ definition i = d := by
  rw [length_values_pushValues]
  by_cases hv : v.index < p.values.length
  case pos =>
    have : v.index < p.values.length + types.length := by omega
    simp only [definitionOf, value_pushValues_of_lt hv, hv, this, true_and]
    constructor
    · exact .inl
    · rintro (h | ⟨i, _, hi, _⟩)
      · exact h
      · omega
  case neg =>
    simp only [hv, false_and, false_or]
    constructor
    · rintro ⟨hl, hd⟩
      have hi : v.index - p.values.length < types.length := by omega
      have hv : v.index = p.values.length + (v.index - p.values.length) := by omega
      exact ⟨_, hi, hv, (definitionOf_pushValues hv hi).symm.trans hd⟩
    · rintro ⟨i, hi, hv, hd⟩
      exact ⟨by omega, (definitionOf_pushValues hv hi).trans hd⟩

theorem nextValues_getElem? {count i : Nat} :
    (p.nextValues count)[i]? = some v ↔ i < count ∧ v.index = p.values.length + i := by
  simp only [nextValues, List.getElem?_map, Option.map_eq_some_iff, List.getElem?_eq_some_iff]
  constructor
  · rintro ⟨_, ⟨hi, rfl⟩, rfl⟩
    simpa using hi
  · intro ⟨hi, hv⟩
    exact ⟨p.values.length + i, ⟨by simpa using hi, by simp⟩, by rw [← hv]⟩

end PushValues

section Place

-- The uses of a value that a new operation makes.
def usesBy (o : OpId) (operands : List ValueId) (v : ValueId) : List Use :=
  operands.zipIdx.filterMap fun (w, index) => if w = v then some ⟨o, index⟩ else none

theorem mem_usesBy {operands : List ValueId} {use : Use} :
    use ∈ usesBy o operands v ↔ use.user = o ∧ operands[use.index]? = some v := by
  obtain ⟨user, index⟩ := use
  simp only [usesBy, List.mem_filterMap, Prod.exists, List.mem_zipIdx_iff_getElem?,
    Option.ite_none_right_eq_some, Option.some.injEq, Use.mk.injEq]
  constructor
  · rintro ⟨w, i, hi, rfl, rfl, rfl⟩
    exact ⟨rfl, hi⟩
  · rintro ⟨rfl, h⟩
    exact ⟨v, index, h, rfl, rfl, rfl⟩

theorem usesBy_nodup (operands : List ValueId) : (usesBy o operands v).Nodup := by
  have hn : operands.zipIdx.Nodup := by
    apply List.Nodup.of_map Prod.snd
    rw [List.zipIdx_map_snd]
    exact List.nodup_range'
  refine hn.filterMap ?_
  rintro ⟨w, i⟩ ⟨w', i'⟩ use h h'
  simp only [Option.mem_def, Option.ite_none_right_eq_some, Option.some.injEq] at h h'
  obtain ⟨rfl, rfl⟩ := h
  obtain ⟨rfl, h⟩ := h'
  simp_all

theorem value_addUse {use : Use} : (p.addUse w use).value v =
    if v = w ∧ w.index < p.values.length then { p.value v with uses := (p.value v).uses ++ [use] }
    else p.value v :=
  value_modifyValue _

@[simp]
theorem length_values_addUse {use : Use} : (p.addUse w use).values.length = p.values.length := by
  simp [addUse]

theorem value_foldl_addUse (pairs : List (ValueId × Use)) :
    (pairs.foldl (fun p (v, use) => p.addUse v use) p).value v =
      if v.index < p.values.length then
        { p.value v with uses := (p.value v).uses ++
          pairs.filterMap fun (w, use) => if w = v then some use else none }
      else p.value v := by
  induction pairs generalizing p with
  | nil => simp
  | cons pair pairs ih =>
    obtain ⟨w, use⟩ := pair
    rw [List.foldl_cons, ih]
    simp only [value_addUse, length_values_addUse]
    by_cases hl : v.index < p.values.length
    · by_cases hv : v = w
      · simp [hv, hv ▸ hl]
      · simp [hv, Ne.symm hv]
    · by_cases hv : v = w
      · simp [hl, hv ▸ hl]
      · simp [hl, hv]

-- The steps of placing an operation: the operation and its results are added, then the uses of its
-- operands, then it becomes the parent of its regions, and then it gets its place in the block.
def nextOp (p : Program) : OpId :=
  ⟨p.operations.length⟩

def placed (p : Program) (b : BlockId) (new : NewOp) : Operation where
  kind     := new.kind
  operands := new.operands
  results  := p.nextValues (new.resultTypes p).length
  regions  := new.regions
  block    := b
  erased   := false

def pushOp (p : Program) (b : BlockId) (new : NewOp) : Program :=
  { p.pushValues (new.resultTypes p) (.result p.nextOp) with
    operations := p.operations ++ [p.placed b new] }

def addUsesBy (p : Program) (o : OpId) (operands : List ValueId) : Program :=
  (operands.zipIdx.map fun (v, index) => (v, Use.mk o index)).foldl
    (fun p (v, use) => p.addUse v use) p

def adoptRegions (p : Program) (o : OpId) (bs : List BlockId) : Program :=
  bs.foldl (fun p b => p.modifyBlock b fun block => { block with parent := some o }) p

theorem place_eq : p.place b position new =
    (((p.pushOp b new).addUsesBy p.nextOp new.operands).adoptRegions p.nextOp new.regions).modifyBlock
      b fun block => { block with operations := block.operations.insertIdx position p.nextOp } :=
  rfl

section Steps

variable {operands : List ValueId} {bs : List BlockId}

theorem value_addUsesBy : (p.addUsesBy o operands).value v =
    if v.index < p.values.length then
      { p.value v with uses := (p.value v).uses ++ usesBy o operands v }
    else p.value v := by
  rw [addUsesBy, value_foldl_addUse, List.filterMap_map]
  rfl

@[simp]
theorem length_values_addUsesBy : (p.addUsesBy o operands).values.length = p.values.length := by
  apply foldl_keeps fun q => q.values.length
  simp

@[simp]
theorem operations_addUsesBy : (p.addUsesBy o operands).operations = p.operations := by
  apply foldl_keeps fun q => q.operations
  exact fun _ _ => rfl

@[simp]
theorem blocks_addUsesBy : (p.addUsesBy o operands).blocks = p.blocks := by
  apply foldl_keeps fun q => q.blocks
  exact fun _ _ => rfl

@[simp]
theorem values_adoptRegions : (p.adoptRegions o bs).values = p.values := by
  apply foldl_keeps fun q => q.values
  exact fun _ _ => rfl

@[simp]
theorem operations_adoptRegions : (p.adoptRegions o bs).operations = p.operations := by
  apply foldl_keeps fun q => q.operations
  exact fun _ _ => rfl

@[simp]
theorem length_blocks_adoptRegions : (p.adoptRegions o bs).blocks.length = p.blocks.length := by
  apply foldl_keeps fun q => q.blocks.length
  simp

theorem block_adoptRegions : (p.adoptRegions o bs).block c =
    if c ∈ bs ∧ c.index < p.blocks.length then { p.block c with parent := some o }
    else p.block c := by
  rw [adoptRegions]
  induction bs generalizing p with
  | nil => simp
  | cons b bs ih =>
    rw [List.foldl_cons, ih, block_modifyBlock, length_blocks_modifyBlock]
    by_cases hb : c = b
    · subst hb
      by_cases hl : c.index < p.blocks.length <;> simp [hl]
    · simp [hb]

end Steps

theorem op_place : (p.place b position new).op u = if u = p.nextOp then p.placed b new else p.op u := by
  have ho : (p.place b position new).operations = p.operations ++ [p.placed b new] := by
    simp [place_eq, pushOp]
  obtain ⟨i⟩ := u
  simp only [op, ho, nextOp, OpId.mk.injEq, getD_concat]

theorem ne_nextOp (h : u.index < p.operations.length) : u ≠ p.nextOp := by
  intro he
  simp [he, nextOp] at h

theorem op_place_of_ne (h : u ≠ p.nextOp) : (p.place b position new).op u = p.op u := by
  rw [op_place, if_neg h]

theorem op_place_nextOp : (p.place b position new).op p.nextOp = p.placed b new := by
  rw [op_place, if_pos rfl]

@[simp]
theorem length_values_place : (p.place b position new).values.length =
    p.values.length + (new.resultTypes p).length := by
  simp only [place_eq, values_modifyBlock, values_adoptRegions, length_values_addUsesBy, pushOp]
  exact length_values_pushValues

@[simp]
theorem length_operations_place :
    (p.place b position new).operations.length = p.operations.length + 1 := by
  simp [place_eq, pushOp]

@[simp]
theorem length_blocks_place : (p.place b position new).blocks.length = p.blocks.length := by
  simp [place_eq, pushOp, pushValues]

theorem value_place : (p.place b position new).value v =
    { (p.pushValues (new.resultTypes p) (.result p.nextOp)).value v with
      uses := (p.value v).uses ++
        if v.index < p.values.length + (new.resultTypes p).length then
          usesBy p.nextOp new.operands v
        else [] } := by
  have hv : (p.place b position new).value v =
      ((p.pushOp b new).addUsesBy p.nextOp new.operands).value v := by
    rw [place_eq, value_modifyBlock, value, values_adoptRegions, value]
  have hl : (p.pushOp b new).values.length = p.values.length + (new.resultTypes p).length :=
    length_values_pushValues
  have hu : ((p.pushOp b new).value v).uses = (p.value v).uses := uses_pushValues
  rw [hv, value_addUsesBy, hl, ← hu]
  split
  case isTrue  => rfl
  case isFalse => rw [List.append_nil]; rfl

theorem storedSharding_place : (p.place b position new).storedSharding v = p.storedSharding v := by
  rw [storedSharding, value_place]
  exact storedSharding_pushValues

theorem block_place : (p.place b position new).block c =
    { p.block c with
      parent :=
        if c ∈ new.regions ∧ c.index < p.blocks.length then some p.nextOp else (p.block c).parent
      operations :=
        if c = b ∧ b.index < p.blocks.length then (p.block c).operations.insertIdx position p.nextOp
        else (p.block c).operations } := by
  have hb : ((p.pushOp b new).addUsesBy p.nextOp new.operands).block c = p.block c := by
    rw [block, blocks_addUsesBy]
    rfl
  have hl : ((p.pushOp b new).addUsesBy p.nextOp new.operands).blocks.length = p.blocks.length := by
    rw [blocks_addUsesBy]
    rfl
  rw [place_eq, block_modifyBlock, block_adoptRegions, length_blocks_adoptRegions, hb, hl]
  split <;> split <;> simp_all

theorem header_place : (p.place b position new).header = p.header := by
  have hu (q : Program) : (q.addUsesBy p.nextOp new.operands).header = q.header := by
    apply foldl_keeps fun q => q.header
    exact fun _ _ => rfl
  have hr (q : Program) : (q.adoptRegions p.nextOp new.regions).header = q.header := by
    apply foldl_keeps fun q => q.header
    exact fun _ _ => rfl
  rw [place_eq]
  exact (hr _).trans (hu _)

theorem meshes_place : (p.place b position new).meshes = p.meshes := by
  have hh : (p.place b position new).header = p.header := header_place
  exact congrArg (fun header => header.2.1) hh

end Place

section Insert

structure Accepts (p : Program) (new : NewOp) : Prop where
  operands : ∀ v ∈ new.operands, v.index < p.values.length
  regions  : ∀ b ∈ new.regions, b.index < p.blocks.length ∧ (p.block b).parent = none

theorem checkNew_eq_ok_iff : p.checkNew new = .ok () ↔
    (∀ v ∈ new.operands, v.index < p.values.length) ∧
    (∀ b ∈ new.regions, (p.block b).parent = none) ∧ ∀ b ∈ new.regions, (p.terminator? b).isSome := by
  simp only [checkNew, bind, Except.bind]
  cases hv : new.operands.find? (p.values.length ≤ ·.index) with
  | some v =>
    have hn := List.find?_some hv
    refine iff_of_false (by simp [throw, throwThe, MonadExceptOf.throw]) fun h => ?_
    have hl := h.left v (List.mem_of_find?_eq_some hv)
    simp only [decide_eq_true_eq] at hn
    omega
  | none =>
    cases hb : new.regions.find? fun b => (p.block b).parent.isSome with
    | some b =>
      have hn := List.find?_some hb
      refine iff_of_false (by simp [throw, throwThe, MonadExceptOf.throw]) fun h => ?_
      simp [h.right.left b (List.mem_of_find?_eq_some hb)] at hn
    | none =>
      rw [List.find?_eq_none] at hv hb
      simp only [require_eq_ok_iff]
      refine ⟨fun h => ⟨fun v hm => by simpa using hv v hm, fun b hm => by simpa using hb b hm, h⟩,
        fun h => h.right.right⟩

theorem accepts_of_checkNew (h : p.checkNew new = .ok ()) : p.Accepts new := by
  obtain ⟨hv, hb, ht⟩ := checkNew_eq_ok_iff.mp h
  refine ⟨hv, fun b hm => ⟨?_, hb b hm⟩⟩
  by_contra hc
  have := ht b hm
  simp [terminator?, block_of_length_le (Nat.le_of_not_lt hc)] at this

theorem insert_eq_ok_iff {q : Program} : p.insert b position new = .ok (q, o) ↔
    p.checkNew new = .ok () ∧ q = p.place b position new ∧ o = p.nextOp ∧ q.checkOp o = .ok () := by
  simp only [insert, Location.attach, bind, Except.bind, nextOp]
  cases hn : p.checkNew new with
  | error e => simp [Except.mapError]
  | ok _ =>
    cases hc : (p.place b position new).checkOp ⟨p.operations.length⟩ with
    | error e =>
      simp only [Except.mapError, reduceCtorEq, true_and, false_iff]
      rintro ⟨rfl, rfl, h⟩
      simp [hc] at h
    | ok _ =>
      simp only [pure, Except.pure, Except.mapError, Except.ok.injEq, Prod.mk.injEq, true_and]
      constructor
      · rintro ⟨rfl, rfl⟩
        exact ⟨rfl, rfl, hc⟩
      · rintro ⟨rfl, rfl, _⟩
        exact ⟨rfl, rfl⟩

theorem insert_eq_ok {q : Program} (h : p.insert b position new = .ok (q, o)) :
    q = p.place b position new ∧ o = p.nextOp ∧ p.Accepts new :=
  have ⟨hn, hq, ho, _⟩ := insert_eq_ok_iff.mp h
  ⟨hq, ho, accepts_of_checkNew hn⟩

theorem Accepts.placed_shaped (h : p.Accepts new) (b : BlockId) : (p.placed b new).Shaped := by
  have hl : (p.nextValues 1) = [⟨p.values.length⟩] := by simp [nextValues]
  have hn : p.nextValues 0 = [] := by simp [nextValues]
  have ho := h.operands
  cases new <;> simp only [NewOp.operands, List.mem_singleton, forall_eq] at ho
  all_goals
    constructor <;>
      simp_all [placed, NewOp.kind, NewOp.operands, NewOp.resultTypes, NewOp.regions, OpKind.isUnary,
        OpKind.isGroup, OpKind.takesRegions, OpKind.isIsolated]

-- A placed operation reads a value once at each place where this stands in its operands.
theorem Accepts.count_usesBy (h : p.Accepts new) (use : Use) :
    (if v.index < p.values.length + (new.resultTypes p).length then
        usesBy p.nextOp new.operands v else []).count use =
      if use.user = p.nextOp ∧ new.operands[use.index]? = some v then 1 else 0 := by
  by_cases hm : use.user = p.nextOp ∧ new.operands[use.index]? = some v
  case pos =>
    have hv := h.operands v (List.mem_of_getElem? hm.right)
    rw [if_pos hm, if_pos (Nat.lt_add_right _ hv)]
    exact List.count_eq_one_of_mem (usesBy_nodup new.operands) (mem_usesBy.mpr hm)
  case neg =>
    rw [if_neg hm, List.count_eq_zero]
    split
    · exact fun hu => hm (mem_usesBy.mp hu)
    · simp

end Insert

section WellFormed

@[simp]
theorem op_nextOp (p : Program) : p.op p.nextOp = {} :=
  op_of_length_le (le_refl _)

theorem definitionOf_place_iff (d : Definition) :
    (v.index < (p.place b position new).values.length ∧ (p.place b position new).definitionOf v = d) ↔
    (v.index < p.values.length ∧ p.definitionOf v = d) ∨
      ∃ i < (new.resultTypes p).length, v.index = p.values.length + i ∧ .result p.nextOp i = d := by
  have hl : (p.pushValues (new.resultTypes p) (.result p.nextOp)).values.length =
      p.values.length + (new.resultTypes p).length := length_values_pushValues
  have hd : (p.place b position new).definitionOf v =
      (p.pushValues (new.resultTypes p) (.result p.nextOp)).definitionOf v := by
    simp only [definitionOf, value_place]
  rw [length_values_place, hd, ← hl]
  exact definitionOf_pushValues_iff d

theorem insertIdx_nodup {operations : List OpId} (h : operations.Nodup) (ho : o ∉ operations) :
    (operations.insertIdx position o).Nodup := by
  by_cases hl : position ≤ operations.length
  case pos => exact (List.perm_insertIdx o operations hl).nodup_iff.mpr (List.nodup_cons.mpr ⟨ho, h⟩)
  case neg => rwa [List.insertIdx_of_length_lt (by omega)]

namespace WellFormed

theorem nextOp_not_mem (hp : p.WellFormed) (c : BlockId) : p.nextOp ∉ (p.block c).operations := by
  intro h
  simpa [nextOp] using hp.member_lt h

theorem place (hp : p.WellFormed) (h : p.Accepts new) (b : BlockId) (position : Nat) :
    (p.place b position new).WellFormed where
  body := by simpa using hp.body
  arguments v c i := by
    rw [block_place, definitionOf_place_iff, hp.arguments]
    simp
  results v u i := by
    rw [op_place, definitionOf_place_iff]
    split
    case isTrue hu =>
      have hn := hp.results v u i
      rw [hu, op_nextOp, List.getElem?_nil] at hn
      simp only [hu, ← hn, reduceCtorEq, false_or, placed, nextValues_getElem?, Definition.result.injEq]
      simp
    case isFalse hu =>
      simp [hp.results, Ne.symm hu]
  operands u v hv := by
    rw [op_place] at hv
    rw [length_values_place]
    split at hv
    · exact Nat.lt_add_right _ (h.operands v hv)
    · exact Nat.lt_add_right _ (hp.operands u v hv)
  regions c u := by
    have hn := hp.regions c p.nextOp
    rw [op_nextOp] at hn
    rw [op_place, block_place]
    by_cases hc : c ∈ new.regions
    case pos =>
      have ⟨hl, hno⟩ := h.regions c hc
      have hr := hp.regions c u
      rw [hno] at hr
      split
      case isTrue hu  => simp [placed, hc, hl, hu]
      case isFalse hu => simp [hc, hl, hr, Ne.symm hu]
    case neg =>
      have hr := hp.regions c u
      split <;> simp_all [placed]
  members c u hu := by
    rw [block_place] at hu
    rw [op_place]
    dsimp only at hu
    by_cases hun : u = p.nextOp
    case pos =>
      split at hu
      case isTrue hc  => simp [hun, placed, hc.left]
      case isFalse hc => exact absurd (hun ▸ hu) (hp.nextOp_not_mem c)
    case neg =>
      rw [if_neg hun]
      split at hu
      case isTrue hc  => exact hp.members c u ((List.eq_or_mem_of_mem_insertIdx hu).resolve_left hun)
      case isFalse hc => exact hp.members c u hu
  nodup c := by
    rw [block_place]
    dsimp only
    split
    · exact insertIdx_nodup (hp.nodup c) (hp.nextOp_not_mem c)
    · exact hp.nodup c
  shaped u := by
    rw [op_place]
    split
    · exact h.placed_shaped b
    · exact hp.shaped u
  uses v use he := by
    rw [op_place] at he ⊢
    rw [value_place, List.count_append, h.count_usesBy]
    by_cases hu : use.user = p.nextOp
    case pos =>
      have hold : (p.value v).uses.count use = 0 := by
        rw [List.count_eq_zero]
        intro hm
        have := hp.users v use hm
        simp [hu, nextOp] at this
      simp [hu, hold, placed]
    case neg =>
      rw [if_neg hu] at he ⊢
      simp [hp.uses v use he, hu]
  users v use hu := by
    rw [value_place] at hu
    rw [length_operations_place]
    obtain hu | hu := List.mem_append.mp hu
    · exact Nat.lt_succ_of_lt (hp.users v use hu)
    · split at hu
      · simp [(mem_usesBy.mp hu).left, nextOp]
      · simp at hu

theorem insert {q : Program} (hp : p.WellFormed) (h : p.insert b position new = .ok (q, o)) :
    q.WellFormed := by
  have ⟨hq, _, ha⟩ := insert_eq_ok h
  exact hq ▸ hp.place ha b position

-- New arguments of a block at the end of its list.
theorem pushArguments {q : Program} (hp : p.WellFormed) (b : BlockId) (types : List TensorType)
    (hv : q.values = (p.pushValues types fun i => .argument b ((p.block b).arguments.length + i)).values)
    (ho : q.operations = p.operations) (hl : p.blocks.length ≤ q.blocks.length)
    (hb : ∀ c, q.block c = { p.block c with
      arguments := (p.block c).arguments ++ if c = b then p.nextValues types.length else [] }) :
    q.WellFormed := by
  have hop (u : OpId) : q.op u = p.op u := by rw [op, ho, op]
  have hlen : q.values.length = p.values.length + types.length := by
    rw [hv, length_values_pushValues]
  have hd (v : ValueId) (d : Definition) : (v.index < q.values.length ∧ q.definitionOf v = d) ↔
      (v.index < p.values.length ∧ p.definitionOf v = d) ∨
      ∃ i < types.length, v.index = p.values.length + i ∧
        .argument b ((p.block b).arguments.length + i) = d := by
    rw [definitionOf, value, hv]
    exact definitionOf_pushValues_iff d
  have hu (v : ValueId) : (q.value v).uses = (p.value v).uses := by
    rw [value, hv]
    exact uses_pushValues
  exact {
    body            := Nat.lt_of_lt_of_le hp.body hl
    results v u i   := by simp [hop, hd, hp.results]
    operands u v hm := hlen ▸ Nat.lt_add_right _ (hp.operands u v (hop u ▸ hm))
    regions c u     := by simp [hop, hb, hp.regions]
    members c       := by simpa [hop, hb] using hp.members c
    nodup c         := by simpa [hb] using hp.nodup c
    shaped u        := hop u ▸ hp.shaped u
    uses v          := by simpa [hop, hu] using hp.uses v
    users v         := by simpa [hu, ho] using hp.users v
    arguments v c i := by
      rw [hd, hb, ← hp.arguments]
      by_cases hc : c = b
      case neg => simp [hc, Ne.symm hc]
      case pos =>
        subst hc
        simp only [if_true, Definition.argument.injEq, true_and]
        by_cases hi : i < (p.block c).arguments.length
        case pos =>
          rw [List.getElem?_append_left hi]
          constructor
          · exact .inl
          · rintro (h | ⟨k, _, _, hk⟩)
            · exact h
            · omega
        case neg =>
          rw [List.getElem?_append_right (Nat.le_of_not_lt hi), nextValues_getElem?]
          simp only [List.getElem?_eq_none (Nat.le_of_not_lt hi), reduceCtorEq, false_or]
          constructor
          · rintro ⟨hk, hvk⟩
            exact ⟨_, hk, hvk, by omega⟩
          · rintro ⟨k, hk, hvk, rfl⟩
            exact ⟨by omega, by omega⟩ }

theorem addRegion (hp : p.WellFormed) (types : List TensorType) :
    (p.addRegion types).1.WellFormed := by
  have hn : p.block ⟨p.blocks.length⟩ = {} := block_of_length_le (le_refl _)
  refine hp.pushArguments ⟨p.blocks.length⟩ types ?_ rfl ?_ ?_
  · simp [Program.addRegion, hn]
  · simp [Program.addRegion]
  · intro ⟨i⟩
    simp only [Program.addRegion, block, blocks_pushValues, getD_concat, BlockId.mk.injEq]
    split
    case isTrue hi  => simp [hi]
    case isFalse hi => simp

theorem addArgument {q : Program} {type : TensorType} {sharding : Option Sharding}
    (hp : p.WellFormed) (h : p.addArgument type sharding = .ok (q, v)) : q.WellFormed := by
  simp only [Program.addArgument, bind, Except.bind, pure, Except.pure] at h
  split at h
  case _ => contradiction
  case _ =>
    simp only [Except.ok.injEq, Prod.mk.injEq] at h
    -- The sharding of the new value is the only difference to a value that is pushed.
    let pushed := (p.pushValues [type] fun i =>
      .argument entry ((p.block entry).arguments.length + i)).modifyBlock entry fun block =>
        { block with arguments := block.arguments ++ [⟨p.values.length⟩] }
    have hq : q.bare = pushed.bare := by
      rw [← h.left]
      simp [pushed, bare, pushValues, modifyBlock, Value.bare]
    refine WellFormed.of_bare_eq ?_ hq
    refine hp.pushArguments entry [type] rfl rfl (by simp [pushed]) fun c => ?_
    have hn : p.nextValues 1 = [⟨p.values.length⟩] := by simp [nextValues]
    simp only [pushed, block_modifyBlock, blocks_pushValues, hp.body, and_true, List.length_singleton, hn]
    split
    case isTrue hc  => rfl
    case isFalse hc => simp; rfl

end WellFormed

end WellFormed

end MeshSharding.Program
