import MeshSharding.Proofs.Mesh.Table
import MeshSharding.Proofs.Nesting.Climb

namespace MeshSharding

namespace Program

-- No operation of the block is a terminator.
def IsOpen (p : Program) (b : BlockId) : Prop :=
  ∀ o ∈ (p.block b).operations, (p.op o).kind.isTerminator = false

instance (p : Program) (b : BlockId) : Decidable (p.IsOpen b) :=
  List.decidableBAll ..

-- A builder is called, and succeeds. Nothing is appended to a block after its terminator.
inductive Builds (p : Program) : Program → Prop
  | mesh {q : Program} {name : String} {mesh : Mesh} : p.declareMesh name mesh = .ok q → Builds p q
  | argument {q : Program} {type : TensorType} {s : Option Sharding} {v : ValueId} :
      p.addArgument type s = .ok (q, v) → Builds p q
  | region (types : List TensorType) : Builds p (p.addRegion types).1
  | append {q : Program} {b : BlockId} {new : NewOp} {o : OpId} : b.index < p.blocks.length → p.IsOpen b →
      p.append b new = .ok (q, o) → Builds p q

-- What there is in a program stays as it is while others are added, except that a block gets operations until it
-- has its terminator, that the body gets arguments, and that a region gets its parent.
structure Grows (p q : Program) : Prop where
  values      : p.values.length ≤ q.values.length
  operations  : p.operations.length ≤ q.operations.length
  blocks      : p.blocks.length ≤ q.blocks.length
  meshes      : ∀ ref mesh, p.meshes.resolve ref = .ok mesh → q.meshes.resolve ref = .ok mesh
  ops         : ∀ o, o.index < p.operations.length → q.op o = p.op o
  types       : ∀ v, v.index < p.values.length → q.typeOf v = p.typeOf v
  definitions : ∀ v, v.index < p.values.length → q.definitionOf v = p.definitionOf v
  stored      : ∀ v, v.index < p.values.length → q.storedSharding v = p.storedSharding v
  parents     : ∀ b o, (p.block b).parent = some o → (q.block b).parent = some o
  arguments   : ∀ b, b.index < p.blocks.length → b ≠ entry → (q.block b).arguments = (p.block b).arguments
  closed      : ∀ b, (p.terminator? b).isSome → (q.block b).operations = (p.block b).operations

variable {p q r : Program} {o u : OpId} {v : ValueId} {b : BlockId} {new : NewOp}

section Grows

theorem Grows.refl (p : Program) : Grows p p :=
  ⟨le_rfl, le_rfl, le_rfl, fun _ _ h => h, fun _ _ => rfl, fun _ _ => rfl, fun _ _ => rfl, fun _ _ => rfl,
    fun _ _ h => h, fun _ _ _ => rfl, fun _ _ => rfl⟩

theorem Grows.terminator? (h : Grows p q) (hp : p.WellFormed) (hb : (p.terminator? b).isSome) :
    q.terminator? b = p.terminator? b := by
  rw [Program.terminator?, h.closed b hb, Program.terminator?]
  cases hl : (p.block b).operations.getLast? with
  | none   => rfl
  | some t =>
    have ht := (hp.members b t (List.mem_of_getLast? hl)).left
    rw [Option.filter_some, Option.filter_some, h.ops t (index_lt_of_not_erased ht)]

theorem Grows.trans (h : Grows p q) (h' : Grows q r) (hp : p.WellFormed) : Grows p r where
  values          := h.values.trans h'.values
  operations      := h.operations.trans h'.operations
  blocks          := h.blocks.trans h'.blocks
  meshes ref m hm := h'.meshes ref m (h.meshes ref m hm)
  ops o ho        := (h'.ops o (ho.trans_le h.operations)).trans (h.ops o ho)
  types v hv      := (h'.types v (hv.trans_le h.values)).trans (h.types v hv)
  definitions v hv := (h'.definitions v (hv.trans_le h.values)).trans (h.definitions v hv)
  stored v hv     := (h'.stored v (hv.trans_le h.values)).trans (h.stored v hv)
  parents b o ho  := h'.parents b o (h.parents b o ho)
  arguments b hb he := (h'.arguments b (hb.trans_le h.blocks) he).trans (h.arguments b hb he)
  closed b hb     := (h'.closed b (by rwa [h.terminator? hp hb])).trans (h.closed b hb)

theorem grows_declareMesh {name : String} {mesh : Mesh} (h : p.declareMesh name mesh = .ok q) : Grows p q := by
  obtain ⟨meshes, hm, heq⟩ := bind_eq_ok_iff.mp h
  cases heq
  refine { Grows.refl p with meshes := fun ref other => ?_ }
  exact MeshTable.resolve_declare (attach_eq_ok_iff.mp hm)

-- Values and blocks that are new do not count.
theorem Grows.of_blocks (hv : ∀ v, v.index < p.values.length → q.value v = p.value v)
    (hl : p.values.length ≤ q.values.length) (hb : p.blocks.length ≤ q.blocks.length)
    (hm : q.meshes = p.meshes) (ho : q.operations = p.operations)
    (hparent : ∀ b, (q.block b).parent = (p.block b).parent)
    (hoperations : ∀ b, (q.block b).operations = (p.block b).operations)
    (ha : ∀ b, b.index < p.blocks.length → b ≠ entry → (q.block b).arguments = (p.block b).arguments) :
    Grows p q where
  values           := hl
  operations       := by rw [ho]
  blocks           := hb
  meshes _ _ h     := hm ▸ h
  ops _ _          := by rw [op, ho, op]
  types v h        := by rw [typeOf, hv v h, typeOf]
  definitions v h  := by rw [definitionOf, hv v h, definitionOf]
  stored v h       := by rw [storedSharding, hv v h, storedSharding]
  parents b o h    := (hparent b).trans h
  arguments        := ha
  closed b _       := hoperations b

theorem grows_addArgument {type : TensorType} {s : Option Sharding} (h : p.addArgument type s = .ok (q, v)) :
    Grows p q := by
  obtain ⟨_, -, heq⟩ := bind_eq_ok_iff.mp h
  cases heq
  refine .of_blocks (fun w hw => ?_) (by simp) (by simp) rfl rfl (fun b => ?_) (fun b => ?_) fun b _ hb => ?_
  · simp [value, modifyBlock, List.getElem?_append_left hw]
  all_goals rw [block_modifyBlock]
  · split <;> rfl
  · split <;> rfl
  · rw [if_neg fun h => hb h.left]
    rfl

theorem grows_addRegion (types : List TensorType) : Grows p (p.addRegion types).1 := by
  have hb (b : BlockId) : (p.addRegion types).1.block b =
      if b.index = p.blocks.length then { arguments := p.nextValues types.length } else p.block b := by
    obtain ⟨i⟩ := b
    simp only [addRegion, block, blocks_pushValues, getD_concat]
  have hnone (b : BlockId) (h : b.index = p.blocks.length) : p.block b = {} :=
    block_of_length_le (Nat.le_of_eq h.symm)
  refine .of_blocks (fun w hw => value_pushValues_of_lt hw) (by simp [addRegion]) (by simp [addRegion]) rfl rfl
    (fun b => ?_) (fun b => ?_) fun b hl _ => ?_
  all_goals rw [hb]
  · split <;> simp_all
  · split <;> simp_all
  · rw [if_neg (Nat.ne_of_lt hl)]

theorem grows_place (ha : p.Accepts new) (hb : p.terminator? b = none) (position : Nat) :
    Grows p (p.place b position new) := by
  have hv (v : ValueId) (h : v.index < p.values.length) :
      ∃ uses, (p.place b position new).value v = { p.value v with uses } := by
    rw [value_place, value_pushValues_of_lt h]
    exact ⟨_, rfl⟩
  exact {
    values        := by simp
    operations    := by simp
    blocks        := by simp
    meshes _ _ h  := by rwa [meshes_place]
    ops o h       := op_place_of_ne (ne_nextOp h)
    types v h     := by
      obtain ⟨_, hv⟩ := hv v h
      rw [typeOf, hv, typeOf]
    definitions v h := by
      obtain ⟨_, hv⟩ := hv v h
      rw [definitionOf, hv, definitionOf]
    stored v h    := by
      obtain ⟨_, hv⟩ := hv v h
      rw [storedSharding, hv, storedSharding]
    parents c o h := by
      have hc : c ∉ new.regions := fun hc => by simp [(ha.regions c hc).right] at h
      simp [block_place, hc, h]
    arguments c _ _ := by rw [block_place]
    closed c h    := by
      have hc : c ≠ b := fun hc => by simp [hc, hb] at h
      simp [block_place, hc] }

theorem terminator?_of_isOpen (h : p.IsOpen b) : p.terminator? b = none := by
  rw [terminator?, Option.filter_eq_none_iff]
  intro t ht
  simpa using h t (List.mem_of_getLast? ht)

theorem Builds.grows (h : p.Builds q) : Grows p q := by
  cases h with
  | mesh h          => exact grows_declareMesh h
  | argument h      => exact grows_addArgument h
  | region types    => exact grows_addRegion types
  | append _ hopen h =>
    obtain ⟨hplace, -, ha⟩ := insert_eq_ok h
    exact hplace ▸ grows_place ha (terminator?_of_isOpen hopen) _

end Grows

section Steps

-- A step of building that appends nothing to a block with a terminator.
def openStep? (p : Program) (step : BuildStep) : Option Program :=
  match step with
  | .append b _ => if p.IsOpen b then p.buildStep? step else none
  | _           => p.buildStep? step

theorem Builds.of_openStep? {step : BuildStep} (h : p.openStep? step = some q) : p.Builds q := by
  cases step with
  | mesh name mesh =>
    cases hm : p.declareMesh name mesh <;> simp [openStep?, buildStep?, hm, Except.toOption] at h
    subst h
    exact .mesh hm
  | argument type s =>
    cases ha : p.addArgument type s <;> simp [openStep?, buildStep?, ha, Except.toOption] at h
    subst h
    exact .argument ha
  | region types =>
    cases h
    exact .region types
  | append b new =>
    simp only [openStep?, buildStep?, Option.ite_none_right_eq_some] at h
    obtain ⟨hopen, hb, h⟩ := h
    cases hi : p.append b new <;> simp [hi, Except.toOption] at h
    subst h
    exact .append hb hopen hi

theorem builds_of_openSteps {steps : List BuildStep} (h : steps.foldlM openStep? p = some q) :
    Relation.ReflTransGen Builds p q := by
  induction steps generalizing p with
  | nil =>
    cases h
    exact .refl
  | cons step steps ih =>
    simp only [List.foldlM_cons, Option.bind_eq_bind, Option.bind_eq_some_iff] at h
    obtain ⟨r, hr, h⟩ := h
    exact .head (.of_openStep? hr) (ih h)

end Steps

section Runs

variable {name : String}

theorem Builds.reachable (h : p.Builds q) (hp : p.Reachable) : q.Reachable := by
  cases h with
  | mesh h         => exact hp.declareMesh h
  | argument h     => exact hp.addArgument h
  | region types   => exact hp.addRegion types
  | append hb _ h  => exact hp.insert hb le_rfl h

theorem grows_of_builds (h : Relation.ReflTransGen Builds p q) (hp : p.Reachable) :
    q.Reachable ∧ Grows p q := by
  induction h with
  | refl         => exact ⟨hp, .refl p⟩
  | tail _ hs ih => exact ⟨hs.reachable ih.left, ih.right.trans hs.grows hp.wellFormed⟩

-- An operation that is new has been appended.
theorem Builds.exists_append (h : p.Builds q) (ho : o.index < q.operations.length)
    (hn : ¬ o.index < p.operations.length) : ∃ b new, p.append b new = .ok (q, o) := by
  cases h with
  | mesh h =>
    obtain ⟨_, -, heq⟩ := bind_eq_ok_iff.mp h
    cases heq
    exact absurd ho hn
  | argument h =>
    obtain ⟨_, -, heq⟩ := bind_eq_ok_iff.mp h
    cases heq
    exact absurd ho hn
  | region types => exact absurd ho hn
  | @append _ b new u _ _ h =>
    obtain ⟨hplace, rfl, -⟩ := insert_eq_ok h
    rw [hplace, length_operations_place] at ho
    have he : o = p.nextOp := OpId.index_injective (by simp only [nextOp]; omega)
    exact ⟨b, new, he ▸ h⟩

theorem exists_append_of_builds (h : Relation.ReflTransGen Builds (empty name) p)
    (ho : o.index < p.operations.length) : ∃ q b new r, Relation.ReflTransGen Builds (empty name) q ∧
      q.Builds r ∧ q.append b new = .ok (r, o) ∧ Relation.ReflTransGen Builds r p := by
  induction h with
  | refl => simp [empty] at ho
  | @tail q r h hs ih =>
    by_cases hq : o.index < q.operations.length
    case pos =>
      obtain ⟨q', b, new, r', hq', hs', ha, hr⟩ := ih hq
      exact ⟨q', b, new, r', hq', hs', ha, hr.tail hs⟩
    case neg =>
      obtain ⟨b, new, ha⟩ := hs.exists_append ho hq
      exact ⟨q, b, new, r, h, hs, ha, .refl⟩

-- Regions are complete before they get their parent.
def RegionsFirst (p : Program) : Prop :=
  ∀ o, ∀ b ∈ (p.op o).regions, (p.terminator? b).isSome ∧ ∀ u ∈ (p.block b).operations, u.index < o.index

theorem Builds.regionsFirst (h : p.Builds q) (hp : p.WellFormed) (hf : p.RegionsFirst) : q.RegionsFirst := by
  have hg := h.grows
  have hkeep {o : OpId} {b : BlockId} (hb : (p.terminator? b).isSome)
      (hlt : ∀ u ∈ (p.block b).operations, u.index < o.index) :
      (q.terminator? b).isSome ∧ ∀ u ∈ (q.block b).operations, u.index < o.index := by
    rw [hg.terminator? hp hb, hg.closed b hb]
    exact ⟨hb, hlt⟩
  intro o b hb
  by_cases ho : o.index < p.operations.length
  case pos =>
    rw [hg.ops o ho] at hb
    obtain ⟨hclosed, hlt⟩ := hf o b hb
    exact hkeep hclosed hlt
  case neg =>
    have hoq : o.index < q.operations.length := by
      by_contra hoq
      simp [op_of_length_le (Nat.le_of_not_lt hoq)] at hb
    obtain ⟨c, new, ha⟩ := h.exists_append hoq ho
    obtain ⟨hnew, hplace, rfl, -⟩ := insert_eq_ok_iff.mp ha
    rw [hplace, op_place_nextOp] at hb
    refine hkeep ((checkNew_eq_ok_iff.mp hnew).right.right b hb) fun u hu => ?_
    exact index_lt_of_not_erased (hp.members b u hu).left

theorem regionsFirst_of_builds (h : Relation.ReflTransGen Builds (empty name) p) : p.RegionsFirst := by
  induction h with
  | refl => exact fun o b hb => by simp [empty, op] at hb
  | tail h hs ih =>
    exact hs.regionsFirst (grows_of_builds h (.empty name)).left.wellFormed ih

-- The way up from an operation to the body leads to later ones.
theorem RegionsFirst.not_entry (hf : p.RegionsFirst) (hp : p.Reachable) (ho : p.isLive o) :
    entry ∉ (p.op o).regions := by
  have hle {height : Nat} {o : OpId} (ho : p.isLiveWithin height o) :
      ∃ w ∈ (p.block entry).operations, o.index ≤ w.index := by
    induction height generalizing o with
    | zero => contradiction
    | succ height ih =>
      simp only [isLiveWithin, Bool.and_eq_true, Bool.not_eq_true', Bool.or_eq_true, decide_eq_true_eq] at ho
      obtain ⟨he, ho⟩ := ho
      have hm := hp.housed o he
      obtain hb | hu := ho
      · exact ⟨o, hb ▸ hm, le_rfl⟩
      · cases hparent : (p.block (p.op o).block).parent with
        | none   => simp [hparent] at hu
        | some u =>
          simp only [hparent] at hu
          obtain ⟨w, hw, hle⟩ := ih hu
          have hlt := (hf u _ ((hp.wellFormed.regions _ u).mpr hparent)).right o hm
          exact ⟨w, hw, Nat.le_of_lt (hlt.trans_le hle)⟩
  intro hentry
  obtain ⟨w, hw, hle⟩ := hle ho
  exact Nat.lt_irrefl _ (((hf o entry hentry).right w hw).trans_le hle)

end Runs

end Program

end MeshSharding
