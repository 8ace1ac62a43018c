import MeshSharding.Proofs.Flow.Edits

namespace MeshSharding

namespace Program

-- Two programs that differ in operands, in kinds of operations with one operand, in shardings, and in
-- what is erased.
structure Frame (p q : Program) : Prop where
  meshes      : q.meshes = p.meshes
  length      : q.operations.length = p.operations.length
  types       : q.typeOf = p.typeOf
  definitions : q.definitionOf = p.definitionOf
  arguments   : ∀ b, (q.block b).arguments = (p.block b).arguments
  parents     : ∀ b, (q.block b).parent = (p.block b).parent
  results     : ∀ o, (q.op o).results = (p.op o).results
  regions     : ∀ o, (q.op o).regions = (p.op o).regions
  home        : ∀ o, (q.op o).block = (p.op o).block
  manual      : ∀ o, (q.op o).kind.isManual = (p.op o).kind.isManual
  generic     : ∀ o, (q.op o).kind.isGeneric = (p.op o).kind.isGeneric

-- The operation is an edge operation on the value.
def marks (p : Program) (owner : ValueId) (o : OpId) : Bool :=
  !(p.op o).erased && (p.op o).kind.isEdge && (p.op o).operands.head? = some owner

variable {p q r : Program} {o u e : OpId} {v w source target : ValueId} {b : BlockId}

section Marks

theorem marks_iff : p.marks v e ↔
    (p.op e).erased = false ∧ (p.op e).kind.isEdge ∧ (p.op e).operands.head? = some v := by
  simp [marks, and_assoc]

theorem marks_eq_getElem (h : e.index < p.operations.length) : p.marks v e =
    (!p.operations[e.index].erased && p.operations[e.index].kind.isEdge &&
      p.operations[e.index].operands.head? = some v) := by
  simp only [marks, op, List.getElem?_eq_getElem h, Option.getD_some]

-- The first edge operation on a value counts.
theorem edgeOfOwner?_eq_some_iff : p.edgeOfOwner? v = some e ↔
    p.marks v e ∧ ∀ u : OpId, u.index < e.index → p.marks v u = false := by
  simp only [edgeOfOwner?, Option.map_eq_some_iff, List.findIdx?_eq_some_iff_getElem]
  constructor
  · rintro ⟨i, ⟨hi, hm, hf⟩, rfl⟩
    refine ⟨(marks_eq_getElem (e := ⟨i⟩) hi).trans hm, fun u hu => ?_⟩
    rw [marks_eq_getElem (Nat.lt_trans hu hi)]
    simpa using hf u.index hu
  · rintro ⟨hm, hf⟩
    have he := index_lt_of_not_erased (marks_iff.mp hm).left
    refine ⟨e.index, ⟨he, (marks_eq_getElem he).symm.trans hm, fun j hj => ?_⟩, rfl⟩
    have hj' := hf ⟨j⟩ hj
    rw [marks_eq_getElem (Nat.lt_trans hj he)] at hj'
    simpa using hj'

theorem edgeOfOwner?_eq_none_iff : p.edgeOfOwner? v = none ↔ ∀ e, p.marks v e = false := by
  simp only [edgeOfOwner?, Option.map_eq_none_iff, List.findIdx?_eq_none_iff]
  constructor
  · intro h e
    by_contra hm
    have he := index_lt_of_not_erased (marks_iff.mp (by simpa using hm)).left
    rw [marks_eq_getElem he, h _ (List.getElem_mem he)] at hm
    contradiction
  · intro h op ho
    obtain ⟨i, hi, rfl⟩ := List.mem_iff_getElem.mp ho
    exact (marks_eq_getElem (e := ⟨i⟩) hi).symm.trans (h ⟨i⟩)

theorem edgeOfOwner?_congr (h : ∀ e, q.marks v e = p.marks v e) : q.edgeOfOwner? v = p.edgeOfOwner? v := by
  ext e
  simp only [edgeOfOwner?_eq_some_iff, h]

theorem WellFormed.marks_iff (hp : p.WellFormed) : p.marks v e ↔
    (p.op e).erased = false ∧ (p.op e).kind.isEdge ∧ p.input e = v := by
  rw [Program.marks_iff]
  refine and_congr_right fun _ => and_congr_right fun hk => ?_
  have hu : (p.op e).kind.isUnary := OpKind.isUnary_of_isEdge hk
  simp [hp.operands_eq hu]

end Marks

namespace Frame

theorem refl (p : Program) : Frame p p :=
  ⟨rfl, rfl, rfl, rfl, fun _ => rfl, fun _ => rfl, fun _ => rfl, fun _ => rfl, fun _ => rfl,
    fun _ => rfl, fun _ => rfl⟩

theorem trans (h : Frame p q) (h' : Frame q r) : Frame p r where
  meshes      := h'.meshes.trans h.meshes
  length      := h'.length.trans h.length
  types       := h'.types.trans h.types
  definitions := h'.definitions.trans h.definitions
  arguments b := (h'.arguments b).trans (h.arguments b)
  parents b   := (h'.parents b).trans (h.parents b)
  results o   := (h'.results o).trans (h.results o)
  regions o   := (h'.regions o).trans (h.regions o)
  home o      := (h'.home o).trans (h.home o)
  manual o    := (h'.manual o).trans (h.manual o)
  generic o   := (h'.generic o).trans (h.generic o)

theorem redirect {moved : List Use} : Frame p (p.redirect source target moved) where
  meshes      := foldl_moveUse (motive := fun q => q.meshes = p.meshes) rfl fun _ _ _ h => h
  length      := length_operations_redirect
  types       := funext fun _ => typeOf_redirect
  definitions := funext fun _ => definitionOf_redirect
  arguments b := by rw [block_redirect]
  parents b   := by rw [block_redirect]
  results _   := results_redirect
  regions _   := regions_redirect
  home _      := block_op_redirect
  manual _    := by rw [kind_redirect]
  generic _   := by rw [kind_redirect]

theorem erase : Frame p (p.erase o) where
  meshes      := meshes_erase
  length      := length_operations_erase
  types       := funext fun _ => typeOf_erase
  definitions := funext fun _ => definitionOf_erase
  arguments b := by
    obtain ⟨_, hb, _⟩ := block_erase (p := p) (o := o) (b := b)
    rw [hb]
  parents b   := by
    obtain ⟨_, hb, _⟩ := block_erase (p := p) (o := o) (b := b)
    rw [hb]
  results _   := by rw [op_erase]
  regions _   := by rw [op_erase]
  home _      := by rw [op_erase]
  manual _    := by rw [op_erase]
  generic _   := by rw [op_erase]

theorem setKind {kind : OpKind} (ho : (p.op o).kind.isUnary) (hk : kind.isUnary) :
    Frame p (p.setKind o kind) := by
  have hu {kind : OpKind} (h : kind.isUnary) : kind.isManual = false ∧ kind.isGeneric = false := by
    cases kind <;> first | exact ⟨rfl, rfl⟩ | contradiction
  refine ⟨rfl, by simp [Program.setKind], rfl, rfl, fun _ => rfl, fun _ => rfl, fun u => ?_,
    fun u => ?_, fun u => ?_, fun u => ?_, fun u => ?_⟩
  all_goals rw [op_setKind]
  all_goals
    dsimp only
    split
    case isFalse => rfl
    case isTrue h => simp [h.left, hu ho, hu hk]

theorem storeSharding (s : Option Sharding) : Frame p (p.storeSharding v s) where
  meshes      := rfl
  length      := rfl
  types       := by
    funext w
    simp only [typeOf, Program.storeSharding, value_modifyValue]
    split <;> rfl
  definitions := by
    funext w
    simp only [definitionOf, Program.storeSharding, value_modifyValue]
    split <;> rfl
  arguments _ := rfl
  parents _   := rfl
  results _   := rfl
  regions _   := rfl
  home _      := rfl
  manual _    := rfl
  generic _   := rfl

-- Shardings are no part of it.
theorem of_bare_eq (h : q.bare = p.bare) : Frame p q where
  meshes      := read_of_bare_eq (·.meshes) bare_meshes h
  length      := read_of_bare_eq (·.operations.length) bare_length_operations h
  types       := read_of_bare_eq typeOf (fun r => funext r.bare_typeOf) h
  definitions := read_of_bare_eq definitionOf (fun r => funext r.bare_definitionOf) h
  arguments b := read_of_bare_eq (fun r => (r.block b).arguments) (by simp) h
  parents b   := read_of_bare_eq (fun r => (r.block b).parent) (by simp) h
  results o   := read_of_bare_eq (fun r => (r.op o).results) (by simp) h
  regions o   := read_of_bare_eq (fun r => (r.op o).regions) (by simp) h
  home o      := read_of_bare_eq (fun r => (r.op o).block) (by simp) h
  manual o    := read_of_bare_eq (fun r => (r.op o).kind.isManual) (by simp) h
  generic o   := read_of_bare_eq (fun r => (r.op o).kind.isGeneric) (by simp) h

section Reads

variable (h : Frame p q)
include h

theorem definer? : q.definer? = p.definer? := by
  funext v
  rw [Program.definer?, h.definitions, Program.definer?]

theorem output (o : OpId) : q.output o = p.output o := by
  rw [Program.output, h.results, Program.output]

theorem structural (o : OpId) : (q.op o).isStructural = (p.op o).isStructural := by
  rw [Operation.isStructural, h.generic, h.regions, Operation.isStructural]

theorem enclosingManual? : q.enclosingManual? = p.enclosingManual? := by
  have hm (height : Nat) (b : BlockId) :
      q.enclosingManualWithin height b = p.enclosingManualWithin height b := by
    induction height generalizing b with
    | zero           => rfl
    | succ height ih => simp only [enclosingManualWithin, h.parents, h.manual, h.home, ih]
  funext b
  rw [Program.enclosingManual?, h.length, hm, Program.enclosingManual?]

-- Nothing comes to life.
theorem isLive (he : ∀ o, (p.op o).erased → (q.op o).erased) (ho : q.isLive o) : p.isLive o := by
  have hl {height : Nat} {o : OpId} (ho : q.isLiveWithin height o) : p.isLiveWithin height o := by
    induction height generalizing o with
    | zero => contradiction
    | succ height ih =>
      simp only [isLiveWithin, h.parents, h.home, Bool.and_eq_true, Bool.not_eq_true',
        Bool.or_eq_true] at ho ⊢
      refine ⟨?_, ho.right.imp_right fun hp => ?_⟩
      · by_contra hc
        simp [he o (by simpa using hc)] at ho
      · cases hb : (p.block (p.op o).block).parent with
        | none        => simp [hb] at hp
        | some parent =>
          simp only [hb] at hp
          exact ih hp
  rw [Program.isLive, h.length] at ho
  exact hl ho

theorem structuralResult? (he : ∀ o, (p.op o).isStructural → (q.op o).erased = (p.op o).erased) :
    q.structuralResult? = p.structuralResult? := by
  funext o index
  simp only [Program.structuralResult?, h.structural, h.results]
  cases ho : (p.op o).isStructural with
  | false => rfl
  | true  => rw [he o ho]

-- Whether a value is a target of an edge operation depends on these and on the structural operations.
theorem edgeForTarget? (hm : ∀ v e, q.marks v e = p.marks v e)
    (he : ∀ o, (p.op o).isStructural → (q.op o).erased = (p.op o).erased) :
    q.edgeForTarget? = p.edgeForTarget? := by
  funext v
  simp only [Program.edgeForTarget?, edgeOfOwner?_congr (hm _), h.definitions, h.parents, h.arguments,
    h.results, h.structuralResult? he]

-- The sharding of a value depends on kinds and stored shardings besides.
theorem sharding (ht : q.edgeForTarget? v = p.edgeForTarget? v) (hk : ∀ o, (q.op o).kind = (p.op o).kind)
    (hs : q.storedSharding v = p.storedSharding v) : q.sharding v = p.sharding v := by
  simp only [Program.sharding, ht, h.definitions, shardingOfResult, shardingOfArgument, parentKind?,
    h.parents, hk, hs]

end Reads

end Frame

section Owned

-- No edge operation stands on anything but a result of a structural operation. Verification asks this of
-- the operations of the program only.
def EdgesOwned (p : Program) : Prop :=
  ∀ e, (p.op e).erased = false → (p.op e).kind.isEdge → p.checkEdgeOwner (p.input e) = .ok ()

theorem checkEdgeOwner_eq_ok_iff : p.checkEdgeOwner v = .ok () ↔
    ∃ o, p.definer? v = some o ∧ (p.op o).isStructural := by
  simp only [checkEdgeOwner]
  cases p.definer? v <;> simp [require_eq_ok_iff]

theorem Frame.checkEdgeOwner (h : Frame p q) (hv : p.checkEdgeOwner v = .ok ()) :
    q.checkEdgeOwner v = .ok () := by
  rw [checkEdgeOwner_eq_ok_iff] at hv ⊢
  simpa only [h.definer?, h.structural] using hv

theorem EdgesOwned.of_marks (h : p.EdgesOwned) (hp : p.WellFormed) (hq : q.WellFormed) (hf : Frame p q)
    (hm : ∀ v e, q.marks v e → p.marks v e) : q.EdgesOwned := by
  intro e he hk
  obtain ⟨he, hk, hi⟩ := hp.marks_iff.mp (hm _ e (hq.marks_iff.mpr ⟨he, hk, rfl⟩))
  exact hf.checkEdgeOwner (hi ▸ h e he hk)

-- What is handed on is no result of a structural operation.
theorem WellFormed.not_checkEdgeOwner (hp : p.WellFormed) (ho : (p.op o).kind.isTransparent) :
    p.checkEdgeOwner (p.output o) ≠ .ok () := by
  intro h
  obtain ⟨u, hu, hs⟩ := checkEdgeOwner_eq_ok_iff.mp h
  have hr : p.output o ∈ (p.op o).results := by
    simp [hp.results_eq (OpKind.isUnary_of_isTransparent ho)]
  cases (hp.definer?_of_result hr).symm.trans hu
  cases hk : (p.op o).kind <;> simp [hk, Operation.isStructural, OpKind.isGeneric, OpKind.isTransparent] at hs ho

theorem EdgesOwned.not_marks (h : p.EdgesOwned) (hp : p.WellFormed) (ho : (p.op o).kind.isTransparent)
    (e : OpId) : p.marks (p.output o) e = false := by
  by_contra hm
  obtain ⟨he, hk, hi⟩ := hp.marks_iff.mp (by simpa using hm)
  exact hp.not_checkEdgeOwner ho (hi ▸ h e he hk)

end Owned

end Program

end MeshSharding
