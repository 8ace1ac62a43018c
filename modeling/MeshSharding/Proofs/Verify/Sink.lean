import MeshSharding.Proofs.Edit.Passes
import MeshSharding.Proofs.Flow.Attach
import MeshSharding.Proofs.Verify.Regular

namespace MeshSharding

namespace Program

-- The owner of the edge of a value, which is a result of a structural operation or an argument of a region of it.
def ownerOf? (p : Program) (v : ValueId) : Option ValueId :=
  match p.definitionOf v with
  | .result o index   => p.structuralResult? o index
  | .argument b index => do
    let parent ← (p.block b).parent
    guard ((p.block b).arguments.length = (p.op parent).results.length)
    p.structuralResult? parent index

variable {p q r : Program} {o u e : OpId} {v w : ValueId} {vs : List ValueId} {s : Sharding} {index : Nat}
  {given : ValueId → Sharding}

section Owners

-- The owner of an edge operation is a result of a structural operation of the program.
theorem Valid.exists_owner (hp : p.Valid) (he : e ∈ p.walk) (hk : (p.op e).kind.isEdge) :
    ∃ u index, p.definitionOf (p.input e) = .result u index ∧ (p.op u).isStructural ∧
      (p.op u).erased = false ∧ (p.op u).results[index]? = some (p.input e) := by
  have hwf := hp.sound.wellFormed
  have hlt := hwf.input_lt (OpKind.isUnary_of_isEdge hk)
  have hs := hp.sound.scope e he (p.input e) (by simp [hwf.operands_eq (OpKind.isUnary_of_isEdge hk)])
  obtain ⟨u, hu, hstructural⟩ := checkEdgeOwner_eq_ok_iff.mp (hp.checkEdgeOwner he hk)
  have hw := hwf.definer_mem_walk hs he (hwf.result_of_definer? hlt hu)
  cases hd : p.definitionOf (p.input e) with
  | argument b index => simp [definer?, hd] at hu
  | result u' index =>
    simp only [definer?, hd, Option.some.injEq] at hu
    subst hu
    exact ⟨u', index, rfl, hstructural, hwf.not_erased hw, (hwf.results _ u' index).mpr ⟨hlt, hd⟩⟩

theorem WellFormed.mem_targets_iff {transform : TargetTransform} (hp : p.WellFormed)
    (hd : p.definitionOf w = .result u index) : v ∈ (FlowView.structural u transform).targets p w ↔
      ∃ b, (p.block b).arguments[index]? = some v ∧ (p.block b).parent = some u ∧
        (p.block b).arguments.length = (p.op u).results.length := by
  simp only [FlowView.targets, hd, List.mem_filterMap, Option.ite_none_right_eq_some, hp.regions]
  grind

theorem exists_generic_of_structuralResult? (h : p.structuralResult? o index = some w) :
    ∃ data, (p.op o).kind = .generic data := by
  simp only [structuralResult?, Option.ite_none_right_eq_some, Bool.and_eq_true] at h
  exact exists_generic h.left.left

theorem ownerOf?_of_result (hd : p.definitionOf v = .result o index) : p.ownerOf? v = p.structuralResult? o index := by
  simp [ownerOf?, hd]

theorem exists_parent_of_ownerOf? {b : BlockId} (hd : p.definitionOf v = .argument b index)
    (h : p.ownerOf? v = some w) : ∃ parent, (p.block b).parent = some parent ∧
      (p.block b).arguments.length = (p.op parent).results.length ∧ p.structuralResult? parent index = some w := by
  simp only [ownerOf?, hd, Option.bind_eq_bind, Option.bind_eq_some_iff] at h
  obtain ⟨parent, hparent, _, hl, h⟩ := h
  refine ⟨parent, hparent, ?_, h⟩
  by_contra hc
  simp [guard, hc] at hl

-- An edge operation counts for its owner and for all values that this is the owner of.
theorem WellFormed.edgeForTarget?_eq (hp : p.WellFormed) (hv : v.index < p.values.length) :
    p.edgeForTarget? v = (p.edgeOfOwner? v).or ((p.ownerOf? v).bind p.edgeOfOwner?) := by
  simp only [edgeForTarget?]
  cases he : p.edgeOfOwner? v with
  | some e => rfl
  | none =>
    cases hd : p.definitionOf v with
    | argument b i => simp [ownerOf?, hd, Option.bind_assoc]
    | result o i   =>
      have hr := (hp.results v o i).mpr ⟨hv, hd⟩
      simp only [ownerOf?, hd, structuralResult?, hr]
      split <;> simp [he]

theorem Frame.ownerOf? (h : Frame p q) (he : ∀ o, (p.op o).isStructural → (q.op o).erased = (p.op o).erased) :
    q.ownerOf? = p.ownerOf? := by
  funext v
  simp only [Program.ownerOf?, h.definitions, h.parents, h.arguments, h.results, h.structuralResult? he]

theorem WellFormed.mem_flow_iff {transform : TargetTransform} (hp : p.WellFormed) (hv : v.index < p.values.length)
    (hd : p.definitionOf w = .result u index) (hr : p.structuralResult? u index = some w) :
    v ∈ w :: (FlowView.structural u transform).targets p w ↔ p.ownerOf? v = some w := by
  rw [List.mem_cons, hp.mem_targets_iff hd]
  constructor
  · rintro (rfl | ⟨b, hb, hparent, hl⟩)
    · simpa [ownerOf?, hd] using hr
    · have hdv := ((hp.arguments v b index).mp hb).right
      simpa [ownerOf?, hdv, hparent, hl] using hr
  · intro h
    have hresult {o : OpId} {i : Nat} (hs : p.structuralResult? o i = some w) : (p.op o).results[i]? = some w := by
      simp only [structuralResult?, Option.ite_none_right_eq_some] at hs
      exact hs.right
    cases hdv : p.definitionOf v with
    | result o i =>
      rw [ownerOf?_of_result hdv] at h
      exact .inl (Option.some.inj (((hp.results v o i).mpr ⟨hv, hdv⟩).symm.trans (hresult h)))
    | argument b i =>
      obtain ⟨parent, hparent, hlen, h⟩ := exists_parent_of_ownerOf? hdv h
      cases hd.symm.trans ((hp.results w parent i).mp (hresult h)).right
      exact .inr ⟨b, (hp.arguments v b index).mpr ⟨hv, hdv⟩, hparent, hlen⟩

theorem Valid.ownerOf?_input (hp : p.Valid) (he : e ∈ p.walk) (hk : (p.op e).kind.isEdge) :
    p.ownerOf? (p.input e) = some (p.input e) := by
  obtain ⟨u, index, hd, hs, hu, hr⟩ := hp.exists_owner he hk
  simp [ownerOf?, hd, structuralResult?, hs, hu, hr]

-- An edge operation of the program counts for nothing else.
theorem Valid.ownerOf?_of_edgeForTarget? (hp : p.Valid) (he : e ∈ p.walk) (hv : v.index < p.values.length)
    (h : p.edgeForTarget? v = some e) : p.ownerOf? v = some (p.input e) := by
  have hwf := hp.sound.wellFormed
  rw [hwf.edgeForTarget?_eq hv] at h
  cases ho : p.edgeOfOwner? v with
  | some u =>
    obtain rfl : u = e := by simpa [ho] using h
    obtain ⟨-, hk, rfl⟩ := hwf.marks_iff.mp (Program.edgeOfOwner?_eq_some_iff.mp ho).left
    exact hp.ownerOf?_input he hk
  | none =>
    simp only [ho, Option.none_or, Option.bind_eq_some_iff] at h
    obtain ⟨w, hw, h⟩ := h
    obtain ⟨-, -, rfl⟩ := hwf.marks_iff.mp (Program.edgeOfOwner?_eq_some_iff.mp h).left
    exact hw

end Owners

section Edges

-- All edge operations are part of the program.
def EdgesAttached (p : Program) : Prop :=
  ∀ e, (p.op e).erased = false → (p.op e).kind.isEdge → e ∈ p.walk

theorem EdgesAttached.owned (h : p.EdgesAttached) (hp : p.Valid) : p.EdgesOwned :=
  fun e he hk => hp.checkEdgeOwner (h e he hk) hk

variable (hp : p.Regular) (ha : p.EdgesAttached)
include hp ha

-- There is one edge operation on a value at most.
theorem Regular.marks_unique (he : p.marks v e) (hu : p.marks v u) : u = e := by
  have hwf := hp.wellFormed
  obtain ⟨he, hk, hi⟩ := hwf.marks_iff.mp he
  obtain ⟨hu, hk', hi'⟩ := hwf.marks_iff.mp hu
  have hl := hwf.isLive_of_mem_walk hp.valid.sound.rooted (ha u hu hk')
  have huse := hp.alone e (ha e he hk) hk ⟨u, 0⟩ hl (by
    simp [hwf.operands_eq (OpKind.isUnary_of_isEdge hk'), hi, hi'])
  simpa using huse

theorem Regular.edgeOfOwner?_eq_some_iff : p.edgeOfOwner? v = some e ↔ p.marks v e := by
  rw [Program.edgeOfOwner?_eq_some_iff]
  refine ⟨And.left, fun h => ⟨h, fun u hu => ?_⟩⟩
  by_contra hc
  have := hp.marks_unique ha h (by simpa using hc)
  simp [this] at hu

-- No edge operation stands on an argument.
theorem Regular.edgeOfOwner?_argument {b : BlockId} {index : Nat}
    (hd : p.definitionOf v = .argument b index) : p.edgeOfOwner? v = none := by
  refine edgeOfOwner?_eq_none_iff.mpr fun e => ?_
  by_contra hc
  obtain ⟨he, hk, rfl⟩ := hp.wellFormed.marks_iff.mp (by simpa using hc)
  obtain ⟨_, _, hr, _⟩ := hp.valid.exists_owner (ha e he hk) hk
  cases hd.symm.trans hr

-- The targets of an edge are the values for which its edge operation counts.
theorem Regular.edgeForTarget?_eq_some_iff {index : Nat} (transform : TargetTransform)
    (he : e ∈ p.walk) (hk : (p.op e).kind.isEdge) (hd : p.definitionOf (p.input e) = .result u index)
    (hs : (p.op u).isStructural) (hu : (p.op u).erased = false) (hv : v.index < p.values.length) :
    p.edgeForTarget? v = some e ↔
      v ∈ p.input e :: (FlowView.structural u transform).targets p (p.input e) := by
  have hwf := hp.wellFormed
  have hr := (hwf.results _ u index).mpr ⟨hwf.input_lt (OpKind.isUnary_of_isEdge hk), hd⟩
  have hm {w : ValueId} : p.edgeOfOwner? w = some e ↔ p.input e = w := by
    rw [hp.edgeOfOwner?_eq_some_iff ha, hwf.marks_iff]
    simp [hwf.not_erased he, hk]
  rw [hwf.mem_flow_iff hv hd (by simp [structuralResult?, hs, hu, hr])]
  refine ⟨hp.valid.ownerOf?_of_edgeForTarget? he hv, fun hw => ?_⟩
  rw [hwf.edgeForTarget?_eq hv, hw, Option.bind_some, hm.mpr rfl]
  cases ho : p.edgeOfOwner? v with
  | none    => rfl
  | some e' =>
    -- Then the value is a result, which is the owner of its own edge.
    obtain ⟨he', hk', rfl⟩ := hwf.marks_iff.mp ((hp.edgeOfOwner?_eq_some_iff ha).mp ho)
    rw [hp.valid.ownerOf?_input (ha e' he' hk') hk', Option.some.injEq] at hw
    rw [← ho, hw, hm.mpr rfl, Option.some_or]

-- Without an edge operation, its values have no edge operation at all.
theorem Regular.edgeForTarget?_bypass (h : Bypasses p q e) (ht : (p.op e).kind.isTransparent)
    (v : ValueId) : q.edgeForTarget? v = (p.edgeForTarget? v).filter (· ≠ e) := by
  have howner (w : ValueId) : q.edgeOfOwner? w = (p.edgeOfOwner? w).filter (· ≠ e) := by
    ext u
    simp only [Program.edgeOfOwner?_eq_some_iff (p := q), h.marks, Option.filter_eq_some_iff,
      hp.edgeOfOwner?_eq_some_iff ha, Bool.and_eq_true, Bool.and_eq_false_imp]
    refine ⟨And.left, fun hu => ⟨hu, fun u' hlt hm => ?_⟩⟩
    simp [hp.marks_unique ha hm hu.left] at hlt
  simp only [edgeForTarget?, howner, h.frame.definitions, h.frame.parents, h.frame.arguments,
    h.frame.results, h.frame.structuralResult? fun u => h.structural ht]
  cases ho : p.edgeOfOwner? v with
  | some e' =>
    by_cases he : e' = e
    case pos =>
      cases hd : p.definitionOf v with
      | result _ _   => simp [he, Option.filter_some]
      | argument b i => simp [hp.edgeOfOwner?_argument ha hd] at ho
    case neg => simp [he, Option.filter_some]
  | none =>
    cases p.definitionOf v with
    | result _ _   => rfl
    | argument b i =>
      ext u
      simp only [Option.bind_eq_bind, Option.filter_none, Option.filter_eq_some_iff,
        Option.bind_eq_some_iff]
      grind

-- The values of an edge fall back on the shardings that are kept with them.
theorem Regular.sharding_bypass_edge (he : e ∈ p.walk) (hk : (p.op e).kind.isEdge)
    (hv : v.index < p.values.length) : (p.bypass e).sharding v =
      if p.edgeForTarget? v = some e then p.storedSharding v else p.sharding v := by
  have ht := OpKind.isTransparent_of_isEdge hk
  have h := hp.bypasses he ht
  have htarget := hp.edgeForTarget?_bypass ha h ht v
  split
  case isTrue hedge =>
    obtain ⟨u, index, hd, hs, hu, hr⟩ := hp.valid.exists_owner he hk
    obtain ⟨data, hgeneric⟩ := exists_generic hs
    simp only [hedge, Option.filter_some, ne_eq, not_true_eq_false, decide_false, Bool.false_eq_true,
      if_false] at htarget
    obtain hm | hm := List.mem_cons.mp <|
      (hp.edgeForTarget?_eq_some_iff ha .identity he hk hd hs hu hv).mp hedge
    · subst hm
      simp only [Program.sharding, htarget, Option.map_none, h.frame.definitions, hd, shardingOfResult,
        h.kind, hgeneric, h.stored]
    · obtain ⟨b, hb, hparent, _⟩ := (hp.wellFormed.mem_targets_iff hd).mp hm
      have hdv := ((hp.wellFormed.arguments v b index).mp hb).right
      simp only [Program.sharding, htarget, Option.map_none, h.frame.definitions, hdv, shardingOfArgument,
        parentKind?, h.frame.parents, hparent, Option.map_some, h.kind, hgeneric, h.stored]
  case isFalse hedge =>
    refine h.frame.sharding (htarget.trans ?_) h.kind (h.stored v)
    cases ho : p.edgeForTarget? v with
    | none   => rfl
    | some u =>
      have hne : u ≠ e := fun hne => hedge (hne ▸ ho)
      simp [hne, Option.filter_some]

end Edges

section Steps

-- A step of finishing: an operation is taken out, or becomes an explicit change of sharding. What is left
-- has operands and results on the same meshes and with the same splits as before.
structure Finishes (p q : Program) (o : OpId) : Prop where
  regular : q.Regular
  nested  : q.nested = p.nested
  walk    : ∀ u, u ∈ q.walk → u ∈ p.walk
  held    : ∀ u ∈ p.walk, u ≠ o → u ∈ q.walk
  kind    : ∀ u, u ≠ o → (q.op u).kind = (p.op u).kind
  done    : o ∈ q.walk → ∃ s, (q.op o).kind = .reshard s
  input   : ∀ u ∈ q.walk, (p.op u).kind.isUnary →
    (q.sharding (q.input u)).map Sharding.layout = (p.sharding (p.input u)).map Sharding.layout
  output  : ∀ u ∈ q.walk, (p.op u).kind.isUnary →
    (q.sharding (q.output u)).map Sharding.layout = (p.sharding (p.output u)).map Sharding.layout

theorem Regular.bypass_finishes (hp : p.Regular) (ho : o ∈ p.walk) (ht : (p.op o).kind.isTransparent)
    (hs : (∀ u ∈ p.walk, p.output o ∉ (p.op u).operands) ∨
      (p.sharding (p.output o)).map Sharding.layout = (p.sharding (p.input o)).map Sharding.layout)
    (hl : ∀ v, v.index < p.values.length →
      ((p.bypass o).sharding v).map Sharding.layout = (p.sharding v).map Sharding.layout) :
    Finishes p (p.bypass o) o := by
  have hwf := hp.wellFormed
  have h := hp.bypasses ho ht
  refine ⟨hp.bypass ho ht (fun u hu hi collective hk hc => ?_) hl, h.nested,
    fun u hu => ((h.walk u).mp hu).left, fun u hu hne => (h.walk u).mpr ⟨hu, hne⟩, fun u _ => h.kind u,
    fun ho => absurd rfl ((h.walk o).mp ho).right, fun u hu hk => ?_, fun u hu hk => ?_⟩
  · obtain hs | hs := hs
    · have hv : p.output o ∈ (p.op u).operands := by
        simp [hwf.operands_eq (o := u) (by simp [hk, OpKind.isUnary]), hi]
      exact absurd hv (hs u hu)
    · refine hc.of_layout_eq (.refl p) ?_ hs.symm
      exact (hp.valid.checks o ho).typeOf_eq (OpKind.isUnary_of_isTransparent ht)
  · obtain ⟨hm, hi, hi'⟩ | hi := h.input u
    · obtain hs | hs := hs
      · exact absurd hm (hs u ((h.walk u).mp hu).left)
      · rw [hi', hi, hl _ (hwf.input_lt (OpKind.isUnary_of_isTransparent ht)), hs]
    · rw [hi, hl _ (hwf.input_lt hk)]
  · rw [h.frame.output, hl _ (hwf.output_lt hk)]

end Steps

section Storing

-- Values of an edge have been given the shardings that they get of it, and the edge operation is still there.
structure HandsOver (p q : Program) (vs : List ValueId) (given : ValueId → Sharding) : Prop where
  regular  : q.Regular
  bare     : q.bare = p.bare
  frame    : Frame p q
  op       : q.op = p.op
  targets  : q.edgeForTarget? = p.edgeForTarget?
  sharding : q.sharding = p.sharding
  stored   : ∀ v ∈ vs, v.index < p.values.length → q.storedSharding v = some (given v)
  other    : ∀ v, v ∉ vs → q.storedSharding v = p.storedSharding v

theorem HandsOver.refl (hp : p.Regular) : HandsOver p p [] given :=
  ⟨hp, rfl, .refl p, rfl, rfl, rfl, by simp, fun _ _ => rfl⟩

theorem HandsOver.length (h : HandsOver p q vs given) : q.values.length = p.values.length :=
  read_of_bare_eq (fun r => r.values.length) bare_length_values h.bare

theorem HandsOver.walk (h : HandsOver p q vs given) : q.walk = p.walk :=
  read_of_bare_eq Program.walk bare_walk h.bare

theorem HandsOver.input (h : HandsOver p q vs given) (u : OpId) :
    q.input u = p.input u := by
  rw [Program.input, h.op, Program.input]

theorem HandsOver.storeSharding (h : HandsOver p q vs given)
    (hv : (p.edgeForTarget? v).isSome) (hf : p.checkFits (given v) v = .ok ()) :
    HandsOver p (q.storeSharding v (some (given v))) (vs ++ [v]) given where
  regular  := h.regular.storeSharding (h.targets ▸ hv) <| by
    rwa [checkFits_congr h.frame.meshes (congrFun h.frame.types v)]
  bare     := (bare_storeSharding _).trans h.bare
  frame    := h.frame.trans (.storeSharding _)
  op       := h.op
  targets  := h.targets ▸ (Frame.storeSharding _).edgeForTarget? (fun _ _ => rfl) fun _ _ => rfl
  sharding := by
    funext w
    rw [sharding_storeSharding (h.targets ▸ hv), h.sharding]
  stored w hm hw := by
    rw [storedSharding_storeSharding]
    by_cases hwv : w = v
    case pos => simp [h.length, ← hwv, hw]
    case neg =>
      have hm : w ∈ vs := by simpa [hwv] using hm
      simp [hwv, h.stored w hm hw]
  other w hm   := by
    have hm : w ∉ vs ∧ w ≠ v := by simpa using hm
    simp [storedSharding_storeSharding, hm.right, h.other w hm.left]

theorem Regular.handsOver (hp : p.Regular)
    (hv : ∀ v ∈ vs, (p.edgeForTarget? v).isSome) (hf : ∀ v ∈ vs, p.checkFits (given v) v = .ok ()) :
    HandsOver p (vs.foldl (fun (q : Program) v => q.storeSharding v (some (given v))) p) vs given := by
  induction vs using List.reverseRecOn with
  | nil => exact .refl hp
  | append_singleton vs v ih =>
    rw [List.foldl_concat]
    have h := ih (fun w hw => hv w (by simp [hw])) fun w hw => hf w (by simp [hw])
    exact h.storeSharding (hv v (by simp)) (hf v (by simp))

end Storing

section Sink

-- What a target of an edge gets of the sharding of the edge: what the transform of the operation makes of it.
def carried (p : Program) (v : ValueId) (sharding : Sharding) : Sharding :=
  match (p.ownerOf? v).bind p.definer? with
  | some o => (p.transformOf (p.op o).mnemonic).apply p.meshes (p.typeOf v) sharding
  | none   => sharding

-- A target of an edge can do without the edge operation: what it gets of the sharding that this states fits it, and is
-- on the same mesh with the same splits. If the operation states nothing, nothing is kept with the target.
def takesOver (p : Program) (v : ValueId) (e : OpId) : Bool :=
  match (p.op e).kind with
  | .edge (some sharding) =>
    (p.carried v sharding).layout = sharding.layout && (p.checkFits (p.carried v sharding) v).isOk
  | _ => (p.storedSharding v).isNone

structure Sinkable (p : Program) : Prop where
  attached : p.EdgesAttached
  targets  : ∀ v, v.index < p.values.length → ∀ e, p.edgeForTarget? v = some e → p.takesOver v e

theorem Frame.carried (hf : Frame p q) (hk : ∀ o, (q.op o).kind = (p.op o).kind)
    (he : ∀ o, (p.op o).isStructural → (q.op o).erased = (p.op o).erased) (hh : q.header = p.header) :
    q.carried = p.carried := by
  funext v s
  simp only [Program.carried, hf.ownerOf? he, hf.definer?, transformOf_of_header_eq hh, Operation.mnemonic, hk,
    hf.meshes, hf.types]

-- An edge operation is bypassed once all values of its edge have taken over its sharding.
theorem Regular.sinkEdge_eq (hp : p.Regular) (hs : p.Sinkable) (he : e ∈ p.walk)
    (hk : (p.op e).kind.isEdge) : ∃ q vs given, p.sinkEdge e = q.bypass e ∧ HandsOver p q vs given ∧
      (∀ v ∈ vs, p.edgeForTarget? v = some e) ∧
      ∀ v, v.index < p.values.length → p.edgeForTarget? v = some e →
        (q.storedSharding v).map Sharding.layout = (p.sharding v).map Sharding.layout := by
  have hwf := hp.wellFormed
  obtain ⟨sharding, hkind⟩ := OpKind.exists_edge hk
  cases sharding with
  | none =>
    refine ⟨p, [], fun _ => default, by simp [sinkEdge, hkind, Program.bypass], .refl hp, by simp, fun v _ h => ?_⟩
    have hnone : p.storedSharding v = none := by
      simpa [takesOver, hkind] using hs.targets v ‹_› e h
    simp [hnone, Program.sharding, h, hkind]
  | some s =>
    obtain ⟨u, index, hd, hstructural, hu, hr⟩ := hp.valid.exists_owner he hk
    let view := FlowView.structural u (p.transformOf (p.op u).mnemonic)
    have hview : (p.definer? (p.input e)).bind p.flowView? = some view := by
      simp [definer?, hd, flowView?_of_structural hstructural hu, view]
    have hmem (v : ValueId) (hv : v.index < p.values.length) :
        p.edgeForTarget? v = some e ↔ v ∈ p.input e :: view.targets p (p.input e) :=
      hp.edgeForTarget?_eq_some_iff hs.attached _ he hk hd hstructural hu hv
    have hlt : ∀ v ∈ p.input e :: view.targets p (p.input e), v.index < p.values.length := by
      intro v hv
      obtain rfl | hv := List.mem_cons.mp hv
      · exact hwf.input_lt (OpKind.isUnary_of_isEdge hk)
      · obtain ⟨b, hb, _⟩ := (hwf.mem_targets_iff hd).mp hv
        exact ((hwf.arguments v b index).mp hb).left
    have htarget v hv := (hmem v (hlt v hv)).mpr hv
    have htakes {v : ValueId} (hv : v.index < p.values.length) (hedge : p.edgeForTarget? v = some e) :
        (view.targetSharding p v s).layout = s.layout ∧ p.checkFits (view.targetSharding p v s) v = .ok () := by
      have howner := hp.valid.ownerOf?_of_edgeForTarget? he hv hedge
      have hcarried : p.carried v s = view.targetSharding p v s := by
        simp [carried, howner, definer?, hd, FlowView.targetSharding, view]
      simpa [takesOver, hkind, isOk_iff, hcarried] using hs.targets v hv e hedge
    have h : HandsOver p _ _ fun v => view.targetSharding p v s :=
      hp.handsOver (fun v hv => by rw [htarget v hv]; rfl) fun v hv => (htakes (hlt v hv) (htarget v hv)).right
    refine ⟨_, _, _, sinkEdge_eq_bypass hkind hview, h, htarget, fun v hv hedge => ?_⟩
    rw [h.stored v ((hmem v hv).mp hedge) hv]
    simp [Program.sharding, hedge, hkind, (htakes hv hedge).left]

-- The edge operation states the sharding of its operand.
theorem Regular.sharding_input_edge (hp : p.Regular) (ha : p.EdgesAttached) (he : e ∈ p.walk)
    (hk : (p.op e).kind.isEdge) : p.sharding (p.input e) = p.sharding (p.output e) := by
  have hwf := hp.wellFormed
  have ho : p.edgeOfOwner? (p.input e) = some e :=
    (hp.edgeOfOwner?_eq_some_iff ha).mpr (hwf.marks_iff.mpr ⟨hwf.not_erased he, hk, rfl⟩)
  rw [hp.sharding_output (OpKind.isTransparent_of_isEdge hk)]
  obtain ⟨_, hkind⟩ := OpKind.exists_edge hk
  simp [Program.sharding, edgeForTarget?, ho, shardingOfResult, hkind]

theorem HandsOver.finishes (h : HandsOver p q vs given) (hp : p.WellFormed)
    (hf : Finishes q r o) : Finishes p r o where
  regular := hf.regular
  nested  := hf.nested.trans (hp.relinks_of_bare_eq h.bare).rewrites.nested
  walk    := h.walk ▸ hf.walk
  held    := h.walk ▸ hf.held
  kind    := h.op ▸ hf.kind
  done    := hf.done
  input   := by simpa only [h.sharding, h.op, h.input] using hf.input
  output  := by simpa only [h.sharding, h.op, output] using hf.output

theorem HandsOver.attached (h : HandsOver p q vs given) (ha : p.EdgesAttached) : q.EdgesAttached := by
  intro u
  rw [h.op, h.walk]
  exact ha u

-- The other edges have other targets, so these are still to take over what they did before.
theorem HandsOver.sinkable (h : HandsOver p q vs given) (hs : p.Sinkable)
    (hvs : ∀ v ∈ vs, p.edgeForTarget? v = some e) (hb : Bypasses q r e)
    (ht : (q.op e).kind.isTransparent) (hh : r.header = q.header) : r.Sinkable := by
  have ha := h.attached hs.attached
  have hcarried : r.carried = p.carried := by
    rw [hb.frame.carried hb.kind (fun _ => hb.structural ht) hh, h.frame.carried (by simp [h.op]) (by simp [h.op])]
    exact read_of_bare_eq (·.header) (fun _ => rfl) h.bare
  refine ⟨fun u hu hk => ?_, fun v hv u hedge => ?_⟩
  · rw [hb.erased, Bool.or_eq_false_iff, decide_eq_false_iff_not] at hu
    exact (hb.walk u).mpr ⟨ha u hu.left (hb.kind u ▸ hk), hu.right⟩
  · rw [h.regular.edgeForTarget?_bypass ha hb ht, h.targets, Option.filter_eq_some_iff] at hedge
    have hn : v ∉ vs := fun hm => by
      cases hedge.left.symm.trans (hvs v hm)
      simp at hedge
    have hf := h.frame.trans hb.frame
    have htakes := hs.targets v (by rwa [hb.length, h.length] at hv) u hedge.left
    simp only [takesOver, hb.kind, h.op, hb.stored, h.other v hn, hcarried] at htakes ⊢
    simpa only [checkFits_congr hf.meshes (congrFun hf.types v)] using htakes

-- An edge operation goes, and the others can go as before.
theorem Regular.sinkEdge (hp : p.Regular) (hs : p.Sinkable) (he : e ∈ p.walk)
    (hk : (p.op e).kind.isEdge) : Finishes p (p.sinkEdge e) e ∧ (p.sinkEdge e).Sinkable := by
  obtain ⟨q, vs, given, heq, h, hvs, hstored⟩ := hp.sinkEdge_eq hs he hk
  have ha := h.attached hs.attached
  have he' : e ∈ q.walk := h.walk ▸ he
  have hk' : (q.op e).kind.isEdge := h.op ▸ hk
  have ht := OpKind.isTransparent_of_isEdge hk'
  rw [heq]
  refine ⟨h.finishes hp.wellFormed (h.regular.bypass_finishes he' ht (.inr ?_) ?_),
    h.sinkable hs hvs (h.regular.bypasses he' ht) ht ((keptByEdits_header q.header).bypass rfl e)⟩
  · rw [h.regular.sharding_input_edge ha he' hk']
  · intro v hv
    rw [h.regular.sharding_bypass_edge ha he' hk' hv, h.targets, h.sharding]
    split
    case isTrue hedge => exact hstored v (h.length ▸ hv) hedge
    case isFalse      => rfl

end Sink

end Program

end MeshSharding
