import MeshSharding.Proofs.Growth
import MeshSharding.Proofs.Verify.Frame
import MeshSharding.Proofs.Verify.Move
import MeshSharding.Proofs.Verify.Retyped

namespace MeshSharding.Program

variable {p q r : Program} {o e : OpId} {v : ValueId} {b : BlockId} {s : Sharding}
  {collective : Collective}

section Meshes

-- The program with other meshes declared.
def onMeshes (p : Program) (meshes : MeshTable) : Program :=
  { p with meshes }

variable {meshes : MeshTable}

theorem types_onMeshes (vs : List ValueId) : vs.map (p.onMeshes meshes).typeOf = vs.map p.typeOf :=
  rfl

variable (hm : ∀ ref mesh, p.meshes.resolve ref = .ok mesh → meshes.resolve ref = .ok mesh)
include hm

theorem checkFits_onMeshes (h : p.checkFits s v = .ok ()) : (p.onMeshes meshes).checkFits s v = .ok () := by
  obtain ⟨mesh, hr, hc⟩ := bind_eq_ok_iff.mp h
  exact bind_eq_ok_iff.mpr ⟨mesh, hm _ _ hr, hc⟩

theorem checkShardings_onMeshes {counted : Counted} {shardings : Option (List Sharding)} {vs : List ValueId}
    (h : p.checkShardings counted shardings vs = .ok ()) :
    (p.onMeshes meshes).checkShardings counted shardings vs = .ok () := by
  rw [checkShardings_eq_ok_iff] at h ⊢
  intro l hl
  obtain ⟨hlength, h⟩ := h l hl
  exact ⟨hlength, fun i t v ht hv => checkFits_onMeshes hm (h i t v ht hv)⟩

theorem commonMesh_onMeshes {first : MeshRef} {shardings : List Sharding} {mesh : Mesh}
    (h : p.commonMesh first shardings = .ok mesh) :
    (p.onMeshes meshes).commonMesh first shardings = .ok mesh := by
  obtain ⟨hfirst, hrest⟩ := commonMesh_eq_ok_iff.mp h
  exact commonMesh_eq_ok_iff.mpr ⟨hm _ _ hfirst, fun s hs => hm _ _ (hrest s hs)⟩

theorem checkNamed_onMeshes {op : Operation} {computation : NamedComputation}
    (h : p.checkNamed op computation = .ok ()) : (p.onMeshes meshes).checkNamed op computation = .ok () := by
  have htypes (place : Nat → TypedPlace) (index : Nat) (types : List TensorType) (vs : List ValueId) :
      (p.onMeshes meshes).checkTypes place index (types.zip vs) = p.checkTypes place index (types.zip vs) :=
    checkTypes_congr (types_onMeshes vs) index types
  obtain ⟨hbare, hin, hout⟩ := checkNamed_iff.mp h
  refine checkNamed_iff.mpr ⟨?_, checkShardings_onMeshes hm hin, checkShardings_onMeshes hm hout⟩
  simp only [checkNamed, htypes]
  exact hbare

theorem checkManual_onMeshes {op : Operation} {computation : ManualComputation}
    (h : p.checkManual op computation = .ok ()) : (p.onMeshes meshes).checkManual op computation = .ok () := by
  have hboundary (place : Nat → TypedPlace) (manual : List String) (mesh : Mesh) (shardings : List Sharding)
      (vs ws : List ValueId) :
      (p.onMeshes meshes).checkBoundary place manual mesh 0 (shardings.zip (vs.zip ws)) =
        p.checkBoundary place manual mesh 0 (shardings.zip (vs.zip ws)) :=
    checkBoundary_congr (types_onMeshes vs) (types_onMeshes ws) manual mesh 0 shardings
  obtain ⟨inShardings, outShardings, manual⟩ := computation
  simp only [checkManual, bind_eq_ok_iff, checkArity, exists_require_eq_ok_iff, hboundary] at h ⊢
  obtain ⟨returned, hr, hin, harguments, hout, hreturned, h⟩ := h
  refine ⟨returned, hr, hin, harguments, hout, hreturned, ?_⟩
  split at h
  case h_1 => exact h
  case h_2 first rest hcons =>
    obtain ⟨mesh, hmesh, h⟩ := bind_eq_ok_iff.mp h
    exact bind_eq_ok_iff.mpr ⟨mesh, commonMesh_onMeshes hm hmesh, h⟩

-- More meshes are no obstacle to what was right without them.
theorem checkOp_onMeshes (hr : (p.op o).kind.readsTypes) (h : p.checkOp o = .ok ()) :
    (p.onMeshes meshes).checkOp o = .ok () := by
  have hop : (p.onMeshes meshes).op o = p.op o := rfl
  cases hk : (p.op o).kind with
  | collective _ | edge _ => simp [hk, OpKind.readsTypes] at hr
  | constraint s | reshard s =>
    simp only [checkOp, hop, hk, bind_eq_ok_iff] at h ⊢
    obtain ⟨v, hu, hf⟩ := h
    exact ⟨v, hu, checkFits_onMeshes hm hf⟩
  | manual computation =>
    simp only [checkOp, hop, hk] at h ⊢
    exact checkManual_onMeshes hm h
  | named computation =>
    simp only [checkOp, hop, hk] at h ⊢
    exact checkNamed_onMeshes hm h
  | generic data =>
    have he : (p.onMeshes meshes).checkElementwise ((p.op o).operands ++ (p.op o).results) =
        p.checkElementwise ((p.op o).operands ++ (p.op o).results) :=
      checkElementwise_congr (types_onMeshes _)
    simp only [checkOp, hop, hk, he] at h ⊢
    exact h
  | group _ | constant _ | barrier _ | terminator =>
    simp only [checkOp, hop, hk] at h ⊢
    exact h

end Meshes

section Rules

namespace Grows

variable (h : Grows p q) (hp : p.WellFormed)
include h

theorem types_eq {vs : List ValueId} (hv : ∀ v ∈ vs, v.index < p.values.length) :
    vs.map q.typeOf = vs.map p.typeOf :=
  List.map_congr_left fun v hm => h.types v (hv v hm)

theorem checkEdgeOwner (hv : v.index < p.values.length) (ho : p.checkEdgeOwner v = .ok ()) :
    q.checkEdgeOwner v = .ok () := by
  obtain ⟨u, hu, hs⟩ := checkEdgeOwner_eq_ok_iff.mp ho
  have hlt : u.index < p.operations.length := by
    by_contra hlt
    simp [op_of_length_le (Nat.le_of_not_lt hlt), Operation.isStructural] at hs
  refine checkEdgeOwner_eq_ok_iff.mpr ⟨u, ?_, by rwa [h.ops u hlt]⟩
  rw [definer?, h.definitions v hv, ← definer?, hu]

theorem checkFits (hv : v.index < p.values.length) (hf : p.checkFits s v = .ok ()) :
    q.checkFits s v = .ok () := by
  obtain ⟨mesh, hr, hc⟩ := bind_eq_ok_iff.mp hf
  rw [Program.checkFits, Sharding.check, h.types v hv]
  exact bind_eq_ok_iff.mpr ⟨mesh, h.meshes _ _ hr, hc⟩

-- The rules for a collective still hold if the sharding of its operand is the same.
theorem checkCollective (hv : v.index < p.values.length) (hs : q.sharding v = p.sharding v)
    (hc : p.checkCollective collective v = .ok ()) : q.checkCollective collective v = .ok () := by
  obtain ⟨hf, operand, mesh, outMesh, ho, hm, hout, hsame, hc⟩ := checkCollective_eq_ok_iff.mp hc
  have hoperand : q.operandSharding collective v = p.operandSharding collective v := by
    rw [operandSharding, hs, h.types v hv, operandSharding]
  exact checkCollective_eq_ok_iff.mpr ⟨h.checkFits hv hf, operand, mesh, outMesh, hoperand.trans ho,
    h.meshes _ _ hm, h.meshes _ _ hout, hsame, hc⟩

include hp

theorem retyped (ho : o.index < p.operations.length)
    (hr : ∀ b ∈ (p.op o).regions, b ≠ entry ∧ (p.terminator? b).isSome) :
    Retyped (p.onMeshes q.meshes) q o := by
  have hop := h.ops o ho
  refine ⟨rfl, ?_, ?_, ?_, fun b hb => ?_, fun b hb => ?_⟩
  · rw [hop]
    exact h.types_eq (hp.operands o)
  · rw [hop]
    refine h.types_eq fun v hv => ?_
    obtain ⟨i, hi⟩ := List.mem_iff_getElem?.mp hv
    exact ((hp.results v o i).mp hi).left
  · rw [hop]
    rfl
  · rw [h.arguments b (hp.region_lt o b hb) (hr b hb).left]
    refine h.types_eq fun v hv => ?_
    obtain ⟨i, hi⟩ := List.mem_iff_getElem?.mp hv
    exact ((hp.arguments v b i).mp hi).left
  · obtain ⟨t, ht⟩ := Option.isSome_iff_exists.mp (hr b hb).right
    have hl := List.mem_of_getLast? (Option.filter_eq_some_iff.mp ht).left
    have hlt := index_lt_of_not_erased (hp.members b t hl).left
    have ht' : (p.onMeshes q.meshes).terminator? b = some t := ht
    rw [returned?, returned?, h.terminator? hp (hr b hb).right, ht, ht', Option.map_some, h.ops t hlt]
    exact congrArg some (h.types_eq (hp.operands t))

-- The rules for an operation still hold if they do not depend on the sharding of its operand.
theorem checkOp (ho : o.index < p.operations.length)
    (hr : ∀ b ∈ (p.op o).regions, b ≠ entry ∧ (p.terminator? b).isSome)
    (hk : ∀ collective, (p.op o).kind ≠ .collective collective) (hc : p.checkOp o = .ok ()) :
    q.checkOp o = .ok () := by
  have hop := h.ops o ho
  have hretyped := h.retyped hp ho hr
  by_cases ht : (p.op o).kind.readsTypes
  case pos =>
    exact hretyped.checkOp (by rw [hop]; rfl) (hp.shaped o) ht (checkOp_onMeshes h.meshes ht hc)
  case neg =>
    cases hkind : (p.op o).kind <;> simp [hkind, OpKind.readsTypes] at ht
    case collective collective => exact absurd hkind (hk collective)
    case edge s =>
      simp only [Program.checkOp, hop, hkind, bind_eq_ok_iff] at hc ⊢
      obtain ⟨v, hu, _, howner, hf⟩ := hc
      obtain ⟨hu', -⟩ := hretyped.checkUnary hu
      have hv : v.index < p.values.length := by
        obtain ⟨_, hv, -⟩ := checkUnary_eq_ok_iff.mp hu
        exact hp.operands o v (by simp [hv])
      have hinput : q.input o = v := by
        rw [input, hop, ← input, input_eq_of_checkUnary hu]
      rw [hop, hinput] at hu'
      refine ⟨v, hu', (), h.checkEdgeOwner hv howner, forM_eq_ok_iff.mpr fun s hs => ?_⟩
      exact h.checkFits hv (forM_eq_ok_iff.mp hf s hs)

end Grows

end Rules

section Shardings

-- Shardings are kept with arguments of the body, and with no other values.
def StoredAtBody (p : Program) : Prop :=
  ∀ v s, p.storedSharding v = some s → ∃ index, p.definitionOf v = .argument entry index

theorem edgeOfOwner?_eq_none (hp : p.WellFormed) (ho : p.EdgesOwned) (hv : p.checkEdgeOwner v ≠ .ok ()) :
    p.edgeOfOwner? v = none := by
  refine edgeOfOwner?_eq_none_iff.mpr fun e => ?_
  by_contra hm
  obtain ⟨he, hk, rfl⟩ := hp.marks_iff.mp (by simpa using hm)
  exact hv (ho e he hk)

theorem checkEdgeOwner_of_argument {index : Nat} (h : p.definitionOf v = .argument b index) :
    p.checkEdgeOwner v ≠ .ok () := by
  simp [checkEdgeOwner, definer?, h]

namespace Grows

variable (h : Grows p q)
include h

theorem op_eq_of_kind_ne (hk : (p.op o).kind ≠ .terminator) : q.op o = p.op o :=
  h.ops o (index_lt_of_kind_ne hk)

theorem marks_eq (he : e.index < p.operations.length) : q.marks v e = p.marks v e := by
  rw [marks, h.ops e he, marks]

theorem edgeOfOwner?_eq_some (he : p.edgeOfOwner? v = some e) : q.edgeOfOwner? v = some e := by
  obtain ⟨hm, hfirst⟩ := edgeOfOwner?_eq_some_iff.mp he
  have hlt := index_lt_of_not_erased (marks_iff.mp hm).left
  refine edgeOfOwner?_eq_some_iff.mpr ⟨(h.marks_eq hlt).trans hm, fun u hu => ?_⟩
  exact (h.marks_eq (hu.trans hlt)).trans (hfirst u hu)

variable (hq : q.WellFormed) (howned : q.EdgesOwned) (hv : v.index < p.values.length)
include hq howned hv

theorem edgeForTarget?_eq_some (hp : p.WellFormed) (hbody : (q.block entry).parent = none)
    (he : p.edgeForTarget? v = some e) : q.edgeForTarget? v = some e := by
  rw [edgeForTarget?] at he ⊢
  cases hm : p.edgeOfOwner? v with
  | some e' =>
    simp only [hm, Option.some.injEq] at he
    rw [h.edgeOfOwner?_eq_some hm, he]
  | none =>
    cases hd : p.definitionOf v with
    | result _ _       => simp [hm, hd] at he
    | argument b index =>
      have hdq : q.definitionOf v = .argument b index := (h.definitions v hv).trans hd
      simp only [hm, hd, Option.bind_eq_bind, Option.bind_eq_some_iff] at he
      obtain ⟨u, hu, _, hguard, w, hw, he⟩ := he
      have huq := h.parents b u hu
      have hb : b ≠ entry := fun hb => by simp [← hb, huq] at hbody
      have hr := (hp.regions b u).mpr hu
      have hlt : u.index < p.operations.length := by
        by_contra hlt
        simp [op_of_length_le (Nat.le_of_not_lt hlt)] at hr
      have hop := h.ops u hlt
      rw [structuralResult?, ← hop, ← structuralResult?] at hw
      rw [← h.arguments b (hp.region_lt u b hr) hb, ← hop] at hguard
      simp only [edgeOfOwner?_eq_none hq howned (checkEdgeOwner_of_argument hdq), hdq, Option.bind_eq_bind,
        Option.bind_eq_some_iff]
      exact ⟨u, huq, _, hguard, w, hw, h.edgeOfOwner?_eq_some he⟩

variable (hstored : p.StoredAtBody)
include hstored

-- A result with a sharding has it from its operation, which is no structural one.
theorem shardingOfResult_eq_some {index : Nat} (hd : p.definitionOf v = .result o index)
    (hs : p.shardingOfResult v o index = some s) :
    q.edgeForTarget? v = none ∧ q.shardingOfResult v o index = some s := by
  have hdq : q.definitionOf v = .result o index := (h.definitions v hv).trans hd
  have hnone (t : Sharding) : p.storedSharding v ≠ some t := fun ht => by
    obtain ⟨_, ha⟩ := hstored v t ht
    simp [hd] at ha
  have hop : q.op o = p.op o :=
    h.op_eq_of_kind_ne fun hk => hnone s (by simpa [shardingOfResult, hk] using hs)
  have hgeneric : (p.op o).kind.isGeneric = false := by
    cases hk : (p.op o).kind <;> first | rfl | simp [shardingOfResult, hk, hnone] at hs
  have howner : q.checkEdgeOwner v ≠ .ok () := fun ho => by
    obtain ⟨u, hu, hu'⟩ := checkEdgeOwner_eq_ok_iff.mp ho
    simp only [definer?, hdq, Option.some.injEq] at hu
    simp [← hu, hop, Operation.isStructural, hgeneric] at hu'
  constructor
  · simp [edgeForTarget?, edgeOfOwner?_eq_none hq howned howner, hdq]
  · simpa only [shardingOfResult, hop, h.stored v hv] using hs

variable (hbody : (q.block entry).parent = none)
include hbody

-- An argument of a region with a sharding has it from the isolated operation around it.
theorem shardingOfArgument_eq_some {index : Nat} (hd : p.definitionOf v = .argument b index)
    (hs : p.shardingOfArgument v b index = some s) :
    q.edgeForTarget? v = none ∧ q.shardingOfArgument v b index = some s := by
  have hdq : q.definitionOf v = .argument b index := (h.definitions v hv).trans hd
  have howner := edgeOfOwner?_eq_none hq howned (checkEdgeOwner_of_argument hdq)
  by_cases hb : b = entry
  case pos =>
    subst hb
    have hparent : (p.block entry).parent = none := by
      by_contra hparent
      obtain ⟨u, hu⟩ := Option.ne_none_iff_exists'.mp hparent
      simp [h.parents _ u hu] at hbody
    constructor
    · simp [edgeForTarget?, howner, hdq, hbody]
    · simpa only [shardingOfArgument, parentKind?, hparent, hbody, Option.map_none, h.stored v hv] using hs
  case neg =>
    have hnone (t : Sharding) : p.storedSharding v ≠ some t := fun ht => by
      obtain ⟨_, ha⟩ := hstored v t ht
      simp [hd, hb] at ha
    cases hparent : (p.block b).parent with
    | none   => simp [shardingOfArgument, parentKind?, hparent, hnone] at hs
    | some u =>
      simp only [shardingOfArgument, parentKind?, hparent, Option.map_some] at hs
      have hisolated : (p.op u).kind.isIsolated := by
        cases hk : (p.op u).kind <;> first | rfl | simp [hk, hnone] at hs
      have hop : q.op u = p.op u :=
        h.op_eq_of_kind_ne fun hk => by simp [hk, OpKind.isIsolated] at hisolated
      have hgeneric : (p.op u).kind.isGeneric = false := by
        cases hk : (p.op u).kind <;> simp [hk, OpKind.isIsolated, OpKind.isGeneric] at hisolated ⊢
      have hparent := h.parents b u hparent
      constructor
      · simp [edgeForTarget?, howner, hdq, hparent, structuralResult?, Operation.isStructural, hop, hgeneric]
      · simpa only [shardingOfArgument, parentKind?, hparent, Option.map_some, hop, h.stored v hv] using hs

-- A value that has a sharding keeps it.
theorem sharding_eq_some (hp : p.WellFormed) (hs : p.sharding v = some s) : q.sharding v = some s := by
  cases he : p.edgeForTarget? v with
  | some e =>
    obtain ⟨previous, hk⟩ := edgeForTarget?_kind he
    have hop : q.op e = p.op e := h.op_eq_of_kind_ne (by simp [hk])
    simp only [sharding, he, hk, Option.map_some] at hs
    simp only [sharding, h.edgeForTarget?_eq_some hq howned hv hp hbody he, hop, hk, Option.map_some, hs]
  | none =>
    simp only [sharding, he, Option.map_none] at hs
    cases hd : p.definitionOf v with
    | result o index =>
      simp only [hd] at hs
      obtain ⟨hedge, hs⟩ := h.shardingOfResult_eq_some hq howned hv hstored hd hs
      simp only [sharding, hedge, h.definitions v hv, hd, Option.map_none, hs]
    | argument b index =>
      simp only [hd] at hs
      obtain ⟨hedge, hs⟩ := h.shardingOfArgument_eq_some hq howned hv hstored hbody hd hs
      simp only [sharding, hedge, h.definitions v hv, hd, Option.map_none, hs]

end Grows

theorem sharding_pushValues_of_le {types : List TensorType} {definition : Nat → Definition}
    (hv : p.values.length ≤ v.index) : ((p.pushValues types definition).value v).sharding = none := by
  simp only [pushValues, value, List.getElem?_append_right hv, List.getElem?_mapIdx]
  cases types[v.index - p.values.length]? <;> rfl

theorem Builds.storedAtBody (h : p.Builds q) (hp : p.StoredAtBody) : q.StoredAtBody := by
  intro v s hs
  by_cases hv : v.index < p.values.length
  case pos =>
    rw [h.grows.stored v hv] at hs
    rw [h.grows.definitions v hv]
    exact hp v s hs
  case neg =>
    have hle := Nat.le_of_not_lt hv
    have hnone : (p.value v).sharding = none := by rw [value_of_length_le hle]
    cases h with
    | mesh h =>
      obtain ⟨_, -, heq⟩ := bind_eq_ok_iff.mp h
      cases heq
      exact absurd (hs.symm.trans hnone) (Option.some_ne_none s)
    | argument h =>
      obtain ⟨_, -, heq⟩ := bind_eq_ok_iff.mp h
      cases heq
      by_cases he : v.index = p.values.length
      case pos => exact ⟨(p.block entry).arguments.length, by simp [definitionOf, value, modifyBlock, he]⟩
      case neg =>
        simp only [storedSharding, value, values_modifyBlock, getD_concat, he, if_false] at hs
        exact absurd (hs.symm.trans hnone) (Option.some_ne_none s)
    | region types =>
      exact absurd (hs.symm.trans (sharding_pushValues_of_le hle)) (Option.some_ne_none s)
    | append _ _ h =>
      obtain ⟨rfl, -, -⟩ := insert_eq_ok h
      rw [storedSharding, value_place] at hs
      exact absurd (hs.symm.trans (sharding_pushValues_of_le hle)) (Option.some_ne_none s)

theorem storedAtBody_of_builds {name : String} (h : Relation.ReflTransGen Builds (empty name) p) :
    p.StoredAtBody := by
  induction h with
  | refl         => exact fun v s hs => by simp [empty, storedSharding, value] at hs
  | tail _ hs ih => exact hs.storedAtBody ih

end Shardings

section Builders

variable {name : String} (h : Relation.ReflTransGen Builds (empty name) p)
include h

-- The rules for an operation hold right after it is appended.
theorem exists_append_checkOp (ho : o.index < p.operations.length) :
    ∃ q b new r, Relation.ReflTransGen Builds (empty name) q ∧ q.append b new = .ok (r, o) ∧
      Relation.ReflTransGen Builds (empty name) r ∧ Relation.ReflTransGen Builds r p ∧
      o.index < r.operations.length ∧ r.checkOp o = .ok () := by
  obtain ⟨q, b, new, r, hq, hs, ha, hrp⟩ := exists_append_of_builds h ho
  obtain ⟨-, hplace, hnext, hc⟩ := insert_eq_ok_iff.mp ha
  have hlt : o.index < r.operations.length := by simp [hplace, hnext, nextOp]
  exact ⟨q, b, new, r, hq, ha, hq.tail hs, hrp, hlt, hc⟩

theorem Grows.region_of_builds (hg : Grows p q) (ho : o.index < p.operations.length)
    (hentry : entry ∉ (q.op o).regions) :
    ∀ b ∈ (p.op o).regions, b ≠ entry ∧ (p.terminator? b).isSome := by
  intro b hb
  rw [hg.ops o ho] at hentry
  exact ⟨ne_of_mem_of_not_mem hb hentry, (regionsFirst_of_builds h o b hb).left⟩

-- Those for all but collectives hold from then on.
theorem checkOp_of_ne_collective (ho : o.index < p.operations.length) (hentry : entry ∉ (p.op o).regions)
    (hk : ∀ collective, (p.op o).kind ≠ .collective collective) : p.checkOp o = .ok () := by
  obtain ⟨_, _, _, r, -, -, hr, hrp, hlt, hc⟩ := exists_append_checkOp h ho
  have hreach := (grows_of_builds hr (.empty name)).left
  have hg := (grows_of_builds hrp hreach).right
  exact hg.checkOp hreach.wellFormed hlt (hg.region_of_builds hr hlt hentry) (hg.ops o hlt ▸ hk) hc

theorem edgesOwned_of_builds : p.EdgesOwned := by
  intro e he hk
  have hp := (grows_of_builds h (.empty name)).left.wellFormed
  have hleaf : (p.op e).regions = [] := by
    by_contra hne
    have ht := (hp.shaped e).leaf hne
    simp [OpKind.takesRegions_of_isUnary (OpKind.isUnary_of_isEdge hk)] at ht
  have hc : p.checkOp e = .ok () :=
    checkOp_of_ne_collective h (index_lt_of_not_erased he) (by simp [hleaf]) fun collective hcoll => by
      simp [hcoll, OpKind.isEdge] at hk
  cases hkind : (p.op e).kind <;> simp [hkind, OpKind.isEdge] at hk
  simp only [checkOp, hkind, bind_eq_ok_iff] at hc
  obtain ⟨v, hu, _, howner, -⟩ := hc
  rwa [input_eq_of_checkUnary hu]

-- In a program that is only built, an operation that is part of it breaks its rules just if it is a
-- collective, and its operand has another sharding than when it was added, which it does not take. Only
-- values without a sharding get another one, as long as the body is no region.
theorem checkOp_of_builds (ho : p.isLive o) :
    ∃ q b new r, Relation.ReflTransGen Builds (empty name) q ∧ q.append b new = .ok (r, o) ∧
      Relation.ReflTransGen Builds r p ∧
      (p.checkOp o = .ok () ↔ ∀ collective, (p.op o).kind = .collective collective →
        p.sharding (p.input o) = r.sharding (p.input o) ∨
          p.checkCollective collective (p.input o) = .ok ()) ∧
      ((p.block entry).parent = none → ∀ v s, v.index < r.values.length → r.sharding v = some s →
        p.sharding v = some s) := by
  have hp := (grows_of_builds h (.empty name)).left
  have hentry := (regionsFirst_of_builds h).not_entry hp ho
  have hlt' := index_lt_of_not_erased (erased_of_isLive ho)
  obtain ⟨q, b, new, r, hq, ha, hr, hrp, hlt, hc⟩ := exists_append_checkOp h hlt'
  have hreach := (grows_of_builds hr (.empty name)).left
  have hg := (grows_of_builds hrp hreach).right
  refine ⟨q, b, new, r, hq, ha, hrp, ?_, fun hbody v s hv hs => ?_⟩
  case refine_2 =>
    exact hg.sharding_eq_some hp.wellFormed (edgesOwned_of_builds h) hv (storedAtBody_of_builds hr) hbody
      hreach.wellFormed hs
  case refine_1 =>
    by_cases hk : ∃ collective, (p.op o).kind = .collective collective
    case neg =>
      have hk : ∀ collective, (p.op o).kind ≠ .collective collective := fun c hc => hk ⟨c, hc⟩
      exact iff_of_true (checkOp_of_ne_collective h hlt' hentry hk) fun c hc => absurd hc (hk c)
    case pos =>
      obtain ⟨collective, hk⟩ := hk
      have hop := hg.ops o hlt
      obtain ⟨hu, hcoll⟩ := (checkOp_collective_iff (hop ▸ hk)).mp hc
      have hretyped := hg.retyped hreach.wellFormed hlt (hg.region_of_builds hr hlt hentry)
      have hinput : p.input o = r.input o := by rw [input, hop, ← input]
      have hv := hreach.wellFormed.input_lt (o := o) (by simp [← hop, hk, OpKind.isUnary])
      rw [checkOp_collective_iff hk, and_iff_right (hretyped.checkUnary hu).left]
      constructor
      · intro hc collective' hk'
        cases hk.symm.trans hk'
        exact .inr hc
      · intro hsame
        obtain hs | hc := hsame collective hk
        · rw [hinput] at hs ⊢
          exact hg.checkCollective hv hs hcoll
        · exact hc

end Builders

section Runs

-- A slice of an argument that gets a sharding from the named computation that is built around it.
def slicedBoundary? : Option Program :=
  let split : Sharding := ⟨.symbol "mesh", [{ axes := [.whole "a"] }], []⟩
  [ .mesh "mesh" ⟨[⟨"a", 2⟩], []⟩,
    .argument ⟨[8], .f32⟩ none,
    .region [⟨[8], .f32⟩],
    .append ⟨1⟩ (.collective ⟨1⟩ ⟨.allSlice [[.whole "a"]], split⟩),
    .append ⟨1⟩ (.terminator [⟨2⟩]),
    .append entry (.named ⟨"f", some [split], none⟩ [⟨0⟩] ⟨1⟩),
    .append entry (.terminator [⟨3⟩])].foldlM openStep? (empty "main")

theorem checkOp_not_slicedBoundary :
    let p := slicedBoundary?.get (by rfl)
    Relation.ReflTransGen Builds (empty "main") p ∧ p.isLive ⟨0⟩ ∧
      p.checkOp ⟨0⟩ = .error (.axisAlreadyInUse (.whole "a") 0) :=
  ⟨builds_of_openSteps (Option.some_get _).symm, by rfl, by rfl⟩

theorem checkOp_of_builds_slicedBoundary :
    let p := slicedBoundary?.get (by rfl)
    Relation.ReflTransGen Builds (empty "main") p ∧ p.isLive ⟨2⟩ ∧ p.checkOp ⟨2⟩ = .ok () := by
  intro p
  have hp : Relation.ReflTransGen Builds (empty "main") p := builds_of_openSteps (Option.some_get _).symm
  have hlive : p.isLive ⟨2⟩ := by rfl
  have hkind : (p.op ⟨2⟩).kind.isIsolated := by rfl
  obtain ⟨_, _, _, _, -, -, -, hiff, -⟩ := checkOp_of_builds hp hlive
  exact ⟨hp, hlive, hiff.mpr fun c hc => by simp [hc, OpKind.isIsolated] at hkind⟩

end Runs

end MeshSharding.Program
