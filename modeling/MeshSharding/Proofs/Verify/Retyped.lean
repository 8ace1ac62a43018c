import MeshSharding.Proofs.Verify.Rules

namespace MeshSharding

-- The rules for the operation ask nothing of a value but its type. Collectives look at the sharding of the operand
-- as well, and edge operations at its definition.
def OpKind.readsTypes : OpKind → Bool
  | collective _ | edge _ => false
  | _                     => true

theorem OpKind.readsTypes_of_isEdge {kind : OpKind} (h : kind.isEdge) : kind.readsTypes = false := by
  cases kind <;> first | rfl | contradiction

namespace Program

-- An operation of two programs that has operands, results, arguments and returned values of the same
-- types in both.
structure Retyped (p q : Program) (o : OpId) : Prop where
  meshes    : q.meshes = p.meshes
  operands  : (q.op o).operands.map q.typeOf = (p.op o).operands.map p.typeOf
  results   : (q.op o).results.map q.typeOf = (p.op o).results.map p.typeOf
  regions   : (q.op o).regions = (p.op o).regions
  arguments : ∀ b ∈ (p.op o).regions,
    (q.block b).arguments.map q.typeOf = (p.block b).arguments.map p.typeOf
  returned  : ∀ b ∈ (p.op o).regions,
    (q.returned? b).map (·.map q.typeOf) = (p.returned? b).map (·.map p.typeOf)

variable {p q : Program} {o : OpId} {v w : ValueId} {b : BlockId}

section Lists

variable {vs vs' ws ws' : List ValueId} {place : Nat → TypedPlace}

theorem length_eq_of_types (h : vs'.map q.typeOf = vs.map p.typeOf) : vs'.length = vs.length := by
  simpa using congrArg List.length h

theorem checkFits_congr (hm : q.meshes = p.meshes) (ht : q.typeOf w = p.typeOf v) (s : Sharding) :
    q.checkFits s w = p.checkFits s v := by
  rw [checkFits, hm, ht, checkFits]

theorem checkTypes_congr (h : vs'.map q.typeOf = vs.map p.typeOf) (index : Nat)
    (types : List TensorType) :
    q.checkTypes place index (types.zip vs') = p.checkTypes place index (types.zip vs) := by
  induction types generalizing index vs vs' with
  | nil => rfl
  | cons type types ih =>
    cases vs with
    | nil =>
      cases List.map_eq_nil_iff.mp h
      rfl
    | cons v vs =>
      obtain ⟨v', vs', rfl, hv, hvs⟩ := List.map_eq_cons_iff.mp h
      simp only [List.zip_cons_cons, checkTypes, hv, ih hvs]

theorem checkElementwise_congr (h : vs'.map q.typeOf = vs.map p.typeOf) :
    q.checkElementwise vs' = p.checkElementwise vs := by
  have hgo (type : TensorType) (index : Nat) {vs vs' : List ValueId}
      (h : vs'.map q.typeOf = vs.map p.typeOf) :
      checkElementwise.go q type index vs' = checkElementwise.go p type index vs := by
    induction vs generalizing index vs' with
    | nil =>
      cases List.map_eq_nil_iff.mp h
      rfl
    | cons v vs ih =>
      obtain ⟨v', vs', rfl, hv, hvs⟩ := List.map_eq_cons_iff.mp h
      simp only [checkElementwise.go, hv, ih _ hvs]
  cases vs with
  | nil =>
    cases List.map_eq_nil_iff.mp h
    rfl
  | cons v vs =>
    obtain ⟨v', vs', rfl, hv, hvs⟩ := List.map_eq_cons_iff.mp h
    simp only [checkElementwise, hv, hgo _ _ hvs]

theorem checkShardings_congr (hm : q.meshes = p.meshes) (h : vs'.map q.typeOf = vs.map p.typeOf)
    (counted : Counted) (shardings : Option (List Sharding)) :
    q.checkShardings counted shardings vs' = p.checkShardings counted shardings vs := by
  have hsome (r : Program) (shardings : List Sharding) (vs : List ValueId) :
      r.checkShardings counted (some shardings) vs = (checkArity counted vs.length shardings.length).bind
        fun _ => (shardings.zip vs).forM fun entry => r.checkFits entry.1 entry.2 := rfl
  have hf {shardings : List Sharding} {vs vs' : List ValueId} (h : vs'.map q.typeOf = vs.map p.typeOf) :
      ((shardings.zip vs').forM fun entry => q.checkFits entry.1 entry.2) =
        (shardings.zip vs).forM fun entry => p.checkFits entry.1 entry.2 := by
    induction shardings generalizing vs vs' with
    | nil => rfl
    | cons s shardings ih =>
      cases vs with
      | nil =>
        cases List.map_eq_nil_iff.mp h
        rfl
      | cons v vs =>
        obtain ⟨v', vs', rfl, hv, hvs⟩ := List.map_eq_cons_iff.mp h
        simp only [List.forM_eq_forM] at ih ⊢
        simp only [List.zip_cons_cons, List.forM_cons, checkFits_congr hm hv, ih hvs]
  cases shardings with
  | none           => rfl
  | some shardings => simp only [hsome, length_eq_of_types h, hf h]

theorem checkBoundary_congr (hv : vs'.map q.typeOf = vs.map p.typeOf)
    (hw : ws'.map q.typeOf = ws.map p.typeOf) (manual : List String) (mesh : Mesh) (index : Nat)
    (shardings : List Sharding) :
    q.checkBoundary place manual mesh index (shardings.zip (vs'.zip ws')) =
      p.checkBoundary place manual mesh index (shardings.zip (vs.zip ws)) := by
  induction shardings generalizing index vs vs' ws ws' with
  | nil => rfl
  | cons s shardings ih =>
    cases vs with
    | nil =>
      cases List.map_eq_nil_iff.mp hv
      rfl
    | cons v vs =>
      cases ws with
      | nil =>
        cases List.map_eq_nil_iff.mp hw
        simp [checkBoundary]
      | cons w ws =>
        obtain ⟨v', vs', rfl, hv, hvs⟩ := List.map_eq_cons_iff.mp hv
        obtain ⟨w', ws', rfl, hw, hws⟩ := List.map_eq_cons_iff.mp hw
        simp only [List.zip_cons_cons, checkBoundary, hv, hw, ih hvs hws]

end Lists

namespace Retyped

variable (h : Retyped p q o)
include h

theorem length_operands : (q.op o).operands.length = (p.op o).operands.length :=
  length_eq_of_types h.operands

theorem length_results : (q.op o).results.length = (p.op o).results.length :=
  length_eq_of_types h.results

theorem checkUnary (hu : p.checkUnary (p.op o) = .ok v) : q.checkUnary (q.op o) = .ok (q.input o) ∧
    q.typeOf (q.input o) = p.typeOf v := by
  obtain ⟨r, ho, hr, ht⟩ := checkUnary_eq_ok_iff.mp hu
  have hv := h.operands
  have hx := h.results
  rw [ho, List.map_singleton] at hv
  rw [hr, List.map_singleton] at hx
  obtain ⟨w, hw, hv⟩ := List.map_eq_singleton_iff.mp hv
  obtain ⟨x, hr', hx⟩ := List.map_eq_singleton_iff.mp hx
  have hi : q.input o = w := by simp [input, hw]
  rw [hi]
  exact ⟨checkUnary_eq_ok_iff.mpr ⟨x, hw, hr', by rw [hv, hx, ht]⟩, hv⟩

-- What is done with the returned values has the same outcome if it depends on their types only.
theorem returnedBy_bind {f g : List ValueId → Except Error Unit} (hb : b ∈ (p.op o).regions)
    (hf : ∀ vs ws, ws.map q.typeOf = vs.map p.typeOf → f ws = g vs) :
    (q.returnedBy b >>= f) = (p.returnedBy b >>= g) := by
  have hr := h.returned b hb
  simp only [returnedBy]
  cases hp : p.returned? b with
  | none =>
    cases hq : q.returned? b with
    | none   => rfl
    | some _ => simp [hp, hq] at hr
  | some vs =>
    cases hq : q.returned? b with
    | none    => simp [hp, hq] at hr
    | some ws =>
      simp only [hp, hq, Option.map_some, Option.some.injEq] at hr
      exact hf vs ws hr

theorem checkNamed (computation : NamedComputation) (hr : (p.op o).regions = [b]) :
    q.checkNamed (q.op o) computation = p.checkNamed (p.op o) computation := by
  have hb : b ∈ (p.op o).regions := by simp [hr]
  have ha := h.arguments b hb
  simp only [Program.checkNamed, h.regions, hr, List.getElem?_cons_zero, Option.getD_some,
    length_eq_of_types ha, h.length_operands, h.length_results, h.operands, h.results]
  refine bind_congr fun _ => bind_congr fun _ => ?_
  rw [checkTypes_congr ha]
  refine bind_congr fun _ => h.returnedBy_bind hb fun vs ws ht => ?_
  simp only [length_eq_of_types ht, checkTypes_congr ht, checkShardings_congr h.meshes ha,
    checkShardings_congr h.meshes h.results]

theorem checkManual (computation : ManualComputation) (hr : (p.op o).regions = [b]) :
    q.checkManual (q.op o) computation = p.checkManual (p.op o) computation := by
  have hb : b ∈ (p.op o).regions := by simp [hr]
  have ha := h.arguments b hb
  have hc (first : MeshRef) (rest : List Sharding) : q.commonMesh first rest = p.commonMesh first rest := by
    simp only [commonMesh, h.meshes]
  simp only [Program.checkManual, h.regions, hr, List.getElem?_cons_zero, Option.getD_some,
    length_eq_of_types ha, h.length_operands, h.length_results, hc]
  refine h.returnedBy_bind hb fun vs ws ht => ?_
  simp only [length_eq_of_types ht, checkBoundary_congr h.operands ha, checkBoundary_congr h.results ht]

-- The operation obeys its own rules if it did before.
theorem checkOp (hk : (q.op o).kind = (p.op o).kind) (hs : (p.op o).Shaped)
    (hr : (p.op o).kind.readsTypes) (hc : p.checkOp o = .ok ()) : q.checkOp o = .ok () := by
  have hbody (hi : (p.op o).kind.isIsolated) : ∃ b, (p.op o).regions = [b] := hs.body hi
  cases hkind : (p.op o).kind with
  | collective _ | edge _ => simp [hkind, OpKind.readsTypes] at hr
  | constraint s | reshard s =>
    simp only [hkind, Program.checkOp, hk, bind_eq_ok_iff] at hc ⊢
    obtain ⟨v, hu, hf⟩ := hc
    obtain ⟨hu, ht⟩ := h.checkUnary hu
    exact ⟨_, hu, (checkFits_congr h.meshes ht s).trans hf⟩
  | barrier allowed =>
    simp only [hkind, Program.checkOp, hk, bind_eq_ok_iff] at hc ⊢
    obtain ⟨v, hu, hf⟩ := hc
    exact ⟨_, (h.checkUnary hu).left, hf⟩
  | group _ | constant _ | terminator =>
    simp only [hkind, Program.checkOp, hk, h.length_operands, h.length_results] at hc ⊢
    exact hc
  | manual computation =>
    obtain ⟨b, hb⟩ := hbody (by simp [hkind, OpKind.isIsolated])
    simp only [hkind, Program.checkOp, hk, h.checkManual computation hb] at hc ⊢
    exact hc
  | named computation =>
    obtain ⟨b, hb⟩ := hbody (by simp [hkind, OpKind.isIsolated])
    simp only [hkind, Program.checkOp, hk, h.checkNamed computation hb] at hc ⊢
    exact hc
  | generic data =>
    have ht : ((q.op o).operands ++ (q.op o).results).map q.typeOf =
        ((p.op o).operands ++ (p.op o).results).map p.typeOf := by
      simp only [List.map_append, h.operands, h.results]
    simp only [hkind, Program.checkOp, hk, checkElementwise_congr ht] at hc ⊢
    exact hc

theorem checked (hk : (q.op o).kind = (p.op o).kind) (hs : (p.op o).Shaped) (hc : p.Checked o)
    (hsettles : ∀ collective, (p.op o).kind = .collective collective →
      p.Settles collective (p.input o) → q.Settles collective (q.input o))
    (hedge : (p.op o).kind.isEdge → p.checkEdgeOwner (p.input o) = .ok () →
      q.checkEdgeOwner (q.input o) = .ok ()) : q.Checked o := by
  by_cases hr : (p.op o).kind.readsTypes
  case pos =>
    have hplain : p.Checked o ↔ p.checkOp o = .ok () := by
      cases hkind : (p.op o).kind <;> simp [hkind, OpKind.readsTypes] at hr <;> simp [Checked, hkind]
    have hq := h.checkOp hk hs hr (hplain.mp hc)
    cases hkind : (p.op o).kind <;> simp [hkind, OpKind.readsTypes] at hr <;>
      simpa [Checked, hk, hkind] using hq
  case neg =>
    simp only [Checked, hk] at hc ⊢
    cases hkind : (p.op o).kind <;> simp [hkind, OpKind.readsTypes] at hr
    case collective collective =>
      simp only [hkind] at hc ⊢
      exact ⟨(h.checkUnary hc.left).left, hsettles collective hkind hc.right⟩
    case edge s =>
      simp only [hkind, Program.checkOp, hk, bind_eq_ok_iff] at hc ⊢
      obtain ⟨v, hu, _, ho, hf⟩ := hc
      obtain ⟨hu', ht⟩ := h.checkUnary hu
      have hi := input_eq_of_checkUnary hu
      refine ⟨_, hu', (), hedge (by simp [hkind, OpKind.isEdge]) (hi ▸ ho), ?_⟩
      simp only [checkFits_congr h.meshes ht, hf]

end Retyped

end Program

end MeshSharding
