import MeshSharding.Proofs.Flow.Attach
import MeshSharding.Proofs.Verify.Edits

namespace MeshSharding.Program

-- All users of a value but one read the result of this one instead, and no sharding is kept that was not
-- kept before.
structure Diverts (owner : ValueId) (e : OpId) (p q : Program) : Prop where
  frame    : Frame p q
  relinks  : Relinks p q
  values   : q.values.length = p.values.length
  kept     : ∀ o, q.op o = { p.op o with operands := (q.op o).operands }
  operands : ∀ o, ∀ i : Nat, (q.op o).operands[i]? = (p.op o).operands[i]? ∨
    o ≠ e ∧ (p.op o).operands[i]? = some owner ∧ (q.op o).operands[i]? = some (p.output e)
  alone    : ∀ o ∈ q.walk, o ≠ e → owner ∉ (q.op o).operands
  stored   : ∀ v t, q.storedSharding v = some t → p.storedSharding v = some t

-- A new edge operation stands between a value and its users.
structure Interposes (owner : ValueId) (s : Option Sharding) (p q : Program) : Prop where
  rewrites  : Rewrites (· ≠ p.nextOp) p q
  last      : ∀ b, (q.block b).operations.getLast? = (p.block b).operations.getLast?
  enclosing : q.enclosingManual? = p.enclosingManual?
  meshes    : q.meshes = p.meshes
  values    : q.values.length = p.values.length + 1
  length    : q.operations.length = p.operations.length + 1
  types     : ∀ v, v.index < p.values.length → q.typeOf v = p.typeOf v
  definer   : ∀ v, v.index < p.values.length → q.definer? v = p.definer? v
  kept      : ∀ o, o ≠ p.nextOp → q.op o = { p.op o with operands := (q.op o).operands }
  operands  : ∀ o, o ≠ p.nextOp → ∀ i : Nat, (q.op o).operands[i]? = (p.op o).operands[i]? ∨
    (p.op o).operands[i]? = some owner ∧ (q.op o).operands[i]? = some ⟨p.values.length⟩
  alone     : ∀ o ∈ q.walk, o ≠ p.nextOp → owner ∉ (q.op o).operands
  edge      : ∃ b, q.op p.nextOp = p.placed b (.edge owner s)
  formed    : q.Formed p.nextOp
  fits      : ∀ t, s = some t → q.checkFits t owner = .ok ()
  stored    : ∀ v t, q.storedSharding v = some t → p.storedSharding v = some t

variable {p q r : Program} {o u e : OpId} {v w owner : ValueId} {b c : BlockId} {s : Option Sharding}
  {before edges after : List OpId} {owners targets : List ValueId} {keep : OpId → Bool}

section Place

variable {new : NewOp} {position : Nat}

theorem typeOf_place (hv : v.index < p.values.length) : (p.place b position new).typeOf v = p.typeOf v := by
  rw [typeOf, value_place, typeOf, ← value_pushValues_of_lt hv]

theorem placed_edge_results (ho : owner.index < p.values.length) :
    (p.placed b (.edge owner s)).results = [⟨p.values.length⟩] := by
  simp [placed, NewOp.resultTypes, nextValues, ho]

-- The ways up go through operations with regions only.
theorem WayUp.of_parents {m : OpId} {us : List OpId} (h : p.WayUp m us b)
    (hp : ∀ b u, (p.block b).parent = some u → (q.block b).parent = some u ∧
      (q.op u).kind.isManual = (p.op u).kind.isManual ∧ (q.op u).block = (p.op u).block) : q.WayUp m us b := by
  induction h with
  | found hb hm =>
    obtain ⟨hb, hk, _⟩ := hp _ _ hb
    exact .found hb (hk.trans hm)
  | up hb hk _ ih =>
    obtain ⟨hb, hk', hc⟩ := hp _ _ hb
    exact .up hb (hk'.trans hk) (hc ▸ ih)

theorem WellFormed.enclosingManual?_place (hp : p.WellFormed) (hq : (p.place b position new).WellFormed)
    (hn : new.regions = []) : (p.place b position new).enclosingManual? = p.enclosingManual? := by
  have hparent (c : BlockId) : ((p.place b position new).block c).parent = (p.block c).parent := by
    simp [block_place, hn]
  have hop {c : BlockId} {u : OpId} (hu : (p.block c).parent = some u) :
      (p.place b position new).op u = p.op u := by
    refine op_place_of_ne fun he => ?_
    have hr := (hp.regions c u).mpr hu
    simp [he] at hr
  funext c
  ext m
  rw [hp.enclosingManual?_eq_some_iff, hq.enclosingManual?_eq_some_iff]
  refine exists_congr fun us => ⟨fun h => h.of_parents fun d u hu => ?_, fun h => h.of_parents fun d u hu => ?_⟩
  · rw [hparent] at hu
    simp [hop hu, hu]
  · simp [hop hu, hparent, hu]

end Place

section Divert

theorem storedSharding_clear (vs : List ValueId) {t : Sharding}
    (h : (vs.foldl (fun p v => p.storeSharding v none) p).storedSharding v = some t) :
    p.storedSharding v = some t := by
  induction vs generalizing p with
  | nil => exact h
  | cons w vs ih =>
    have hw := ih h
    rw [storedSharding_storeSharding] at hw
    split at hw
    · contradiction
    · exact hw

theorem Diverts.clear (h : Diverts owner e p q) (vs : List ValueId) :
    Diverts owner e p (vs.foldl (fun p v => p.storeSharding v none) q) := by
  have hb := bare_foldl_storeSharding (p := q) (fun _ => none) vs
  have hop : (vs.foldl (fun p v => p.storeSharding v none) q).op = q.op :=
    foldl_keeps (·.op) (fun q v => funext fun o => op_storeSharding none) vs
  have hr := h.relinks.wellFormed.relinks_of_bare_eq hb
  exact {
    frame        := h.frame.trans (.of_bare_eq hb)
    relinks      := h.relinks.trans hr
    values       := (read_of_bare_eq (·.values.length) bare_length_values hb).trans h.values
    kept o       := hop ▸ h.kept o
    operands o i := hop ▸ h.operands o i
    alone o ho   := hop ▸ h.alone o (hr.mem_walk_iff.mp ho)
    stored v t   := fun hv => h.stored v t (storedSharding_clear vs hv) }

theorem WellFormed.diverts (hp : p.WellFormed) (hr : p.Rooted) (hk : (p.op e).kind.isUnary)
    (hne : owner ≠ p.output e) :
    Diverts owner e p (p.replaceUsesExcept owner (p.output e) (some e)) := by
  have hm : ∀ use ∈ p.movable owner (some e), (p.op use.user).operands[use.index]? = some owner :=
    fun _ => hp.operand_of_movable
  have hlinks := hp.relinks_redirect (hp.output_lt hk) hm (hp.movable_nodup owner (some e))
  rw [replaceUsesExcept_eq hne]
  exact {
    frame        := .redirect
    relinks      := hlinks
    values       := length_values_redirect
    kept _       := op_redirect
    operands o i := by
      rw [operands_redirect hm]
      split
      case isFalse  => exact .inl rfl
      case isTrue h => exact .inr ⟨by simpa using (mem_movable.mp h).right.left, hm _ h, rfl⟩
    alone o ho   := fun hoe => hp.unused_of_redirect hr hne (by simpa using hoe) (hlinks.mem_walk_iff.mp ho)
    stored v t h := by rwa [storedSharding_redirect] at h }

end Divert

theorem Retyped.of_leaf (hm : q.meshes = p.meshes)
    (ho : (q.op o).operands.map q.typeOf = (p.op o).operands.map p.typeOf)
    (hr : (q.op o).results.map q.typeOf = (p.op o).results.map p.typeOf)
    (hp : (p.op o).regions = []) (hq : (q.op o).regions = []) : Retyped p q o :=
  ⟨hm, ho, hr, hq.trans hp.symm, by simp [hp], by simp [hp]⟩

theorem Sound.interposes (hp : p.Sound) (ha : p.Attaching o b before edges after (owner :: owners))
    (hl : after ≠ []) (h : p.attachEdge b (before ++ o :: edges).length owner targets = .ok q) :
    ∃ s, Interposes owner s p q := by
  obtain ⟨r, e, hi, hq⟩ := attachEdge_eq_ok_iff.mp h
  have hrwf := hp.wellFormed.insert hi
  obtain ⟨_, hr, rfl, hc⟩ := insert_eq_ok_iff.mp hi
  generalize (owner :: targets).findSome? p.storedSharding = s at hi hr
  refine ⟨s, ?_⟩
  have hmem : o ∈ before ++ o :: edges := by simp
  have hown : owner.index < p.values.length := hp.wellFormed.result_lt (ha.owned List.mem_cons_self)
  have hedge : r.op p.nextOp = p.placed b (.edge owner s) := by rw [hr, op_place_nextOp]
  have hout : r.output p.nextOp = ⟨p.values.length⟩ := by
    simp [output, hedge, placed_edge_results hown]
  have hne : owner ≠ r.output p.nextOp := by
    rw [hout]
    rintro rfl
    exact Nat.lt_irrefl _ hown
  have hplace : Rewrites (· ≠ p.nextOp) p r :=
    hr ▸ hp.wellFormed.place_rewrites rfl rfl b _
  have hd : Diverts owner p.nextOp r q :=
    hq ▸ (hrwf.diverts (hplace.rooted hp.rooted) (by rw [hedge]; rfl) hne).clear (owner :: targets)
  have hops : (q.op p.nextOp).operands = [owner] := by
    apply List.ext_getElem? fun i => ?_
    obtain h | ⟨h, _⟩ := hd.operands p.nextOp i
    · rw [h, hedge]
      rfl
    · exact absurd rfl h
  have hqedge : q.op p.nextOp = p.placed b (.edge owner s) := by
    rw [hd.kept, hops, hedge]
    rfl
  have hin : q.input p.nextOp = owner := by simp [input, hops]
  have hrin : r.input p.nextOp = owner := by simp [input, hedge, placed, NewOp.operands]
  obtain ⟨hformed, _, hfits⟩ := checkOp_iff_formed.mp hc
  have hretyped : Retyped r q p.nextOp := .of_leaf hd.frame.meshes (by simp [hqedge, hedge, hd.frame.types])
    (by simp [hqedge, hedge, hd.frame.types]) (by rw [hedge]; rfl) (by rw [hqedge]; rfl)
  exact {
    rewrites := hplace.relinks hd.relinks
    last c := by
      rw [hd.relinks.block, hr]
      by_cases hcb : c = b
      case pos =>
        rw [hcb, block_placeEdge hmem ha.place_append, ha.place_append]
        rw [List.getLast?_append_of_ne_nil _ (by simp), List.getLast?_append_of_ne_nil _ hl,
          List.getLast?_cons_of_ne_nil hl]
      case neg => simp [block_place, hcb]
    enclosing := by rw [hd.frame.enclosingManual?, hr, hp.wellFormed.enclosingManual?_place (hr ▸ hrwf) rfl]
    meshes := by rw [hd.frame.meshes, hr, meshes_place]
    values := by
      rw [hd.values, hr, length_values_place]
      simp [NewOp.resultTypes, hown]
    length := by rw [hd.frame.length, hr, length_operations_place]
    types v hv := by rw [hd.frame.types, hr, typeOf_place hv]
    definer v hv := by rw [hd.frame.definer?, hr, (keepsRoots_place b _ _).definer v hv]
    kept u hu := by rw [hd.kept, hr, op_place_of_ne hu]
    operands u hu i := by
      have hu' : r.op u = p.op u := by rw [hr, op_place_of_ne hu]
      rw [← hout]
      exact hu' ▸ (hd.operands u i).imp_right And.right
    alone := hd.alone
    edge := ⟨b, hqedge⟩
    formed := hretyped.formed (by rw [hqedge, hedge]) (hrwf.shaped _) hformed fun _ he => by
      rw [hin, ← hrin]
      exact hd.frame.checkEdgeOwner he
    fits t ht := by
      rw [checkFits_congr hd.frame.meshes (congrFun hd.frame.types owner), ← hrin]
      exact hfits t (by rw [hedge, ht]; rfl)
    stored v t hv := by
      rw [← storedSharding_place, ← hr]
      exact hd.stored v t hv }

namespace Interposes

variable (h : Interposes owner s p q)
include h

theorem mem_walk_iff (ho : o ≠ p.nextOp) : o ∈ q.walk ↔ o ∈ p.walk :=
  h.rewrites.mem_walk_iff (by simpa using ho)

theorem kind (ho : o ≠ p.nextOp) : (q.op o).kind = (p.op o).kind := by
  rw [h.kept o ho]

theorem kind_nextOp : (q.op p.nextOp).kind = .edge s := by
  obtain ⟨_, he⟩ := h.edge
  rw [he]
  rfl

theorem operands_nextOp : (q.op p.nextOp).operands = [owner] := by
  obtain ⟨_, he⟩ := h.edge
  rw [he]
  rfl

theorem input_nextOp : q.input p.nextOp = owner := by
  simp [input, h.operands_nextOp]

theorem output_nextOp (ho : owner.index < p.values.length) : q.output p.nextOp = ⟨p.values.length⟩ := by
  obtain ⟨_, he⟩ := h.edge
  simp [output, he, placed_edge_results ho]

-- The result of the edge operation has the type of the owner.
theorem typeOf_output (ho : owner.index < p.values.length) : q.typeOf ⟨p.values.length⟩ = p.typeOf owner := by
  have hf := h.formed
  simp only [Formed, h.kind_nextOp] at hf
  obtain ⟨r, _, hr, ht⟩ := checkUnary_eq_ok_iff.mp hf.left
  have hr : r = ⟨p.values.length⟩ := by rw [← h.output_nextOp ho, output, hr]; rfl
  rw [← hr, ← ht, h.input_nextOp, h.types owner ho]

theorem input_cases (ho : o ≠ p.nextOp) : q.input o = p.input o ∨
    (p.op o).operands[0]? = some owner ∧ q.input o = ⟨p.values.length⟩ := by
  obtain he | ⟨hp, hq⟩ := h.operands o ho 0
  · exact .inl (by rw [input, he, ← input])
  · exact .inr ⟨hp, by simp [input, hq]⟩

theorem recasts (hp : p.WellFormed) (hq : q.Sound) (ho : owner.index < p.values.length) :
    Recasts (· ≠ p.nextOp) p q where
  rewrites         := h.rewrites
  sound            := hq
  meshes           := h.meshes
  types            := h.types
  enclosing        := h.enclosing
  last             := h.last
  terminator u hu  := by rw [h.kind (by simpa using hu)]
  group u _ id hk  := by
    have hu : u ≠ p.nextOp := by
      rintro rfl
      simp [h.kind_nextOp] at hk
    exact ⟨by simpa using hu, h.kind hu ▸ hk⟩
  operands u _ hu  := by
    apply List.ext_getElem? fun i => ?_
    rw [List.getElem?_map, List.getElem?_map]
    obtain he | ⟨hv, hv'⟩ := h.operands u (by simpa using hu) i
    · rw [he]
      cases hv : (p.op u).operands[i]? with
      | none   => rfl
      | some v => simp [h.types v (hp.operands u v (List.mem_of_getElem? hv))]
    · simp [hv, hv', h.typeOf_output ho]

section Unmarked

variable (hn : p.edgeOfOwner? owner = none)
include hn

-- No other edge operation stands on the owner.
theorem operands_of_isEdge (ho : o ≠ p.nextOp) (he : (p.op o).erased = false) (hk : (p.op o).kind.isEdge) :
    (q.op o).operands[0]? = (p.op o).operands[0]? := by
  obtain he' | ⟨hv, _⟩ := h.operands o ho 0
  · exact he'
  · have hm := edgeOfOwner?_eq_none_iff.mp hn o
    simp [marks, he, hk, List.head?_eq_getElem?, hv] at hm

theorem input_of_isEdge (ho : o ≠ p.nextOp) (he : (p.op o).erased = false) (hk : (p.op o).kind.isEdge) :
    q.input o = p.input o := by
  rw [input, h.operands_of_isEdge hn ho he hk, ← input]

theorem marks (he : e ≠ p.nextOp) : q.marks v e = p.marks v e := by
  have herased : (q.op e).erased = (p.op e).erased := by rw [h.kept e he]
  rw [Program.marks, Program.marks, herased, h.kind he, List.head?_eq_getElem?, List.head?_eq_getElem?]
  cases hx : (p.op e).erased with
  | true  => rfl
  | false =>
    cases hk : (p.op e).kind.isEdge with
    | false => rfl
    | true  => rw [h.operands_of_isEdge hn he hx hk]

omit hn in
theorem marks_nextOp : q.marks v p.nextOp ↔ v = owner := by
  have he : (q.op p.nextOp).erased = false := by
    obtain ⟨_, he⟩ := h.edge
    rw [he]
    rfl
  rw [marks_iff, h.kind_nextOp, h.operands_nextOp, he]
  simp [OpKind.isEdge, eq_comm]

theorem edgeOfOwner?_owner : q.edgeOfOwner? owner = some p.nextOp := by
  refine edgeOfOwner?_eq_some_iff.mpr ⟨h.marks_nextOp.mpr rfl, fun u hu => ?_⟩
  rw [h.marks hn (ne_nextOp hu)]
  exact edgeOfOwner?_eq_none_iff.mp hn u

theorem edgeOfOwner?_eq (hv : p.edgeOfOwner? v = some e) : q.edgeOfOwner? v = some e := by
  obtain ⟨hm, hf⟩ := edgeOfOwner?_eq_some_iff.mp hv
  have hl := index_lt_of_not_erased (marks_iff.mp hm).left
  refine edgeOfOwner?_eq_some_iff.mpr ⟨(h.marks hn (ne_nextOp hl)).trans hm, fun u hu => ?_⟩
  exact (h.marks hn (ne_nextOp (Nat.lt_trans hu hl))).trans (hf u hu)

-- What was there before obeys its own rules if it did before.
theorem formed_of_ne (hp : p.Standing) (hr : Recasts (· ≠ p.nextOp) p q) (ho : o ≠ p.nextOp) (hw : o ∈ q.walk)
    (hf : p.Formed o) : q.Formed o := by
  have hwf := hp.sound.wellFormed
  have hpo := (h.mem_walk_iff ho).mp hw
  refine (hr.retyped hp hw (by simpa using ho)).formed (h.kind ho) (hwf.shaped o) hf fun hk hown => ?_
  rw [h.input_of_isEdge hn ho (hwf.not_erased hpo) hk]
  obtain ⟨w, hw, hs⟩ := checkEdgeOwner_eq_ok_iff.mp hown
  refine checkEdgeOwner_eq_ok_iff.mpr ⟨w, (h.definer _ (hwf.input_lt (OpKind.isUnary_of_isEdge hk))).trans hw, ?_⟩
  have hne : w ≠ p.nextOp := by
    rintro rfl
    simp [Operation.isStructural, OpKind.isGeneric] at hs
  rwa [Operation.isStructural, h.kept w hne]

omit hn in
theorem storedFit (hp : p.WellFormed) (hs : p.StoredFit) : q.StoredFit := by
  intro v t hv hd
  have hv := h.stored v t hv
  have hl : v.index < p.values.length := by
    by_contra hl
    simp [storedSharding, value_of_length_le (Nat.le_of_not_lt hl)] at hv
  rw [checkFits_congr h.meshes (h.types v hl)]
  refine hs v t hv fun u hu => ?_
  have hne : u ≠ p.nextOp := by
    rintro rfl
    simpa using hp.result_of_definer? hl hu
  rw [← hd u ((h.definer v hl).trans hu), h.kept u hne]

-- The new edge operation is the only user of the owner, and the others keep theirs.
theorem edgesApart (hp : p.WellFormed) (ha : p.EdgesApart) : q.EdgesApart := by
  intro e he hk u hu i hi
  have hold (hen : e ≠ p.nextOp) : e ∈ p.walk ∧ (p.op e).kind.isEdge ∧ q.input e = p.input e := by
    have hw := (h.mem_walk_iff hen).mp he
    have hk := h.kind hen ▸ hk
    exact ⟨hw, hk, h.input_of_isEdge hn hen (hp.not_erased hw) hk⟩
  by_cases hun : u = p.nextOp
  case pos =>
    subst hun
    rw [h.operands_nextOp] at hi
    obtain ⟨rfl, hown⟩ : i = 0 ∧ owner = q.input e := by cases i <;> simp_all
    refine ⟨?_, rfl⟩
    by_contra hne
    obtain ⟨hw, hk, hin⟩ := hold (Ne.symm hne)
    have hm := hp.marks_iff.mpr ⟨hp.not_erased hw, hk, rfl⟩
    rw [← hin, ← hown, edgeOfOwner?_eq_none_iff.mp hn e] at hm
    contradiction
  case neg =>
    by_cases hen : e = p.nextOp
    case pos =>
      subst hen
      rw [h.input_nextOp] at hi
      exact absurd (List.mem_of_getElem? hi) (h.alone u hu hun)
    case neg =>
      obtain ⟨hw, hk, hin⟩ := hold hen
      rw [hin] at hi
      obtain hi' | ⟨_, hi'⟩ := h.operands u hun i
      · exact ha e hw hk u ((h.mem_walk_iff hun).mp hu) i (hi' ▸ hi)
      · have hl := hp.input_lt (OpKind.isUnary_of_isEdge hk)
        rw [Option.some.inj (hi.symm.trans hi')] at hl
        exact absurd hl (Nat.lt_irrefl _)

theorem upright (hp : p.Upright) (hq : q.Sound) (ho : owner.index < p.values.length) : q.Upright := by
  have hwf := hp.wellFormed
  have hr := h.recasts hwf hq ho
  refine ⟨hr.standing hp.standing, fun u hu => ?_, h.storedFit hwf hp.stored, h.edgesApart hn hwf hp.apart⟩
  by_cases hun : u = p.nextOp
  case pos => exact hun ▸ h.formed
  case neg => exact h.formed_of_ne hn hp.standing hr hun hu (hp.formed u ((h.mem_walk_iff hun).mp hu))

end Unmarked

end Interposes

end MeshSharding.Program
