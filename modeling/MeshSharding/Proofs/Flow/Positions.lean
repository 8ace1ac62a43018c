import MeshSharding.Proofs.Nesting.Body
import MeshSharding.Proofs.Verify.Sink

namespace MeshSharding.Program

variable {p : Program} {o u t e : OpId} {v w : ValueId} {b c : BlockId} {index i n depth : Nat} {use : Use}

section Regions

theorem regions_flatMap_sublist (ho : o ∈ (p.block b).operations) :
    ((p.op o).regions.flatMap (p.blocksWithin depth)).Sublist (p.blocksWithin (depth + 1) b) := by
  rw [blocksWithin]
  exact (sublist_flatMap (fun u => (p.op u).regions.flatMap (p.blocksWithin depth)) ho).trans
    (List.sublist_cons_self _ _)

-- A walk that goes deep enough meets the regions of an operation as often as the operation has them.
theorem regions_sublist (h : p.Below b n c) (ho : o ∈ (p.block c).operations) (hn : n + 1 < depth) :
    (p.op o).regions.Sublist (p.blocksWithin depth b) := by
  obtain ⟨depth, rfl⟩ := Nat.exists_eq_add_of_lt hn
  induction n generalizing b with
  | zero =>
    cases h
    rw [show 0 + 1 + depth + 1 = depth + 1 + 1 by omega]
    have hhead : (p.op o).regions.Sublist ((p.op o).regions.flatMap (p.blocksWithin (depth + 1))) :=
      sublist_flatMap_cons _
    exact hhead.trans (regions_flatMap_sublist ho)
  | succ n ih =>
    obtain ⟨u, hu, d, hd, h⟩ := h.exists_head
    rw [show n + 1 + 1 + depth + 1 = n + 1 + depth + 1 + 1 by omega]
    exact (ih h (by omega)).trans ((sublist_flatMap _ hd).trans (regions_flatMap_sublist hu))

variable (hp : p.Valid)
include hp

theorem Valid.regions_nodup (ht : p.IsTree) (ho : o ∈ p.walk) : (p.op o).regions.Nodup := by
  obtain ⟨c, hc, ho⟩ := mem_walk_iff.mp ho
  obtain ⟨n, _, hc⟩ := mem_nested_iff.mp hc
  cases hr : (p.op o).regions with
  | nil       => exact .nil
  | cons d ds =>
    have hlevel := hp.shallow (n + 1) d (hc.step ho (by simp [hr]))
    rw [← hr]
    exact (regions_sublist hc ho hlevel).nodup ht

-- A terminator stands nowhere but at the end of a block.
theorem Valid.terminator?_eq_some_iff (hb : b ∈ p.nested) :
    p.terminator? b = some t ↔ t ∈ (p.block b).operations ∧ (p.op t).kind.isTerminator := by
  refine ⟨exists_of_terminator?, fun ⟨ht, hk⟩ => ?_⟩
  rw [terminator?, (hp.terminators b hb t ht).mp hk, Option.filter_some, if_pos hk]

end Regions

section Positions

-- The operand stands in a live operation, and flows into the edge that the edge operation is for.
structure FlowsInto (p : Program) (use : Use) (e : OpId) : Prop where
  live   : p.isLive use.user
  within : use.index < (p.op use.user).operands.length
  edge   : p.edgeForSource? use.user use.index = some e

def operandAt? (p : Program) (use : Use) : Option ValueId :=
  (p.op use.user).operands[use.index]?

-- The position at which a region returns a value for a result, if it returns as many as the operation has results.
def returnedAt? (p : Program) (o : OpId) (index : Nat) (b : BlockId) : Option Use :=
  ((p.terminator? b).filter fun t => (p.op t).operands.length = (p.op o).results.length).map (⟨·, index⟩)

-- The positions of the operands that flow into the edge of a result.
def sourcePositions (p : Program) (o : OpId) (index : Nat) : List Use :=
  (if index < (p.op o).operands.length then [⟨o, index⟩] else []) ++
    (p.op o).regions.filterMap (p.returnedAt? o index)

theorem returnedAt?_eq_some_iff : p.returnedAt? o index b = some use ↔ use.index = index ∧
    p.terminator? b = some use.user ∧ (p.op use.user).operands.length = (p.op o).results.length := by
  obtain ⟨u, i⟩ := use
  simp only [returnedAt?, Option.map_eq_some_iff, Option.filter_eq_some_iff, decide_eq_true_eq, Use.mk.injEq]
  grind

theorem mem_sourcePositions_iff : use ∈ p.sourcePositions o index ↔ use.index = index ∧
    (use.user = o ∧ index < (p.op o).operands.length ∨
      ∃ b ∈ (p.op o).regions, p.terminator? b = some use.user ∧
        (p.op use.user).operands.length = (p.op o).results.length) := by
  obtain ⟨u, i⟩ := use
  simp only [sourcePositions, List.mem_append, List.mem_filterMap, returnedAt?_eq_some_iff]
  split <;> grind

variable {transform : TargetTransform}

theorem map_sourcePositions (hd : p.definitionOf v = .result o index) (hi : index < (p.op o).results.length) :
    (p.sourcePositions o index).map p.operandAt? = ((FlowView.structural o transform).sources p v).map some := by
  simp only [sourcePositions, FlowView.sources, hd, List.map_append, List.map_filterMap]
  congr 1
  · split
    case isTrue h  => simp [operandAt?, h]
    case isFalse h => simp [Nat.le_of_not_lt h]
  · refine List.filterMap_congr fun b _ => ?_
    rw [returnedAt?, returned?]
    cases ht : p.terminator? b with
    | none   => rfl
    | some t =>
      by_cases hl : (p.op t).operands.length = (p.op o).results.length
      case pos => simp [Option.filter_some, operandAt?, hl, hi]
      case neg => simp [Option.filter_some, hl]

theorem sourcePositions_nodup (hp : p.WellFormed) (hr : (p.op o).regions.Nodup)
    (hk : (p.op o).kind.isTerminator = false) : (p.sourcePositions o index).Nodup := by
  refine List.nodup_append.mpr ⟨by split <;> simp, hr.filterMap fun b c use hb hc => ?_, fun use hu use' hu' => ?_⟩
  · -- An operation stands in one block.
    obtain ⟨-, hb, -⟩ := returnedAt?_eq_some_iff.mp hb
    obtain ⟨-, hc, -⟩ := returnedAt?_eq_some_iff.mp hc
    have hb := (exists_of_terminator? hb).left
    have hc := (exists_of_terminator? hc).left
    exact hp.member_unique hb hc
  · rintro rfl
    obtain ⟨b, -, hb⟩ := List.mem_filterMap.mp hu'
    obtain ⟨-, hb, -⟩ := returnedAt?_eq_some_iff.mp hb
    have hterminator := (exists_of_terminator? hb).right
    have huser : use.user = o := by
      split at hu
      · rw [List.mem_singleton.mp hu]
      · contradiction
    simp [huser, hk] at hterminator

end Positions

section Lookups

theorem WellFormed.structuralResult?_eq_some_iff (hp : p.WellFormed) (hs : (p.op o).isStructural)
    (he : (p.op o).erased = false) (hv : (p.op o).results[index]? = some v) :
    p.structuralResult? u i = some v ↔ u = o ∧ i = index := by
  have hd := ((hp.results v o index).mp hv).right
  constructor
  · intro h
    simp only [structuralResult?, Option.ite_none_right_eq_some] at h
    cases hd.symm.trans ((hp.results v u i).mp h.right).right
    exact ⟨rfl, rfl⟩
  · rintro ⟨rfl, rfl⟩
    simp [structuralResult?, hs, he, hv]

-- Looked up from a position, the edge is that of a result of the operation itself or of the one around its block.
theorem WellFormed.edgeForSource?_eq_some_iff (hp : p.WellFormed) (hs : (p.op o).isStructural)
    (he : (p.op o).erased = false) (hv : (p.op o).results[index]? = some v)
    (hedge : ∀ w, p.edgeOfOwner? w = some e ↔ w = v) :
    p.edgeForSource? u i = some e ↔ i = index ∧ (u = o ∨ (p.op u).kind.isTerminator ∧
      (p.op u).block ∈ (p.op o).regions ∧ (p.op u).operands.length = (p.op o).results.length) := by
  have hresult (u : OpId) :
      (∃ w, p.structuralResult? u i = some w ∧ p.edgeOfOwner? w = some e) ↔ u = o ∧ i = index := by
    simp only [hedge, exists_eq_right, hp.structuralResult?_eq_some_iff hs he hv]
  obtain ⟨data, hk⟩ := exists_generic hs
  have hne (hu : (p.op u).kind.isTerminator) : u ≠ o := by
    rintro rfl
    simp [hk, OpKind.isTerminator] at hu
  simp only [edgeForSource?]
  cases hu : (p.op u).kind with
  | generic _ =>
    simp only [Option.bind_eq_bind, Option.bind_eq_some_iff, hresult, OpKind.isTerminator]
    grind
  | terminator =>
    simp only [hp.regions, Option.bind_eq_bind, Option.bind_eq_some_iff, hresult, Option.guard_eq_some',
      OpKind.isTerminator]
    grind [OpKind.isTerminator]
  | _ => grind [OpKind.isTerminator]

-- The operands that flow into the edge stand at the positions of its sources, and nowhere else.
theorem Valid.flowsInto_iff (hp : p.Valid) (hh : p.Housed) (hs : (p.op o).isStructural) (ho : o ∈ p.walk)
    (hv : (p.op o).results[index]? = some v) (hedge : ∀ w, p.edgeOfOwner? w = some e ↔ w = v) :
    p.FlowsInto use e ↔ use ∈ p.sourcePositions o index := by
  have hwf := hp.sound.wellFormed
  have hlive (u : OpId) : p.isLive u ↔ u ∈ p.walk := (hh.mem_walk_iff_isLive hwf hp.sound.rooted).symm
  have hlookup (use : Use) :=
    hwf.edgeForSource?_eq_some_iff (u := use.user) (i := use.index) hs (hwf.not_erased ho) hv hedge
  have hi := (List.getElem?_eq_some_iff.mp hv).choose
  rw [mem_sourcePositions_iff]
  constructor
  · rintro ⟨hu, hl, he⟩
    obtain ⟨rfl, rfl | ⟨hk, hb, hlen⟩⟩ := (hlookup use).mp he
    · exact ⟨rfl, .inl ⟨rfl, hl⟩⟩
    · have hm := hh use.user (hwf.not_erased ((hlive _).mp hu))
      exact ⟨rfl, .inr ⟨_, hb, (hp.terminator?_eq_some_iff (hp.region_mem_nested ho hb)).mpr ⟨hm, hk⟩, hlen⟩⟩
  · rintro ⟨rfl, ⟨rfl, hl⟩ | ⟨b, hb, ht, hlen⟩⟩
    · exact ⟨(hlive _).mpr ho, hl, (hlookup use).mpr ⟨rfl, .inl rfl⟩⟩
    · obtain ⟨hm, hk⟩ := exists_of_terminator? ht
      have hblock := (hwf.members b _ hm).right
      exact {
        live   := (hlive _).mpr (mem_walk_iff.mpr ⟨b, hp.region_mem_nested ho hb, hm⟩)
        within := by omega
        edge   := (hlookup use).mpr ⟨rfl, .inr ⟨hk, hblock ▸ hb, hlen⟩⟩ }

theorem Holds.lt (hp : p.WellFormed) (h : p.Holds v) : v.index < p.values.length := by
  obtain ⟨b, -, hv⟩ | ⟨u, -, hv⟩ := h
  · exact hp.argument_lt hv
  · exact hp.result_lt hv

-- In a program without stray operations, an edge operation counts for the targets of its edge, and the sources of the
-- edge are the operands that flow into it, each once.
theorem edge_lookups_agree (hp : p.Reachable) (hv : p.verify = .ok ()) (ht : p.IsTree)
    (hl : ∀ u, (p.op u).erased = false → p.isLive u) (ho : p.isLive o) (hs : (p.op o).isStructural)
    (hr : v ∈ (p.op o).results) (he : p.edgeOfOwner? v = some e) :
    ∃ view, p.flowView? o = some view ∧ view.edge p v ∈ p.flowEdges ∧
      (∀ w, p.Holds w → (p.edgeForTarget? w = some e ↔ w = v ∨ w ∈ view.targets p v)) ∧
      ∃ positions : List Use, positions.Nodup ∧ (∀ use, use ∈ positions ↔ p.FlowsInto use e) ∧
        positions.map p.operandAt? = (view.sources p v).map some := by
  have hwf := hp.wellFormed
  have hvalid := ((verify_iff hwf).mp hv).left
  have hwalk {u : OpId} (hu : (p.op u).erased = false) : u ∈ p.walk :=
    (hp.mem_walk_iff (ht.rooted hwf)).mpr (hl u hu)
  have hattached : p.EdgesAttached := fun e he _ => hwalk he
  have hregular := hwf.regular_of_verify hv (hattached.owned hvalid)
  have herased := erased_of_isLive ho
  have ho := hwalk herased
  obtain ⟨index, hindex⟩ := List.mem_iff_getElem?.mp hr
  have hd := ((hwf.results v o index).mp hindex).right
  obtain ⟨hee, hk, rfl⟩ := hwf.marks_iff.mp ((hregular.edgeOfOwner?_eq_some_iff hattached).mp he)
  have hedge (w : ValueId) : p.edgeOfOwner? w = some e ↔ w = p.input e := by
    rw [hregular.edgeOfOwner?_eq_some_iff hattached, hwf.marks_iff]
    simp [hee, hk, eq_comm]
  have hview := flowView?_of_structural hs herased
  refine ⟨_, hview, ?_, fun w hw => ?_, p.sourcePositions o index, ?_, fun use => ?_, ?_⟩
  · refine List.mem_flatMap.mpr ⟨_, List.mem_filterMap.mpr ⟨o, ho, hview⟩, ?_⟩
    exact List.mem_map_of_mem hr
  · rw [← List.mem_cons]
    exact hregular.edgeForTarget?_eq_some_iff hattached _ (hwalk hee) hk hd hs herased (hw.lt hwf)
  · obtain ⟨data, hdata⟩ := exists_generic hs
    exact sourcePositions_nodup hwf (hvalid.regions_nodup ht ho) (by simp [hdata, OpKind.isTerminator])
  · exact (hvalid.flowsInto_iff hp.housed hs ho hindex hedge).symm
  · exact map_sourcePositions hd (List.getElem?_eq_some_iff.mp hindex).choose

-- A loop with a second region, which has no argument for the result and returns nothing for it.
def loopWithExit? : Option Program :=
  build "main" [
    .argument ⟨[8], .f32⟩ none,
    .region [⟨[8], .f32⟩],
    .region [],
    .append ⟨1⟩ (.terminator [⟨1⟩]),
    .append ⟨2⟩ (.terminator []),
    .append entry (.generic ⟨"while", false⟩ [⟨0⟩] [⟨[8], .f32⟩] [⟨1⟩, ⟨2⟩]),
    .append entry (.edge ⟨2⟩ none),
    .append entry (.terminator [⟨3⟩])]

def loopWithExit : Program :=
  loopWithExit?.get (by rfl)

theorem edge_lookups_agree_loopWithExit :
    let p := loopWithExit
    p.Reachable ∧ p.verify = .ok () ∧ p.IsTree ∧ p.edgeOfOwner? ⟨2⟩ = some ⟨3⟩ ∧
      (∀ w, p.Holds w → (p.edgeForTarget? w = some ⟨3⟩ ↔ w = ⟨2⟩ ∨ w = ⟨1⟩)) ∧
      ∃ positions : List Use, positions.Nodup ∧ (∀ use, use ∈ positions ↔ p.FlowsInto use ⟨3⟩) ∧
        positions.map p.operandAt? = [some ⟨0⟩, some ⟨1⟩] := by
  intro p
  have hp : p.Reachable := build_reachable (Option.some_get _).symm
  have hv : p.verify = .ok () := by rfl
  have ht : p.nested.Nodup := by decide
  have hl (u : OpId) (hu : (p.op u).erased = false) : p.isLive u := by
    have hlt : u.index < 5 := index_lt_of_not_erased hu
    obtain ⟨i⟩ := u
    simp only at hlt
    interval_cases i <;> rfl
  have he : p.edgeOfOwner? ⟨2⟩ = some ⟨3⟩ := by rfl
  obtain ⟨view, hview, -, htargets, hsources⟩ :=
    edge_lookups_agree (o := ⟨2⟩) hp hv ht hl (by rfl) (by rfl) (by decide) he
  cases (Option.some.inj hview).symm
  refine ⟨hp, hv, ht, he, fun w hw => ?_, hsources⟩
  have htarget : (FlowView.structural ⟨2⟩ (p.transformOf "while")).targets p ⟨2⟩ = [⟨1⟩] := by rfl
  rw [htargets w hw, htarget, List.mem_singleton]

end Lookups

end MeshSharding.Program
