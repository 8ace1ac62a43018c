import MeshSharding.Proofs.Gap.Edits
import MeshSharding.Proofs.Gap.Passes
import MeshSharding.Proofs.Nesting.Forest
import MeshSharding.Proofs.Seeding.Run
import MeshSharding.Proofs.Verify.Interpose

namespace MeshSharding.Program

variable {p q : Program} {o u : OpId} {v x : ValueId} {s : Sharding} {b c : BlockId} {position : Nat} {g : Gap}

section Last

-- A gap behind all operations and all values.
structure Last (p : Program) (g : Gap) : Prop where
  op    : g.op = p.nextOp
  value : g.value = ⟨p.values.length⟩

namespace Last

variable (h : p.Last g)
include h

theorem past_op (ho : o.index < p.operations.length) : o.past g = o :=
  OpId.past_of_lt (by rw [h.op]; exact ho)

theorem past_value (hv : v.index < p.values.length) : v.past g = v :=
  ValueId.past_of_lt (by rw [h.value]; exact hv)

theorem past_ops {os : List OpId} (ho : ∀ o ∈ os, o.index < p.operations.length) : os.map (·.past g) = os := by
  refine (List.map_congr_left fun o hm => ?_).trans (List.map_id os)
  exact h.past_op (ho o hm)

theorem past_values {vs : List ValueId} (hv : ∀ v ∈ vs, v.index < p.values.length) : vs.map (·.past g) = vs := by
  refine (List.map_congr_left fun v hm => ?_).trans (List.map_id vs)
  exact h.past_value (hv v hm)

variable (hp : p.WellFormed)
include hp

theorem past_opRecord (o : OpId) : (p.op o).past g = p.op o := by
  simp only [Operation.past, h.past_values (hp.operands o), h.past_values fun v hv => hp.result_lt hv]

theorem past_valueRecord (v : ValueId) : (p.value v).past g = p.value v := by
  have huses : (p.value v).uses.map (·.past g) = (p.value v).uses := by
    refine (List.map_congr_left fun use hu => ?_).trans (List.map_id _)
    rw [Use.past, h.past_op (hp.users v use hu), id_eq]
  have hdefinition : (p.value v).definition.past g = (p.value v).definition := by
    by_cases hv : v.index < p.values.length
    case pos =>
      cases hd : (p.value v).definition with
      | argument b i => rfl
      | result o i   =>
        have hr := (hp.results v o i).mpr ⟨hv, hd⟩
        have ho : o.index < p.operations.length := by
          by_contra hl
          simp [op_of_length_le (Nat.le_of_not_lt hl)] at hr
        rw [Definition.past_result, h.past_op ho]
    case neg => rw [value_of_length_le (Nat.le_of_not_lt hv), Definition.past_argument]
  rw [Value.past, huses, hdefinition]

theorem past_blockRecord (b : BlockId) : (p.block b).past g = p.block b := by
  have hparent : (p.block b).parent.map (·.past g) = (p.block b).parent := by
    cases hb : (p.block b).parent with
    | none   => rfl
    | some o => rw [Option.map_some, h.past_op (hp.parent_lt hb)]
  rw [Block.past, h.past_values fun v hv => hp.argument_lt hv, h.past_ops fun o ho => hp.member_lt ho, hparent]

end Last

end Last

theorem WellFormed.nested_lt (hp : p.WellFormed) (hb : b ∈ p.nested) : b.index < p.blocks.length := by
  obtain ⟨n, _, hn⟩ := mem_nested_iff.mp hb
  cases hn with
  | here         => exact hp.body
  | step _ _ hd  =>
    by_contra hl
    have hparent := (hp.regions _ _).mp hd
    simp [block_of_length_le (Nat.le_of_not_lt hl)] at hparent

section Constraint

theorem accepts_constraint (hx : x.index < p.values.length) : p.Accepts (.constraint x s) :=
  ⟨by simpa [NewOp.operands] using hx, by simp [NewOp.regions]⟩

theorem WellFormed.placeConstraint (hp : p.WellFormed) (hx : x.index < p.values.length) (s : Sharding) (b : BlockId)
    (position : Nat) : (p.place b position (.constraint x s)).WellFormed :=
  hp.place (accepts_constraint hx) b position

theorem op_placeConstraint (hx : x.index < p.values.length) (s : Sharding) (b : BlockId) (position : Nat) :
    (p.place b position (.constraint x s)).op p.nextOp =
      { kind := .constraint s, operands := [x], results := [⟨p.values.length⟩], block := b, erased := false } := by
  rw [op_place_nextOp]
  simp [placed, NewOp.kind, NewOp.operands, NewOp.resultTypes, NewOp.regions, nextValues, hx]

theorem insert_constraint (hx : x.index < p.values.length) (hs : p.checkFits s x = .ok ()) :
    p.insert b position (.constraint x s) = .ok (p.place b position (.constraint x s), p.nextOp) := by
  have hnew : p.checkNew (.constraint x s) = .ok () :=
    checkNew_eq_ok_iff.mpr ⟨by simpa [NewOp.operands] using hx, by simp [NewOp.regions], by simp [NewOp.regions]⟩
  have htype : (p.place b position (.constraint x s)).typeOf ⟨p.values.length⟩ = p.typeOf x := by
    rw [typeOf, value_place]
    simp [pushValues, value, typeOf, NewOp.resultTypes, hx]
  refine insert_eq_ok_iff.mpr ⟨hnew, rfl, rfl, ?_⟩
  simp only [checkOp, op_placeConstraint hx]
  refine bind_eq_ok_iff.mpr ⟨x, checkUnary_eq_ok_iff.mpr ⟨_, rfl, rfl, ?_⟩, ?_⟩
  · rw [typeOf_place hx, htype]
  · rwa [checkFits_congr meshes_place (typeOf_place hx)]

end Constraint

section Gap

-- What is left of a constraint that was put in and erased.
def leftover (p : Program) (b : BlockId) (x : ValueId) (s : Sharding) (ho : 0 < p.operations.length)
    (hx : x.index < p.values.length) : Gap where
  op          := p.nextOp
  value       := ⟨p.values.length⟩
  unusedOp    := { p.placed b (.constraint x s) with erased := true }
  unusedValue := { type := p.typeOf x, definition := .result p.nextOp 0 }
  op_pos      := ho
  value_pos   := Nat.zero_lt_of_lt hx
  erased      := rfl
  unset       := rfl

theorem last_leftover (p : Program) (b : BlockId) (s : Sharding) (ho : 0 < p.operations.length)
    (hx : x.index < p.values.length) : p.Last (p.leftover b x s ho hx) :=
  ⟨rfl, rfl⟩

theorem Last.past_eq (h : p.Last g) (hp : p.WellFormed) : p.past g = { p with
    values     := p.values ++ [g.unusedValue]
    operations := p.operations ++ [g.unusedOp] } := by
  have hvalues : p.values.map (·.past g) = p.values := by
    refine (List.map_congr_left fun value hm => ?_).trans (List.map_id _)
    obtain ⟨i, hi, rfl⟩ := List.mem_iff_getElem.mp hm
    simpa [Program.value, List.getElem?_eq_getElem hi] using h.past_valueRecord hp ⟨i⟩
  have hops : p.operations.map (·.past g) = p.operations := by
    refine (List.map_congr_left fun op hm => ?_).trans (List.map_id _)
    obtain ⟨i, hi, rfl⟩ := List.mem_iff_getElem.mp hm
    simpa [Program.op, List.getElem?_eq_getElem hi] using h.past_opRecord hp ⟨i⟩
  have hblocks : p.blocks.map (·.past g) = p.blocks := by
    refine (List.map_congr_left fun block hm => ?_).trans (List.map_id _)
    obtain ⟨i, hi, rfl⟩ := List.mem_iff_getElem.mp hm
    simpa [Program.block, List.getElem?_eq_getElem hi] using h.past_blockRecord hp ⟨i⟩
  have hv : g.value.index = p.values.length := by rw [h.value]
  have ho : g.op.index = p.operations.length := by rw [h.op, nextOp]
  rw [past, hvalues, hops, hblocks, hv, ho, List.insertIdx_length_self, List.insertIdx_length_self]

theorem Last.op_eq (h : p.Last g) (hp : p.WellFormed) :
    (p.past g).op o = if o = p.nextOp then g.unusedOp else p.op o := by
  rw [h.past_eq hp]
  obtain ⟨i⟩ := o
  simp only [Program.op, nextOp, OpId.mk.injEq, getD_concat]

theorem Last.value_eq (h : p.Last g) (hp : p.WellFormed) :
    (p.past g).value v = if v.index = p.values.length then g.unusedValue else p.value v := by
  rw [h.past_eq hp]
  simp only [Program.value, getD_concat]

theorem WellFormed.value_erase_placeConstraint (hp : p.WellFormed) (ho : 0 < p.operations.length)
    (hx : x.index < p.values.length) (hv : v.index < p.values.length + 1) :
    ((p.place b position (.constraint x s)).erase p.nextOp).value v = (p.past (p.leftover b x s ho hx)).value v := by
  have hop := op_placeConstraint hx s b position
  have hother (hvx : v ≠ x) : usesBy p.nextOp (NewOp.constraint x s).operands v = [] := by
    simp [usesBy, NewOp.operands, Ne.symm hvx]
  rw [value_erase_leaf (by rw [hop]) (by rw [hop]), value_place, (p.last_leftover b s ho hx).value_eq hp]
  by_cases hn : v.index = p.values.length
  case pos =>
    have hvx : v ≠ x := by
      rintro rfl
      omega
    rw [if_neg hvx, if_pos hn, hother hvx, value_of_length_le (le_of_eq hn.symm)]
    simp [pushValues, value, hn, NewOp.resultTypes, hx, leftover]
  case neg =>
    have hl : v.index < p.values.length := by omega
    rw [if_neg hn, value_pushValues_of_lt hl, if_pos (Nat.lt_add_right _ hl)]
    split
    case isTrue      => rw [hp.uses_placed]
    case isFalse hvx => rw [hother hvx, List.append_nil]

theorem WellFormed.block_erase_placeConstraint (hp : p.WellFormed) (ho : 0 < p.operations.length)
    (hx : x.index < p.values.length) (c : BlockId) :
    ((p.place b position (.constraint x s)).erase p.nextOp).block c = (p.past (p.leftover b x s ho hx)).block c := by
  have hm : (p.block c).operations.filter (· ≠ p.nextOp) = (p.block c).operations :=
    List.filter_eq_self.mpr fun o ho => by simpa using ne_nextOp (hp.member_lt ho)
  have hregions : ((p.place b position (.constraint x s)).op p.nextOp).regions = [] := by
    rw [op_placeConstraint hx s b position]
  rw [(hp.placeConstraint hx s b position).block_erase_leaf hregions, block_place, past_block,
    (p.last_leftover b s ho hx).past_blockRecord hp]
  dsimp only
  split
  case isTrue  => rw [filter_insertIdx (by simp), hm]; rfl
  case isFalse => rw [hm]; rfl

theorem WellFormed.erase_placeConstraint (hp : p.WellFormed) (ho : 0 < p.operations.length)
    (hx : x.index < p.values.length) :
    (p.place b position (.constraint x s)).erase p.nextOp = p.past (p.leftover b x s ho hx) := by
  have hop := op_placeConstraint hx s b position
  have hoperands : ((p.place b position (.constraint x s)).op p.nextOp).operands = [x] := by rw [hop]
  have hregions : ((p.place b position (.constraint x s)).op p.nextOp).regions = [] := by rw [hop]
  have hpast := (p.last_leftover b s ho hx).past_eq hp
  apply eq_of_lookups
  case hh =>
    have hheader : (p.place b position (.constraint x s)).header = p.header := header_place
    rw [erase_eq_of_leaf hoperands hregions]
    exact hheader
  case hlv => simp [hpast, NewOp.resultTypes, hx]
  case hlo => simp [hpast]
  case hlb => simp
  case hv  => exact fun v hv => hp.value_erase_placeConstraint ho hx (by simpa [hpast] using hv)
  case ho  =>
    intro o _
    rw [op_erase_leaf hregions, op_place, (p.last_leftover b s ho hx).op_eq hp]
    split
    case isTrue h  => simp [leftover, h]
    case isFalse h => simp [h]
  case hb  => exact fun c _ => hp.block_erase_placeConstraint ho hx c

end Gap

section Seeds

theorem WellFormed.hasUses_placeConstraint (hp : p.WellFormed) (hx : x.index < p.values.length) :
    (p.place b position (.constraint x s)).hasUses ⟨p.values.length⟩ = false := by
  have hq := hp.placeConstraint hx s b position
  simp only [hasUses, List.any_eq_false]
  intro use hu hl
  have hi := hq.operand_of_use hu (erased_of_isLive hl)
  rw [op_place] at hi
  split at hi
  case isTrue =>
    have hm := List.mem_of_getElem? hi
    simp only [placed, NewOp.operands, List.mem_singleton] at hm
    exact absurd hx (by simp [← hm])
  case isFalse => exact absurd (hp.operands _ _ (List.mem_of_getElem? hi)) (by simp)

theorem WellFormed.isSettable_placeConstraint (hp : p.WellFormed) (ho : 0 < p.operations.length)
    (hx : x.index < p.values.length) : (p.place b position (.constraint x s)).isSettable x = p.isSettable x := by
  have hpast := past_isSettable (p := p) (g := p.leftover b x s ho hx) (v := x)
  have hkind : ((p.place b position (.constraint x s)).op p.nextOp).kind = .constraint s := by
    rw [op_placeConstraint hx s b position]
  rw [(p.last_leftover b s ho hx).past_value hx, ← hp.erase_placeConstraint ho hx] at hpast
  rw [← isSettable_erase (hp.placeConstraint hx s b position) hkind, hpast]

theorem WellFormed.seeds_placeConstraint (hp : p.WellFormed) (ho : 0 < p.operations.length)
    (hx : x.index < p.values.length) (hs : p.isSettable x) (he : p.edgeForTarget? x = none) :
    (p.place b position (.constraint x s)).Seeds p.nextOp x s := by
  have hop := op_placeConstraint hx s b position
  have hinput : (p.place b position (.constraint x s)).input p.nextOp = x := by simp [input, hop]
  have houtput : (p.place b position (.constraint x s)).output p.nextOp = ⟨p.values.length⟩ := by simp [output, hop]
  refine ⟨hp.placeConstraint hx s b position, by rw [hop], hinput, ?unused, ?settable, fun o t hk h => ?apart⟩
  case unused   => rw [houtput, hp.hasUses_placeConstraint hx]
  case settable => rw [hp.isSettable_placeConstraint ho hx, hs]
  -- What stores a sharding is no constraint.
  case apart    =>
    by_cases hn : o = p.nextOp
    case pos =>
      rw [hn, houtput] at h
      exact absurd hx (by simp [← h])
    case neg =>
      rw [op_place_of_ne hn] at hk
      have hr := hp.results_eq (o := o) (by simp [hk, OpKind.isUnary])
      rw [output, op_place_of_ne hn, ← output] at h
      have hd := ((hp.results x o 0).mp (by rw [hr, h]; rfl)).right
      simp [isSettable, he, hd, hk, OpKind.storesResultShardings] at hs

theorem WellFormed.walk_place (hp : p.WellFormed) :
    (p.place b position (.constraint x s)).walk.filter (· ≠ p.nextOp) = p.walk := by
  rw [(hp.place_rewrites rfl rfl b position).walk]
  exact List.filter_eq_self.mpr fun o ho => by simpa using ne_nextOp (hp.walk_lt ho)

theorem WellFormed.mem_walk_place (hp : p.WellFormed) (hb : b ∈ p.nested)
    (hi : position ≤ (p.block b).operations.length) :
    p.nextOp ∈ (p.place b position (.constraint x s)).walk := by
  have hr : Rewrites (· ≠ p.nextOp) p (p.place b position (.constraint x s)) := hp.place_rewrites rfl rfl b position
  refine mem_walk_iff.mpr ⟨b, hr.nested ▸ hb, ?_⟩
  rw [block_place, if_pos ⟨rfl, hp.nested_lt hb⟩]
  exact (List.mem_insertIdx hi).mpr (.inl rfl)

end Seeds

section Runs

variable {os : List OpId}

theorem past_visit? (hx : x.past g = x) (ho : o = g.op ∨ o.past g = o) :
    visit? g.op x s (q.past g) o = (visit? g.op x s q o).map (·.past g) := by
  rw [visit?, visit?]
  split
  case isTrue =>
    have hs := past_setSharding (p := q) (g := g) (v := x) (s := s)
    rwa [hx] at hs
  case isFalse hn =>
    have hm := past_moveConstraint (p := q) (g := g) (o := o)
    rwa [ho.resolve_left hn] at hm

theorem past_foldlM_visit? (hx : x.past g = x) (ho : ∀ o ∈ os, o = g.op ∨ o.past g = o) :
    os.foldlM (visit? g.op x s) (q.past g) = (os.foldlM (visit? g.op x s) q).map (·.past g) := by
  induction os generalizing q with
  | nil          => rfl
  | cons o os ih =>
    rw [List.foldlM_cons, List.foldlM_cons, past_visit? hx (ho o List.mem_cons_self)]
    cases visit? g.op x s q o with
    | none   => rfl
    | some r => exact ih fun u hu => ho u (List.mem_cons_of_mem o hu)

-- The constraint has the effect of its sharding, if nothing disturbs it.
theorem WellFormed.foldlM_placeConstraint (hp : p.WellFormed) (ho : 0 < p.operations.length)
    (hx : x.index < p.values.length) (hs : p.isSettable x) (he : p.edgeForTarget? x = none) (hb : b ∈ p.nested)
    (hi : position ≤ (p.block b).operations.length) (hu : p.Undisturbed x s) :
    let m := p.place b position (.constraint x s)
    m.walk.foldlM move? m = ((p.seed? x s).bind fun r => r.walk.foldlM move? r).map
      (·.past (p.leftover b x s ho hx)) := by
  intro m
  have hm : m.Seeds p.nextOp x s := hp.seeds_placeConstraint ho hx hs he
  have hc : p.nextOp ∈ m.walk := hp.mem_walk_place hb hi
  have hw : m.walk.filter (· ≠ p.nextOp) = p.walk := hp.walk_place
  have hlast := p.last_leftover b s ho hx
  have hother {o : OpId} (hm : o ∈ m.walk) (hn : o ≠ p.nextOp) : o ∈ p.walk := by
    rw [← hw]
    exact List.mem_filter.mpr ⟨hm, by simpa using hn⟩
  have hpast : ∀ o ∈ m.walk, o = p.nextOp ∨ o.past (p.leftover b x s ho hx) = o := fun o hm => by
    by_cases hn : o = p.nextOp
    case pos => exact .inl hn
    case neg => exact .inr (hlast.past_op (hp.walk_lt (hother hm hn)))
  calc m.walk.foldlM move? m
    _ = m.walk.foldlM (visit? p.nextOp x s) (m.erase p.nextOp) := by
      rw [hm.foldlM_erase, hm.foldlM_of_mem hc]
    _ = (m.walk.foldlM (visit? p.nextOp x s) p).map (·.past (p.leftover b x s ho hx)) := by
      rw [hp.erase_placeConstraint ho hx]
      exact past_foldlM_visit? (hlast.past_value hx) hpast
    _ = ((p.walk.foldlM move? p).bind (·.seed? x s)).map (·.past (p.leftover b x s ho hx)) := by
      rw [((Follows.refl hp).foldlM_visit? fun o hm hn => hu o (hother hm hn)).right hc, hw]
    _ = _ := by rw [hu.foldlM_seed? hp]

end Runs

end MeshSharding.Program
