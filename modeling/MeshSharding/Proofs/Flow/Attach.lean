import MeshSharding.Proofs.Flow.Steps

namespace MeshSharding.Program

-- The edge operations stand between the operation and all that comes after it, and do not use the
-- owners that are left.
structure Attaching (p : Program) (o : OpId) (b : BlockId) (before edges after : List OpId)
    (owners : List ValueId) : Prop where
  place  : (p.block b).operations = before ++ o :: (edges ++ after)
  leaves : ∀ e ∈ edges, (p.op e).regions = []
  others : ∀ e ∈ edges, ∀ v ∈ (p.op e).operands, v ∉ owners
  owned  : owners ⊆ (p.op o).results
  nodup  : owners.Nodup

variable {p q r : Program} {o u e : OpId} {v x owner : ValueId} {b : BlockId}
  {before edges after : List OpId} {owners : List ValueId}

namespace Attaching

theorem skip (h : p.Attaching o b before edges after (owner :: owners)) :
    p.Attaching o b before edges after owners where
  place            := h.place
  leaves           := h.leaves
  others e he v hv := fun hm => h.others e he v hv (List.mem_cons_of_mem owner hm)
  owned _ hv       := h.owned (List.mem_cons_of_mem owner hv)
  nodup            := (List.nodup_cons.mp h.nodup).right

theorem place_append (h : p.Attaching o b before edges after owners) :
    (p.block b).operations = (before ++ o :: edges) ++ after := by
  rw [h.place, List.append_assoc, List.cons_append]

theorem mem_block (h : p.Attaching o b before edges after owners) (hu : u ∈ o :: edges) :
    u ∈ (p.block b).operations := by
  rw [h.place_append]
  exact List.mem_append_left after (List.mem_append_right before hu)

theorem ne_of_mem (h : p.Attaching o b before edges after owners) (hp : p.WellFormed)
    (he : e ∈ edges) : o ≠ e := by
  have hn := h.place ▸ hp.nodup b
  have hn := List.nodup_cons.mp (List.nodup_append.mp hn).right.left
  intro hoe
  exact hn.left (hoe ▸ List.mem_append_left after he)

-- What sees the results of the operation sees those of the edge operations, too.
theorem inScope (h : p.Attaching o b before edges after owners) (hp : p.WellFormed) (he : e ∈ edges)
    (hx : x ∈ (p.op o).results) (hv : v ∈ (p.op e).results) (hs : p.InScope u x) (hu : u ∉ edges) :
    p.InScope u v := by
  induction hs with
  | argument _ ha => exact absurd ha (hp.not_argument_of_result hx)
  | @result c w u x hs hr =>
    have hw := hp.definer_unique hr hx
    subst hw
    have hc := (hp.members c w (hs.subset List.mem_cons_self)).right
    have hb := (hp.members b w (h.mem_block List.mem_cons_self)).right
    have hcb := hc.symm.trans hb
    subst hcb
    have hn := h.place ▸ hp.nodup c
    rw [h.place] at hs
    have hm := (List.mem_append.mp ((pair_sublist_cons_iff hn).mp hs)).resolve_left hu
    refine .result (b := c) (u := e) ?_ hv
    rw [h.place_append]
    have he : e ∈ before ++ w :: edges := List.mem_append_right before (List.mem_cons_of_mem w he)
    exact (List.singleton_sublist.mpr he).append (List.singleton_sublist.mpr hm)
  | @outer c w u x hm hc hr hi _ ih =>
    -- An operation with regions is none of the leaves.
    have hw : w ∉ edges := fun hw => by simp [h.leaves w hw] at hr
    exact .outer hm hc hr hi (ih hx hw)

-- The new edge operation is the only user of its owner among all of them.
theorem placeEdge (h : p.Attaching o b before edges after (owner :: owners)) (hp : p.WellFormed)
    (sharding : Option Sharding) :
    (p.place b (before ++ o :: edges).length (.edge owner sharding)).Attaching o b before
      (edges ++ [p.nextOp]) after owners := by
  have hmem : o ∈ before ++ o :: edges := by simp
  have hop : ∀ u ∈ o :: edges, (p.place b (before ++ o :: edges).length
      (.edge owner sharding)).op u = p.op u := by
    intro u hu
    exact op_place_of_ne (ne_nextOp (hp.member_lt (h.mem_block hu)))
  exact {
    place  := by
      rw [block_placeEdge hmem h.place_append]
      simp
    leaves := by
      intro u hu
      obtain hu | hu := List.mem_append.mp hu
      · rw [hop u (List.mem_cons_of_mem o hu)]
        exact h.leaves u hu
      · rw [List.mem_singleton.mp hu, op_place_nextOp]
        rfl
    others := by
      intro u hu v hv
      obtain hu | hu := List.mem_append.mp hu
      · rw [hop u (List.mem_cons_of_mem o hu)] at hv
        exact h.skip.others u hu v hv
      · rw [List.mem_singleton.mp hu, op_place_nextOp] at hv
        exact List.mem_singleton.mp hv ▸ (List.nodup_cons.mp h.nodup).left
    owned  := by
      rw [hop o List.mem_cons_self]
      exact h.skip.owned
    nodup  := h.skip.nodup }

-- Operands may be replaced by values that are no results of the operation.
theorem relinks (h : p.Attaching o b before edges after owners) (hl : Relinks p q)
    (hn : ∀ u, ∀ v ∈ (q.op u).operands, v ∈ (p.op u).operands ∨ v ∉ (p.op o).results) :
    q.Attaching o b before edges after owners where
  place       := by rw [hl.block, h.place]
  leaves e he := by rw [(hl.alike e).regions, h.leaves e he]
  others e he v hv := by
    obtain hv | hv := hn e v hv
    · exact h.others e he v hv
    · exact fun hm => hv (h.owned hm)
  owned       := by
    rw [(hl.alike o).results]
    exact h.owned
  nodup       := h.nodup

end Attaching

theorem mem_operands_redirect {source target : ValueId} {moved : List Use}
    (hm : ∀ use ∈ moved, (p.op use.user).operands[use.index]? = some source)
    (hv : v ∈ ((p.redirect source target moved).op u).operands) :
    v ∈ (p.op u).operands ∨ v = target := by
  have ⟨i, hi⟩ := List.mem_iff_getElem?.mp hv
  rw [operands_redirect hm] at hi
  split at hi
  case isTrue  => exact .inr (Option.some.inj hi).symm
  case isFalse => exact .inl (List.mem_of_getElem? hi)

-- An edge operation gets between its owner and the other users of this.
theorem Sound.interpose (hp : p.Sound) (h : p.Attaching o b before edges after owners) (he : e ∈ edges)
    (ht : (p.op e).kind.isTransparent) (hx : p.input e ∈ (p.op o).results)
    (hu : ∀ u ∈ edges, u ≠ e → p.input e ∉ (p.op u).operands) :
    let q := p.replaceUsesExcept (p.input e) (p.output e) (some e)
    (q.Sound ∧ KeepsFlow p q) ∧ Relinks p q ∧ q.Attaching o b before edges after owners := by
  intro q
  have hk := OpKind.isUnary_of_isTransparent ht
  have hout : p.output e ∈ (p.op e).results := by simp [hp.wellFormed.results_eq hk]
  have hno : p.output e ∉ (p.op o).results := fun hm =>
    h.ne_of_mem hp.wellFormed he (hp.wellFormed.definer_unique hm hout)
  have hne : p.input e ≠ p.output e := fun hio => hno (hio ▸ hx)
  have hq : q = p.redirect (p.input e) (p.output e) (p.movable (p.input e) (some e)) :=
    replaceUsesExcept_eq hne (some e)
  have hm : ∀ use ∈ p.movable (p.input e) (some e),
      (p.op use.user).operands[use.index]? = some (p.input e) :=
    fun _ => hp.wellFormed.operand_of_movable
  have hn := hp.wellFormed.movable_nodup (p.input e) (some e)
  have hl := hp.wellFormed.relinks_redirect (hp.wellFormed.output_lt hk) hm hn
  rw [hq]
  refine ⟨?_, hl, h.relinks hl fun u v hv => ?_⟩
  case refine_1 =>
    apply hp.redirect (hp.wellFormed.output_lt hk) hm hn
    case hr =>
      intro root hr
      have hd := (hl.definer _).trans (hp.wellFormed.definer?_of_result hout)
      have hi : (p.redirect (p.input e) (p.output e) (p.movable (p.input e) (some e))).input e =
          p.input e := by
        rw [input, operands_redirect hm, if_neg (by simp [mem_movable]), ← input]
      refine .behind hd ((hl.alike e).transparent.trans ht) ?_
      rw [hi]
      exact hr
    case hs =>
      intro use hmem hw
      have hop := List.mem_of_getElem? (hm use hmem)
      have hue : use.user ≠ e := by simpa using (mem_movable.mp hmem).right.left
      have hs := hp.scope use.user hw _ hop
      exact h.inScope hp.wellFormed he hx hout hs fun hm => hu _ hm hue hop
  case refine_2 =>
    obtain hv | rfl := mem_operands_redirect hm hv
    · exact .inl hv
    · exact .inr hno

theorem Sound.attachEdge {targets : List ValueId} (hp : p.Sound)
    (ha : p.Attaching o b before edges after (owner :: owners))
    (h : p.attachEdge b (before ++ o :: edges).length owner targets = .ok q) :
    (q.Sound ∧ KeepsFlow p q) ∧ p.walk ⊆ q.walk ∧
      q.Attaching o b before (edges ++ [p.nextOp]) after owners := by
  obtain ⟨r, e, sharding, hi, hq⟩ := attachEdge_eq_ok h
  obtain ⟨hr, he, _⟩ := insert_eq_ok hi
  have hmem : o ∈ before ++ o :: edges := by simp
  have hown : owner ∈ (p.op o).results := ha.owned List.mem_cons_self
  obtain ⟨hrs, hrf⟩ := hp.placeEdge hmem hown ha.place_append sharding
  have hrw : Rewrites (· ≠ p.nextOp) p (p.place b (before ++ o :: edges).length (.edge owner sharding)) :=
    hp.wellFormed.place_rewrites rfl rfl b _
  have hra := ha.placeEdge hp.wellFormed sharding
  have hop : ∀ u ∈ o :: edges, r.op u = p.op u := by
    intro u hu
    rw [hr]
    exact op_place_of_ne (ne_nextOp (hp.wellFormed.member_lt (ha.mem_block hu)))
  have hedge : r.op e = p.placed b (.edge owner sharding) := by rw [hr, he, op_place_nextOp]
  rw [← hr, ← he] at hra
  rw [← hr] at hrs hrf
  rw [← hr, ← he] at hrw
  have hinput : r.input e = owner := by
    rw [input, hedge]
    rfl
  have hlast : e ∈ edges ++ [e] := List.mem_append_right edges List.mem_cons_self
  have hresult : r.input e ∈ (r.op o).results := by rwa [hinput, hop o List.mem_cons_self]
  have hothers : ∀ u ∈ edges ++ [e], u ≠ e → r.input e ∉ (r.op u).operands := by
    intro u hu hne hv
    have hu : u ∈ edges := by simpa [hne] using hu
    rw [hinput, hop u (List.mem_cons_of_mem o hu)] at hv
    exact ha.others u hu _ hv List.mem_cons_self
  obtain ⟨hqs, hql, hqa⟩ := hrs.interpose hra hlast (by rw [hedge]; rfl) hresult hothers
  rw [hinput] at hqs hql hqa
  have hl := hqs.left.wellFormed.relinks_of_bare_eq hq
  refine ⟨hp.andThen (hp.andThen ⟨hrs, hrf⟩ fun _ => hqs) fun hs => hs.of_bare_eq hq, ?_, ?_⟩
  · intro u hu
    have hne := he ▸ ne_nextOp (hp.wellFormed.walk_lt hu)
    have hu := (hrw.mem_walk_iff (by simpa using hne)).mpr hu
    exact hl.mem_walk_iff.mpr (hql.mem_walk_iff.mpr hu)
  · rw [← he]
    refine hqa.relinks hl fun u v hv => .inl ?_
    rwa [read_of_bare_eq (fun s => (s.op u).operands) (by simp) hq] at hv

theorem Sound.attachEdges {view : FlowView} {position : Nat} (changed : Bool) (hp : p.Sound)
    (ha : p.Attaching o b before edges after owners)
    (hpos : position = (before ++ o :: edges).length) :
    let q := (Program.attachEdges view b p position changed owners).program
    (q.Sound ∧ KeepsFlow p q) ∧ p.walk ⊆ q.walk := by
  induction owners generalizing p position changed edges with
  | nil => exact ⟨⟨hp, .refl p⟩, fun _ h => h⟩
  | cons owner owners ih =>
    rw [Program.attachEdges]
    split
    case isTrue =>
      exact ih changed hp ha.skip hpos
    case isFalse =>
      cases h : p.attachEdge b position owner (view.targets p owner) with
      | error e => exact ⟨⟨hp, .refl p⟩, fun _ h => h⟩
      | ok q =>
        subst hpos
        obtain ⟨hq, hw, ha'⟩ := hp.attachEdge ha h
        have hpos : (before ++ o :: edges).length + 1 =
            (before ++ o :: (edges ++ [p.nextOp])).length := by
          simp
          omega
        obtain ⟨_, hw'⟩ := ih true hq.left ha' hpos
        exact ⟨hp.andThen hq fun hs => (ih true hs ha' hpos).left, fun u hu => hw' (hw hu)⟩

theorem flowView?_structural {u : OpId} {transform : TargetTransform}
    (h : p.flowView? o = some (.structural u transform)) : u = o ∧ (p.op o).isStructural := by
  simp only [flowView?] at h
  split at h
  case _ =>
    split at h
    case isTrue hs =>
      simp only [Option.some.injEq, FlowView.structural.injEq] at h
      exact ⟨h.left.symm, (Bool.and_eq_true_iff.mp hs).left⟩
    case isFalse => contradiction
  case _ => split at h <;> cases h
  case _ => contradiction

theorem exists_generic (hs : (p.op o).isStructural) : ∃ data, (p.op o).kind = .generic data := by
  cases hk : (p.op o).kind with
  | generic data => exact ⟨data, rfl⟩
  | _            => simp [Operation.isStructural, OpKind.isGeneric, hk] at hs

theorem flowView?_of_structural (hs : (p.op o).isStructural) (he : (p.op o).erased = false) :
    p.flowView? o = some (.structural o (p.transformOf (p.op o).mnemonic)) := by
  obtain ⟨data, hk⟩ := exists_generic hs
  simp [flowView?, hk, hs, he, Operation.mnemonic, OpKind.mnemonic]

-- Edge operations are put right behind the operation.
theorem WellFormed.attaching (hp : p.WellFormed) (ho : o ∈ p.walk) : ∃ before after,
    p.positionAfter o = (before ++ [o]).length ∧
      p.Attaching o (p.op o).block before [] after (p.op o).results := by
  obtain ⟨_, hb⟩ := hp.block_nested ho
  obtain ⟨before, after, hs⟩ := List.append_of_mem hb
  have hn := hp.nodup (p.op o).block
  rw [hs] at hn
  refine ⟨before, after, ?_, ⟨hs, by simp, by simp, fun _ h => h, hp.results_nodup o⟩⟩
  have ho : o ∉ before := fun ho =>
    (List.nodup_append.mp hn).right.right o ho o List.mem_cons_self rfl
  have hf : (before ++ o :: after).findIdx? (· = o) = some before.length := by
    have hnone : before.findIdx? (· = o) = none :=
      List.findIdx?_eq_none_iff.mpr fun w hw => decide_eq_false fun h => ho (h ▸ hw)
    rw [List.findIdx?_append, hnone, List.findIdx?_cons]
    simp
  rw [positionAfter, hs]
  simp [hf]

theorem Sound.attachEdgesOf (hp : p.Sound) (ho : o ∈ p.walk) :
    let q := (p.attachEdgesOf o).program
    (q.Sound ∧ KeepsFlow p q) ∧ p.walk ⊆ q.walk := by
  rw [Program.attachEdgesOf]
  split
  case _ u transform h =>
    obtain ⟨rfl, _⟩ := flowView?_structural h
    obtain ⟨before, after, hpos, ha⟩ := hp.wellFormed.attaching ho
    exact hp.attachEdges false ha hpos
  case _ => exact ⟨⟨hp, .refl p⟩, fun _ h => h⟩

end MeshSharding.Program
