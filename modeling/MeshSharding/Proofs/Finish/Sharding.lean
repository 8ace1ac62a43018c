import MeshSharding.Proofs.Edit.Passes
import MeshSharding.Proofs.Finish.Constraint
import MeshSharding.Proofs.Verify.Sink

namespace MeshSharding.Program

-- The first edge operation on a value that is not part of the program.
def strayOn? (p : Program) (owner : ValueId) : Option OpId :=
  ((List.range p.operations.length).map OpId.mk).find? fun e => p.marks owner e && !p.isLive e

-- The one that counts for a value.
def strayForTarget? (p : Program) (v : ValueId) : Option OpId :=
  (p.strayOn? v).or ((p.ownerOf? v).bind p.strayOn?)

variable {p q : Program} {e o u : OpId} {v w : ValueId} {s : Sharding} {gone : List OpId}

section Strays

theorem strayOn?_eq_some_iff : p.strayOn? v = some e ↔
    p.marks v e ∧ p.isLive e = false ∧ ∀ u : OpId, u.index < e.index → p.marks v u → p.isLive u := by
  simp only [strayOn?, List.find?_map, Option.map_eq_some_iff, List.find?_range_eq_some, Function.comp_apply,
    Bool.and_eq_true, Bool.not_eq_true', List.mem_range]
  constructor
  · rintro ⟨i, ⟨⟨hm, hl⟩, _, hfirst⟩, rfl⟩
    exact ⟨hm, hl, fun u hu hmu => by simpa [hmu] using hfirst u.index hu⟩
  · rintro ⟨hm, hl, hfirst⟩
    refine ⟨e.index, ⟨⟨hm, hl⟩, index_lt_of_not_erased (marks_iff.mp hm).left, fun j hj => ?_⟩, rfl⟩
    simpa using hfirst ⟨j⟩ hj

theorem strayOn?_eq_none_iff : p.strayOn? v = none ↔ ∀ e, p.marks v e → p.isLive e := by
  simp only [strayOn?, List.find?_eq_none, List.mem_map, List.mem_range, forall_exists_index, and_imp]
  constructor
  · intro h e hm
    simpa [hm] using h e e.index (index_lt_of_not_erased (marks_iff.mp hm).left) rfl
  · intro h e _ _ _
    simpa using h e

-- Without the edge operations of the program the others count.
theorem edgeOfOwner?_eq_strayOn? (hm : ∀ e, q.marks v e = (p.marks v e && !p.isLive e)) :
    q.edgeOfOwner? v = p.strayOn? v := by
  ext e
  simp only [edgeOfOwner?_eq_some_iff, strayOn?_eq_some_iff, hm]
  grind

theorem strayOn?_of_not_isLive (h : p.edgeOfOwner? v = some e) (he : p.isLive e = false) : p.strayOn? v = some e := by
  obtain ⟨hm, hfirst⟩ := edgeOfOwner?_eq_some_iff.mp h
  exact strayOn?_eq_some_iff.mpr ⟨hm, he, fun u hu hmu => by simp [hfirst u hu] at hmu⟩

theorem strayOn?_of_eq_none (h : p.edgeOfOwner? v = none) : p.strayOn? v = none :=
  strayOn?_eq_none_iff.mpr fun e he => by simp [edgeOfOwner?_eq_none_iff.mp h e] at he

end Strays

section Sink

-- What is kept with a value after some values have been given the same sharding to keep.
theorem storedSharding_foldl {vs : List ValueId} :
    (vs.foldl (fun (q : Program) v => q.storeSharding v (some s)) p).storedSharding w =
      if w ∈ vs ∧ w.index < p.values.length then some s else p.storedSharding w := by
  induction vs generalizing p with
  | nil => simp
  | cons v vs ih =>
    have hlength : (p.storeSharding v (some s)).values.length = p.values.length := by simp [storeSharding]
    rw [List.foldl_cons, ih, storedSharding_storeSharding, hlength]
    grind

-- While edge operations are taken out, those that are gone have left their shardings with the values of their edges.
structure HandingOver (p q : Program) (gone : List OpId) : Prop where
  sound      : q.Sound
  frame      : Frame p q
  header     : q.header = p.header
  edges      : q.LiveEdgesOwned
  length     : q.values.length = p.values.length
  input      : ∀ e ∈ p.walk, (p.op e).kind.isEdge → q.input e = p.input e
  kind       : ∀ o, (q.op o).kind = (p.op o).kind
  erased     : ∀ o, (p.op o).erased → (q.op o).erased
  structural : ∀ o, (p.op o).isStructural → (q.op o).erased = (p.op o).erased
  marks      : ∀ v e, q.marks v e = (p.marks v e && e ∉ gone)
  written    : ∀ e ∈ gone, ∀ s, (p.op e).kind = .edge (some s) → ∀ v, v.index < p.values.length →
    p.ownerOf? v = some (p.input e) → q.storedSharding v = some s
  kept       : ∀ v, (∀ e ∈ gone, ∀ s, (p.op e).kind = .edge (some s) → p.ownerOf? v ≠ some (p.input e)) →
    q.storedSharding v = p.storedSharding v

theorem transformOf_eq_identity (hi : ∀ entry ∈ p.transforms, entry.2 = .identity) (name : String) :
    p.transformOf name = .identity := by
  rw [transformOf]
  cases h : p.transforms.find? (·.1 = name) with
  | none       => rfl
  | some entry => exact hi entry (List.mem_of_find?_eq_some h)

theorem EdgesApart.eq_of_input_eq (ha : p.EdgesApart) (hp : p.WellFormed) (he : e ∈ p.walk)
    (hk : (p.op e).kind.isEdge) (hu : u ∈ p.walk) (hku : (p.op u).kind.isEdge) (h : p.input u = p.input e) : u = e := by
  have hmem : (p.op u).operands[0]? = some (p.input e) := by
    simp [hp.operands_eq (OpKind.isUnary_of_isEdge hku), h]
  exact (ha e he hk u hu 0 hmem).left

theorem HandingOver.start (hp : p.Sound) (he : p.LiveEdgesOwned) : HandingOver p p [] where
  sound          := hp
  frame          := .refl p
  header         := rfl
  edges          := he
  length         := rfl
  input _ _ _    := rfl
  kind _         := rfl
  erased _ h     := h
  structural _ _ := rfl
  marks v e      := by simp
  written        := by simp
  kept _ _       := rfl

theorem HandingOver.skip (h : HandingOver p q gone) (hk : (p.op o).kind.isEdge = false) :
    HandingOver p q (gone ++ [o]) :=
  { h with
    marks v e    := by
      rw [h.marks]
      by_cases he : e = o
      case pos => simp [he, Program.marks, hk]
      case neg => simp [he]
    written e he s hs := by
      obtain he | he := List.mem_append.mp he
      · exact h.written e he s hs
      · simp [List.mem_singleton.mp he ▸ hs, OpKind.isEdge] at hk
    kept v hv := h.kept v fun e he => hv e (List.mem_append_left _ he) }

variable (h : HandingOver p q gone) (hp : p.Valid) (ho : o ∈ p.walk) (hk : (p.op o).kind.isEdge)
include h hp ho hk

-- Before an edge operation is taken out, the values of its edge keep what it states.
theorem HandingOver.handsOver (hi : ∀ name, p.transformOf name = .identity) : ∃ t : Program,
    q.sinkEdge o = t.bypass o ∧ t.bare = q.bare ∧ t.op = q.op ∧
    (∀ s, (p.op o).kind = .edge (some s) → ∀ v, v.index < p.values.length →
      p.ownerOf? v = some (p.input o) → t.storedSharding v = some s) ∧
    ∀ v, (∀ s, (p.op o).kind = .edge (some s) → p.ownerOf? v ≠ some (p.input o)) →
      t.storedSharding v = q.storedSharding v := by
  have hinput := h.input o ho hk
  obtain ⟨u, index, hd, hs, hu, hr⟩ := hp.exists_owner ho hk
  obtain ⟨sharding, hkind⟩ := OpKind.exists_edge hk
  have hkq : (q.op o).kind = .edge sharding := (h.kind o).trans hkind
  cases sharding with
  | none   => exact ⟨q, by simp [Program.sinkEdge, bypass, hkq], rfl, rfl, by simp [hkind], fun _ _ => rfl⟩
  | some s =>
    have hsq : (q.op u).isStructural := (h.frame.structural u).trans hs
    have huq : (q.op u).erased = false := (h.structural u hs).trans hu
    have hdq : q.definitionOf (q.input o) = .result u index := by rw [hinput, h.frame.definitions, hd]
    have hview : (q.definer? (q.input o)).bind q.flowView? = some (.structural u .identity) := by
      simp [definer?, hdq, flowView?_of_structural hsq huq, transformOf_of_header_eq h.header, hi]
    have hmem (v : ValueId) (hv : v.index < p.values.length) :
        v ∈ q.input o :: (FlowView.structural u .identity).targets q (q.input o) ↔
          p.ownerOf? v = some (p.input o) := by
      rw [← hinput, ← h.frame.ownerOf? h.structural]
      refine h.sound.wellFormed.mem_flow_iff (h.length ▸ hv) hdq ?_
      simp [structuralResult?, hsq, huq, h.frame.results, hr, hinput]
    refine ⟨(q.input o :: (FlowView.structural u .identity).targets q (q.input o)).foldl
      (fun (r : Program) v => r.storeSharding v (some s)) q, ?_, bare_foldl_storeSharding (fun _ => some s) _,
      op_foldl_storeSharding (fun _ => some s) _, fun s' hs v hv hw => ?_, fun v hv => ?_⟩
    · have hidentity (v : ValueId) : (FlowView.structural u .identity).targetSharding q v s = s := rfl
      simp only [sinkEdge_eq_bypass hkq hview, hidentity]
    · cases hkind.symm.trans hs
      rw [storedSharding_foldl, if_pos ⟨(hmem v hv).mpr hw, h.length ▸ hv⟩]
    · rw [storedSharding_foldl, if_neg fun hm => hv s hkind ((hmem v (h.length ▸ hm.right)).mp hm.left)]

-- No two edge operations of the program have the same owner, so that none is handed over what another one was. The
-- same operation may come up again.
theorem HandingOver.step (ha : p.EdgesApart) (hg : gone ⊆ p.walk) (hi : ∀ name, p.transformOf name = .identity) :
    HandingOver p (q.sinkEdge o) (gone ++ [o]) := by
  obtain ⟨t, heq, hbare, hop, hwritten, hkept⟩ := h.handsOver hp ho hk hi
  have hf := Frame.of_bare_eq hbare
  have htp := OpKind.isTransparent_of_isEdge hk
  have ht : (t.op o).kind.isTransparent := by rwa [hop, h.kind]
  have howned := h.edges.of_op hf hop
  have hsound := (h.sound.of_bare_eq hbare).left
  have hr := hsound.wellFormed.regions_eq_nil (OpKind.takesRegions_of_isUnary (OpKind.isUnary_of_isTransparent ht))
  have hlength : t.values.length = q.values.length := read_of_bare_eq (·.values.length) (by simp) hbare
  have hmarks (v : ValueId) (e : OpId) : t.marks v e = q.marks v e := by rw [Program.marks, hop, Program.marks]
  have hd := hsound.bypass_discharges ht
  rw [heq]
  exact {
    sound      := hd.sound
    frame      := (h.frame.trans hf).trans hd.frame
    header     := heq ▸ (keptByEdits_header p.header).sinkEdge h.header o
    edges      := howned.bypass hsound.wellFormed ht
    length     := (length_values_bypass.trans hlength).trans h.length
    input e he hke := by
      have hinput : t.input e = p.input e := by rw [Program.input, hop, ← h.input e he hke, Program.input]
      rw [hsound.wellFormed.input_bypass, hinput]
      rw [hinput, hf.output, h.frame.output]
      exact fun hc => hp.sound.wellFormed.not_checkEdgeOwner htp (hc ▸ hp.checkEdgeOwner he hke)
    kind u     := by rw [(Prunes.bypass o).kind, hop, h.kind]
    erased u hu := (Prunes.bypass o).erased u (hop ▸ h.erased u hu)
    structural u hs := by
      have hne : u ≠ o := by
        rintro rfl
        obtain ⟨_, hkind⟩ := OpKind.exists_edge hk
        obtain ⟨_, hgeneric⟩ := exists_generic hs
        cases hkind.symm.trans hgeneric
      rw [erased_bypass hr, hop, h.structural u hs]
      simp [hne]
    marks v e  := by
      rw [howned.marks_bypass hsound.wellFormed ht, hmarks, h.marks]
      simp [Bool.and_assoc, not_or]
    written e he s hs v hv hw := by
      rw [storedSharding_bypass]
      by_cases heo : e = o
      case pos => exact hwritten s (heo ▸ hs) v hv (heo ▸ hw)
      case neg =>
        have he : e ∈ gone := by simpa [heo] using he
        rw [hkept v fun s' _ hw' => heo ?_, h.written e he s hs v hv hw]
        exact ha.eq_of_input_eq hp.sound.wellFormed ho hk (hg he) (by rw [hs]; rfl)
          (Option.some.inj (hw.symm.trans hw'))
    kept v hv  := by
      rw [storedSharding_bypass, hkept v fun s hs => hv o (by simp) s hs]
      exact h.kept v fun e he => hv e (List.mem_append_left _ he) }

end Sink

section Run

theorem Valid.handingOver (hp : p.Valid) (ha : p.EdgesApart) (he : p.LiveEdgesOwned)
    (hi : ∀ name, p.transformOf name = .identity) : HandingOver p (applyWhere sinkOp p false p.walk).1 p.walk := by
  refine applyWhere_induction_gone (P := HandingOver p) ?step ?skip (.start hp.sound he) false
  case step =>
    intro q r gone o os hw hs h
    simp only [sinkOp, Option.ite_none_right_eq_some, Option.some.injEq] at hs
    obtain ⟨hk, rfl⟩ := hs
    exact h.step hp (by simp [hw]) (h.kind o ▸ hk) ha (by simp [hw]) hi
  case skip =>
    intro q gone o os hw hs h
    refine h.skip ?_
    rw [← h.kind]
    by_contra hk
    simp [sinkOp, hk] at hs

-- Once there are no edge operations any more, finishing changes the sharding of no value.
theorem Sound.drainAll (hp : p.Sound) (he : ∀ e, p.isLive e → (p.op e).kind.isEdge = false) (changed : Bool) :
    Draining p (applyWhere Program.finishOp p changed p.walk).1 p.walk :=
  applyWhere_induction_gone (P := Draining p) (fun _ _ _ _ _ _ hs h => h.step hs) (fun _ _ _ _ _ hs h => h.skip hs)
    (.start hp he) changed

theorem HandingOver.not_isEdge (h : HandingOver p q gone) (hg : ∀ e, p.isLive e → e ∈ gone) (hl : q.isLive e) :
    (q.op e).kind.isEdge = false := by
  by_contra hk
  have hm : q.marks (q.input e) e := h.sound.wellFormed.marks_iff.mpr ⟨erased_of_isLive hl, by simpa using hk, rfl⟩
  simp [h.marks, hg e (h.frame.isLive h.erased hl)] at hm

end Run

section Reading

variable (hv : v.index < p.values.length)
include hv

-- Of the edge operations those count that are left.
theorem HandingOver.edgeForTarget? (h : HandingOver p q gone) (hg : ∀ e, e ∈ gone ↔ p.isLive e) :
    q.edgeForTarget? v = p.strayForTarget? v := by
  have hstray : q.edgeOfOwner? = p.strayOn? := by
    funext w
    exact edgeOfOwner?_eq_strayOn? fun e => by simp [h.marks, hg]
  rw [h.sound.wellFormed.edgeForTarget?_eq (h.length ▸ hv), h.frame.ownerOf? h.structural, hstray, strayForTarget?]

-- One that is not part of the program counts as before.
theorem WellFormed.strayForTarget?_of_not_isLive (hp : p.WellFormed) (h : p.edgeForTarget? v = some e)
    (he : p.isLive e = false) : p.strayForTarget? v = some e := by
  rw [hp.edgeForTarget?_eq hv] at h
  rw [strayForTarget?]
  cases ho : p.edgeOfOwner? v with
  | some u =>
    obtain rfl : u = e := by simpa [ho] using h
    rw [strayOn?_of_not_isLive ho he, Option.some_or]
  | none =>
    simp only [ho, Option.none_or, Option.bind_eq_some_iff] at h
    obtain ⟨w, hw, h⟩ := h
    rw [strayOn?_of_eq_none ho, Option.none_or, hw, Option.bind_some, strayOn?_of_not_isLive h he]

theorem WellFormed.strayForTarget?_of_eq_none (hp : p.WellFormed) (h : p.edgeForTarget? v = none) :
    p.strayForTarget? v = none := by
  rw [hp.edgeForTarget?_eq hv, Option.or_eq_none_iff] at h
  rw [strayForTarget?, strayOn?_of_eq_none h.left, Option.none_or]
  cases hw : p.ownerOf? v with
  | none   => rfl
  | some w =>
    simp only [hw, Option.bind_some] at h
    exact strayOn?_of_eq_none h.right

theorem Valid.strayForTarget?_of_mem_walk (hp : p.Valid) (h : p.edgeForTarget? v = some e) (he : e ∈ p.walk) :
    p.ownerOf? v = some (p.input e) ∧ p.strayForTarget? v = p.strayOn? (p.input e) := by
  have hw := hp.ownerOf?_of_edgeForTarget? he hv h
  refine ⟨hw, ?_⟩
  rw [strayForTarget?, hw, Option.bind_some]
  cases ho : p.edgeOfOwner? v with
  | none   => rw [strayOn?_of_eq_none ho, Option.none_or]
  | some u =>
    obtain rfl : u = e := by simpa [hp.sound.wellFormed.edgeForTarget?_eq hv, ho] using h
    obtain ⟨-, -, rfl⟩ := hp.sound.wellFormed.marks_iff.mp (edgeOfOwner?_eq_some_iff.mp ho).left
    exact Option.or_self

end Reading

section Shardings

theorem HandingOver.shardingAt_edge (h : HandingOver p q gone) : q.shardingAt (.edge e) = p.shardingAt (.edge e) := by
  simp only [shardingAt, h.kind]

theorem sharding_eq_shardingAt_edge (h : p.edgeForTarget? v = some e) : p.sharding v = p.shardingAt (.edge e) :=
  sharding_eq_shardingAt (place?_of_edgeForTarget? h)

-- No operation states the sharding of what belongs to an edge of a structural operation.
theorem sharding_of_ownerOf? (h : p.edgeForTarget? v = none) (hw : p.ownerOf? v = some w) :
    p.sharding v = p.storedSharding v := by
  simp only [Program.sharding, h, Option.map_none]
  cases hd : p.definitionOf v with
  | result o i =>
    obtain ⟨_, hk⟩ := exists_generic_of_structuralResult? (ownerOf?_of_result hd ▸ hw)
    simp [shardingOfResult, hk]
  | argument b i =>
    obtain ⟨parent, hparent, -, hw⟩ := exists_parent_of_ownerOf? hd hw
    obtain ⟨_, hk⟩ := exists_generic_of_structuralResult? hw
    simp [shardingOfArgument, parentKind?, hparent, hk]

variable (h : HandingOver p q p.walk) (hp : p.Valid) (hl : ∀ e, e ∈ p.walk ↔ p.isLive e)
  (hv : v.index < p.values.length)
include h hp hl hv

theorem HandingOver.sharding_of_not_isLive (he : ∀ e, p.edgeForTarget? v = some e → p.isLive e = false) :
    q.sharding v = p.sharding v := by
  have hwf := hp.sound.wellFormed
  have hq := h.edgeForTarget? hv hl
  cases ht : p.edgeForTarget? v with
  | some e =>
    rw [hwf.strayForTarget?_of_not_isLive hv ht (he e ht)] at hq
    rw [sharding_eq_shardingAt_edge hq, sharding_eq_shardingAt_edge ht, h.shardingAt_edge]
  | none =>
    refine h.frame.sharding (by rw [hq, hwf.strayForTarget?_of_eq_none hv ht, ht]) h.kind
      (h.kept v fun e he s hs hw => ?_)
    rw [hwf.edgeForTarget?_eq hv, hw, Option.bind_some, Option.or_eq_none_iff] at ht
    have hm : p.marks (p.input e) e := hwf.marks_iff.mpr ⟨hwf.not_erased he, by rw [hs]; rfl, rfl⟩
    simp [edgeOfOwner?_eq_none_iff.mp ht.right e] at hm

-- Without the edge operation that counted, another one on the same owner does, or what is kept with the value.
theorem HandingOver.sharding_of_isLive (ha : p.EdgesApart) (ht : p.edgeForTarget? v = some e) (he : p.isLive e) :
    q.sharding v = match p.strayOn? (p.input e) with
      | some u => p.shardingAt (.edge u)
      | none   => (p.shardingAt (.edge e)).or (p.storedSharding v) := by
  have hw := (hl e).mpr he
  obtain ⟨howner, hstray⟩ := hp.strayForTarget?_of_mem_walk hv ht hw
  have hq := (h.edgeForTarget? hv hl).trans hstray
  cases hu : p.strayOn? (p.input e) with
  | some u => rw [sharding_eq_shardingAt_edge (hq.trans hu), h.shardingAt_edge]
  | none =>
    rw [sharding_of_ownerOf? (hq.trans hu) ((congrFun (h.frame.ownerOf? h.structural) v).trans howner)]
    obtain ⟨sharding, hk⟩ := edgeForTarget?_kind ht
    cases sharding with
    | some s => simp [shardingAt, hk, h.written e hw s hk v hv howner]
    | none   =>
      simp only [shardingAt, hk, Option.none_or]
      refine h.kept v fun u hu s hs hwu => ?_
      obtain rfl := ha.eq_of_input_eq hp.sound.wellFormed hw (by rw [hk]; rfl) hu (by rw [hs]; rfl)
        (Option.some.inj (hwu.symm.trans howner))
      simp [hk] at hs

end Shardings

-- A value keeps its sharding, unless it reads it from an edge operation of the program, and another edge operation
-- on the owner of the edge states another one, or there is none, the operation states nothing and the value has been
-- given a sharding before.
theorem finish_sharding_eq_iff (hp : p.Reachable) (hv : p.verify = .ok ())
    (hi : ∀ entry ∈ p.transforms, entry.2 = .identity) (hl : v.index < p.values.length) :
    p.finish.1.sharding v = p.sharding v ↔ ∀ e, p.edgeForTarget? v = some e → p.isLive e →
      (∀ u, p.strayOn? (p.input e) = some u → (p.op u).kind = (p.op e).kind) ∧
      (p.strayOn? (p.input e) = none → (p.op e).kind = .edge none → p.storedSharding v = none) := by
  have hw := hp.wellFormed
  obtain ⟨hvalid, halone, -⟩ := (verify_iff hw).mp hv
  have hlive (o : OpId) : o ∈ p.walk ↔ p.isLive o := hp.mem_walk_iff hvalid.sound.rooted
  have hedges : p.LiveEdgesOwned := fun e he hk => hvalid.checkEdgeOwner ((hlive e).mpr he) hk
  have hq := hvalid.handingOver (halone.apart hvalid.sound) hedges (transformOf_eq_identity hi)
  have hfinish : p.finish.1.sharding v = (applyWhere sinkOp p false p.walk).1.sharding v :=
    (hq.sound.drainAll (fun e => hq.not_isEdge fun u => (hlive u).mpr) _).sharding v (hq.length ▸ hl)
  rw [hfinish]
  cases ht : p.edgeForTarget? v with
  | none   => simp [hq.sharding_of_not_isLive hvalid hlive hl (by simp [ht])]
  | some e =>
    by_cases he : p.isLive e
    case neg => simp [hq.sharding_of_not_isLive hvalid hlive hl (by simpa [ht] using he), he]
    case pos =>
      rw [hq.sharding_of_isLive hvalid hlive hl (halone.apart hvalid.sound) ht he, sharding_eq_shardingAt_edge ht]
      obtain ⟨sharding, hk⟩ := edgeForTarget?_kind ht
      cases hu : p.strayOn? (p.input e) with
      | none   => cases sharding <;> simp [shardingAt, he, hk, hu]
      | some u =>
        obtain ⟨_, hku⟩ := OpKind.exists_edge (marks_iff.mp (strayOn?_eq_some_iff.mp hu).left).right.left
        simp [shardingAt, he, hk, hu, hku]

-- A loop with two results, each of which has an edge operation. One of these states a sharding.
def twinLoop? : Option Program :=
  let type : TensorType := ⟨[8], .f32⟩
  build "main" [
    .mesh "mesh" { axes := [⟨"a", 2⟩] },
    .argument type none,
    .region [type, type],
    .append ⟨1⟩ (.terminator [⟨1⟩, ⟨2⟩]),
    .append entry (.generic { name := "while" } [⟨0⟩, ⟨0⟩] [type, type] [⟨1⟩]),
    .append entry (.edge ⟨3⟩ (some ⟨.symbol "mesh", [{ axes := [.whole "a"] }], []⟩)),
    .append entry (.edge ⟨4⟩ none),
    .append entry (.terminator [⟨5⟩, ⟨6⟩])]

def twinLoop : Program :=
  twinLoop?.get (by rfl)

theorem finish_sharding_eq_iff_twinLoop :
    let p := twinLoop
    let q := p.finish.1
    p.Reachable ∧ p.verify = .ok () ∧ (∀ entry ∈ p.transforms, entry.2 = .identity) ∧ 2 < p.values.length ∧
      p.edgeForTarget? ⟨1⟩ = some ⟨2⟩ ∧ p.edgeForTarget? ⟨2⟩ = some ⟨3⟩ ∧ q.walk = [⟨1⟩, ⟨0⟩, ⟨4⟩] ∧
      q.sharding ⟨1⟩ = p.sharding ⟨1⟩ ∧ q.sharding ⟨2⟩ = p.sharding ⟨2⟩ := by
  intro p q
  have hp : p.Reachable := build_reachable (Option.some_get _).symm
  have hv : p.verify = .ok () := by rfl
  have hnone : p.transforms = [] := by rfl
  have hi : ∀ entry ∈ p.transforms, entry.2 = .identity := by simp [hnone]
  have hfirst : p.edgeForTarget? ⟨1⟩ = some ⟨2⟩ := by rfl
  have hsecond : p.edgeForTarget? ⟨2⟩ = some ⟨3⟩ := by rfl
  have hkind : (p.op ⟨2⟩).kind ≠ .edge none := by decide
  refine ⟨hp, hv, hi, by decide, hfirst, hsecond, by decide, ?_, ?_⟩
  · refine (finish_sharding_eq_iff hp hv hi (by decide)).mpr fun e he _ => ?_
    cases hfirst.symm.trans he
    have hstray : p.strayOn? (p.input ⟨2⟩) = none := by decide
    exact ⟨by simp [hstray], fun _ h => absurd h hkind⟩
  · refine (finish_sharding_eq_iff hp hv hi (by decide)).mpr fun e he _ => ?_
    cases hsecond.symm.trans he
    have hstray : p.strayOn? (p.input ⟨3⟩) = none := by decide
    exact ⟨by simp [hstray], fun _ _ => by rfl⟩

-- The result of a loop is given a sharding, and an edge operation without one is put on it.
def buriedLoop? : Option Program :=
  let type : TensorType := ⟨[8], .f32⟩
  build "main" [
    .mesh "mesh" { axes := [⟨"a", 2⟩] },
    .argument type none,
    .region [type],
    .append ⟨1⟩ (.terminator [⟨1⟩]),
    .append entry (.generic { name := "while" } [⟨0⟩] [type] [⟨1⟩])]

def buriedLoopSharded? : Option Program :=
  ((buriedLoop?.get (by rfl)).setSharding ⟨2⟩ ⟨.symbol "mesh", [{ axes := [.whole "a"] }], []⟩).toOption

def buriedLoopMarked? : Option Program :=
  [ .append entry (.edge ⟨2⟩ none),
    .append entry (.terminator [⟨3⟩])].foldlM buildStep? (buriedLoopSharded?.get (by rfl))

-- It has no sharding before it is finished, and that sharding again afterwards.
theorem finish_sharding_ne_buriedLoop :
    let p := buriedLoopMarked?.get (by rfl)
    let q := p.finish.1
    p.Reachable ∧ p.verify = .ok () ∧ p.transforms = [] ∧ q.isLive ⟨1⟩ ∧ ⟨2⟩ ∈ (q.op ⟨1⟩).results ∧
      p.sharding ⟨2⟩ = none ∧ q.sharding ⟨2⟩ = some ⟨.symbol "mesh", [{ axes := [.whole "a"] }], []⟩ := by
  have hp : (buriedLoop?.get (by rfl)).Reachable := build_reachable (Option.some_get _).symm
  have hq : (buriedLoopSharded?.get (by rfl)).Reachable :=
    hp.setSharding (toOption_eq_some_iff.mp (Option.some_get _).symm)
  exact ⟨.foldlM hq (Option.some_get _).symm, by rfl, by rfl, by rfl, by decide, by rfl, by rfl⟩

end MeshSharding.Program
