import MeshSharding.Proofs.Verify.Edits

namespace MeshSharding

theorem Sharding.satisfies_iff {current : Option Sharding} {required : Sharding} :
    satisfies current required ↔ current.map layout = some required.layout := by
  cases current <;> simp [satisfies, layout, splitsLike]

namespace Program

variable {p q : Program} {o u e : OpId} {v w source target : ValueId} {b : BlockId}
  {keep : OpId → Bool} {collective : Collective}

section Regular

-- All that verification asks, except for reductions, and of edge operations that are not part of the
-- program as well.
structure Regular (p : Program) : Prop where
  valid : p.Valid
  alone : p.EdgesAlone
  owned : p.EdgesOwned

theorem Regular.wellFormed (hp : p.Regular) : p.WellFormed :=
  hp.valid.sound.wellFormed

def EdgesAloneBut (p : Program) (o : OpId) : Prop :=
  ∀ e ∈ p.walk, e ≠ o → (p.op e).kind.isEdge → ∀ use : Use, p.isLive use.user →
    (p.op use.user).operands[use.index]? = some (p.input e) → use = ⟨e, 0⟩

theorem EdgesAloneBut.of_not_isEdge (h : p.EdgesAloneBut o) (ho : (p.op o).kind.isEdge = false) :
    p.EdgesAlone := by
  intro e he hk
  refine h e he (fun heo => ?_) hk
  simp [heo, ho] at hk

theorem Valid.checkEdgeOwner (hp : p.Valid) (he : e ∈ p.walk) (hk : (p.op e).kind.isEdge) :
    p.checkEdgeOwner (p.input e) = .ok () := by
  have hc := hp.checks e he
  obtain ⟨_, h⟩ := OpKind.exists_edge hk
  simp only [Checked, checkOp, h, bind_eq_ok_iff] at hc
  obtain ⟨v, hu, _, ho, _⟩ := hc
  rwa [input_eq_of_checkUnary hu]

-- An edge operation uses its owner alone, so an operation that uses this is the edge operation.
theorem Regular.alone_redirect {moved : List Use} (hp : p.Regular) (ho : o ∈ p.walk)
    (ht : (p.op o).kind.isTransparent)
    (hm : ∀ use ∈ moved, (p.op use.user).operands[use.index]? = some (p.output o)) (hn : moved.Nodup) :
    (p.redirect (p.output o) (p.input o) moved).EdgesAloneBut o := by
  have hr := hp.valid.redirect_reworks ho ht hm hn
  intro e he hne hk use hlive hv
  have he := hr.mem_walk he
  rw [kind_redirect] at hk
  rw [hp.valid.input_redirect_of_owner ht hm (hp.valid.checkEdgeOwner he hk), operands_redirect hm] at hv
  have hlive := hr.frame.isLive (fun _ h => by rwa [erased_redirect]) hlive
  split at hv
  case isTrue hu =>
    have hv := Option.some.inj hv
    have hol := hp.wellFormed.isLive_of_mem_walk hp.valid.sound.rooted ho
    have hoi : (p.op o).operands[0]? = some (p.input e) := by
      simp [hp.wellFormed.operands_eq (OpKind.isUnary_of_isTransparent ht), hv]
    have := hp.alone e he hk ⟨o, 0⟩ hol hoi
    simp only [Use.mk.injEq, and_true] at this
    exact absurd this.symm hne
  case isFalse => exact hp.alone e he hk use hlive hv

theorem Regular.owned_redirect {moved : List Use} (hp : p.Regular) (ho : o ∈ p.walk)
    (ht : (p.op o).kind.isTransparent)
    (hm : ∀ use ∈ moved, (p.op use.user).operands[use.index]? = some (p.output o)) (hn : moved.Nodup) :
    (p.redirect (p.output o) (p.input o) moved).EdgesOwned := by
  have hr := hp.valid.redirect_reworks ho ht hm hn
  refine hp.owned.of_marks hp.wellFormed hr.sound.wellFormed hr.frame fun v e h => ?_
  rwa [hp.valid.marks_redirect hp.owned ht hm] at h

theorem Regular.redirect {moved : List Use} (hp : p.Regular) (ho : o ∈ p.walk)
    (ht : (p.op o).kind.isTransparent) (he : (p.op o).kind.isEdge = false)
    (hm : ∀ use ∈ moved, (p.op use.user).operands[use.index]? = some (p.output o)) (hn : moved.Nodup)
    (hs : ∀ u ∈ p.walk, ⟨u, 0⟩ ∈ moved → ∀ collective, (p.op u).kind = .collective collective →
      p.Settles collective (p.output o) → p.Settles collective (p.input o)) :
    (p.redirect (p.output o) (p.input o) moved).Regular where
  valid := hp.valid.redirect hp.owned ho ht hm hn hs
  alone := (hp.alone_redirect ho ht hm hn).of_not_isEdge (by rwa [kind_redirect])
  owned := hp.owned_redirect ho ht hm hn

theorem Valid.erase_regular (hp : p.Valid) (ha : p.EdgesAloneBut o) (hw : p.EdgesOwned) (ho : o ∈ p.walk)
    (hr : (p.op o).regions = []) (hk : (p.op o).kind.isCore = false)
    (hu : ∀ u ∈ p.walk, ∀ v ∈ (p.op u).operands, v ∉ (p.op o).results)
    (hl : ∀ v, v.index < p.values.length →
      ((p.erase o).sharding v).map Sharding.layout = (p.sharding v).map Sharding.layout) :
    (p.erase o).Regular := by
  have h := hp.standing.erase_reworks (hp.standing.not_last ho hk) hr hk hu
  have he (u : OpId) (hu : (p.op u).erased) : ((p.erase o).op u).erased := by
    rw [op_erase, hu, Bool.true_or]
  have hops (u : OpId) : ((p.erase o).op u).operands = (p.op u).operands := by rw [op_erase]
  refine ⟨hp.erase ho hr hk hu fun u _ _ collective hk hs => hs.of_layout_eq h.frame rfl (hl _ ?_), ?_, ?_⟩
  · exact hp.sound.wellFormed.input_lt (by simp [hk, OpKind.isUnary])
  · intro e hq hk use hlive hv
    rw [op_erase] at hk
    rw [hops, input_erase] at hv
    exact ha e (h.mem_walk hq) (by simpa using h.kept e hq) hk use (h.frame.isLive he hlive) hv
  · refine hw.of_marks hp.sound.wellFormed h.sound.wellFormed h.frame fun v e hm => ?_
    obtain ⟨hq, hk, hv⟩ := h.sound.wellFormed.marks_iff.mp hm
    rw [op_erase] at hk
    refine hp.sound.wellFormed.marks_iff.mpr ⟨?_, hk, input_erase ▸ hv⟩
    by_contra hc
    simp [he e (by simpa using hc)] at hq

theorem Regular.erase (hp : p.Regular) (ho : o ∈ p.walk) (hr : (p.op o).regions = [])
    (hk : (p.op o).kind.isCore = false) (he : (p.op o).kind.isEdge = false)
    (hu : ∀ u ∈ p.walk, ∀ v ∈ (p.op u).operands, v ∉ (p.op o).results) : (p.erase o).Regular :=
  hp.valid.erase_regular (fun e h _ => hp.alone e h) hp.owned ho hr hk hu fun v _ => by
    rw [sharding_erase hr he]

-- No operation of the program uses its own result.
theorem Sound.output_ne_input (hp : p.Sound) (ho : o ∈ p.walk) (hk : (p.op o).kind.isUnary) :
    p.output o ≠ p.input o := by
  intro he
  have hi := hp.scope o ho (p.input o) (by simp [hp.wellFormed.operands_eq hk])
  exact hp.wellFormed.not_inScope_of_result hp.rooted ho (by simp [hp.wellFormed.results_eq hk, he]) hi

theorem Sound.bypass_eq (hp : p.Sound) (ho : o ∈ p.walk) (hk : (p.op o).kind.isUnary) : p.bypass o =
    (p.redirect (p.output o) (p.input o) (p.movable (p.output o) none)).erase o := by
  rw [Program.bypass, replaceUses, replaceUsesExcept_eq (hp.output_ne_input ho hk)]

-- An operation that hands on its operand goes, if all collectives that used its result are satisfied
-- with the operand as well.
theorem Regular.bypass (hp : p.Regular) (ho : o ∈ p.walk) (ht : (p.op o).kind.isTransparent)
    (hs : ∀ u ∈ p.walk, p.input u = p.output o → ∀ collective, (p.op u).kind = .collective collective →
      p.Settles collective (p.output o) → p.Settles collective (p.input o))
    (hl : ∀ v, v.index < p.values.length →
      ((p.bypass o).sharding v).map Sharding.layout = (p.sharding v).map Sharding.layout) :
    (p.bypass o).Regular := by
  have hwf := hp.wellFormed
  have hk := OpKind.isUnary_of_isTransparent ht
  have hm : ∀ use ∈ p.movable (p.output o) none,
      (p.op use.user).operands[use.index]? = some (p.output o) :=
    fun _ => hwf.operand_of_movable
  have hn := hwf.movable_nodup (p.output o) none
  have hr := hp.valid.redirect_reworks ho ht hm hn
  have hv := hp.valid.redirect hp.owned ho ht hm hn fun u hu hmoved => hs u hu <| by
    have := hm _ hmoved
    simp only at this
    simp [input, this]
  rw [hp.valid.sound.bypass_eq ho hk] at hl ⊢
  refine hv.erase_regular (hp.alone_redirect ho ht hm hn) (hp.owned_redirect ho ht hm hn)
    (hr.rewrites.mem_walk_iff rfl |>.mpr ho) ?_ ?_ ?_ ?_
  · rw [regions_redirect]
    exact hwf.regions_eq_nil (OpKind.takesRegions_of_isUnary hk)
  · rw [kind_redirect]
    simp [OpKind.isCore, ht]
  · intro u hu v hv
    rw [results_redirect, hwf.results_eq hk, List.mem_singleton]
    rintro rfl
    exact hwf.unused_of_redirect hp.valid.sound.rooted (hp.valid.sound.output_ne_input ho hk) (by simp)
      (hr.mem_walk hu) hv
  · intro v hv
    rw [hl v (by simpa using hv), hp.valid.sharding_redirect hp.owned ht hm]

-- What is left after an operation has been bypassed.
structure Bypasses (p q : Program) (o : OpId) : Prop where
  frame  : Frame p q
  length : q.values.length = p.values.length
  nested : q.nested = p.nested
  walk   : ∀ u, u ∈ q.walk ↔ u ∈ p.walk ∧ u ≠ o
  kind   : ∀ u, (q.op u).kind = (p.op u).kind
  erased : ∀ u, (q.op u).erased = ((p.op u).erased || u = o)
  input  : ∀ u, (p.output o ∈ (p.op u).operands ∧ p.input u = p.output o ∧ q.input u = p.input o) ∨
    q.input u = p.input u
  stored : ∀ v, q.storedSharding v = p.storedSharding v
  marks  : ∀ v e, q.marks v e = (p.marks v e && e ≠ o)

theorem Regular.bypasses (hp : p.Regular) (ho : o ∈ p.walk) (ht : (p.op o).kind.isTransparent) :
    Bypasses p (p.bypass o) o := by
  have hwf := hp.wellFormed
  have hk := OpKind.isUnary_of_isTransparent ht
  have hr := hwf.regions_eq_nil (OpKind.takesRegions_of_isUnary hk)
  have hm : ∀ use ∈ p.movable (p.output o) none,
      (p.op use.user).operands[use.index]? = some (p.output o) :=
    fun _ => hwf.operand_of_movable
  have hl := hwf.relinks_redirect (hwf.input_lt hk) hm (hwf.movable_nodup _ _)
  rw [hp.valid.sound.bypass_eq ho hk]
  have hr' : ((p.redirect (p.output o) (p.input o) (p.movable (p.output o) none)).op o).regions = [] := by
    rw [regions_redirect, hr]
  have he := hl.wellFormed.erase_rewrites hr' (by simp [OpKind.isCore, ht])
  exact {
    frame    := .trans .redirect .erase
    length   := by rw [length_values_erase, length_values_redirect]
    nested   := he.nested.trans hl.rewrites.nested
    walk u   := by
      by_cases hu : u = o
      case pos =>
        simp only [hu, ne_eq, not_true_eq_false, and_false, iff_false]
        exact fun h => hl.wellFormed.ne_of_mem_walk_erase hr' h rfl
      case neg => rw [he.mem_walk_iff (by simpa using hu), hl.mem_walk_iff, and_iff_left hu]
    kind u   := by rw [op_erase, kind_redirect]
    erased u := by rw [op_erase_leaf hr', erased_redirect]
    input u  := by
      rw [input_erase]
      exact (input_redirect hm u).imp (And.imp_left fun h => List.mem_of_getElem? (hm _ h)) And.right
    stored v := by rw [storedSharding_erase, storedSharding_redirect]
    marks v e := by
      rw [← hp.valid.marks_redirect hp.owned ht hm]
      simp only [marks, op_erase_leaf hr']
      by_cases h : e = o <;> simp [h] }

theorem Bypasses.structural (h : Bypasses p q o) (ht : (p.op o).kind.isTransparent)
    (hu : (p.op u).isStructural) : (q.op u).erased = (p.op u).erased := by
  have hne : u ≠ o := by
    rintro rfl
    cases hk : (p.op u).kind <;>
      simp [hk, Operation.isStructural, OpKind.isGeneric, OpKind.isTransparent] at hu ht
  simp [h.erased, hne]

theorem Regular.sharding_bypass (hp : p.Regular) (ho : o ∈ p.walk) (ht : (p.op o).kind.isTransparent)
    (he : (p.op o).kind.isEdge = false) (v : ValueId) : (p.bypass o).sharding v = p.sharding v := by
  have h := hp.bypasses ho ht
  refine h.frame.sharding ?_ h.kind (h.stored v)
  refine congrFun (h.frame.edgeForTarget? (fun w e => ?_) fun u => h.structural ht) v
  rw [h.marks]
  by_cases heo : e = o <;> simp [heo, marks, he]

end Regular

section Stored

-- What is kept with a value does not count as long as an edge operation keeps a sharding for it.
theorem sharding_storeSharding {s : Option Sharding} (hv : (p.edgeForTarget? v).isSome) :
    (p.storeSharding v s).sharding w = p.sharding w := by
  have ht : (p.storeSharding v s).edgeForTarget? = p.edgeForTarget? :=
    (Frame.storeSharding s).edgeForTarget? (fun _ _ => rfl) fun _ _ => rfl
  by_cases hw : w = v
  case pos =>
    subst hw
    obtain ⟨e, he⟩ := Option.isSome_iff_exists.mp hv
    obtain ⟨_, hk⟩ := edgeForTarget?_kind he
    simp [Program.sharding, ht, he, hk]
  case neg =>
    refine (Frame.storeSharding s).sharding (congrFun ht w) (fun _ => rfl) ?_
    simp [storedSharding_storeSharding, hw]

theorem Regular.storeSharding {s : Sharding} (hp : p.Regular) (hv : (p.edgeForTarget? v).isSome)
    (hf : p.checkFits s v = .ok ()) : (p.storeSharding v (some s)).Regular := by
  have hb : (p.storeSharding v (some s)).bare = p.bare := bare_storeSharding _
  have h := hp.valid.sound.reworks_of_bare_eq hb
  refine ⟨h.valid hp.valid (fun u hu => ?_) fun w t hw hd => ?_, ?_, ?_⟩
  · have hw := h.mem_walk hu
    refine (h.retyped hp.valid.standing hu).checked rfl (hp.wellFormed.shaped u)
      (hp.valid.checks u hw) (fun collective _ hs => ?_) fun _ he => h.frame.checkEdgeOwner he
    exact hs.of_layout_eq h.frame rfl (by rw [sharding_storeSharding hv]; rfl)
  · by_cases hwv : w = v
    case pos =>
      subst hwv
      rw [storedSharding_storeSharding] at hw
      split at hw
      case isTrue  => cases hw; rwa [checkFits_congr h.frame.meshes (congrFun h.frame.types w)]
      case isFalse hl =>
        have hl : p.values.length ≤ w.index := by simpa using hl
        simp [storedSharding, value_of_length_le hl] at hw
    case neg =>
      refine h.stored hp.valid.stored (fun _ he => he) ?_ t hw hd
      simp [storedSharding_storeSharding, hwv]
  · exact fun e he hk use hlive hv =>
      hp.alone e (h.mem_walk he) hk use (h.frame.isLive (fun _ he => he) hlive) hv
  · exact hp.owned.of_marks hp.wellFormed h.sound.wellFormed h.frame fun _ _ hm => hm

end Stored

section Kinds

theorem marks_setKind {kind : OpKind} (he : (p.op o).kind.isEdge = false) (hk : kind.isEdge = false)
    (v : ValueId) (e : OpId) : (p.setKind o kind).marks v e = p.marks v e := by
  simp only [marks, op_setKind]
  split
  case isTrue h => simp [h.left, he, hk]
  case isFalse  => rfl

theorem kind_setKind_of_ne {kind : OpKind} (h : u ≠ o) : ((p.setKind o kind).op u).kind = (p.op u).kind := by
  simp [op_setKind, h]

theorem kind_setKind_of_transparent {kind : OpKind} (h : (p.op o).kind.isTransparent) :
    ((p.setKind o kind).op o).kind = kind :=
  kind_setKind_self fun hk => by simp [hk, OpKind.isTransparent] at h

theorem Valid.setReshard_reworks {s : Sharding} (hp : p.Valid) (ht : (p.op o).kind.isTransparent) :
    Reworks (fun _ => true) p (p.setKind o (.reshard s)) where
  rewrites       := (hp.sound.wellFormed.relinks_setKind ht rfl).rewrites
  frame          := .setKind (OpKind.isUnary_of_isTransparent ht) rfl
  sound          := (hp.sound.setKind ht rfl).left
  kept _ _       := rfl
  last _         := rfl
  terminator u   := by
    by_cases hu : u = o
    · subst hu
      rw [kind_setKind_of_transparent ht]
      cases hk : (p.op u).kind <;> simp [hk, OpKind.isTransparent] at ht <;> simp [OpKind.isTerminator]
    · rw [kind_setKind_of_ne hu]
  group u id hk  := by
    by_cases hu : u = o
    · simp [hu, kind_setKind_of_transparent ht] at hk
    · rwa [kind_setKind_of_ne hu] at hk
  operands u _   := by rw [op_setKind]

-- A change of sharding asks of the operation what it asked before, and that the sharding fits.
theorem Valid.checked_setReshard {s : Sharding} (hp : p.Valid) (ho : o ∈ p.walk)
    (ht : (p.op o).kind.isTransparent) (hf : p.checkFits s (p.input o) = .ok ()) :
    (p.setKind o (.reshard s)).Checked o := by
  have h := hp.setReshard_reworks (s := s) ht
  obtain ⟨r, hv, hr, htype⟩ :=
    checkUnary_eq_ok_iff.mp ((hp.checks o ho).checkUnary (OpKind.isUnary_of_isTransparent ht))
  simp only [Checked, checkOp, kind_setKind_of_transparent ht, bind_eq_ok_iff]
  refine ⟨p.input o, checkUnary_eq_ok_iff.mpr ⟨r, by rw [op_setKind, hv], ?_, ?_⟩, ?_⟩
  · rw [h.frame.results, hr]
  · rw [h.frame.types, htype]
  · rw [checkFits_congr h.frame.meshes (congrFun h.frame.types _), hf]

-- No sharding changes, if the result is sharded like this already or an edge operation keeps its sharding.
theorem WellFormed.sharding_setReshard {s : Sharding} (hwf : p.WellFormed) (ht : (p.op o).kind.isTransparent)
    (he : (p.op o).kind.isEdge = false)
    (hs : p.edgeForTarget? (p.output o) = none → p.sharding (p.output o) = some s)
    (hv : v.index < p.values.length) : (p.setKind o (.reshard s)).sharding v = p.sharding v := by
  have hunary := OpKind.isUnary_of_isTransparent ht
  have hf : Frame p (p.setKind o (.reshard s)) := .setKind hunary rfl
  have ht' : (p.setKind o (.reshard s)).edgeForTarget? = p.edgeForTarget? :=
    hf.edgeForTarget? (marks_setKind he rfl) fun u _ => by rw [op_setKind]
  cases hedge : p.edgeForTarget? v with
  | some e =>
    obtain ⟨_, hk⟩ := edgeForTarget?_kind hedge
    have hne : e ≠ o := by
      rintro rfl
      simp [hk, OpKind.isEdge] at he
    simp [Program.sharding, ht', hedge, kind_setKind_of_ne hne, hk]
  | none =>
    cases hd : p.definitionOf v with
    | result u i =>
      by_cases hu : u = o
      case pos =>
        subst hu
        have hr := List.mem_of_getElem? ((hwf.results v u i).mpr ⟨hv, hd⟩)
        rw [hwf.results_eq hunary, List.mem_singleton] at hr
        subst hr
        have hs := hs hedge
        simp only [Program.sharding, ht', hf.definitions, hedge, hd, Option.map_none] at hs ⊢
        rw [hs]
        simp [shardingOfResult, kind_setKind_of_transparent ht]
      case neg =>
        simp only [Program.sharding, ht', hf.definitions, hedge, hd, Option.map_none, shardingOfResult,
          kind_setKind_of_ne hu]
        rfl
    | argument b i =>
      simp only [Program.sharding, ht', hf.definitions, hedge, hd, Option.map_none, shardingOfArgument,
        parentKind?, hf.parents]
      cases hb : (p.block b).parent with
      | none   => rfl
      | some u =>
        have hu : u ≠ o := by
          rintro rfl
          have hr := (hwf.regions b u).mpr hb
          simp [hwf.regions_eq_nil (OpKind.takesRegions_of_isUnary hunary)] at hr
        simp only [Option.map_some, kind_setKind_of_ne hu]
        rfl

variable {s : Sharding} (hp : p.Regular) (ho : o ∈ p.walk) (ht : (p.op o).kind.isTransparent)
  (he : (p.op o).kind.isEdge = false) (hs : p.sharding (p.output o) = some s)
include hp ho ht he hs

-- An operation that hands on its operand becomes a change to the sharding that its result has.
theorem Regular.setReshard (hf : p.checkFits s (p.input o) = .ok ()) :
    (p.setKind o (.reshard s)).Regular := by
  have hwf := hp.wellFormed
  have h := hp.valid.setReshard_reworks (s := s) ht
  have hops (u : OpId) : ((p.setKind o (.reshard s)).op u).operands = (p.op u).operands := by
    rw [op_setKind]
  have hin (u : OpId) : (p.setKind o (.reshard s)).input u = p.input u := by rw [input, hops, input]
  have herased (u : OpId) : ((p.setKind o (.reshard s)).op u).erased = (p.op u).erased := by rw [op_setKind]
  refine ⟨h.valid hp.valid (fun u hu => ?_) (fun w => h.stored hp.valid.stored (fun u hu => herased u ▸ hu) rfl),
    ?_, ?_⟩
  · have hw := h.mem_walk hu
    by_cases huo : u = o
    case pos =>
      rw [huo]
      exact hp.valid.checked_setReshard ho ht hf
    case neg =>
      refine (h.retyped hp.valid.standing hu).checked (kind_setKind_of_ne huo) (hwf.shaped u)
        (hp.valid.checks u hw) ?_ ?_
      · intro collective hk hc
        have hlt := hwf.input_lt (o := u) (by simp [hk, OpKind.isUnary])
        rw [hin]
        exact hc.of_layout_eq h.frame rfl (by rw [hwf.sharding_setReshard ht he (fun _ => hs) hlt])
      · rw [hin]
        exact fun _ => h.frame.checkEdgeOwner
  · intro e hew hk use hlive hv
    rw [hops, hin] at hv
    have hne : e ≠ o := by
      rintro rfl
      simp [kind_setKind_of_transparent ht, OpKind.isEdge] at hk
    rw [kind_setKind_of_ne hne] at hk
    exact hp.alone e (h.mem_walk hew) hk use (h.frame.isLive (fun u hu => herased u ▸ hu) hlive) hv
  · exact hp.owned.of_marks hwf h.sound.wellFormed h.frame fun w e hm => by rwa [marks_setKind he rfl] at hm

end Kinds

section Held

-- What a pass goes over is part of the program until it is taken out.
def Held (p : Program) (o : OpId) : Prop :=
  o ∈ p.walk ∨ (p.op o).erased

theorem Held.erase (h : p.Held u) (hp : p.WellFormed) (hr : (p.op o).regions = [])
    (hk : (p.op o).kind.isCore = false) : (p.erase o).Held u := by
  by_cases hu : u = o
  case pos =>
    refine .inr ?_
    simp [op_erase_leaf hr, hu]
  case neg =>
    refine h.imp (fun hw => ?_) fun he => ?_
    · exact ((hp.erase_rewrites hr hk).mem_walk_iff (by simpa using hu)).mpr hw
    · rw [op_erase_leaf hr, he, Bool.true_or]

theorem Held.redirect {moved : List Use} (h : p.Held u) (hp : p.WellFormed)
    (ht : target.index < p.values.length)
    (hm : ∀ use ∈ moved, (p.op use.user).operands[use.index]? = some source) (hn : moved.Nodup) :
    (p.redirect source target moved).Held u :=
  h.imp (hp.relinks_redirect ht hm hn).mem_walk_iff.mpr fun he => by rwa [erased_redirect]

theorem Held.bypass (h : p.Held u) (hp : p.Regular) (ho : o ∈ p.walk)
    (ht : (p.op o).kind.isTransparent) : (p.bypass o).Held u := by
  have hb := hp.bypasses ho ht
  by_cases hu : u = o
  case pos => exact .inr (by simp [hb.erased, hu])
  case neg => exact h.imp (fun hw => (hb.walk u).mpr ⟨hw, hu⟩) fun he => by simp [hb.erased, he]

end Held

section Handed

theorem WellFormed.definitionOf_output (hp : p.WellFormed) (ho : (p.op o).kind.isUnary) :
    p.definitionOf (p.output o) = .result o 0 := by
  have hr : (p.op o).results[0]? = some (p.output o) := by simp [hp.results_eq ho]
  exact ((hp.results _ o 0).mp hr).right

theorem WellFormed.sharding_output (hp : p.WellFormed) (ho : (p.op o).kind.isUnary)
    (he : p.edgeForTarget? (p.output o) = none) : p.sharding (p.output o) = p.shardingOfResult (p.output o) o 0 := by
  simp only [sharding, he, hp.definitionOf_output ho, Option.map_none]

variable (hp : p.Regular)
include hp

-- No edge operation keeps the sharding of a result that is handed on.
theorem Regular.sharding_output (ht : (p.op o).kind.isTransparent) :
    p.sharding (p.output o) = p.shardingOfResult (p.output o) o 0 := by
  have hu := OpKind.isUnary_of_isTransparent ht
  have he : p.edgeOfOwner? (p.output o) = none :=
    edgeOfOwner?_eq_none_iff.mpr (hp.owned.not_marks hp.wellFormed ht)
  refine hp.wellFormed.sharding_output hu ?_
  simp only [edgeForTarget?, he, hp.wellFormed.definitionOf_output hu]

theorem Regular.typeOf_eq (ho : o ∈ p.walk) (ht : (p.op o).kind.isTransparent) :
    p.typeOf (p.input o) = p.typeOf (p.output o) :=
  (hp.valid.checks o ho).typeOf_eq (OpKind.isUnary_of_isTransparent ht)

-- What is satisfied with a value is satisfied with one that is split alike on the same mesh.
theorem Regular.settles_of_satisfies (ho : o ∈ p.walk) (ht : (p.op o).kind.isTransparent) {s : Sharding}
    (hs : p.sharding (p.output o) = some s) (h : Sharding.satisfies (p.sharding (p.input o)) s)
    (hc : p.Settles collective (p.output o)) : p.Settles collective (p.input o) := by
  refine hc.of_layout_eq (.refl p) (hp.typeOf_eq ho ht) ?_
  rw [hs, Sharding.satisfies_iff.mp h, Option.map_some]

end Handed

theorem WellFormed.regular_of_verify (hp : p.WellFormed) (hv : p.verify = .ok ()) (he : p.EdgesOwned) :
    p.Regular :=
  have ⟨hvalid, halone, _⟩ := (verify_iff hp).mp hv
  ⟨hvalid, halone, he⟩

theorem Regular.verify_iff (hp : p.Regular) : p.verify = .ok () ↔ p.ReductionsFree := by
  rw [Program.verify_iff hp.wellFormed]
  exact ⟨fun h => h.right.right, fun h => ⟨hp.valid, hp.alone, h⟩⟩

end Program

end MeshSharding
