import MeshSharding.Pipeline.Prepare
import MeshSharding.Proofs.Verify.Edits

namespace MeshSharding

theorem Sharding.check_fullyOpen {meshes : MeshTable} {ref : MeshRef} {mesh : Mesh}
    (h : meshes.resolve ref = .ok mesh) (shape : List Nat) :
    (fullyOpen ref shape.length).check meshes shape = .ok () := by
  have hu (index : Nat) (shape : List Nat) : useDims mesh index []
      ((List.replicate shape.length { closed := false }).zip shape) = .ok [] := by
    induction shape generalizing index with
    | nil => rfl
    | cons size shape ih =>
      have hc : DimSharding.shardCount { closed := false } mesh = .ok 1 := rfl
      rw [List.length_cons, List.replicate_succ, List.zip_cons_cons, useDims, bind_eq_ok_iff]
      refine ⟨[], rfl, ?_⟩
      rw [check_bind_eq_ok_iff, bind_eq_ok_iff]
      exact ⟨rfl, 1, hc, check_bind_eq_ok_iff.mpr ⟨require_eq_ok_iff.mpr (Nat.mod_one size), ih _⟩⟩
  rw [check, bind_eq_ok_iff]
  refine ⟨mesh, h, ?_⟩
  rw [checkIn, check_bind_eq_ok_iff, bind_eq_ok_iff]
  exact ⟨require_eq_ok_iff.mpr (by simp [fullyOpen, rank]), [], hu 0 shape, rfl⟩

namespace Program

variable {p q m r : Program} {o u : OpId} {v w : ValueId} {s : Sharding} {place : Place}

section Boundaries

variable {shardings : Option (List Sharding)} {replaced : List Sharding} {values : List ValueId}
  {index : Nat} {counted : Counted}

theorem checkShardings_eq_ok_iff : p.checkShardings counted shardings values = .ok () ↔
    ∀ l, shardings = some l → l.length = values.length ∧
      ∀ (i : Nat) t v, l[i]? = some t → values[i]? = some v → p.checkFits t v = .ok () := by
  cases shardings with
  | none   => simp [checkShardings]
  | some l =>
    simp only [checkShardings, checkArity, check_bind_eq_ok_iff, require_eq_ok_iff, forM_eq_ok_iff,
      Option.some.injEq, forall_eq', List.mem_iff_getElem?, List.getElem?_zip_eq_some, Prod.forall]
    constructor
    · rintro ⟨hl, h⟩
      exact ⟨hl.symm, fun i t v ht hv => h t v ⟨i, ht, hv⟩⟩
    · rintro ⟨hl, h⟩
      refine ⟨hl.symm, ?_⟩
      rintro t v ⟨i, ht, hv⟩
      exact h i t v ht hv

theorem commonMesh_eq_ok_iff {first : MeshRef} {shardings : List Sharding} {mesh : Mesh} :
    p.commonMesh first shardings = .ok mesh ↔ p.meshes.resolve first = .ok mesh ∧
      ∀ s ∈ shardings, p.meshes.resolve s.mesh = .ok mesh := by
  constructor
  · intro h
    obtain ⟨_, hfirst, h⟩ := bind_eq_ok_iff.mp h
    obtain ⟨hrest, heq⟩ := check_bind_eq_ok_iff.mp h
    cases heq
    refine ⟨hfirst, fun s hs => ?_⟩
    obtain ⟨_, hs, heq⟩ := bind_eq_ok_iff.mp (forM_eq_ok_iff.mp hrest s hs)
    rwa [← require_eq_ok_iff.mp heq]
  · rintro ⟨hfirst, hrest⟩
    have hsame : ∀ s ∈ shardings, (do
        let other ← p.meshes.resolve s.mesh
        require (other = mesh) (.incompatibleMeshes first s.mesh)) = .ok () :=
      fun s hs => bind_eq_ok_iff.mpr ⟨mesh, hrest s hs, require_eq_ok_iff.mpr rfl⟩
    exact bind_eq_ok_iff.mpr ⟨mesh, hfirst, check_bind_eq_ok_iff.mpr ⟨forM_eq_ok_iff.mpr hsame, rfl⟩⟩

-- All entries fit once one of them is replaced by a sharding that does.
theorem checkShardings_replaceIn (h : p.replaceIn shardings values index s = some replaced)
    (hc : p.checkShardings counted shardings values = .ok ()) (hv : values[index]? = some v)
    (hs : p.checkFits s v = .ok ()) : p.checkShardings counted (some replaced) values = .ok () := by
  obtain ⟨mesh, hm, _⟩ := bind_eq_ok_iff.mp hs
  have hopen (w : ValueId) : p.checkFits (.fullyOpen s.mesh (p.typeOf w).rank) w = .ok () :=
    Sharding.check_fullyOpen hm _
  simp only [replaceIn, Option.ite_none_right_eq_some, Option.some.injEq] at h
  obtain ⟨_, rfl⟩ := h
  rw [checkShardings_eq_ok_iff] at hc ⊢
  rintro _ ⟨rfl⟩
  refine ⟨?_, fun i t w ht hw => ?_⟩
  · rw [List.length_set]
    cases hl : shardings with
    | none   => simp
    | some l => exact (hc l hl).left
  · by_cases hi : i = index
    case pos =>
      subst hi
      cases hv.symm.trans hw
      rw [List.getElem?_set_self (by assumption)] at ht
      cases ht
      exact hs
    case neg =>
      rw [List.getElem?_set_ne (Ne.symm hi)] at ht
      cases hl : shardings with
      | none =>
        simp only [hl, Option.getD_none, List.getElem?_map, hw, Option.map_some, Option.some.injEq] at ht
        exact ht ▸ hopen w
      | some l => exact (hc l hl).right i t w (by simpa [hl] using ht) hw

-- What a named computation obeys besides the shardings that it states.
theorem checkNamed_iff {op : Operation} {computation : NamedComputation} :
    p.checkNamed op computation = .ok () ↔
      p.checkNamed op { computation with inShardings := none, outShardings := none } = .ok () ∧
      p.checkShardings .inShardings computation.inShardings
        (p.block ((op.regions[0]?).getD default)).arguments = .ok () ∧
      p.checkShardings .outShardings computation.outShardings op.results = .ok () := by
  have hnone (counted : Counted) (values : List ValueId) :
      p.checkShardings counted none values = .ok () := rfl
  simp only [checkNamed, bind_eq_ok_iff, hnone]
  constructor
  · rintro ⟨_, hr, _, ha, _, ht, vs, hb, _, hl, _, hv, _, hi, ho⟩
    exact ⟨⟨_, hr, _, ha, _, ht, vs, hb, _, hl, _, hv, (), trivial, trivial⟩, hi, ho⟩
  · rintro ⟨⟨_, hr, _, ha, _, ht, vs, hb, _, hl, _, hv, _⟩, hi, ho⟩
    exact ⟨_, hr, _, ha, _, ht, vs, hb, _, hl, _, hv, (), hi, ho⟩

end Boundaries

section SetSharding

theorem formed_named_iff {computation : NamedComputation} (hk : (p.op o).kind = .named computation) :
    p.Formed o ↔ p.checkNamed (p.op o) computation = .ok () := by
  simp [Formed, hk, checkOp]

variable (hp : p.WellFormed) (hv : v.index < p.values.length) (hplace : p.place? v = some place)
  (hs : p.checkFits s v = .ok ()) (hw : p.Written s place q)
include hp hv hplace hs hw

-- Only edge operations and named computations are changed, and the entries of these still fit.
theorem Written.formed (hr : Retyped p q o) (hc : p.Formed o) : q.Formed o := by
  have hf : Frame p q := .of_bare_eq hw.bare_eq
  have hi : q.input o = p.input o := read_of_bare_eq (·.input o) (fun r => r.bare_input o) hw.bare_eq
  have hnamed {computation other : NamedComputation} (hk : (p.op o).kind = .named computation)
      (hk' : (q.op o).kind = .named other) (hn : p.checkNamed (p.op o) other = .ok ()) : q.Formed o := by
    obtain ⟨b, hb⟩ := (hp.shaped o).body (by simp [hk, OpKind.isIsolated])
    rw [formed_named_iff hk', hr.checkNamed other hb]
    exact hn
  by_cases hk : (q.op o).kind = (p.op o).kind
  case pos => exact hr.formed hk (hp.shaped o) hc fun _ he => hi ▸ hf.checkEdgeOwner he
  case neg =>
    cases hw with
    | value => exact absurd rfl hk
    | @edge e previous he =>
      have ho : o = e := by
        by_contra hne
        simp [op_setKind_of_ne, he, hne] at hk
      subst ho
      have hk' : ((p.setKind o (.edge (some s))).op o).kind = .edge (some s) :=
        kind_setKind_self (by simp [he])
      simp only [Formed, hk', he] at hc ⊢
      exact ⟨(hr.checkUnary hc.left).left, hi ▸ hf.checkEdgeOwner hc.right⟩
    | @argument b e index computation shardings hb hn hset =>
      have ho : o = e := by
        by_contra hne
        simp [op_setKind_of_ne, hn, hne] at hk
      subst ho
      have ha := (hp.arguments v b index).mpr ⟨hv, definitionOf_of_place?_argument hplace⟩
      have hbody : ((p.op o).regions[0]?).getD default = b := by
        obtain ⟨c, hc⟩ := (hp.shaped o).body (by simp [hn, OpKind.isIsolated])
        have hm := (hp.regions b o).mpr hb
        simp_all
      obtain ⟨hbare, hin, hout⟩ := checkNamed_iff.mp ((formed_named_iff hn).mp hc)
      refine hnamed hn (kind_setKind_self (by simp [hn])) (checkNamed_iff.mpr ⟨hbare, ?_, hout⟩)
      rw [hbody] at hin ⊢
      exact checkShardings_replaceIn hset hin ha hs
    | @result e index computation shardings hn hset =>
      have ho : o = e := by
        by_contra hne
        simp [op_setKind_of_ne, hn, hne] at hk
      subst ho
      have ha := (hp.results v o index).mpr ⟨hv, definitionOf_of_place?_result hplace⟩
      obtain ⟨hbare, hin, hout⟩ := checkNamed_iff.mp ((formed_named_iff hn).mp hc)
      refine hnamed hn (kind_setKind_self (by simp [hn])) (checkNamed_iff.mpr ⟨hbare, hin, ?_⟩)
      exact checkShardings_replaceIn hset hout ha hs

omit hp in
theorem Written.storedFit (hstored : p.StoredFit) : q.StoredFit := by
  have hf : Frame p q := .of_bare_eq hw.bare_eq
  intro w t ht hd
  rw [checkFits_congr hf.meshes (congrFun hf.types w)]
  by_cases hwv : place = .value w
  case pos =>
    subst hwv
    obtain rfl := place?_eq_value hplace
    have hst := hw.shardingAt_eq fun u hu => Place.value.inj hu ▸ hv
    cases ht.symm.trans hst
    exact hs
  case neg =>
    rw [hw.storedSharding_eq hwv] at ht
    refine hstored w t ht fun o ho => ?_
    rw [← hd o (hf.definer? ▸ ho)]
    exact (read_of_bare_eq (fun r => (r.op o).erased) (by simp) hw.bare_eq).symm

end SetSharding

section Upright

-- What is left to show of an edit that changes no operand and no edge operation to another one.
theorem Reworks.upright {keep : OpId → Bool} (h : Reworks keep p q) (hp : p.Upright)
    (ho : ∀ o, (q.op o).operands = (p.op o).operands)
    (he : ∀ o, (q.op o).kind.isEdge = (p.op o).kind.isEdge) (hf : ∀ o ∈ q.walk, q.Formed o)
    (hs : q.StoredFit) : q.Upright where
  standing := h.recasts.standing hp.standing
  formed   := hf
  stored   := hs
  apart e hq hk u hu i hi := by
    have hin : q.input e = p.input e := by rw [input, ho, ← input]
    exact hp.apart e (h.mem_walk hq) (he e ▸ hk) u (h.mem_walk hu) i (hin ▸ ho u ▸ hi)

theorem Upright.setSharding (hp : p.Upright) (hv : v.index < p.values.length)
    (h : p.setSharding v s = .ok q) : q.Upright := by
  obtain ⟨place, hplace, hw⟩ := setSharding_written h
  have hs : p.checkFits s v = .ok () := (setSharding_eq_ok_iff.mp h).left
  have hb := setSharding_bare h
  have hr := hp.standing.sound.reworks_of_bare_eq hb
  refine hr.upright hp (fun o => ?_) (fun o => ?_) (fun o ho => ?_) (hw.storedFit hv hplace hs hp.stored)
  · exact read_of_bare_eq (fun r => (r.op o).operands) (by simp) hb
  · exact read_of_bare_eq (fun r => (r.op o).kind.isEdge) (by simp) hb
  · exact hw.formed hp.wellFormed hv hplace hs (hr.retyped hp.standing ho)
      (hp.formed o (hr.mem_walk ho))

theorem Upright.erase (hp : p.Upright) (ho : ∀ b, (p.block b).operations.getLast? ≠ some o)
    (hr : (p.op o).regions = []) (hk : (p.op o).kind.isCore = false)
    (hu : ∀ u ∈ p.walk, ∀ v ∈ (p.op u).operands, v ∉ (p.op o).results) : (p.erase o).Upright := by
  have h := hp.standing.erase_reworks ho hr hk hu
  refine h.upright hp (fun u => by rw [op_erase]) (fun u => by rw [op_erase]) (fun u hu => ?_) fun w t => ?_
  · refine (h.retyped hp.standing hu).formed (by rw [op_erase]) (hp.wellFormed.shaped u)
      (hp.formed u (h.mem_walk hu)) fun _ he => ?_
    rw [input_erase]
    exact h.frame.checkEdgeOwner he
  · exact h.stored hp.stored (fun u he => by rw [op_erase, he, Bool.true_or]) storedSharding_erase t

end Upright

section Run

-- Some constraints have been moved onto their operands.
structure Moves (p q : Program) : Prop where
  upright  : q.Upright
  frame    : Frame p q
  count    : q.values.length = p.values.length
  operands : ∀ o, (q.op o).operands = (p.op o).operands
  kind     : ∀ o, (q.op o).kind.bare = (p.op o).kind.bare
  erased   : ∀ o, (p.op o).erased → (q.op o).erased
  within   : q.walk ⊆ p.walk
  moved    : ∀ o ∈ p.walk, o ∈ q.walk ∨ (q.op o).erased ∧ ∃ s, (p.op o).kind = .constraint s

theorem Moves.refl (hp : p.Upright) : Moves p p where
  upright    := hp
  frame      := .refl p
  count      := rfl
  operands _ := rfl
  kind _     := rfl
  erased _ h := h
  within _ h := h
  moved _ h  := .inl h

theorem Moves.trans (h : Moves p q) (h' : Moves q r) : Moves p r where
  upright     := h'.upright
  frame       := h.frame.trans h'.frame
  count       := h'.count.trans h.count
  operands o  := (h'.operands o).trans (h.operands o)
  kind o      := (h'.kind o).trans (h.kind o)
  erased o ho := h'.erased o (h.erased o ho)
  within o ho := h.within (h'.within ho)
  moved o ho  := by
    obtain hq | ⟨he, hk⟩ := h.moved o ho
    · obtain hr | ⟨he, s, hk⟩ := h'.moved o hq
      · exact .inl hr
      · refine .inr ⟨he, s, ?_⟩
        obtain hk' | ⟨_, _, _, hk'⟩ | ⟨_, _, _, hk'⟩ := OpKind.bare_cases (h.kind o)
        · exact hk' ▸ hk
        all_goals simp [hk] at hk'
    · exact .inr ⟨h'.erased o he, hk⟩

theorem Upright.moves_setSharding (hp : p.Upright) (hv : v.index < p.values.length)
    (h : p.setSharding v s = .ok q) : Moves p q := by
  have hb := setSharding_bare h
  have hw : q.walk = p.walk := read_of_bare_eq walk bare_walk hb
  exact {
    upright      := hp.setSharding hv h
    frame        := .of_bare_eq hb
    count        := read_of_bare_eq (·.values.length) bare_length_values hb
    operands o   := read_of_bare_eq (fun r => (r.op o).operands) (by simp) hb
    kind o       := read_of_bare_eq (fun r => (r.op o).kind.bare) (by simp) hb
    erased o     := by rw [read_of_bare_eq (fun r => (r.op o).erased) (by simp) hb]; exact id
    within       := hw ▸ fun _ h => h
    moved o ho   := .inl (hw ▸ ho) }

theorem Upright.moves_erase (hp : p.Upright) (ho : ∀ b, (p.block b).operations.getLast? ≠ some o)
    (hk : (p.op o).kind = .constraint s)
    (hu : ∀ u ∈ p.walk, ∀ v ∈ (p.op u).operands, v ∉ (p.op o).results) : Moves p (p.erase o) := by
  have hr : (p.op o).regions = [] :=
    hp.wellFormed.regions_eq_nil (by simp [hk, OpKind.takesRegions])
  have hcore : (p.op o).kind.isCore = false := by simp [hk, OpKind.isCore, OpKind.isTransparent]
  have h := hp.standing.erase_reworks ho hr hcore hu
  exact {
    upright      := hp.erase ho hr hcore hu
    frame        := .erase
    count        := length_values_erase
    operands u   := by rw [op_erase]
    kind u       := by rw [op_erase]
    erased u he  := by rw [op_erase, he, Bool.true_or]
    within u hu  := h.mem_walk hu
    moved u hm   := by
      by_cases huo : u = o
      case pos =>
        subst huo
        exact .inr ⟨by simp [op_erase_leaf hr], s, hk⟩
      case neg => exact .inl ((h.rewrites.mem_walk_iff (by simpa using huo)).mpr hm) }

-- An operation that is gone over again is not there any more.
theorem Upright.moves_moveConstraint (hp : p.Upright) (ho : o ∈ p.walk ∨ (p.op o).erased) :
    Moves p (p.moveConstraint o).program := by
  have hwf := hp.wellFormed
  rw [moveConstraint]
  split
  case _ sharding hk =>
    split
    case isTrue => exact .refl hp
    case isFalse hn =>
      simp only [Bool.or_eq_true, not_or, Bool.not_eq_true, Bool.not_eq_false'] at hn
      have hunary : (p.op o).kind.isUnary := by simp [hk, OpKind.isUnary]
      cases h : p.setSharding (p.input o) sharding with
      | error e => exact .refl hp
      | ok q    =>
        have hb := setSharding_bare h
        have hm := hp.moves_setSharding (hwf.input_lt hunary) h
        have hkq : (q.op o).kind = .constraint sharding := by
          obtain hk' | ⟨_, _, hk', _⟩ | ⟨_, _, hk', _⟩ := OpKind.bare_cases (hm.kind o)
          · exact hk'.trans hk
          all_goals simp [hk] at hk'
        refine hm.trans (hm.upright.moves_erase (fun b hl => ?_) hkq fun u hu v hv hr => ?_)
        · have hmem := List.mem_of_getLast? hl
          obtain ho | ho := ho
          · have hw : o ∈ q.walk := by rwa [read_of_bare_eq walk bare_walk hb]
            exact hm.upright.standing.not_last hw (by simp [hkq, OpKind.isCore, OpKind.isTransparent]) b hl
          · have he := (hm.upright.wellFormed.members b o hmem).left
            simp [hm.erased o ho] at he
        · rw [hm.frame.results, hwf.results_eq hunary, List.mem_singleton] at hr
          rw [hm.operands] at hv
          exact hwf.unused_of_hasUses hp.standing.sound.rooted hn.left (hm.within hu) (hr ▸ hv)
  case _ => exact .refl hp

theorem Upright.moves (hp : p.Upright) :
    Moves p (Outcome.forEach moveConstraint p false p.walk).program := by
  refine Outcome.forEach_keeps (P := Moves p) (fun q o ho hq => ?_) (.refl hp) false
  exact hq.trans (hq.upright.moves_moveConstraint ((hq.moved o ho).imp_right And.left))

end Run

end Program

end MeshSharding
