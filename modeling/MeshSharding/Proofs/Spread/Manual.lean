import MeshSharding.Proofs.Nesting.Body
import MeshSharding.Proofs.Spread.Fixpoint

namespace MeshSharding

-- The sharding mentions none of the axes.
def Sharding.Avoids (sharding : Sharding) (axes : List String) : Prop :=
  ∀ axis ∈ sharding.shardingAxes ++ sharding.replicated, axis.isManual axes = false

instance (sharding : Sharding) (axes : List String) : Decidable (sharding.Avoids axes) :=
  inferInstanceAs (Decidable (∀ _ ∈ _, _ = _))

-- The shardings that an operation states.
def OpKind.shardings : OpKind → List Sharding
  | .constraint sharding | .reshard sharding => [sharding]
  | .collective ⟨_, out⟩ => [out]
  | .edge sharding       => sharding.toList
  | .manual computation  => computation.inShardings ++ computation.outShardings
  | .named computation   => computation.inShardings.getD [] ++ computation.outShardings.getD []
  | .group _ | .constant _ | .barrier _ | .terminator | .generic _ => []

-- No value in the body of an operation has a sharding with one of the axes, and no operation states one.
structure Program.BodyAvoids (p : Program) (m : OpId) (axes : List String) : Prop where
  values     : ∀ v ∈ p.bodyValues m, ∀ s, p.sharding v = some s → s.Avoids axes
  operations : ∀ o ∈ p.nestedIn m, ∀ s ∈ (p.op o).kind.shardings, s.Avoids axes

-- The values of the link lie on the side of a block, and what it fixes there avoids the axes. So it brings none of
-- the axes into the body.
structure Link.Beside (p : Program) (m : OpId) (axes : List String) (b : BlockId) (link : Link) : Prop where
  values : ∀ v ∈ link.members ++ link.inputs, p.OnSide m b v
  fixed  : p.Encloses m b → ∀ s ∈ link.fixed, s.Avoids axes

namespace Sharding

variable {s t : Sharding} {axes manual : List String}

theorem avoids_fullyOpen (ref : MeshRef) (rank : Nat) : (fullyOpen ref rank).Avoids axes := by
  simp [Avoids, fullyOpen, shardingAxes]

theorem mem_localView {axis : AxisRef}
    (h : axis ∈ (s.localView manual).shardingAxes ++ (s.localView manual).replicated) :
    axis ∈ s.shardingAxes ++ s.replicated ∧ axis.isManual manual = false := by
  rw [shardingAxes_localView, localView, ← List.filter_append, List.mem_filter] at h
  simpa using h

theorem avoids_localView : (s.localView axes).Avoids axes :=
  fun _ h => (mem_localView h).right

theorem Avoids.localView (h : s.Avoids axes) : (s.localView manual).Avoids axes :=
  fun axis ha => h axis (mem_localView ha).left

-- A refined sharding has the replicated axes of the sharding, and those of the proposal besides.
theorem Avoids.refined (h : s.Avoids axes) {proposal : Sharding} (hp : proposal.Avoids axes) (hr : s.Refines t)
    (hd : ∀ dim ∈ t.dims, dim.axes ∈ s.dimAxes ++ proposal.dimAxes) : t.Avoids axes := by
  have hdim {r : Sharding} (hr : r.Avoids axes) {as : List AxisRef} (has : as ∈ r.dimAxes) {axis : AxisRef}
      (ha : axis ∈ as) : axis.isManual axes = false := by
    refine hr axis (List.mem_append_left _ ?_)
    rw [shardingAxes_eq_flatten]
    exact List.mem_flatten_of_mem has ha
  intro axis ha
  obtain ha | ha := List.mem_append.mp ha
  · obtain ⟨dim, hm, ha⟩ := List.mem_flatMap.mp ha
    obtain hs | hs := List.mem_append.mp (hd dim hm)
    · exact hdim h hs ha
    · exact hdim hp hs ha
  · exact h axis (List.mem_append_right _ (hr.replicated ▸ ha))

end Sharding

namespace Program

variable {p q start : Program} {m o : OpId} {b : BlockId} {v w : ValueId} {s : Sharding} {place : Place}
  {axes : List String} {link : Link}

section Writes

theorem bare_bodyValues : p.bare.bodyValues m = p.bodyValues m := by
  simp [bodyValues, bodyBlocks, nestedIn]

theorem bare_bodyBlocks : p.bare.bodyBlocks m = p.bodyBlocks m := by
  simp [bodyBlocks, nestedIn]

theorem bare_nestedIn : p.bare.nestedIn m = p.nestedIn m := by
  simp [nestedIn]

theorem bare_placeBlock : p.bare.placeBlock place = p.placeBlock place := by
  cases place <;> simp [placeBlock]

theorem forall_mem_replaceIn {P : Sharding → Prop} {shardings : Option (List Sharding)} {values : List ValueId}
    {i : Nat} {replaced : List Sharding} (h : p.replaceIn shardings values i s = some replaced) (hs : P s)
    (hopen : ∀ rank, P (Sharding.fullyOpen s.mesh rank)) (hold : ∀ t ∈ shardings.getD [], P t) :
    ∀ t ∈ replaced, P t := by
  simp only [replaceIn, Option.ite_none_right_eq_some, Option.some.injEq] at h
  obtain ⟨_, rfl⟩ := h
  intro t ht
  obtain ht | rfl := List.mem_or_eq_of_mem_set ht
  · cases shardings with
    | some l => exact hold t ht
    | none   =>
      obtain ⟨_, _, rfl⟩ := List.mem_map.mp ht
      exact hopen _
  · exact hs

-- What operations state after a write is what was written, or was stated before.
theorem Written.forall_shardings {P : Sharding → Prop} (h : p.Written s place q) (hs : P s)
    (hopen : ∀ rank, P (Sharding.fullyOpen s.mesh rank)) (ho : ∀ t ∈ (p.op o).kind.shardings, P t) :
    ∀ t ∈ (q.op o).kind.shardings, P t := by
  cases h with
  | value => exact ho
  | @edge u _ hk =>
    by_cases hu : o = u
    case neg => simpa [op_setKind_of_ne, hk, hu] using ho
    case pos => simpa [op_setKind_of_ne, hk, hu, OpKind.shardings] using hs
  | @argument _ u _ computation _ _ hk hr =>
    by_cases hu : o = u
    case neg => simpa [op_setKind_of_ne, hk, hu] using ho
    case pos =>
      subst hu
      simp only [hk, OpKind.shardings, List.forall_mem_append] at ho
      simp only [op_setKind_of_ne (p := p) (o := o) (by simp [hk]), if_true, OpKind.shardings, Option.getD_some,
        List.forall_mem_append]
      exact ⟨forall_mem_replaceIn hr hs hopen ho.left, ho.right⟩
  | @result u _ computation _ hk hr =>
    by_cases hu : o = u
    case neg => simpa [op_setKind_of_ne, hk, hu] using ho
    case pos =>
      subst hu
      simp only [hk, OpKind.shardings, List.forall_mem_append] at ho
      simp only [op_setKind_of_ne (p := p) (o := o) (by simp [hk]), if_true, OpKind.shardings, Option.getD_some,
        List.forall_mem_append]
      exact ⟨ho.left, forall_mem_replaceIn hr hs hopen ho.right⟩

-- A write of a sharding that avoids the axes does no harm, wherever it goes.
theorem BodyAvoids.write (h : p.BodyAvoids m axes) (hq : p.setSharding v s = .ok q) (hs : s.Avoids axes) :
    q.BodyAvoids m axes := by
  obtain ⟨place, _, hw⟩ := setSharding_written hq
  constructor
  case values =>
    intro w hm t ht
    rw [read_of_bare_eq (fun r => r.bodyValues m) (fun _ => bare_bodyValues) hw.bare_eq] at hm
    obtain he | ⟨he, -⟩ | ⟨-, -, hopen⟩ := setSharding_cases hq w
    · exact h.values w hm t (he.symm.trans ht)
    · cases he.symm.trans ht
      exact hs
    · obtain rfl | ⟨u, rfl⟩ := hopen t ht
      · exact hs
      · exact Sharding.avoids_fullyOpen _ _
  case operations =>
    intro o hm
    rw [read_of_bare_eq (fun r => r.nestedIn m) (fun _ => bare_nestedIn) hw.bare_eq] at hm
    exact hw.forall_shardings hs (Sharding.avoids_fullyOpen s.mesh) (h.operations o hm)

theorem WellFormed.encloses_congr (hp : p.WellFormed) (hb : q.bare = p.bare) :
    q.Encloses m b ↔ p.Encloses m b := by
  rw [← (hp.of_bare_eq hb).mem_bodyBlocks_iff, ← hp.mem_bodyBlocks_iff,
    read_of_bare_eq (fun r => r.bodyBlocks m) (fun _ => bare_bodyBlocks) hb]

-- A write on the other side of the boundary does not reach the body.
theorem BodyAvoids.write_outside (h : p.BodyAvoids m axes) (hr : start.Reachable) (hv : start.Valid)
    (hm : (start.op m).kind.isManual) (hwalk : m ∈ start.walk) (hb : p.bare = start.bare)
    (hq : p.setSharding v s = .ok q) (hheld : start.Holds v)
    (hout : ¬ start.Encloses m (start.definingBlock v)) : q.BodyAvoids m axes := by
  have hp := hr.wellFormed
  obtain ⟨place, hpv, hw⟩ := setSharding_written hq
  have hqb := hw.bare_eq.trans hb
  have hplace (u : ValueId) : p.place? u = start.place? u :=
    read_of_bare_eq (fun r => r.place? u) (fun _ => bare_place?) hb
  rw [hplace] at hpv
  have hside : ¬ start.Encloses m (start.placeBlock place) := by
    rwa [hr.encloses_place_iff hv hm hheld hpv]
  constructor
  case values =>
    intro w hwm t ht
    rw [read_of_bare_eq (fun r => r.bodyValues m) (fun _ => bare_bodyValues) hqb] at hwm
    obtain he | ⟨place', other, hpv', hpw, htouch⟩ := setSharding_eq_or_touches hq w
    case inl =>
      refine h.values w ?_ t (he.symm.trans ht)
      rwa [read_of_bare_eq (fun r => r.bodyValues m) (fun _ => bare_bodyValues) hb]
    case inr =>
      -- The places on the other side are not kept together with one in the body.
      rw [hplace] at hpv' hpw
      cases hpv.symm.trans hpv'
      obtain ⟨hwheld, hwin⟩ := (hr.mem_bodyValues_iff hv hwalk).mp hwm
      rw [← hr.encloses_place_iff hv hm hwheld hpw] at hwin
      have hiff := (hp.of_bare_eq hb).encloses_touched_iff (m := m) htouch
      have hblock (x : Place) : p.placeBlock x = start.placeBlock x :=
        read_of_bare_eq (fun r => r.placeBlock x) (fun _ => bare_placeBlock) hb
      rw [hblock, hblock, hp.encloses_congr hb, hp.encloses_congr hb] at hiff
      exact absurd (hiff.mp hwin) hside
  case operations =>
    intro o ho t ht
    rw [read_of_bare_eq (fun r => r.nestedIn m) (fun _ => bare_nestedIn) hqb] at ho
    have hk : (q.op o).kind = (p.op o).kind := by
      by_contra hne
      exact hside (hv.encloses_of_written hm hwalk hb hw ho hne)
    refine h.operations o ?_ t (hk ▸ ht)
    rwa [read_of_bare_eq (fun r => r.nestedIn m) (fun _ => bare_nestedIn) hb]

end Writes

section Links

variable {computation : ManualComputation}

-- What the link of an operation fixes is stated by the operation, or the local view of what it states.
theorem avoids_of_fixed (h : link ∈ p.ownLinks o) (hs : ∀ s ∈ (p.op o).kind.shardings, s.Avoids axes) :
    ∀ s ∈ link.fixed, s.Avoids axes := by
  simp only [ownLinks] at h
  split at h
  case _ =>
    split at h
    case isFalse => simp at h
    case isTrue =>
      rw [List.mem_singleton.mp h]
      simp
  case _ hk =>
    rw [List.mem_singleton.mp h]
    simpa [hk, OpKind.shardings] using hs
  case _ | _ =>
    rw [List.mem_singleton.mp h]
    simp
  case _ hk =>
    simp only [hk, OpKind.shardings, List.forall_mem_append] at hs
    obtain h | h := List.mem_append.mp h
    · obtain ⟨_, _, s, hm, rfl⟩ := exists_of_mem_zipWith h
      simpa using hs.left s hm
    · obtain ⟨_, _, s, hm, rfl⟩ := exists_of_mem_zipWith h
      simpa using (hs.right s hm).localView
  case _ => simp at h

namespace Valid

variable (hv : p.Valid) (ho : o ∈ p.walk)
include hv ho

theorem onSide_of_meets (hm : (p.op m).kind.isManual) (hne : o ≠ m) (h : p.Meets o v) :
    p.OnSide m (p.op o).block v := by
  cases h with
  | operand h        => exact hv.onSide_operand hm ho h
  | result h         => exact hv.onSide_result ho h
  | argument hc h    => exact (hv.onSide_argument ho hc h).congr (hv.encloses_region_iff ho hc hne)
  | returned hc hr h => exact (hv.onSide_returned hm ho hc hr h).congr (hv.encloses_region_iff ho hc hne)

theorem ownLinks_beside (hm : (p.op m).kind.isManual) (hne : o ≠ m)
    (hs : p.Encloses m (p.op o).block → ∀ s ∈ (p.op o).kind.shardings, s.Avoids axes) (hl : link ∈ p.ownLinks o) :
    link.Beside p m axes (p.op o).block where
  values v h := hv.onSide_of_meets ho hm hne (hv.sound.wellFormed.ownLinks_meet hl v h)
  fixed hin  := avoids_of_fixed hl (hs hin)

-- What a manual computation fixes for its own body is without its axes.
theorem ownLinks_beside_self (hk : (p.op o).kind = .manual computation) (hl : link ∈ p.ownLinks o) :
    ∃ b, link.Beside p o computation.manualAxes b := by
  have hm : (p.op o).kind.isManual := by simp [hk, OpKind.isManual]
  simp only [ownLinks, hk] at hl
  obtain hl | hl := List.mem_append.mp hl
  · obtain ⟨v, hvm, s, _, rfl⟩ := exists_of_mem_zipWith hl
    refine ⟨(p.op o).block, ?_, fun hin => absurd hin (hv.not_encloses_block ho)⟩
    simpa using hv.onSide_operand hm ho hvm
  · obtain ⟨v, hvm, s, _, rfl⟩ := exists_of_mem_zipWith hl
    obtain ⟨b, hb, values, hr, hvm⟩ := hv.sound.wellFormed.exists_returned hk hvm
    refine ⟨b, ?_, fun _ => by simpa using Sharding.avoids_localView⟩
    simpa using hv.onSide_returned hm ho hb hr hvm

theorem flowLinks_beside (hm : (p.op m).kind.isManual) (hne : o ≠ m) (hl : link ∈ p.flowLinks o) :
    link.Beside p m axes (p.op o).block := by
  obtain ⟨hmeets, hi, hf⟩ := flowLinks_meet hl
  refine ⟨fun v h => ?_, by simp [hf]⟩
  rw [hi, List.append_nil] at h
  exact hv.onSide_of_meets ho hm hne (hmeets v h)

end Valid

-- The values of a group lie on one side, since they lie in the same manual computation.
theorem Valid.group_beside (hv : p.Valid) (hm : (p.op m).kind.isManual)
    (hentry : ∀ u, p.enclosingManual? entry = some u → u ≠ m ∧ u ∉ p.nestedIn m)
    {groups : List ShardingGroup} (hg : p.groups = .ok groups) {group : ShardingGroup} (h : group ∈ groups) :
    ∃ b, Link.Beside p m axes b { members := group.members } := by
  obtain ⟨rfl, hcrossing⟩ := groups_eq_ok_iff.mp hg
  have hsame := checkNotCrossing_eq_ok_iff.mp (hcrossing group h)
  have hmember (v : ValueId) (hvm : v ∈ group.members) : p.Holds v ∧ p.definingBlock v ∈ p.nested := by
    obtain ⟨o, ho, hop⟩ := hv.sound.wellFormed.exists_operand_of_group h hvm
    exact ⟨hv.holds_operand ho hop,
      hv.sound.wellFormed.definingBlock_mem_nested (hv.sound.scope o ho _ hop) ho⟩
  cases hms : group.members with
  | nil => exact ⟨entry, by simp, by simp⟩
  | cons first rest =>
    have hfirst : first ∈ group.members := hms ▸ List.mem_cons_self
    simp only [hms, List.headD_cons] at hsame
    refine ⟨p.definingBlock first, fun v hvm => ?_, by simp⟩
    rw [List.append_nil, ← hms] at hvm
    refine ⟨(hmember v hvm).left, ?_⟩
    exact hv.encloses_iff_of_manualAround? hm hentry (hmember v hvm).right (hmember first hfirst).right
      (hsame v (hms ▸ hvm))

-- Every link lies on one side of the boundary.
theorem Valid.links_beside (hv : p.Valid) (hwalk : m ∈ p.walk) (hk : (p.op m).kind = .manual computation)
    (hentry : ∀ u, p.enclosingManual? entry = some u → u ≠ m ∧ u ∉ p.nestedIn m)
    (hs : ∀ o ∈ p.nestedIn m, ∀ s ∈ (p.op o).kind.shardings, s.Avoids computation.manualAxes)
    {all : List Link} (h : p.links = .ok all) (hl : link ∈ all) :
    ∃ b, link.Beside p m computation.manualAxes b := by
  have hm : (p.op m).kind.isManual := by simp [hk, OpKind.isManual]
  have hp := hv.sound.wellFormed
  obtain ⟨groups, hg, rfl⟩ := links_eq_ok_iff.mp h
  obtain hl | hl := List.mem_append.mp hl
  · obtain ⟨o, ho, hl⟩ := List.mem_flatMap.mp hl
    by_cases hne : o = m
    case pos =>
      subst hne
      have hflow : p.flowLinks o = [] := by simp [flowLinks, flowView?, hk]
      rw [hflow, List.append_nil] at hl
      exact hv.ownLinks_beside_self ho hk hl
    case neg =>
      have hattr (hin : p.Encloses m (p.op o).block) : ∀ s ∈ (p.op o).kind.shardings,
          s.Avoids computation.manualAxes :=
        hs o (hp.mem_nestedIn_iff.mpr ⟨_, hin, (hp.block_nested ho).right⟩)
      obtain hl | hl := List.mem_append.mp hl
      · exact ⟨_, hv.ownLinks_beside ho hm hne hattr hl⟩
      · exact ⟨_, hv.flowLinks_beside ho hm hne hl⟩
  · obtain ⟨group, hgroup, rfl⟩ := List.mem_map.mp hl
    exact hv.group_beside hm hentry hg hgroup

end Links

end Program

namespace SpreadPlan

variable {plan : SpreadPlan} {start p q : Program} {v : ValueId} {vs : List ValueId} {link : Link}
  {proposal refined : Sharding} {m : OpId} {b : BlockId} {axes : List String}

theorem Changes.avoids (h : plan.Changes p proposal v refined) (hp : proposal.Avoids axes)
    (hv : ∀ s, p.sharding v = some s → s.Avoids axes) : refined.Avoids axes := by
  cases hs : p.sharding v with
  | none         => exact (h.first hs).right ▸ hp
  | some current =>
    obtain ⟨hr, hd⟩ := h.refines current hs
    exact (hv current hs).refined hp hr hd

variable (hr : start.Reachable) (hv : start.Valid) (hm : (start.op m).kind.isManual) (hwalk : m ∈ start.walk)
include hr hv hm hwalk

theorem Adopts.bodyAvoids (h : plan.Adopts proposal p vs q) (hb : p.bare = start.bare)
    (hi : p.BodyAvoids m axes) (hvs : ∀ v ∈ vs, start.OnSide m b v)
    (hp : start.Encloses m b → proposal.Avoids axes) : q.BodyAvoids m axes := by
  induction h with
  | nil => exact hi
  | @cons p r q v vs refined hc hq _ ih =>
    rw [List.forall_mem_cons] at hvs
    obtain ⟨⟨hheld, hside⟩, hvs⟩ := hvs
    refine ih ((Program.setSharding_bare hq).trans hb) ?_ hvs
    by_cases hin : start.Encloses m b
    case pos =>
      have hbody : v ∈ p.bodyValues m := by
        rw [Program.read_of_bare_eq (fun r => r.bodyValues m) (fun _ => Program.bare_bodyValues) hb]
        exact (hr.mem_bodyValues_iff hv hwalk).mpr ⟨hheld, hside.mpr hin⟩
      exact hi.write hq (hc.avoids (hp hin) (hi.values v hbody))
    case neg => exact hi.write_outside hr hv hm hwalk hb hq hheld (by rwa [hside])

-- A proposal for values in the body is the sharding of one of them, or fixed there.
theorem Evaluates.bodyAvoids (h : plan.Evaluates p link vs q) (hb : p.bare = start.bare)
    (hi : p.BodyAvoids m axes) (hl : link.Beside start m axes b) : q.BodyAvoids m axes := by
  cases h with
  | nothing => exact hi
  | @adopt proposal _ _ hc hs ha =>
    have hvs (v : ValueId) (hvm : v ∈ vs) := hl.values v (List.mem_append_left _ (hs hvm))
    refine ha.bodyAvoids hr hv hm hwalk hb hi hvs fun hin => ?_
    obtain hc | hc := List.mem_append.mp hc
    · obtain ⟨v, hvm, hsv⟩ := List.mem_filterMap.mp hc
      obtain ⟨hheld, hside⟩ := hl.values v hvm
      refine hi.values v ?_ proposal hsv
      rw [Program.read_of_bare_eq (fun r => r.bodyValues m) (fun _ => Program.bare_bodyValues) hb]
      exact (hr.mem_bodyValues_iff hv hwalk).mpr ⟨hheld, hside.mpr hin⟩
    · exact hl.fixed hin proposal hc

theorem run_bodyAvoids (hl : ∀ link ∈ plan.links, ∃ b, link.Beside start m axes b)
    (hi : start.BodyAvoids m axes) (budget : Nat) (queue : List Nat) (changed : Bool) :
    (plan.run budget queue changed start).program.BodyAvoids m axes := by
  let R (p q : Program) : Prop := p.bare = start.bare → p.BodyAvoids m axes →
    q.bare = start.bare ∧ q.BodyAvoids m axes
  have hrun : R start (plan.run budget queue changed start).program := by
    refine run_of_evaluates (R := R) ?_ ?_ ?_ budget queue changed start
    · exact fun p hb hi => ⟨hb, hi⟩
    · intro p q r hpq hqr hb hi
      obtain ⟨hbq, hiq⟩ := hpq hb hi
      exact hqr hbq hiq
    · intro p q vs i he hb hi
      obtain ⟨b, hlink⟩ := forall_links hl ⟨Program.entry, by simp, by simp⟩ i
      exact ⟨he.bare_eq.trans hb, he.bodyAvoids hr hv hm hwalk hb hi hlink⟩
  exact (hrun rfl hi).right

end SpreadPlan

namespace Program

-- If no sharding in the body of a manual computation mentions one of its manual axes, none does after
-- spreading, with or without success. The body of the program must not be found in this body: it can be,
-- through an erased operation that has it as a region.
theorem spread_bodyAvoids {p : Program} (h : p.Reachable) (hverify : p.verify = .ok ()) (options : SpreadOptions)
    {m : OpId} {computation : ManualComputation} (hlive : p.isLive m)
    (hk : (p.op m).kind = .manual computation)
    (hentry : ∀ u, p.enclosingManual? entry = some u → u ≠ m ∧ u ∉ p.nestedIn m)
    (hi : p.BodyAvoids m computation.manualAxes) :
    (p.spread options).program.BodyAvoids m computation.manualAxes := by
  have hp := h.wellFormed
  have hv := ((verify_iff hp).mp hverify).left
  have hm : (p.op m).kind.isManual := by simp [hk, OpKind.isManual]
  have hwalk := (h.mem_walk_iff hv.sound.rooted).mpr hlive
  cases hplan : p.spreadPlan options with
  | error e =>
    have he : (p.spread options).program = p := by simp [spread, hplan]
    rwa [he]
  | ok plan =>
    have hlinks := ((p.spreadPlan_eq_ok_iff options).mp hplan).left
    rw [spread_program p options hplan]
    refine SpreadPlan.run_bodyAvoids h hv hm hwalk (fun link hl => ?_) hi _ _ _
    exact hv.links_beside hwalk hk hentry hi.operations hlinks hl

-- A manual computation over one of the axes by which its operand is split.
def manualBody? : Option Program :=
  let split : Sharding := ⟨.symbol "mesh", [{ axes := [.whole "a", .whole "b"] }], []⟩
  build "main" [
    .mesh "mesh" ⟨[⟨"a", 2⟩, ⟨"b", 2⟩], []⟩,
    .argument ⟨[8], .f32⟩ (some split),
    .region [⟨[4], .f32⟩],
    .append ⟨1⟩ (.generic { name := "exp", elementwise := true } [⟨1⟩] [⟨[4], .f32⟩] []),
    .append ⟨1⟩ (.terminator [⟨2⟩]),
    .append entry (.manual ⟨[split], [split], ["a"]⟩ [⟨0⟩] ⟨1⟩ [⟨[8], .f32⟩]),
    .append entry (.terminator [⟨3⟩])]

def manualBody : Program :=
  manualBody?.get (by rfl)

-- The value that the body returns gets the axis that is not manual.
theorem spread_bodyAvoids_manualBody :
    let p := manualBody
    let q := (p.spread {}).program
    p.Reachable ∧ p.verify = .ok () ∧ p.sharding ⟨2⟩ = none ∧
      q.sharding ⟨2⟩ = some ⟨.symbol "mesh", [{ axes := [.whole "b"] }], []⟩ ∧ q.BodyAvoids ⟨2⟩ ["a"] := by
  have hr : manualBody.Reachable := build_reachable (Option.some_get _).symm
  have hv : manualBody.verify = .ok () := by rfl
  have hk : ∃ shardings, (manualBody.op ⟨2⟩).kind = .manual ⟨shardings, shardings, ["a"]⟩ := ⟨_, rfl⟩
  have hentry (u : OpId) (h : manualBody.enclosingManual? entry = some u) :
      u ≠ ⟨2⟩ ∧ u ∉ manualBody.nestedIn ⟨2⟩ := by
    have hnone : manualBody.enclosingManual? entry = none := by rfl
    cases hnone.symm.trans h
  have hbefore : manualBody.BodyAvoids ⟨2⟩ ["a"] := by
    constructor
    case values => decide
    case operations => decide
  obtain ⟨_, hk⟩ := hk
  exact ⟨hr, hv, by rfl, by rfl, spread_bodyAvoids hr hv {} (by rfl) hk hentry hbefore⟩

-- The body of the program is the region of an erased operation in the body of the manual computation.
def wrappedBody? : Option Program :=
  build "main" [
    .mesh "mesh" ⟨[⟨"a", 2⟩], []⟩,
    .argument ⟨[8], .f32⟩ (some ⟨.symbol "mesh", [{ axes := [.whole "a"] }], []⟩),
    .region [⟨[8], .f32⟩],
    .append entry (.terminator []),
    .append ⟨1⟩ (.generic { name := "wrap" } [] [] [entry])]

def reenteredBody? : Option Program :=
  let split : Sharding := ⟨.symbol "mesh", [{ axes := [.whole "a"] }], []⟩
  [ .append ⟨1⟩ (.generic { name := "id" } [⟨1⟩] [⟨[8], .f32⟩] []),
    .append ⟨1⟩ (.group ⟨2⟩ 0),
    .append ⟨1⟩ (.terminator []),
    .argument ⟨[16], .f32⟩ none,
    .append entry (.manual ⟨[split], [], ["a"]⟩ [⟨3⟩] ⟨1⟩ []),
    .append entry (.group ⟨0⟩ 0),
    .append entry (.terminator [])].foldlM buildStep? ((wrappedBody?.get (by rfl)).erase ⟨1⟩)

def reenteredBody : Program :=
  reenteredBody?.get (by rfl)

-- So values on both sides of the boundary can be in a group, and the manual axis comes into the body.
theorem spread_brings_manualAxis_reenteredBody :
    let p := reenteredBody
    let q := (p.spread {}).program
    let split : Sharding := ⟨.symbol "mesh", [{ axes := [.whole "a"] }], []⟩
    p.Reachable ∧ p.verify = .ok () ∧ p.isLive ⟨5⟩ ∧ (p.op ⟨5⟩).kind = .manual ⟨[split], [], ["a"]⟩ ∧
      p.BodyAvoids ⟨5⟩ ["a"] ∧ ⟨2⟩ ∈ q.bodyValues ⟨5⟩ ∧ q.sharding ⟨2⟩ = some split ∧
      ¬ split.Avoids ["a"] := by
  have hp : (wrappedBody?.get (by rfl)).Reachable := build_reachable (Option.some_get _).symm
  have hr : reenteredBody.Reachable := Reachable.foldlM (hp.erase (by decide)) (Option.some_get _).symm
  have hbefore : reenteredBody.BodyAvoids ⟨5⟩ ["a"] := by
    constructor
    case values => decide
    case operations => decide
  exact ⟨hr, by rfl, by rfl, by rfl, hbefore, by decide, by rfl, by decide⟩

end Program

end MeshSharding
