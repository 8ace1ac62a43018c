import MeshSharding.Proofs.Mesh.Build
import MeshSharding.Proofs.Verify.Operand

namespace MeshSharding

namespace AxisRef

-- The references are well formed, and no two of them share a factor.
structure Apart (mesh : Mesh) (axes : List AxisRef) : Prop where
  checked  : ∀ axis ∈ axes, axis.check mesh = .ok ()
  disjoint : axes.Pairwise fun axis other => axis.overlaps other = false

variable {mesh : Mesh} {axis other third : AxisRef} {axes used : List AxisRef}

section Apart

theorem Apart.nil : Apart mesh [] :=
  ⟨by simp, .nil⟩

theorem Apart.sublist (h : Apart mesh axes) (hs : used.Sublist axes) : Apart mesh used where
  checked axis ha := h.checked axis (hs.subset ha)
  disjoint        := h.disjoint.sublist hs

theorem apart_concat_iff : Apart mesh (used ++ [axis]) ↔
    Apart mesh used ∧ axis.check mesh = .ok () ∧ ∀ other ∈ used, other.overlaps axis = false := by
  constructor
  · rintro ⟨hc, hd⟩
    simp only [List.mem_append, List.mem_singleton, List.pairwise_append] at hc hd
    exact ⟨⟨fun a ha => hc a (.inl ha), hd.left⟩, hc axis (.inr rfl),
      fun a ha => hd.right.right a ha axis rfl⟩
  · rintro ⟨⟨hc, hd⟩, ha, ho⟩
    constructor
    · simpa [or_imp, forall_and] using ⟨hc, ha⟩
    · simpa [List.pairwise_append] using ⟨hd, ho⟩

end Apart

section Size

-- The number of devices along a reference that the mesh has.
def extent (mesh : Mesh) (axis : AxisRef) : Nat :=
  match axis.part with
  | some sub => sub.size
  | none     => (mesh.axisSize? axis.name).getD 0

theorem fault?_eq_none_iff {sub : SubAxis} {size : Nat} : sub.fault? size = none ↔
    0 < sub.preSize ∧ 1 < sub.size ∧ sub.preSize * sub.size ≤ Size.greatest ∧
      sub.preSize * sub.size ∣ size ∧ ¬ (sub.preSize * sub.size = size ∧ sub.preSize = 1) := by
  rw [Nat.dvd_iff_mod_eq_zero]
  grind [SubAxis.fault?, Size.mul?]

theorem check_eq_ok_iff : axis.check mesh = .ok () ↔ ∃ size, mesh.axisSize? axis.name = some size ∧
    ∀ sub, axis.part = some sub → sub.fault? size = none := by
  simp only [check, Mesh.requireAxisSize]
  cases mesh.axisSize? axis.name with
  | none      => simp [bind, Except.bind]
  | some size =>
    cases axis.part with
    | none => simp [bind, Except.bind, pure, Except.pure]
    | some sub =>
      cases hf : sub.fault? size <;>
        simp [bind, Except.bind, pure, Except.pure, throw, throwThe, MonadExceptOf.throw, hf]

theorem sizeIn_of_check (h : axis.check mesh = .ok ()) : axis.sizeIn mesh = .ok (axis.extent mesh) := by
  obtain ⟨size, hs, -⟩ := check_eq_ok_iff.mp h
  simp only [sizeIn, extent, Mesh.requireAxisSize, hs]
  cases axis.part <;> rfl

theorem part_of_check {sub : SubAxis} (h : axis.check mesh = .ok ()) (hp : axis.part = some sub) :
    0 < sub.preSize ∧ 1 < sub.size ∧ sub.nextPreSize = sub.preSize * sub.size := by
  obtain ⟨_, _, hf⟩ := check_eq_ok_iff.mp h
  obtain ⟨hpre, hsize, hle, -⟩ := fault?_eq_none_iff.mp (hf sub hp)
  exact ⟨hpre, hsize, Size.satMul_of_le hle⟩

-- A reference stands for a segment of the factors of its axis.
theorem end_dvd_of_check {size : Nat} (h : axis.check mesh = .ok ()) (hs : mesh.axisSize? axis.name = some size) :
    axis.preSize * axis.extent mesh ∣ size := by
  obtain ⟨_, hs', hf⟩ := check_eq_ok_iff.mp h
  cases hs.symm.trans hs'
  cases hp : axis.part with
  | none     => simp [preSize, extent, hp, hs]
  | some sub =>
    have ⟨_, _, _, hd, _⟩ := fault?_eq_none_iff.mp (hf sub hp)
    simpa only [preSize, extent, hp] using hd

theorem segment_of_check {size : Nat} (h : axis.check mesh = .ok ())
    (hs : mesh.axisSize? axis.name = some size) (hpos : 0 < size) :
    0 < axis.preSize ∧ 0 < axis.extent mesh ∧ axis.preSize * axis.extent mesh ≤ size := by
  have hd := end_dvd_of_check h hs
  have hend := Nat.pos_of_dvd_of_pos hd hpos
  exact ⟨Nat.pos_of_mul_pos_right hend, Nat.pos_of_mul_pos_left hend, Nat.le_of_dvd hpos hd⟩

-- References to one axis that share no factor stand for segments one after the other.
theorem next_le_preSize (ha : axis.check mesh = .ok ()) (ho : other.check mesh = .ok ())
    (hn : axis.name = other.name) (hd : axis.overlaps other = false) (hle : axis.preSize ≤ other.preSize) :
    axis.preSize * axis.extent mesh ≤ other.preSize := by
  cases hp : axis.part with
  | none     => simp [overlaps, hn, hp] at hd
  | some sub =>
    cases hq : other.part with
    | none      => simp [overlaps, hn, hp, hq] at hd
    | some sub' =>
      obtain ⟨-, -, hnext⟩ := part_of_check ha hp
      obtain ⟨hpre, hsize, hnext'⟩ := part_of_check ho hq
      have hlt : sub'.preSize < sub'.nextPreSize := by
        rw [hnext']
        exact lt_mul_of_one_lt_right hpre hsize
      simp only [preSize, extent, hp, hq] at hle ⊢
      simp only [overlaps, hn, hp, hq, SubAxis.overlaps, decide_true, Bool.true_and, Bool.and_eq_false_iff,
        decide_eq_false_iff_not, Nat.not_lt] at hd
      omega

end Size

section Order

theorem order_eq_compareLex : order mesh = compareLex (compareOn fun axis => mesh.axisPosition axis.name)
    (compareLex (compareOn (·.name)) (compareLex (compareOn (·.preSize))
      (compareOn fun axis => axis.part.map (·.size)))) :=
  rfl

instance : Std.TransCmp (order mesh) := by
  rw [order_eq_compareLex]
  infer_instance

theorem order_eq_lt (h : order mesh axis other = .lt) :
    mesh.axisPosition axis.name ≤ mesh.axisPosition other.name ∧
      (mesh.axisPosition axis.name = mesh.axisPosition other.name → axis.name ≤ other.name ∧
        (axis.name = other.name → axis.preSize ≤ other.preSize)) := by
  simp only [order, Ordering.then_eq_lt, compare_lt_iff_lt, compare_eq_iff_eq] at h
  obtain hlt | ⟨heq, h⟩ := h
  · exact ⟨Nat.le_of_lt hlt, fun he => absurd he (Nat.ne_of_lt hlt)⟩
  · refine ⟨Nat.le_of_eq heq, fun _ => ?_⟩
    obtain hlt | ⟨heq, h⟩ := h
    · exact ⟨le_of_lt hlt, fun he => absurd he (ne_of_lt hlt)⟩
    · refine ⟨le_of_eq heq, fun _ => ?_⟩
      obtain hlt | ⟨heq, -⟩ := h
      · exact Nat.le_of_lt hlt
      · exact Nat.le_of_eq heq

-- What stands between two references to one axis is a reference to it as well.
theorem name_eq_of_between (h : order mesh axis other = .lt) (h' : order mesh other third = .lt)
    (hn : axis.name = third.name) : other.name = axis.name := by
  obtain ⟨hle, hname⟩ := order_eq_lt h
  obtain ⟨hle', hname'⟩ := order_eq_lt h'
  rw [← hn] at hle' hname'
  have heq := Nat.le_antisymm hle hle'
  exact le_antisymm (hname' heq.symm).left (hname heq).left

-- Of two references that come one after the other in a sorted list without overlaps.
def Before (mesh : Mesh) (axis other : AxisRef) : Prop :=
  order mesh axis other = .lt ∧ axis.overlaps other = false ∧ axis.canMerge other = false

theorem Before.next_le (h : Before mesh axis other) (ha : axis.check mesh = .ok ())
    (ho : other.check mesh = .ok ()) (hn : axis.name = other.name) :
    axis.preSize * axis.extent mesh ≤ other.preSize := by
  obtain ⟨-, hname⟩ := order_eq_lt h.left
  exact next_le_preSize ha ho hn h.right.left ((hname (by rw [hn])).right hn)

-- Neighbours cannot be merged, and those further away have another reference between them.
theorem Before.trans (h : Before mesh axis other) (h' : Before mesh other third)
    (ha : axis.check mesh = .ok ()) (ho : other.check mesh = .ok ()) (ht : third.check mesh = .ok ()) :
    Before mesh axis third := by
  refine ⟨Std.TransCmp.lt_trans h.left h'.left, ?_⟩
  by_cases hn : axis.name = third.name
  case neg => simp [overlaps, canMerge, hn]
  case pos =>
    have hon := name_eq_of_between h.left h'.left hn
    have hle := h.next_le ha ho hon.symm
    have hle' := h'.next_le ho ht (hon.trans hn)
    -- Neither of them is the whole axis, which would overlap what is between them.
    cases hp : axis.part with
    | none     => simp [Before, overlaps, hon, hp] at h
    | some sub =>
      cases hq : other.part with
      | none      => simp [Before, overlaps, hon, hp, hq] at h
      | some mid =>
        cases hr : third.part with
        | none      => simp [Before, overlaps, hon, hn, hq, hr] at h'
        | some sub' =>
          obtain ⟨-, -, hnext⟩ := part_of_check ha hp
          obtain ⟨hpre, hsize, -⟩ := part_of_check ho hq
          have hlt : mid.preSize < mid.preSize * mid.size := lt_mul_of_one_lt_right hpre hsize
          simp only [preSize, extent, hp, hq, hr] at hle hle'
          constructor
          · simp only [overlaps, hn, hp, hr, SubAxis.overlaps, hnext, decide_true, Bool.true_and,
              Bool.and_eq_false_iff, decide_eq_false_iff_not]
            omega
          · simp only [canMerge, hn, hp, hr, Size.mul?_eq_some_iff, decide_true, Bool.true_and,
              decide_eq_false_iff_not]
            omega

theorem pairwise_before_of_isChain (h : ∀ axis ∈ axes, axis.check mesh = .ok ()) (hc : axes.IsChain (Before mesh)) :
    axes.Pairwise (Before mesh) := by
  induction axes with
  | nil => exact .nil
  | cons axis axes ih =>
    obtain ⟨ha, h⟩ := List.forall_mem_cons.mp h
    have hp := ih h hc.tail
    refine List.pairwise_cons.mpr ⟨fun third ht => ?_, hp⟩
    cases axes with
    | nil => simp at ht
    | cons other axes =>
      have hb := (List.isChain_cons_cons.mp hc).left
      obtain rfl | ht' := List.mem_cons.mp ht
      · exact hb
      · exact hb.trans (List.rel_of_pairwise_cons hp ht') ha (h _ List.mem_cons_self) (h _ ht)

theorem checkCanonical_iff (h : ∀ axis ∈ axes, axis.check mesh = .ok ()) :
    checkCanonical axes mesh = .ok () ↔ axes.Pairwise (Before mesh) := by
  have hgo (rest : List AxisRef) : checkCanonical.go axes mesh rest = .ok () ↔
      rest.IsChain (Before mesh) := by
    fun_induction checkCanonical.go axes mesh rest with
    | case1 axis other rest ih =>
      simp only [check_bind_eq_ok_iff, require_eq_ok_iff, ih, List.isChain_cons_cons, Before,
        Bool.not_eq_true, and_assoc]
    | case2 rest hrest =>
      refine iff_of_true rfl ?_
      match rest, hrest with
      | [],            _ => exact .nil
      | [_],           _ => exact .singleton _
      | a :: b :: _, hrest => exact absurd rfl (hrest a b _)
  exact (hgo axes).trans ⟨pairwise_before_of_isChain h, fun hp => hp.isChain⟩

theorem checkMerged_iff :
    checkMerged axes = .ok () ↔ axes.IsChain fun axis other => axis.canMerge other = false := by
  fun_induction checkMerged axes with
  | case1 axis other rest ih =>
    simp only [check_bind_eq_ok_iff, require_eq_ok_iff, ih, List.isChain_cons_cons, Bool.not_eq_true]
  | case2 axes haxes =>
    refine iff_of_true rfl ?_
    match axes, haxes with
    | [],            _ => exact .nil
    | [_],           _ => exact .singleton _
    | a :: b :: _, haxes => exact absurd rfl (haxes a b _)

end Order

section Product

-- Relations between numbers of devices that are kept when both are multiplied.
structure Scales (R : Nat → Nat → Prop) : Prop where
  one   : ∀ {a}, 0 < a → R 1 a
  trans : ∀ {a b c}, R a b → R b c → R a c
  mul   : ∀ {a b} c, R a b → R (a * c) (b * c)

theorem Scales.le : Scales (· ≤ ·) where
  one       := id
  trans     := Nat.le_trans
  mul _ h   := Nat.mul_le_mul_right _ h

theorem Scales.dvd : Scales (· ∣ ·) where
  one _     := one_dvd _
  trans     := dvd_trans
  mul _ h   := Nat.mul_dvd_mul_right h _

variable {R : Nat → Nat → Prop}

theorem Scales.mul_mul (hR : Scales R) {a b c d : Nat} (h : R a b) (h' : R c d) : R (a * c) (b * d) := by
  apply hR.trans (hR.mul c h)
  rw [Nat.mul_comm b c, Nat.mul_comm b d]
  exact hR.mul b h'

-- The segments follow each other, so all their factors together stand to the end of the last one as
-- each end does to the next start.
theorem Scales.mul_prod_extents (hR : Scales R) {lo hi : Nat} (h : R lo hi)
    (hs : axes.Pairwise fun axis other => R (axis.preSize * axis.extent mesh) other.preSize)
    (hax : ∀ axis ∈ axes, R lo axis.preSize ∧ R (axis.preSize * axis.extent mesh) hi) :
    R (lo * (axes.map (extent mesh)).prod) hi := by
  induction axes generalizing lo with
  | nil => simpa using h
  | cons axis axes ih =>
    have ⟨hfirst, hs⟩ := List.pairwise_cons.mp hs
    have ⟨⟨hlo, hhi⟩, hax⟩ := List.forall_mem_cons.mp hax
    rw [List.map_cons, List.prod_cons, ← Nat.mul_assoc]
    apply hR.trans (hR.mul _ (hR.mul _ hlo))
    exact ih hhi hs fun other ho => ⟨hfirst other ho, (hax other ho).right⟩

-- References to one axis that share no factor, sorted.
theorem Apart.exists_following {name : String} (h : Apart mesh axes) (hn : ∀ axis ∈ axes, axis.name = name) :
    ∃ sorted : List AxisRef, sorted.Perm axes ∧
      sorted.Pairwise fun axis other => axis.preSize * axis.extent mesh ≤ other.preSize := by
  let sorted := axes.mergeSort fun axis other => axis.preSize ≤ other.preSize
  have hperm : sorted.Perm axes := List.mergeSort_perm _ _
  have hdisjoint : sorted.Pairwise fun axis other => axis.overlaps other = false :=
    (hperm.pairwise_iff fun {axis other} ho => (overlaps_comm other axis).trans ho).mpr h.disjoint
  have hsorted : sorted.Pairwise fun axis other => axis.preSize ≤ other.preSize := by
    have htrans (a b c : AxisRef) : decide (a.preSize ≤ b.preSize) → decide (b.preSize ≤ c.preSize) →
        decide (a.preSize ≤ c.preSize) := by
      simpa using Nat.le_trans
    have htotal (a b : AxisRef) : decide (a.preSize ≤ b.preSize) || decide (b.preSize ≤ a.preSize) := by
      simpa using Nat.le_total _ _
    exact (List.pairwise_mergeSort htrans htotal axes).imp of_decide_eq_true
  refine ⟨sorted, hperm, (hdisjoint.and hsorted).imp_of_mem fun {axis other} ha ho hd => ?_⟩
  have ha := hperm.mem_iff.mp ha
  have ho := hperm.mem_iff.mp ho
  exact next_le_preSize (h.checked axis ha) (h.checked other ho) ((hn axis ha).trans (hn other ho).symm)
    hd.left hd.right

-- The relation holds of where a part ends and where a later part of the same axis starts.
def Follow (R : Nat → Nat → Prop) (mesh : Mesh) (axes : List AxisRef) : Prop :=
  ∀ axis ∈ axes, ∀ other ∈ axes, axis.name = other.name →
    axis.preSize * axis.extent mesh ≤ other.preSize → R (axis.preSize * axis.extent mesh) other.preSize

theorem Follow.subset (h : Follow R mesh axes) (hs : used ⊆ axes) : Follow R mesh used :=
  fun axis ha other ho => h axis (hs ha) other (hs ho)

-- The devices along the parts of one axis, and those along the axis.
theorem Apart.prod_rel_size {size : Nat} {name : String} (hR : Scales R) (h : Apart mesh axes)
    (hs : mesh.axisSize? name = some size) (hpos : 0 < size) (hn : ∀ axis ∈ axes, axis.name = name)
    (hf : Follow R mesh axes) (hend : ∀ axis ∈ axes, R (axis.preSize * axis.extent mesh) size) :
    R (axes.map (extent mesh)).prod size := by
  have ⟨sorted, hperm, hfollow⟩ := h.exists_following hn
  have hpairs : sorted.Pairwise fun axis other => R (axis.preSize * axis.extent mesh) other.preSize := by
    refine hfollow.imp_of_mem fun {axis other} ha ho hle => ?_
    have ha := hperm.mem_iff.mp ha
    have ho := hperm.mem_iff.mp ho
    exact hf axis ha other ho ((hn axis ha).trans (hn other ho).symm) hle
  have hprod : R (1 * (sorted.map (extent mesh)).prod) size := by
    refine hR.mul_prod_extents (hR.one hpos) hpairs fun axis ha => ?_
    have ha := hperm.mem_iff.mp ha
    have hpre := (segment_of_check (h.checked axis ha) (by rw [hn axis ha, hs]) hpos).left
    exact ⟨hR.one hpre, hend axis ha⟩
  rwa [Nat.one_mul, (hperm.map _).prod_eq] at hprod

theorem exists_axis_of_check (h : axis.check mesh = .ok ()) :
    ∃ own ∈ mesh.axes, own.name = axis.name ∧ mesh.axisSize? axis.name = some own.size := by
  obtain ⟨_, hs, -⟩ := check_eq_ok_iff.mp h
  obtain ⟨own, hf, -⟩ := Option.map_eq_some_iff.mp hs
  exact ⟨own, List.mem_of_find?_eq_some hf, by simpa using List.find?_some hf, by rw [Mesh.axisSize?, hf]; rfl⟩

theorem name_mem_of_check (h : axis.check mesh = .ok ()) : axis.name ∈ mesh.axes.map (·.name) := by
  obtain ⟨own, ho, hn, -⟩ := exists_axis_of_check h
  exact List.mem_map.mpr ⟨own, ho, hn⟩

-- The devices along the references, and all devices of the mesh.
theorem Apart.prod_rel (hR : Scales R) (h : Apart mesh axes) (hb : mesh.Built) (hf : Follow R mesh axes)
    (hend : ∀ axis ∈ axes, ∀ size, mesh.axisSize? axis.name = some size →
      R (axis.preSize * axis.extent mesh) size) :
    R (axes.map (extent mesh)).prod (mesh.axes.map (·.size)).prod := by
  have ⟨hpos, _, _⟩ := hb.spans
  have hname : ∀ axis ∈ axes, axis.name ∈ mesh.axes.map (·.name) :=
    fun axis ha => name_mem_of_check (h.checked axis ha)
  -- The induction is on the axes of the mesh, each of which takes the references to it.
  have hax : ∀ axis ∈ mesh.axes, 0 < axis.size ∧ mesh.axisSize? axis.name = some axis.size :=
    fun axis ha => ⟨hpos axis ha, hb.axisSize?_eq ha⟩
  generalize mesh.axes = meshAxes at hname hax
  induction meshAxes generalizing axes with
  | nil =>
    obtain rfl : axes = [] := List.eq_nil_iff_forall_not_mem.mpr fun axis ha => by simpa using hname axis ha
    exact hR.one Nat.one_pos
  | cons first meshAxes ih =>
    have ⟨⟨hsize, hfirst⟩, hax⟩ := List.forall_mem_cons.mp hax
    have hperm := (List.filter_append_perm (fun axis : AxisRef => decide (axis.name = first.name)) axes).map
      (extent mesh)
    rw [← hperm.prod_eq, List.map_append, List.prod_append, List.map_cons, List.prod_cons]
    apply hR.mul_mul
    case h =>
      have hsub : (axes.filter fun axis => axis.name = first.name).Sublist axes := List.filter_sublist
      have hn : ∀ axis ∈ axes.filter fun axis => axis.name = first.name, axis.name = first.name := by simp
      refine (h.sublist hsub).prod_rel_size hR hfirst hsize hn (hf.subset hsub.subset) fun axis ha => ?_
      exact hend axis (hsub.subset ha) _ (by rw [hn axis ha, hfirst])
    case h' =>
      have hsub : (axes.filter fun axis => !decide (axis.name = first.name)).Sublist axes := List.filter_sublist
      refine ih (h.sublist hsub) (hf.subset hsub.subset) (fun axis ha => hend axis (hsub.subset ha)) ?_ hax
      intro axis ha
      simp only [List.mem_filter, Bool.not_eq_true', decide_eq_false_iff_not] at ha
      simpa [ha.right] using hname axis ha.left

theorem Apart.prod_le (h : Apart mesh axes) (hb : mesh.Built) :
    (axes.map (extent mesh)).prod ≤ (mesh.axes.map (·.size)).prod := by
  refine h.prod_rel .le hb (fun _ _ _ _ _ hle => hle) fun axis ha size hs => ?_
  exact (segment_of_check (h.checked axis ha) hs (hb.size_pos hs)).right.right

theorem Apart.prod_le_greatest (h : Apart mesh axes) (hb : mesh.Built) :
    (axes.map (extent mesh)).prod ≤ Size.greatest := by
  have ⟨_, _, hprod⟩ := hb.spans
  exact (h.prod_le hb).trans hprod

theorem Apart.extents_pos (h : Apart mesh axes) (hb : mesh.Built) :
    ∀ size ∈ axes.map (extent mesh), 0 < size := by
  simp only [List.forall_mem_map]
  intro axis ha
  have ⟨size, hs, _⟩ := check_eq_ok_iff.mp (h.checked axis ha)
  exact (segment_of_check (h.checked axis ha) hs (hb.size_pos hs)).right.left

theorem mapM_sizeIn_of_check (h : ∀ axis ∈ axes, axis.check mesh = .ok ()) :
    axes.mapM (·.sizeIn mesh) = .ok (axes.map (extent mesh)) := by
  induction axes with
  | nil => rfl
  | cons axis axes ih =>
    obtain ⟨ha, h⟩ := List.forall_mem_cons.mp h
    rw [List.mapM_cons, sizeIn_of_check ha, ih h]
    rfl

theorem Apart.totalSize_eq (h : Apart mesh axes) (hb : mesh.Built) :
    totalSize axes mesh = .ok (axes.map (extent mesh)).prod := by
  rw [totalSize, mapM_sizeIn_of_check h.checked,
    ← Size.satProd_eq_prod (h.extents_pos hb) (h.prod_le_greatest hb)]
  rfl

end Product

end AxisRef

end MeshSharding
