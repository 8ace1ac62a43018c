import MeshSharding.Proofs.Collective.Infer

namespace MeshSharding.AxisRef

variable {mesh : Mesh} {axis other first merged third : AxisRef} {axes rest result : List AxisRef}

section Merge

-- A reference to the same axis that starts with the same factor, and is a part of it only if the other is.
structure Starts (first axis : AxisRef) : Prop where
  name    : first.name = axis.name
  preSize : first.preSize = axis.preSize
  part    : first.isSub → axis.isSub

theorem Starts.refl (axis : AxisRef) : Starts axis axis :=
  ⟨rfl, rfl, id⟩

theorem Starts.trans (h : Starts first axis) (h' : Starts axis other) : Starts first other :=
  ⟨h.name.trans h'.name, h.preSize.trans h'.preSize, fun hf => h'.part (h.part hf)⟩

-- What merging a part of an axis with the one that follows it directly gives.
structure Merges (mesh : Mesh) (axis other merged : AxisRef) : Prop where
  starts  : Starts merged axis
  parts   : axis.isSub ∧ other.isSub
  name    : axis.name = other.name
  preSize : other.preSize = axis.preSize * axis.extent mesh
  extent  : merged.extent mesh = axis.extent mesh * other.extent mesh
  checked : merged.check mesh = .ok ()

-- References are merged whenever one follows the other directly.
theorem merge?_eq_none_iff (ha : axis.check mesh = .ok ()) :
    axis.merge? other mesh = none ↔ axis.canMerge other = false := by
  have ⟨size, hs, _⟩ := check_eq_ok_iff.mp ha
  cases hp : axis.part <;> cases hq : other.part <;> simp [merge?, canMerge, hp, hq, hs]
  grind

theorem merges_of_merge? (ha : axis.check mesh = .ok ()) (ho : other.check mesh = .ok ())
    (h : axis.merge? other mesh = some merged) : Merges mesh axis other merged := by
  obtain ⟨size, hs, _⟩ := check_eq_ok_iff.mp ha
  cases hp : axis.part <;> cases hq : other.part <;> simp only [merge?, hp, hq, hs, reduceCtorEq] at h
  case some.some sub sub' =>
    simp only [Option.ite_none_right_eq_some, canMerge, hp, hq, Bool.and_eq_true, decide_eq_true_eq,
      Size.mul?_eq_some_iff] at h
    obtain ⟨⟨hn, hpre, -⟩, hm⟩ := h
    obtain ⟨hpos, hsize, _⟩ := part_of_check ha hp
    have parts : axis.isSub ∧ other.isSub := by simp [isSub, hp, hq]
    have follows : other.preSize = axis.preSize * axis.extent mesh := by simp [preSize, extent, hp, hq, hpre]
    split at hm <;> cases hm
    case isTrue hw =>
      exact {
        starts  := ⟨rfl, by simp [preSize, hp, whole, hw.left], by simp [isSub, whole]⟩
        parts   := parts
        name    := hn
        preSize := follows
        extent  := by simp [extent, whole, hp, hq, hs, hw.right]
        checked := check_eq_ok_iff.mpr ⟨size, hs, by simp [whole]⟩ }
    case isFalse hw =>
      obtain ⟨_, hs', hf⟩ := check_eq_ok_iff.mp ho
      cases hs.symm.trans ((congrArg mesh.axisSize? hn).trans hs')
      obtain ⟨_, hsize', hle, hd, _⟩ := fault?_eq_none_iff.mp (hf sub' hq)
      rw [← hpre, Nat.mul_assoc] at hle hd
      have hfault : SubAxis.fault? ⟨sub.preSize, sub.size * sub'.size⟩ size = none := by
        refine fault?_eq_none_iff.mpr ⟨hpos, Nat.one_lt_mul_iff.mpr (by omega), hle, hd, fun hspan => hw ?_⟩
        have hone : sub.preSize = 1 := hspan.right
        exact ⟨hone, by simpa only [hone, Nat.one_mul] using hspan.left⟩
      exact {
        starts  := ⟨rfl, by simp [preSize, hp, AxisRef.sub], fun _ => parts.left⟩
        parts   := parts
        name    := hn
        preSize := follows
        extent  := by simp [extent, AxisRef.sub, hp, hq]
        checked := check_eq_ok_iff.mpr ⟨size, hs, by simpa [AxisRef.sub] using hfault⟩ }

theorem extent_of_isSub (h : axis.check mesh = .ok ()) (hs : axis.isSub) : 0 < axis.preSize ∧ 1 < axis.extent mesh := by
  have ⟨sub, hp⟩ := Option.isSome_iff_exists.mp hs
  have ⟨hpre, hsize, _⟩ := part_of_check h hp
  simpa [preSize, extent, hp] using ⟨hpre, hsize⟩

-- A part overlaps a reference to the same axis if each of them starts before the other one ends.
theorem overlaps_iff_of_isSub (ha : axis.check mesh = .ok ()) (ho : other.check mesh = .ok ())
    (hn : axis.name = other.name) (hs : other.isSub) (hpos : 0 < axis.extent mesh) : axis.overlaps other ↔
      axis.preSize < other.preSize * other.extent mesh ∧ other.preSize < axis.preSize * axis.extent mesh := by
  obtain ⟨sub, hp⟩ := Option.isSome_iff_exists.mp hs
  obtain ⟨hpre, hsize, hnext⟩ := part_of_check ho hp
  have hlt : sub.preSize < sub.preSize * sub.size := lt_mul_of_one_lt_right hpre hsize
  cases hq : axis.part with
  | some part =>
    obtain ⟨_, _, hnext'⟩ := part_of_check ha hq
    simp [overlaps, hn, hp, hq, SubAxis.overlaps, preSize, extent, hnext, hnext']
  | none =>
    obtain ⟨size, hsome, _⟩ := check_eq_ok_iff.mp ho
    have hsize' : axis.extent mesh = size := by simp [extent, hq, hn, hsome]
    have hd := end_dvd_of_check ho hsome
    have hle := Nat.le_of_dvd (hsize' ▸ hpos) hd
    rw [hsize']
    simp only [overlaps, hn, hp, hq, preSize, extent, decide_true, Bool.and_self, true_iff] at hle ⊢
    omega

-- What overlaps the merged reference overlaps one of the two, and the other way around.
theorem Merges.overlaps (h : Merges mesh axis other merged) (ha : axis.check mesh = .ok ())
    (ho : other.check mesh = .ok ()) (ht : third.check mesh = .ok ()) :
    merged.overlaps third = (axis.overlaps third || other.overlaps third) := by
  by_cases hn : axis.name = third.name
  case neg => simp [AxisRef.overlaps, h.starts.name, hn, ← h.name]
  case pos =>
    cases hs : third.isSub with
    | false =>
      have hp : third.part = none := by simpa [isSub] using hs
      simp [AxisRef.overlaps, h.starts.name, hn, ← h.name, hp]
    | true =>
      obtain ⟨hpre, hext⟩ := extent_of_isSub ha h.parts.left
      obtain ⟨hpre', hext'⟩ := extent_of_isSub ho h.parts.right
      have hmid := lt_mul_of_one_lt_right hpre hext
      have hend := lt_mul_of_one_lt_right hpre' hext'
      obtain ⟨hpos, hsize⟩ := extent_of_isSub ht hs
      have hlt := lt_mul_of_one_lt_right hpos hsize
      have hpos : 0 < merged.extent mesh := by
        rw [h.extent]
        exact Nat.mul_pos (by omega) (by omega)
      rw [Bool.eq_iff_iff, Bool.or_eq_true, overlaps_iff_of_isSub h.checked ht (h.starts.name.trans hn) hs hpos,
        overlaps_iff_of_isSub ha ht hn hs (by omega), overlaps_iff_of_isSub ho ht (h.name.symm.trans hn) hs (by omega),
        h.starts.preSize, h.extent, ← Nat.mul_assoc, ← h.preSize]
      rw [← h.preSize] at hmid
      omega

end Merge

section Sorted

-- In the order of the mesh, and without overlaps.
structure Sorted (mesh : Mesh) (axes : List AxisRef) : Prop extends Apart mesh axes where
  sorted : axes.Pairwise fun axis other => order mesh axis other = .lt

theorem preSize_ne_of_overlaps (ha : axis.check mesh = .ok ()) (ho : other.check mesh = .ok ())
    (hn : axis.name = other.name) (hd : axis.overlaps other = false) : axis.preSize ≠ other.preSize := by
  intro he
  have hle := next_le_preSize ha ho hn hd (Nat.le_of_eq he)
  have hs : axis.isSub := by
    by_contra hs
    have hp : axis.part = none := by simpa [isSub] using hs
    simp [overlaps, hn, hp] at hd
  obtain ⟨hpre, hext⟩ := extent_of_isSub ha hs
  have hlt := lt_mul_of_one_lt_right hpre hext
  omega

-- The order of references that share no factor is that of their axes and of where they start.
theorem order_congr {axis' other' : AxisRef} (ha : Starts axis' axis) (ho : Starts other' other)
    (h : axis.name = other.name → axis.preSize ≠ other.preSize) : order mesh axis' other' = order mesh axis other := by
  simp only [order, ha.name, ha.preSize, ho.name, ho.preSize]
  by_cases hn : axis.name = other.name
  case pos =>
    have hne : compare axis.preSize other.preSize ≠ .eq := fun he => h hn (Nat.compare_eq_eq.mp he)
    cases hc : compare axis.preSize other.preSize <;> simp_all
  case neg =>
    have hne : compare axis.name other.name ≠ .eq := fun he => hn (compare_eq_iff_eq.mp he)
    cases hc : compare axis.name other.name <;> simp_all

theorem Apart.sorted_mergeSort (h : Apart mesh axes) :
    Sorted mesh (axes.mergeSort fun axis other => order mesh axis other ≠ .gt) := by
  have hperm := List.mergeSort_perm axes fun axis other => order mesh axis other ≠ .gt
  have happart := h.perm hperm
  have hle : (axes.mergeSort fun axis other => order mesh axis other ≠ .gt).Pairwise
      fun axis other => order mesh axis other ≠ .gt := by
    have htrans (a b c : AxisRef) : decide (order mesh a b ≠ .gt) → decide (order mesh b c ≠ .gt) →
        decide (order mesh a c ≠ .gt) := by
      simpa only [decide_eq_true_eq, ne_eq, Ordering.ne_gt_iff_isLE] using Std.TransCmp.isLE_trans
    have htotal (a b : AxisRef) : decide (order mesh a b ≠ .gt) || decide (order mesh b a ≠ .gt) := by
      have hswap : order mesh b a = (order mesh a b).swap := Std.OrientedCmp.eq_swap
      rw [hswap]
      cases order mesh a b <;> rfl
    exact (List.pairwise_mergeSort htrans htotal axes).imp of_decide_eq_true
  refine ⟨happart, (hle.and happart.disjoint).imp_of_mem fun {axis other} ha ho hd => ?_⟩
  -- Two references that are the same to the order start with the same factor.
  cases hc : order mesh axis other with
  | lt => rfl
  | gt => exact absurd hc hd.left
  | eq =>
    simp only [order, Ordering.then_eq_eq, compare_eq_iff_eq] at hc
    have hne := preSize_ne_of_overlaps (happart.checked axis ha) (happart.checked other ho) hc.right.left hd.right
    exact absurd hc.right.right.left hne

theorem Sorted.tail (h : Sorted mesh (axis :: rest)) : Sorted mesh rest where
  toApart := h.toApart.sublist (List.sublist_cons_self axis rest)
  sorted  := h.sorted.of_cons

-- The merged reference takes the place of the two.
theorem Sorted.merge (h : Sorted mesh (axis :: other :: rest)) (hm : Merges mesh axis other merged) :
    Sorted mesh (merged :: rest) := by
  have ⟨ha, hc⟩ := List.forall_mem_cons.mp h.checked
  have ⟨ho, hrest⟩ := List.forall_mem_cons.mp hc
  have ⟨hda, hdisjoint⟩ := List.pairwise_cons.mp h.disjoint
  have ⟨hdo, _⟩ := List.pairwise_cons.mp hdisjoint
  have ⟨hsa, _⟩ := List.pairwise_cons.mp h.sorted
  have htail := h.tail.tail
  refine ⟨⟨List.forall_mem_cons.mpr ⟨hm.checked, hrest⟩, ?_⟩, ?_⟩
  case refine_1 =>
    refine List.pairwise_cons.mpr ⟨fun third ht => ?_, htail.disjoint⟩
    rw [hm.overlaps ha ho (hrest third ht), hda third (List.mem_cons_of_mem other ht), hdo third ht, Bool.or_false]
  case refine_2 =>
    refine List.pairwise_cons.mpr ⟨fun third ht => ?_, htail.sorted⟩
    have ht' := List.mem_cons_of_mem other ht
    rw [order_congr hm.starts (.refl third), hsa third ht']
    exact fun hn => preSize_ne_of_overlaps ha (hrest third ht) hn (hda third ht')

end Sorted

section Canonical

-- The list is in canonical form, and something overlaps one of its references if it does one of the others.
-- It starts where they start.
structure Canonicalizes (mesh : Mesh) (axes result : List AxisRef) : Prop where
  checked  : ∀ axis ∈ result, axis.check mesh = .ok ()
  overlaps : ∀ third : AxisRef, third.check mesh = .ok () → anyOverlaps result third = anyOverlaps axes third
  chain    : result.IsChain (Before mesh)
  head     : ∀ axis ∈ axes.head?, ∃ first ∈ result.head?, Starts first axis

-- Where two references cannot be merged, what merging makes of the second one cannot be merged with the first.
theorem canMerge_of_starts (h : Starts first other) (hm : axis.canMerge other = false) : axis.canMerge first = false := by
  cases hp : first.part with
  | none     => cases hq : axis.part <;> simp [canMerge, hp, hq]
  | some sub =>
    obtain ⟨sub', hr⟩ := Option.isSome_iff_exists.mp (h.part (by simp [isSub, hp]))
    have hpre : sub.preSize = sub'.preSize := by simpa [preSize, hp, hr] using h.preSize
    cases hq : axis.part with
    | none   => simp [canMerge, hp, hq]
    | some _ => simpa [canMerge, h.name, hp, hq, hr, hpre] using hm

theorem Sorted.canonicalizes_mergeFrom (h : Sorted mesh (axis :: rest)) :
    Canonicalizes mesh (axis :: rest) (mergeFrom mesh axis rest) := by
  fun_induction mergeFrom mesh axis rest with
  | case1 axis => exact ⟨h.checked, fun _ _ => rfl, .singleton _, by simp [Starts.refl]⟩
  | case2 axis other rest merged hm ih =>
    have ha := h.checked axis List.mem_cons_self
    have ho := h.checked other (by simp)
    have hm := merges_of_merge? ha ho hm
    have ih := ih (h.merge hm)
    exact {
      checked  := ih.checked
      overlaps := fun third ht => by
        rw [ih.overlaps third ht]
        simp [anyOverlaps, hm.overlaps ha ho ht, Bool.or_assoc]
      chain    := ih.chain
      head     := by
        obtain ⟨first, hf, hs⟩ := ih.head merged rfl
        simpa using ⟨first, hf, hs.trans hm.starts⟩ }
  | case3 axis other rest hm ih =>
    have ha := h.checked axis List.mem_cons_self
    have ho := h.checked other (by simp)
    have hd := (List.pairwise_cons.mp h.disjoint).left
    have hlt := (List.pairwise_cons.mp h.sorted).left
    have ih := ih h.tail
    obtain ⟨first, hf, hs⟩ := ih.head other rfl
    have hmem : first ∈ mergeFrom mesh other rest := List.mem_of_mem_head? hf
    have hbefore : Before mesh axis first := by
      refine ⟨?_, ?_, canMerge_of_starts hs ((merge?_eq_none_iff ha).mp hm)⟩
      case refine_1 =>
        rw [order_congr (.refl axis) hs, hlt other List.mem_cons_self]
        exact fun hn => preSize_ne_of_overlaps ha ho hn (hd other List.mem_cons_self)
      case refine_2 =>
        -- The first reference overlaps none of the others, hence nothing of what they are merged to.
        have hnone : anyOverlaps (mergeFrom mesh other rest) axis = false := by
          rw [ih.overlaps axis ha, anyOverlaps_eq_false_iff]
          intro third ht
          rw [overlaps_comm, hd third ht]
        rw [overlaps_comm]
        exact anyOverlaps_eq_false_iff.mp hnone first hmem
    exact {
      checked  := List.forall_mem_cons.mpr ⟨ha, ih.checked⟩
      overlaps := fun third ht => by
        have := ih.overlaps third ht
        simp only [anyOverlaps, List.any_cons] at this ⊢
        rw [this]
      chain    := List.isChain_cons.mpr ⟨fun other ho => Option.mem_unique hf ho ▸ hbefore, ih.chain⟩
      head     := by simp [Starts.refl] }

-- The references are merged from the first one in the order of the mesh, if there are any.
theorem Apart.canonicalize_cases (h : Apart mesh axes) : (axes = [] ∧ canonicalize axes mesh = []) ∨
    ∃ axis rest, (axis :: rest).Perm axes ∧ Sorted mesh (axis :: rest) ∧
      canonicalize axes mesh = mergeFrom mesh axis rest := by
  have hs := h.sorted_mergeSort
  have hperm := List.mergeSort_perm axes fun axis other => order mesh axis other ≠ .gt
  rw [canonicalize]
  generalize (axes.mergeSort fun axis other => order mesh axis other ≠ .gt) = sorted at hs hperm ⊢
  cases sorted with
  | nil            => exact .inl ⟨hperm.nil_eq.symm, rfl⟩
  | cons axis rest => exact .inr ⟨axis, rest, hperm, hs, rfl⟩

theorem Apart.exists_canonicalizes (h : Apart mesh axes) :
    ∃ sorted : List AxisRef, sorted.Perm axes ∧ Canonicalizes mesh sorted (canonicalize axes mesh) := by
  obtain ⟨rfl, hresult⟩ | ⟨axis, rest, hperm, hs, hresult⟩ := h.canonicalize_cases
  case inl =>
    rw [hresult]
    exact ⟨[], .nil, by simp, fun _ _ => rfl, .nil, by simp⟩
  case inr =>
    rw [hresult]
    exact ⟨axis :: rest, hperm, hs.canonicalizes_mergeFrom⟩

theorem Apart.check_canonicalize (h : Apart mesh axes) : ∀ axis ∈ canonicalize axes mesh, axis.check mesh = .ok () := by
  have ⟨_, _, hc⟩ := h.exists_canonicalizes
  exact hc.checked

theorem Apart.checkCanonical_canonicalize (h : Apart mesh axes) :
    checkCanonical (canonicalize axes mesh) mesh = .ok () := by
  have ⟨_, _, hc⟩ := h.exists_canonicalizes
  exact (checkCanonical_iff hc.checked).mpr (pairwise_before_of_isChain hc.checked hc.chain)

theorem Apart.anyOverlaps_canonicalize (h : Apart mesh axes) (ht : third.check mesh = .ok ()) :
    anyOverlaps (canonicalize axes mesh) third = anyOverlaps axes third := by
  have ⟨_, hperm, hc⟩ := h.exists_canonicalizes
  rw [hc.overlaps third ht, anyOverlaps, hperm.any_eq, anyOverlaps]

end Canonical

end MeshSharding.AxisRef
