import MeshSharding.Proofs.Sharding.Canonical

namespace MeshSharding.AxisRef

variable {mesh : Mesh} {axis other : AxisRef} {axes rest listed : List AxisRef}

section Pairs

-- References that are well formed are in canonical form if any two of them are in order, share no factor and
-- are not one larger factor, also those that are not neighbours.
theorem checkCanonical_iff_allPairs (h : ∀ axis ∈ axes, axis.check mesh = .ok ()) :
    checkCanonical axes mesh = .ok () ↔ ∀ (i j : Nat) (hi : i < axes.length) (hj : j < axes.length), i < j →
      order mesh axes[i] axes[j] = .lt ∧ axes[i].overlaps axes[j] = false ∧ axes[i].canMerge axes[j] = false := by
  rw [checkCanonical_iff h, List.pairwise_iff_getElem]
  rfl

def partedMesh : Mesh :=
  { axes := [⟨"a", 2⟩, ⟨"c", 24⟩, ⟨"d", 8⟩] }

-- Between any two of the three parts there is a gap.
def gappedParts : List AxisRef :=
  [.whole "a", .sub "c" 1 2, .sub "c" 4 2, .sub "c" 12 2]

theorem checkCanonical_iff_allPairs_gappedParts :
    (∀ axis ∈ gappedParts, axis.check partedMesh = .ok ()) ∧ checkCanonical gappedParts partedMesh = .ok () ∧
      (AxisRef.sub "c" 1 2).overlaps (.sub "c" 12 2) = false ∧
      (AxisRef.sub "c" 1 2).canMerge (.sub "c" 12 2) = false := by
  have h : ∀ axis ∈ gappedParts, axis.check partedMesh = .ok () := by decide
  have hc : checkCanonical gappedParts partedMesh = .ok () := by decide
  have hpair := (checkCanonical_iff_allPairs h).mp hc 1 3 (by decide) (by decide) (by decide)
  exact ⟨h, hc, hpair.right⟩

end Pairs

section Fixed

theorem mergeFrom_of_isChain (h : ∀ third ∈ axis :: rest, third.check mesh = .ok ())
    (hc : (axis :: rest).IsChain fun axis other => axis.canMerge other = false) :
    mergeFrom mesh axis rest = axis :: rest := by
  induction rest generalizing axis with
  | nil => rfl
  | cons other rest ih =>
    have ⟨ha, h⟩ := List.forall_mem_cons.mp h
    have ⟨hm, hc⟩ := List.isChain_cons_cons.mp hc
    have hnone : axis.merge? other mesh = none := (merge?_eq_none_iff ha).mpr hm
    rw [mergeFrom, hnone, ih h hc]

-- What is in canonical form already stays as it is.
theorem canonicalize_of_checkCanonical (h : ∀ axis ∈ axes, axis.check mesh = .ok ())
    (hc : checkCanonical axes mesh = .ok ()) : canonicalize axes mesh = axes := by
  have hpairs := (checkCanonical_iff h).mp hc
  have hsorted : (axes.mergeSort fun axis other => order mesh axis other ≠ .gt) = axes := by
    apply List.mergeSort_of_pairwise
    exact hpairs.imp fun hb => by simp [hb.left]
  rw [canonicalize, hsorted]
  cases axes with
  | nil            => rfl
  | cons axis rest => exact mergeFrom_of_isChain h (hpairs.imp fun hb => hb.right.right).isChain

end Fixed

section Listed

-- References that share no factor can be sorted in one way only.
theorem Apart.mergeSort_eq_of_perm (h : Apart mesh axes) (hp : listed.Perm axes) :
    (listed.mergeSort fun axis other => order mesh axis other ≠ .gt) =
      axes.mergeSort fun axis other => order mesh axis other ≠ .gt := by
  have hasymm (axis other : AxisRef) (hlt : order mesh axis other = .lt) : order mesh other axis ≠ .lt := by
    rw [Std.OrientedCmp.gt_of_lt hlt]
    decide
  apply List.Perm.eq_of_pairwise (fun axis other _ _ hlt hgt => absurd hgt (hasymm axis other hlt))
    (h.perm hp).sorted_mergeSort.sorted h.sorted_mergeSort.sorted
  exact (List.mergeSort_perm listed _).trans (hp.trans (List.mergeSort_perm axes _).symm)

theorem Apart.canonicalize_eq_of_perm (h : Apart mesh axes) (hp : listed.Perm axes) :
    canonicalize listed mesh = canonicalize axes mesh := by
  rw [canonicalize, canonicalize, h.mergeSort_eq_of_perm hp]

end Listed

section Devices

theorem Sorted.prod_mergeFrom (h : Sorted mesh (axis :: rest)) :
    ((mergeFrom mesh axis rest).map (extent mesh)).prod = ((axis :: rest).map (extent mesh)).prod := by
  fun_induction mergeFrom mesh axis rest with
  | case1 axis => rfl
  | case2 axis other rest merged hm ih =>
    have hm := merges_of_merge? (h.checked axis List.mem_cons_self) (h.checked other (by simp)) hm
    rw [ih (h.merge hm)]
    simp only [List.map_cons, List.prod_cons, hm.extent, Nat.mul_assoc]
  | case3 axis other rest hm ih =>
    simp only [List.map_cons, List.prod_cons, ih h.tail]

theorem Apart.prod_canonicalize (h : Apart mesh axes) :
    ((canonicalize axes mesh).map (extent mesh)).prod = (axes.map (extent mesh)).prod := by
  obtain ⟨rfl, hresult⟩ | ⟨axis, rest, hperm, hs, hresult⟩ := h.canonicalize_cases
  case inl => rw [hresult]
  case inr => rw [hresult, hs.prod_mergeFrom, (hperm.map _).prod_eq]

end Devices

section Form

theorem exists_overlaps_iff : (∃ other ∈ axes, axis.overlaps other) ↔ anyOverlaps axes axis := by
  simp [anyOverlaps, overlaps_comm axis]

-- The canonical form of references that share no factor. Neither the order in which they are listed nor
-- another round matters to it, and it holds the same factors.
theorem canonicalForm_of_apart (h : Apart mesh axes) :
    (∀ axis ∈ canonicalize axes mesh, axis.check mesh = .ok ()) ∧
      checkCanonical (canonicalize axes mesh) mesh = .ok () ∧
      canonicalize (canonicalize axes mesh) mesh = canonicalize axes mesh ∧
      (∀ listed : List AxisRef, listed.Perm axes → canonicalize listed mesh = canonicalize axes mesh) ∧
      (∃ sizes sizes' : List Nat, axes.mapM (·.sizeIn mesh) = .ok sizes ∧
        (canonicalize axes mesh).mapM (·.sizeIn mesh) = .ok sizes' ∧ sizes'.prod = sizes.prod) ∧
      ∀ third : AxisRef, third.check mesh = .ok () →
        ((∃ axis ∈ canonicalize axes mesh, third.overlaps axis) ↔ ∃ axis ∈ axes, third.overlaps axis) := by
  have hchecked := h.check_canonicalize
  have hcanonical := h.checkCanonical_canonicalize
  have hfixed := canonicalize_of_checkCanonical hchecked hcanonical
  have hsizes := mapM_sizeIn_of_check h.checked
  have hsizes' := mapM_sizeIn_of_check hchecked
  refine ⟨hchecked, hcanonical, hfixed, fun listed hp => ?_, ⟨_, _, hsizes, hsizes', h.prod_canonicalize⟩,
    fun third ht => ?_⟩
  case refine_1 => exact h.canonicalize_eq_of_perm hp
  case refine_2 => rw [exists_overlaps_iff, exists_overlaps_iff, h.anyOverlaps_canonicalize ht]

-- Three parts that are a whole axis, and three of which two are one larger part.
def scatteredParts : List AxisRef :=
  [.sub "d" 4 2, .sub "c" 12 2, .sub "d" 1 2, .sub "c" 2 2, .whole "a", .sub "d" 2 2, .sub "c" 1 2]

theorem canonicalForm_of_apart_scatteredParts :
    let merged : List AxisRef := [.whole "a", .sub "c" 1 4, .sub "c" 12 2, .whole "d"]
    Apart partedMesh scatteredParts ∧ canonicalize scatteredParts partedMesh = merged ∧
      checkCanonical merged partedMesh = .ok () ∧ canonicalize merged partedMesh = merged ∧
      canonicalize scatteredParts.reverse partedMesh = merged ∧
      ¬ ∃ axis ∈ scatteredParts, (AxisRef.sub "c" 4 3).overlaps axis := by
  intro merged
  have h : Apart partedMesh scatteredParts := ⟨by decide, by decide⟩
  have hm : canonicalize scatteredParts partedMesh = merged := by cbv
  obtain ⟨-, hcanonical, hfixed, hlisted, -, hoverlaps⟩ := canonicalForm_of_apart h
  rw [hm] at hcanonical hfixed hlisted hoverlaps
  have hgap : ¬ ∃ axis ∈ merged, (AxisRef.sub "c" 4 3).overlaps axis := by decide
  exact ⟨h, hm, hcanonical, hfixed, hlisted _ (List.reverse_perm _), (not_congr (hoverlaps _ (by decide))).mp hgap⟩

end Form

end MeshSharding.AxisRef
