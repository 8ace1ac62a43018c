import MeshSharding.Proofs.Sharding.Fit

namespace MeshSharding

-- The part is a proper factor of an axis of this size.
structure SubAxis.FactorOf (sub : SubAxis) (axisSize : Nat) : Prop where
  preSize : 1 ≤ sub.preSize
  size    : 2 ≤ sub.size
  divides : sub.preSize * sub.size ∣ axisSize
  proper  : ¬(sub.preSize = 1 ∧ sub.size = axisSize)

namespace AxisRef

variable {mesh : Mesh} {axis other : AxisRef} {axes : List AxisRef}

-- The reference is to an axis of the mesh, or to a factor of one.
def InMesh (mesh : Mesh) (axis : AxisRef) : Prop :=
  ∃ size, mesh.axisSize? axis.name = some size ∧ ∀ sub ∈ axis.part, sub.FactorOf size

-- The references are to one axis, and each part of it starts before the other one ends.
def Overlapping (axis other : AxisRef) : Prop :=
  axis.name = other.name ∧ ∀ sub ∈ axis.part, ∀ sub' ∈ other.part,
    sub.preSize < sub'.preSize * sub'.size ∧ sub'.preSize < sub.preSize * sub.size

-- The references are to parts of one axis, and the other part starts where the first one ends.
def Mergeable (axis other : AxisRef) : Prop :=
  axis.name = other.name ∧ ∃ sub ∈ axis.part, ∃ sub' ∈ other.part, sub.preSize * sub.size = sub'.preSize

section Exact

-- The axes of a mesh that can be built are small enough for their factors not to overflow.
theorem check_iff_inMesh (hb : mesh.Built) : axis.check mesh = .ok () ↔ axis.InMesh mesh := by
  rw [check_eq_ok_iff, InMesh]
  refine exists_congr fun size => and_congr_right fun hs => forall₂_congr fun sub _ => ?_
  obtain ⟨own, hf, rfl⟩ := Option.map_eq_some_iff.mp hs
  have hown := List.mem_of_find?_eq_some hf
  rw [fault?_eq_none_iff]
  constructor
  case mp =>
    rintro ⟨hpre, hsize, -, hd, hw⟩
    refine ⟨hpre, hsize, hd, fun ⟨hone, hspan⟩ => hw ⟨?_, hone⟩⟩
    rw [hone, hspan, Nat.one_mul]
  case mpr =>
    rintro ⟨hpre, hsize, hd, hw⟩
    have hle := (Nat.le_of_dvd (hb.spans.left own hown) hd).trans (hb.size_le hown)
    refine ⟨hpre, hsize, hle, hd, fun ⟨hspan, hone⟩ => hw ⟨hone, ?_⟩⟩
    rwa [hone, Nat.one_mul] at hspan

theorem overlaps_iff (ha : axis.check mesh = .ok ()) (ho : other.check mesh = .ok ()) :
    axis.overlaps other ↔ axis.Overlapping other := by
  cases hp : axis.part with
  | none     => simp [overlaps, Overlapping, hp]
  | some sub =>
    cases hq : other.part with
    | none      => simp [overlaps, Overlapping, hp, hq]
    | some sub' =>
      obtain ⟨_, _, hnext⟩ := part_of_check ha hp
      obtain ⟨_, _, hnext'⟩ := part_of_check ho hq
      simp [overlaps, Overlapping, hp, hq, SubAxis.overlaps, hnext, hnext']

theorem canMerge_iff (ha : axis.check mesh = .ok ()) : axis.canMerge other ↔ axis.Mergeable other := by
  cases hp : axis.part with
  | none     => simp [canMerge, Mergeable, hp]
  | some sub =>
    cases hq : other.part with
    | none      => simp [canMerge, Mergeable, hp, hq]
    | some sub' =>
      obtain ⟨_, _, hf⟩ := check_eq_ok_iff.mp ha
      obtain ⟨_, _, hle, _⟩ := fault?_eq_none_iff.mp (hf sub hp)
      simp only [canMerge, Mergeable, hp, hq, Size.mul?_eq_some_iff, Bool.and_eq_true, decide_eq_true_eq]
      grind

theorem apart_iff (hb : mesh.Built) : Apart mesh axes ↔
    (∀ axis ∈ axes, axis.InMesh mesh) ∧ axes.Pairwise fun axis other => ¬axis.Overlapping other := by
  have hchecked : (∀ axis ∈ axes, axis.check mesh = .ok ()) ↔ ∀ axis ∈ axes, axis.InMesh mesh :=
    forall₂_congr fun _ _ => check_iff_inMesh hb
  have hpairs (h : ∀ axis ∈ axes, axis.check mesh = .ok ()) : (axes.Pairwise fun axis other =>
      axis.overlaps other = false) ↔ axes.Pairwise fun axis other => ¬axis.Overlapping other :=
    List.Pairwise.iff_of_mem fun ha ho => by rw [← overlaps_iff (h _ ha) (h _ ho), Bool.not_eq_true]
  constructor
  case mp  => exact fun ⟨hc, hd⟩ => ⟨hchecked.mp hc, (hpairs hc).mp hd⟩
  case mpr => exact fun ⟨hc, hd⟩ => ⟨hchecked.mpr hc, (hpairs (hchecked.mpr hc)).mpr hd⟩

theorem Apart.isChain_canMerge_iff (h : Apart mesh axes) :
    (axes.IsChain fun axis other => axis.canMerge other = false) ↔
      axes.IsChain fun axis other => ¬axis.Mergeable other :=
  List.IsChain.iff_of_mem_imp fun axis other ha _ => by rw [← canMerge_iff (h.checked axis ha), Bool.not_eq_true]

theorem Apart.checkCanonical_iff (h : Apart mesh axes) : checkCanonical axes mesh = .ok () ↔
    (axes.Pairwise fun axis other => order mesh axis other = .lt) ∧
      axes.IsChain fun axis other => ¬axis.Mergeable other := by
  rw [AxisRef.checkCanonical_iff h.checked, ← h.isChain_canMerge_iff]
  constructor
  case mp  => exact fun hp => ⟨hp.imp And.left, (hp.imp fun hb => hb.right.right).isChain⟩
  case mpr =>
    rintro ⟨hs, hm⟩
    refine pairwise_before_of_isChain h.checked ?_
    have hsorted := (hs.and h.disjoint).isChain
    rw [List.isChain_iff_getElem] at hsorted hm ⊢
    exact fun i hi => ⟨(hsorted i hi).left, (hsorted i hi).right, hm i hi⟩

end Exact

end AxisRef

namespace Sharding

open AxisRef

variable {s : Sharding} {mesh : Mesh} {shape : List Nat} {dim : DimSharding} {size : Nat}

-- The sharding is valid for tensors of this shape on this mesh.
structure Fits (s : Sharding) (mesh : Mesh) (shape : List Nat) : Prop where
  rank     : s.rank = shape.length
  inMesh   : ∀ axis ∈ s.shardingAxes ++ s.replicated, axis.InMesh mesh
  disjoint : (s.shardingAxes ++ s.replicated).Pairwise fun axis other => ¬axis.Overlapping other
  merged   : ∀ dim ∈ s.dims, dim.axes.IsChain fun axis other => ¬axis.Mergeable other
  sorted   : s.replicated.Pairwise fun axis other => order mesh axis other = .lt
  maximal  : s.replicated.IsChain fun axis other => ¬axis.Mergeable other
  evenly   : ∀ (i : Nat) dim size, s.dims[i]? = some dim → shape[i]? = some size →
    (dim.axes.map (extent mesh)).prod ∣ size

theorem splits_iff (hb : mesh.Built) (ha : Apart mesh dim.axes) : dim.Splits mesh size ↔
    (dim.axes.IsChain fun axis other => ¬axis.Mergeable other) ∧ (dim.axes.map (extent mesh)).prod ∣ size := by
  have htotal : dim.shardCount mesh = .ok (dim.axes.map (extent mesh)).prod := ha.totalSize_eq hb
  rw [← ha.isChain_canMerge_iff, ← checkMerged_iff, Nat.dvd_iff_mod_eq_zero]
  constructor
  case mp  => exact fun ⟨hm, _, hs, he⟩ => ⟨hm, Except.ok.inj (hs.symm.trans htotal) ▸ he⟩
  case mpr => exact fun ⟨hm, he⟩ => ⟨hm, _, htotal, he⟩

theorem checkIn_iff_fits (hb : mesh.Built) : s.checkIn mesh shape = .ok () ↔ s.Fits mesh shape := by
  rw [checkIn_eq_ok_iff]
  constructor
  case mp =>
    rintro ⟨hr, ha, hs, hc⟩
    have ⟨hin, hd⟩ := (apart_iff hb).mp ha
    have ⟨hsorted, hmax⟩ := (ha.sublist (List.sublist_append_right _ _)).checkCanonical_iff.mp hc
    have hsplits {i : Nat} {dim : DimSharding} {size : Nat} (hi : s.dims[i]? = some dim)
        (hj : shape[i]? = some size) :=
      (splits_iff hb (ha.sublist (axes_sublist (List.mem_of_getElem? hi)))).mp
        (hs (dim, size) (List.mem_of_getElem? (List.getElem?_zip_eq_some.mpr ⟨hi, hj⟩)))
    refine ⟨hr, hin, hd, fun dim hdim => ?_, hsorted, hmax, fun i dim size hi hj => (hsplits hi hj).right⟩
    obtain ⟨i, hlt, rfl⟩ := List.mem_iff_getElem.mp hdim
    have hsize : i < shape.length := hr ▸ hlt
    exact (hsplits (List.getElem?_eq_getElem hlt) (List.getElem?_eq_getElem hsize)).left
  case mpr =>
    intro h
    have ha : Apart mesh (s.shardingAxes ++ s.replicated) := (apart_iff hb).mpr ⟨h.inMesh, h.disjoint⟩
    refine ⟨h.rank, ha, fun entry he => ?_, ?_⟩
    case refine_1 =>
      obtain ⟨i, hi⟩ := List.mem_iff_getElem?.mp he
      have ⟨hdim, hsize⟩ := List.getElem?_zip_eq_some.mp hi
      have hmem := List.mem_of_getElem? hdim
      exact (splits_iff hb (ha.sublist (axes_sublist hmem))).mpr
        ⟨h.merged _ hmem, h.evenly i _ _ hdim hsize⟩
    case refine_2 =>
      exact (ha.sublist (List.sublist_append_right _ _)).checkCanonical_iff.mpr ⟨h.sorted, h.maximal⟩

-- Two halves of one axis that are not one factor, in the dimension and replicated, and another axis before.
def oddMesh : Mesh :=
  { axes := [⟨"a", 2⟩, ⟨"b", 8⟩, ⟨"c", 3⟩], deviceIds := [] }

def splitThrice : Sharding :=
  { mesh := .literal oddMesh
    dims := [{ axes := [.whole "a", .sub "b" 4 2], closed := false }, { axes := [.whole "c"] }]
    replicated := [.sub "b" 1 2] }

theorem checkIn_iff_fits_splitThrice : splitThrice.checkIn oddMesh [8, 9] = .ok () ∧
    splitThrice.Fits oddMesh [8, 9] := by
  have hb : oddMesh.Built := rfl
  have hfits : splitThrice.checkIn oddMesh [8, 9] = .ok () := by decide
  exact ⟨hfits, (checkIn_iff_fits hb).mp hfits⟩

section Counts

theorem apart_of_checkIn (h : s.checkIn mesh shape = .ok ()) : Apart mesh s.shardingAxes := by
  obtain ⟨-, ha, -⟩ := checkIn_eq_ok_iff.mp h
  exact ha.sublist (List.sublist_append_left _ _)

theorem shardCounts_eq (hb : mesh.Built) (h : Apart mesh s.shardingAxes) :
    s.shardCounts mesh = .ok (s.dims.map fun dim => (dim.axes.map (extent mesh)).prod) := by
  rw [shardCounts]
  rw [shardingAxes] at h
  generalize s.dims = dims at h ⊢
  induction dims with
  | nil => rfl
  | cons dim dims ih =>
    rw [List.flatMap_cons] at h
    have hdim := (h.sublist (List.sublist_append_left _ _)).totalSize_eq hb
    rw [List.mapM_cons, DimSharding.shardCount, hdim, ih (h.sublist (List.sublist_append_right _ _))]
    rfl

theorem totalShards_eq (hb : mesh.Built) (h : Apart mesh s.shardingAxes) :
    s.totalShards mesh = .ok (s.shardingAxes.map (extent mesh)).prod := by
  have hprod : (s.dims.map fun dim => (dim.axes.map (extent mesh)).prod).prod =
      (s.shardingAxes.map (extent mesh)).prod := by
    rw [shardingAxes]
    induction s.dims with
    | nil => rfl
    | cons dim dims ih => rw [List.map_cons, List.prod_cons, List.flatMap_cons, List.map_append, List.prod_append, ih]
  have hcounts : ∀ count ∈ s.dims.map fun dim => (dim.axes.map (extent mesh)).prod, 0 < count := by
    simp only [List.forall_mem_map]
    intro dim hd
    apply List.prod_pos
    intro size hs
    have hsub : dim.axes ⊆ s.shardingAxes := fun axis ha => List.mem_flatMap.mpr ⟨dim, hd, ha⟩
    exact h.extents_pos hb size (List.map_subset _ hsub hs)
  rw [totalShards, shardCounts_eq hb h]
  change Except.ok (Size.satProd _) = _
  rw [Size.satProd_eq_prod hcounts (hprod ▸ h.prod_le_greatest hb), hprod]

-- The numbers of shards of a valid sharding are products without bound: that of a dimension, that along the manual
-- axes of it, whichever they are, and that of the tensor.
theorem shardCounts_exact (hb : mesh.Built) (h : s.checkIn mesh shape = .ok ()) :
    (∀ axis ∈ s.shardingAxes, axis.sizeIn mesh = .ok (axis.extent mesh)) ∧
      (∀ dim ∈ s.dims, dim.shardCount mesh = .ok (dim.axes.map (extent mesh)).prod) ∧
      s.totalShards mesh = .ok (s.shardingAxes.map (extent mesh)).prod ∧
      ∀ (manual : List String), ∀ dim ∈ s.dims, totalSize (dim.axes.filter (·.isManual manual)) mesh =
        .ok ((dim.axes.filter (·.isManual manual)).map (extent mesh)).prod := by
  obtain ⟨-, hall, -⟩ := checkIn_eq_ok_iff.mp h
  have hdim (dim : DimSharding) (hd : dim ∈ s.dims) : Apart mesh dim.axes :=
    hall.sublist (axes_sublist hd)
  have ha := apart_of_checkIn h
  refine ⟨fun axis hm => sizeIn_of_check (ha.checked axis hm), fun dim hd => (hdim dim hd).totalSize_eq hb,
    totalShards_eq hb ha, fun manual dim hd => ?_⟩
  exact ((hdim dim hd).sublist List.filter_sublist).totalSize_eq hb

-- With one more device along the second axis there would be too many to count.
def vastMesh : Mesh :=
  { axes := [⟨"x", 4294967296⟩, ⟨"y", 4294967295⟩], deviceIds := [] }

def vastSplit : Sharding :=
  { mesh := .literal vastMesh
    dims := [{ axes := [.sub "x" 1 65536, .whole "y"] }, { axes := [.sub "x" 65536 65536] }] }

theorem shardCounts_exact_vastSplit : vastSplit.checkIn vastMesh [562949953290240, 65536] = .ok () ∧
    vastSplit.totalShards vastMesh = .ok 18446744069414584320 ∧
    totalSize [.whole "y"] vastMesh = .ok 4294967295 := by
  have hb : vastMesh.Built := rfl
  have hfits : vastSplit.checkIn vastMesh [562949953290240, 65536] = .ok () := by decide
  obtain ⟨-, -, htotal, hmanual⟩ := shardCounts_exact hb hfits
  exact ⟨hfits, htotal, hmanual ["y"] _ List.mem_cons_self⟩

end Counts

section Local

variable {manual : List String} {type inner : TensorType}

theorem localType_splits_evenly (hb : mesh.Built) (h : s.localType manual mesh type = .ok inner) :
    (s.localView manual).checkIn mesh inner.shape = .ok () ∧ inner.element = type.element ∧
      inner.rank = type.rank ∧ ∀ (i : Nat) size, type.shape[i]? = some size →
        ∃ dim rest, s.dims[i]? = some dim ∧ inner.shape[i]? = some rest ∧
          size = rest * ((dim.axes.filter (·.isManual manual)).map (extent mesh)).prod := by
  have ⟨hfits, _, hsizes, helement⟩ := localType_eq_ok h
  have ⟨hrank, hapart, _⟩ := checkIn_eq_ok_iff.mp hfits
  have hrank : s.dims.length = type.shape.length := hrank
  have hlocal := localDims_eq_ok hsizes
  have hlength : inner.shape.length = type.shape.length := by
    rw [← hlocal.length_eq, List.length_zip]
    exact Nat.min_eq_right (Nat.le_of_eq hrank.symm)
  refine ⟨checkIn_localView hb h, helement, hlength, fun i size hi => ?_⟩
  obtain ⟨hlt, -⟩ := List.getElem?_eq_some_iff.mp hi
  obtain ⟨dim, hd⟩ : ∃ dim, s.dims[i]? = some dim := ⟨_, List.getElem?_eq_getElem (hrank ▸ hlt)⟩
  obtain ⟨rest, hr⟩ : ∃ rest, inner.shape[i]? = some rest := ⟨_, List.getElem?_eq_getElem (hlength ▸ hlt)⟩
  have hentry : ((dim, size), rest) ∈ (s.dims.zip type.shape).zip inner.shape := by
    apply List.mem_of_getElem? (i := i)
    exact List.getElem?_zip_eq_some.mpr ⟨List.getElem?_zip_eq_some.mpr ⟨hd, hi⟩, hr⟩
  obtain ⟨shards, hshards, heven, rfl⟩ := List.forall₂_zip hlocal hentry
  have hmanual : Apart mesh (dim.axes.filter (·.isManual manual)) :=
    hapart.sublist (List.filter_sublist.trans (axes_sublist (List.mem_of_getElem? hd)))
  obtain rfl := Except.ok.inj ((hmanual.totalSize_eq hb).symm.trans hshards)
  exact ⟨dim, _, hd, hr, (Nat.div_mul_cancel (Nat.dvd_of_mod_eq_zero heven)).symm⟩

theorem localType_splits_evenly_splitThrice :
    let inner : TensorType := ⟨[4, 3], .f32⟩
    splitThrice.localType ["a", "c"] oddMesh ⟨[8, 9], .f32⟩ = .ok inner ∧
      (splitThrice.localView ["a", "c"]).checkIn oddMesh inner.shape = .ok () ∧ ∃ rest, inner.shape[0]? = some rest ∧
        8 = rest * 2 := by
  intro inner
  have hb : oddMesh.Built := rfl
  have hlocal : splitThrice.localType ["a", "c"] oddMesh ⟨[8, 9], .f32⟩ = .ok inner := by decide
  obtain ⟨hview, _, _, heven⟩ := localType_splits_evenly hb hlocal
  obtain ⟨dim, rest, hd, hr, hsize⟩ := heven 0 8 rfl
  cases hd
  exact ⟨hlocal, hview, rest, hr, hsize⟩

end Local

end Sharding

end MeshSharding
