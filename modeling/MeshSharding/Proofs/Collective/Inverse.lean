import MeshSharding.Proofs.Verify.Operand

namespace MeshSharding

open AxisRef
open scoped List

namespace AxisRef

-- No two references in the list share a factor.
def NoOverlaps (axes : List AxisRef) : Prop :=
  axes.Pairwise fun axis other => axis.overlaps other = false

instance (axes : List AxisRef) : Decidable (NoOverlaps axes) :=
  inferInstanceAs (Decidable (axes.Pairwise _))

variable {axes others : List AxisRef} {axis : AxisRef}

theorem anyOverlaps_eq_false_iff :
    anyOverlaps axes axis = false ↔ ∀ other ∈ axes, other.overlaps axis = false := by
  simp [anyOverlaps]

theorem NoOverlaps.perm (h : NoOverlaps axes) (hp : others.Perm axes) : NoOverlaps others :=
  (hp.pairwise_iff fun {axis other} ho => (overlaps_comm other axis).trans ho).mpr h

theorem noOverlaps_append_iff : NoOverlaps (axes ++ others) ↔
    NoOverlaps axes ∧ NoOverlaps others ∧ ∀ other ∈ others, anyOverlaps axes other = false := by
  simp only [NoOverlaps, List.pairwise_append, anyOverlaps_eq_false_iff]
  apply and_congr_right
  intro _
  apply and_congr_right
  intro _
  exact ⟨fun h other ho axis ha => h axis ha other ho, fun h axis ha other ho => h other ho axis ha⟩

end AxisRef

namespace Sharding

variable {operand out : Sharding} {dims kept : List DimSharding} {axes : List (List AxisRef)}

-- Appends axes to the ends of dimensions.
def sliceDims (dims : List DimSharding) (axes : List (List AxisRef)) : List DimSharding :=
  dims.zipWith (fun dim axes => dim.withAxes (dim.axes ++ axes)) axes

theorem sliceDims_eq_map_zip : sliceDims dims axes =
    (dims.zip axes).map fun entry => entry.1.withAxes (entry.1.axes ++ entry.2) := by
  rw [List.map_zip_eq_zipWith]
  rfl

section Slice

variable {index : Nat} {sliced added result : List AxisRef}

theorem takeSlices_eq_ok_iff (hs : NoOverlaps sliced) :
    operand.takeSlices index sliced added = .ok result ↔
      (∀ axis ∈ added, anyOverlaps operand.shardingAxes axis = false) ∧ NoOverlaps (sliced ++ added) ∧
        sliced ++ added = result := by
  induction added generalizing sliced with
  | nil => simp [takeSlices, hs]
  | cons axis added ih =>
    have happend : sliced ++ axis :: added = sliced ++ [axis] ++ added := by simp
    simp only [takeSlices, check_bind_eq_ok_iff, require_eq_ok_iff, Bool.not_eq_true, List.forall_mem_cons,
      and_assoc]
    apply and_congr_right
    intro _
    cases hf : sliced.find? (·.overlaps axis) with
    | some other =>
      have ho := List.find?_some hf
      refine iff_of_false (by simp) ?_
      rintro ⟨-, hd, -⟩
      obtain ⟨_, _, ha⟩ := noOverlaps_append_iff.mp hd
      have hfree := anyOverlaps_eq_false_iff.mp (ha axis List.mem_cons_self)
      simp [hfree other (List.mem_of_find?_eq_some hf)] at ho
    | none =>
      have hd : NoOverlaps (sliced ++ [axis]) := by
        have ha : anyOverlaps sliced axis = false := anyOverlaps_eq_false_iff.mpr (by simpa using hf)
        exact noOverlaps_append_iff.mpr ⟨hs, List.pairwise_singleton _ _, by simpa using ha⟩
      rw [happend]
      exact ih hd

theorem takeAllSlices_eq_ok_iff (hs : NoOverlaps sliced) :
    operand.takeAllSlices index sliced axes = .ok result ↔
      (∀ axis ∈ axes.flatten, anyOverlaps operand.shardingAxes axis = false) ∧
        NoOverlaps (sliced ++ axes.flatten) ∧ sliced ++ axes.flatten = result := by
  induction axes generalizing index sliced with
  | nil => simp [takeAllSlices, hs]
  | cons first axes ih =>
    simp only [takeAllSlices, bind_eq_ok_iff, takeSlices_eq_ok_iff hs, List.flatten_cons,
      List.forall_mem_append, ← List.append_assoc]
    constructor
    case mp =>
      rintro ⟨_, ⟨hfree, hd, rfl⟩, h⟩
      obtain ⟨hrest, h⟩ := (ih hd).mp h
      exact ⟨⟨hfree, hrest⟩, h⟩
    case mpr =>
      rintro ⟨⟨hfree, hrest⟩, hd, h⟩
      have hfirst := hd.sublist (List.sublist_append_left _ _)
      exact ⟨_, ⟨hfree, hfirst, rfl⟩, (ih hfirst).mpr ⟨hrest, hd, h⟩⟩

theorem allSlice_eq_ok_iff : operand.allSlice axes = .ok out ↔
    axes.length = operand.rank ∧ (∀ axis ∈ axes.flatten, anyOverlaps operand.shardingAxes axis = false) ∧
      NoOverlaps axes.flatten ∧
        (operand.withDims (sliceDims operand.dims axes)).withReplicated
          (operand.replicated.filter fun axis => !anyOverlaps axes.flatten axis) = out := by
  have hnil : NoOverlaps [] := .nil
  simp only [allSlice, bind_eq_ok_iff, exists_require_eq_ok_iff, takeAllSlices_eq_ok_iff hnil,
    List.nil_append, pure, Except.pure, Except.ok.injEq]
  apply and_congr_right
  intro _
  constructor
  case mp =>
    rintro ⟨_, ⟨hfree, hd, rfl⟩, h⟩
    exact ⟨hfree, hd, h⟩
  case mpr =>
    rintro ⟨hfree, hd, h⟩
    exact ⟨_, ⟨hfree, hd, rfl⟩, h⟩

end Slice

section Gather

-- The axes at the ends of the dimensions are removed if and only if appending them gives the dimensions.
theorem gatherDims_eq_ok_iff {index : Nat} (hl : axes.length = dims.length) :
    gatherDims index (dims.zip axes) = .ok kept ↔ kept.length = dims.length ∧ sliceDims kept axes = dims := by
  induction dims generalizing index axes kept with
  | nil => simp_all [gatherDims, sliceDims, eq_comm]
  | cons dim dims ih =>
    cases axes with
    | nil => simp at hl
    | cons first axes =>
      have hl : axes.length = dims.length := by simpa using hl
      rw [List.zip_cons_cons, gatherDims]
      split
      case h_1 hd =>
        refine iff_of_false (by simp) ?_
        rintro ⟨hk, hs⟩
        cases kept with
        | nil => simp at hk
        | cons keptDim kept =>
          have hdim := (List.cons.inj hs).left
          have hsome := dropSuffix?_eq_some_iff.mpr (congrArg DimSharding.axes hdim).symm
          simp [hsome] at hd
      case h_2 rest hd =>
        have hdim := dropSuffix?_eq_some_iff.mp hd
        simp only [bind_eq_ok_iff, ih hl, pure, Except.pure, Except.ok.injEq]
        constructor
        case mp =>
          rintro ⟨kept, ⟨hk, hs⟩, rfl⟩
          refine ⟨by simp [hk], ?_⟩
          change dim.withAxes (rest ++ first) :: sliceDims kept axes = dim :: dims
          rw [hs, ← hdim]
          rfl
        case mpr =>
          rintro ⟨hk, hs⟩
          cases kept with
          | nil => simp at hk
          | cons keptDim kept =>
            obtain ⟨hkept, htail⟩ := List.cons.inj hs
            subst hkept
            have hrest : keptDim.axes = rest := List.append_cancel_right hdim
            exact ⟨kept, ⟨by simpa using hk, htail⟩, by subst hrest; rfl⟩

theorem allGather_eq_ok_iff : operand.allGather axes = .ok out ↔
    axes.length = operand.rank ∧ out.rank = operand.rank ∧
      out.withDims (sliceDims out.dims axes) = operand := by
  simp only [allGather, bind_eq_ok_iff, exists_require_eq_ok_iff, pure, Except.pure, Except.ok.injEq]
  apply and_congr_right
  intro hl
  simp only [gatherDims_eq_ok_iff hl]
  constructor
  case mp =>
    rintro ⟨kept, ⟨hk, hs⟩, rfl⟩
    refine ⟨hk, ?_⟩
    change operand.withDims (sliceDims kept axes) = operand
    rw [hs]
    rfl
  case mpr =>
    rintro ⟨hr, hs⟩
    exact ⟨out.dims, ⟨hr, congrArg dims hs⟩, by rw [← hs]; rfl⟩

theorem length_sliceDims (hl : axes.length = dims.length) : (sliceDims dims axes).length = dims.length := by
  simp [sliceDims, hl]

-- The axes that are appended to the single dimensions come after all that were there, up to their order.
theorem flatMap_axes_sliceDims (hl : axes.length = dims.length) :
    ((sliceDims dims axes).flatMap (·.axes)).Perm (dims.flatMap (·.axes) ++ axes.flatten) := by
  induction dims generalizing axes with
  | nil => simp_all [sliceDims]
  | cons dim dims ih =>
    cases axes with
    | nil => simp at hl
    | cons first axes =>
      have hl : axes.length = dims.length := by simpa using hl
      have hp := ih hl
      calc ((sliceDims (dim :: dims) (first :: axes)).flatMap (·.axes))
          = dim.axes ++ (first ++ (sliceDims dims axes).flatMap (·.axes)) := by
            simp [sliceDims, DimSharding.withAxes]
        _ ~ dim.axes ++ (first ++ (dims.flatMap (·.axes) ++ axes.flatten)) := (hp.append_left _).append_left _
        _ ~ dim.axes ++ (dims.flatMap (·.axes) ++ (first ++ axes.flatten)) := by
            apply List.Perm.append_left
            rw [← List.append_assoc, ← List.append_assoc]
            exact List.perm_append_comm.append_right _
        _ = (dim :: dims).flatMap (·.axes) ++ (first :: axes).flatten := by simp

end Gather

theorem shardingAxes_of_allGather (h : operand.allGather axes = .ok out) :
    operand.shardingAxes.Perm (out.shardingAxes ++ axes.flatten) := by
  obtain ⟨hl, hr, hs⟩ := allGather_eq_ok_iff.mp h
  rw [← hs]
  exact flatMap_axes_sliceDims (hl.trans hr.symm)

theorem shardingAxes_of_allSlice (h : operand.allSlice axes = .ok out) :
    out.shardingAxes.Perm (operand.shardingAxes ++ axes.flatten) := by
  obtain ⟨hl, -, -, rfl⟩ := allSlice_eq_ok_iff.mp h
  exact flatMap_axes_sliceDims hl

-- What was gathered can be sliced again over the same axes, in whatever dimensions, if none overlap. No replicated
-- axis is lost then, since the operand uses none of them in a dimension.
theorem allSlice_of_allGather {slices : List (List AxisRef)}
    (hd : NoOverlaps (operand.shardingAxes ++ operand.replicated)) (h : operand.allGather axes = .ok out)
    (hl : slices.length = axes.length) (hp : slices.flatten.Perm axes.flatten) :
    out.allSlice slices = .ok (out.withDims (sliceDims out.dims slices)) := by
  obtain ⟨hrank, hr, hs⟩ := allGather_eq_ok_iff.mp h
  have hperm : operand.shardingAxes.Perm (out.shardingAxes ++ slices.flatten) :=
    (shardingAxes_of_allGather h).trans (hp.symm.append_left _)
  have hreplicated : operand.replicated = out.replicated := by rw [← hs]; rfl
  have ⟨hdims, _, hfree⟩ := noOverlaps_append_iff.mp hd
  have ⟨_, hadded, hunused⟩ := noOverlaps_append_iff.mp (hdims.perm hperm.symm)
  refine allSlice_eq_ok_iff.mpr ⟨hl.trans (hrank.trans hr.symm), hunused, hadded, ?_⟩
  have hkept : out.replicated.filter (fun axis => !anyOverlaps slices.flatten axis) = out.replicated := by
    apply List.filter_eq_self.mpr
    intro axis ha
    have hnone := anyOverlaps_eq_false_iff.mp (hfree axis (hreplicated ▸ ha))
    rw [Bool.not_eq_true', anyOverlaps_eq_false_iff]
    intro other ho
    exact hnone other (hperm.symm.subset (List.mem_append_right _ ho))
  rw [hkept]
  rfl

-- Gathering undoes slicing, except for the replicated axes that slicing takes; and slicing undoes gathering
-- of a sharding in which no axes overlap.
theorem allGather_allSlice_inverse (operand : Sharding) (axes : List (List AxisRef)) :
    (∀ out, operand.allSlice axes = .ok out → out.allGather axes =
      .ok (operand.withReplicated (operand.replicated.filter fun axis => !anyOverlaps axes.flatten axis))) ∧
    (NoOverlaps (operand.shardingAxes ++ operand.replicated) →
      ∀ out, operand.allGather axes = .ok out → out.allSlice axes = .ok operand) := by
  constructor
  case left =>
    intro out h
    obtain ⟨hl, -, -, rfl⟩ := allSlice_eq_ok_iff.mp h
    have hlength : (sliceDims operand.dims axes).length = operand.rank := length_sliceDims hl
    exact allGather_eq_ok_iff.mpr ⟨hl.trans hlength.symm, hlength.symm, rfl⟩
  case right =>
    intro hd out h
    have ⟨_, _, hs⟩ := allGather_eq_ok_iff.mp h
    rw [allSlice_of_allGather hd h rfl (.refl _), hs]

-- Parts of one axis in both dimensions, one of them declared replicated at first.
def halvedAxes : Sharding :=
  { mesh := .symbol "mesh"
    dims := [{ axes := [.sub "c" 1 2], closed := false, priority := some 1 }, { axes := [.whole "a"] }]
    replicated := [.whole "b", .sub "c" 4 2] }

def quarteredAxes : Sharding :=
  { mesh := .symbol "mesh"
    dims := [{ axes := [.sub "c" 1 2, .whole "d"], closed := false, priority := some 1 },
      { axes := [.whole "a", .sub "c" 4 2, .sub "c" 2 2] }]
    replicated := [.whole "b"] }

theorem allGather_allSlice_inverse_quarteredAxes :
    let axes := [[.whole "d"], [.sub "c" 4 2, .sub "c" 2 2]]
    halvedAxes.allSlice axes = .ok quarteredAxes ∧
      quarteredAxes.allGather axes = .ok (halvedAxes.withReplicated [.whole "b"]) ∧
      (halvedAxes.withReplicated [.whole "b"]).allSlice axes = .ok quarteredAxes := by
  intro axes
  have hslice : halvedAxes.allSlice axes = .ok quarteredAxes := by decide
  have hgather := (allGather_allSlice_inverse halvedAxes axes).left quarteredAxes hslice
  have hdisjoint : NoOverlaps (quarteredAxes.shardingAxes ++ quarteredAxes.replicated) := by decide
  exact ⟨hslice, hgather, (allGather_allSlice_inverse quarteredAxes axes).right hdisjoint _ hgather⟩

end Sharding

end MeshSharding
