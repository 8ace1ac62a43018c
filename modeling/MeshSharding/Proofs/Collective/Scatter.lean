import MeshSharding.Proofs.Sharding.Canonical

namespace MeshSharding.Sharding

open AxisRef

variable {mesh : Mesh} {operand out : Sharding} {axes : List (List AxisRef)} {reduced : List AxisRef}

theorem checkUnusedByOut_eq_ok_iff : checkUnusedByOut out reduced = .ok () ↔
    ∀ axis ∈ reduced, anyOverlaps out.shardingAxes axis = false := by
  induction reduced with
  | nil => simp [checkUnusedByOut]
  | cons axis reduced ih =>
    simp only [checkUnusedByOut, check_bind_eq_ok_iff, require_eq_ok_iff, ih, Bool.not_eq_true, List.forall_mem_cons]

-- A reduction over a canonical set of axes can leave the sharding as it is if the axes are free.
theorem checkReduce_self_iff (hc : ∀ axis ∈ reduced, axis.check mesh = .ok ())
    (hs : checkCanonical reduced mesh = .ok ()) :
    operand.checkReduce reduced operand mesh = .ok () ↔ operand.checkFree reduced = .ok () := by
  simp only [checkReduce, check_bind_eq_ok_iff, forM_eq_ok_iff, checkUnusedByOut_eq_ok_iff, require_eq_ok_iff,
    checkFree_eq_ok_iff, Bool.not_eq_true]
  constructor
  case mp  => exact fun h => h.right.right.left
  case mpr => exact fun h => ⟨hc, hs, h, fun axis ha => (h axis ha).left, by simp [splitsLike]⟩

-- Axes are free if they overlap none of those that the sharding holds.
theorem checkFree_iff_overlaps : operand.checkFree reduced = .ok () ↔
    ∀ axis ∈ operand.shardingAxes ++ operand.replicated, anyOverlaps reduced axis = false := by
  simp only [checkFree_eq_ok_iff, anyOverlaps_eq_false_iff, Bool.not_eq_true, ← List.forall_mem_append]
  constructor
  case mp  => exact fun h axis ha other ho => overlaps_comm other axis ▸ h other ho axis ha
  case mpr => exact fun h axis ha other ho => overlaps_comm other axis ▸ h other ho axis ha

-- The axes are those of the slices in canonical form, in which parts of an axis that follow each other are one.
theorem reduceScatter_eq_ok_iff
    (ho : ∀ axis ∈ operand.shardingAxes ++ operand.replicated, axis.check mesh = .ok ())
    (hl : ∀ axis ∈ axes.flatten, axis.check mesh = .ok ()) : operand.reduceScatter axes = .ok out ↔
      operand.checkReduce (canonicalize axes.flatten mesh) operand mesh = .ok () ∧ operand.allSlice axes = .ok out := by
  have hscatter : operand.reduceScatter axes = .ok out ↔
      operand.checkFree axes.flatten = .ok () ∧ operand.allSlice axes = .ok out := by
    simp only [reduceScatter, check_bind_eq_ok_iff, require_eq_ok_iff]
    exact and_iff_right_of_imp fun h => (allSlice_eq_ok_iff.mp h.right).left
  rw [hscatter]
  apply and_congr_left
  intro hslice
  have hd := (allSlice_eq_ok_iff.mp hslice).right.right.left
  have happart : Apart mesh axes.flatten := ⟨hl, hd⟩
  rw [checkReduce_self_iff happart.check_canonicalize happart.checkCanonical_canonicalize]
  simp only [checkFree_iff_overlaps]
  exact forall₂_congr fun axis ha => by rw [happart.anyOverlaps_canonicalize (ho axis ha)]

-- Three parts of an axis, in both dimensions and out of order, are the whole axis.
def splitReplica : Sharding :=
  { mesh := .symbol "mesh"
    dims := [{ axes := [.whole "d"] }, {}]
    replicated := [.whole "b"] }

theorem reduceScatter_eq_ok_iff_splitReplica :
    let mesh : Mesh := { axes := [⟨"a", 2⟩, ⟨"b", 2⟩, ⟨"c", 8⟩, ⟨"d", 2⟩] }
    let axes := [[.sub "c" 4 2, .whole "a"], [.sub "c" 1 2, .sub "c" 2 2]]
    let out : Sharding := { splitReplica with
      dims := [{ axes := [.whole "d", .sub "c" 4 2, .whole "a"] }, { axes := [.sub "c" 1 2, .sub "c" 2 2] }] }
    (∀ axis ∈ splitReplica.shardingAxes ++ splitReplica.replicated, axis.check mesh = .ok ()) ∧
      (∀ axis ∈ axes.flatten, axis.check mesh = .ok ()) ∧
      canonicalize axes.flatten mesh = [.whole "a", .whole "c"] ∧ splitReplica.reduceScatter axes = .ok out ∧
      (splitReplica.reduceScatter axes = .ok out ↔
        splitReplica.checkReduce (canonicalize axes.flatten mesh) splitReplica mesh = .ok () ∧
          splitReplica.allSlice axes = .ok out) := by
  intro mesh axes out
  have ho : ∀ axis ∈ splitReplica.shardingAxes ++ splitReplica.replicated, axis.check mesh = .ok () := by decide
  have hl : ∀ axis ∈ axes.flatten, axis.check mesh = .ok () := by decide
  exact ⟨ho, hl, by cbv, by decide, reduceScatter_eq_ok_iff ho hl⟩

end MeshSharding.Sharding
