import MeshSharding.Mesh.Build
import MeshSharding.Proofs.Checks

namespace MeshSharding

theorem Size.satProd_eq_prod {sizes : List Nat} (hpos : ∀ size ∈ sizes, 0 < size)
    (h : sizes.prod ≤ Size.greatest) : Size.satProd sizes = sizes.prod := by
  have hfold (count : Nat) (hc : count * sizes.prod ≤ Size.greatest) :
      sizes.foldl Size.satMul count = count * sizes.prod := by
    clear h
    induction sizes generalizing count with
    | nil => simp
    | cons size sizes ih =>
      obtain ⟨-, hpos⟩ := List.forall_mem_cons.mp hpos
      rw [List.prod_cons, ← Nat.mul_assoc] at hc
      have hle : count * size ≤ Size.greatest :=
        (Nat.le_mul_of_pos_right _ (List.prod_pos hpos)).trans hc
      rw [List.foldl_cons, Size.satMul_of_le hle, ih hpos _ hc, List.prod_cons, Nat.mul_assoc]
  rw [Size.satProd, hfold 1 (by rwa [Nat.one_mul]), Nat.one_mul]

namespace Mesh

variable {mesh : Mesh} {axis : MeshAxis} {axes : List MeshAxis} {ids deviceIds : List Nat} {count total : Nat}

section Build

-- The devices of the mesh can be counted, and its ids are none, that of a single device without a grid, or all
-- numbers below the number of devices in another order.
structure WellFormed (mesh : Mesh) : Prop where
  named    : ∀ axis ∈ mesh.axes, axis.name ≠ ""
  distinct : (mesh.axes.map (·.name)).Nodup
  sized    : ∀ axis ∈ mesh.axes, 1 ≤ axis.size
  counted  : (mesh.axes.map (·.size)).prod ≤ Size.greatest
  placed   : mesh.deviceIds = [] ∨ mesh.axes = [] ∧ mesh.deviceIds.length = 1 ∨
    mesh.deviceIds.Perm (List.range (mesh.axes.map (·.size)).prod) ∧
      mesh.deviceIds ≠ List.range (mesh.axes.map (·.size)).prod

-- The count never goes down, so if it is not too large in the end it was not on the way.
theorem spannedBy_eq_ok_iff {seen : List String} (hc : count ≤ Size.greatest) :
    spannedBy seen count axes = .ok total ↔
      (∀ axis ∈ axes, axis.name ≠ "" ∧ 1 ≤ axis.size ∧ axis.name ∉ seen) ∧ (axes.map (·.name)).Nodup ∧
        count * (axes.map (·.size)).prod = total ∧ total ≤ Size.greatest := by
  induction axes generalizing seen count with
  | nil =>
    simp only [spannedBy, Except.ok.injEq, List.map_nil, List.prod_nil, Nat.mul_one]
    constructor
    case mp  => exact fun h => ⟨by simp, by simp, h, h ▸ hc⟩
    case mpr => exact fun h => h.right.right.left
  | cons axis axes ih =>
    simp only [spannedBy, check_bind_eq_ok_iff, require_eq_ok_iff, List.map_cons, List.prod_cons, List.nodup_cons,
      List.forall_mem_cons, ← Nat.mul_assoc]
    constructor
    case mp =>
      rintro ⟨hname, hsize, hseen, h⟩
      split at h
      case h_2 => contradiction
      case h_1 next hnext =>
        obtain ⟨rfl, hle⟩ := Size.mul?_eq_some_iff.mp hnext
        obtain ⟨hrest, hnodup, hprod, htotal⟩ := (ih hle).mp h
        simp only [List.mem_cons, not_or] at hrest
        refine ⟨⟨⟨hname, Nat.pos_of_ne_zero hsize, hseen⟩, fun a ha => ?_⟩, ⟨fun hm => ?_, hnodup⟩, hprod,
          htotal⟩
        case refine_1 => exact ⟨(hrest a ha).left, (hrest a ha).right.left, (hrest a ha).right.right.right⟩
        case refine_2 =>
          obtain ⟨a, ha, hn⟩ := List.mem_map.mp hm
          exact (hrest a ha).right.right.left hn
    case mpr =>
      rintro ⟨⟨⟨hname, hsize, hseen⟩, hrest⟩, ⟨hnew, hnodup⟩, hprod, htotal⟩
      have hpos : 0 < (axes.map (·.size)).prod :=
        List.prod_pos (List.forall_mem_map.mpr fun a ha => (hrest a ha).right.left)
      have hle : count * axis.size ≤ Size.greatest := (Nat.le_mul_of_pos_right _ hpos).trans (hprod ▸ htotal)
      have hnext : Size.mul? count axis.size = some (count * axis.size) := Size.mul?_eq_some_iff.mpr ⟨rfl, hle⟩
      refine ⟨hname, Nat.ne_of_gt hsize, hseen, ?_⟩
      rw [hnext]
      refine (ih hle).mpr ⟨fun a ha => ⟨(hrest a ha).left, (hrest a ha).right.left, ?_⟩, hnodup, hprod, htotal⟩
      rw [List.mem_cons, not_or]
      exact ⟨fun he => hnew (List.mem_map.mpr ⟨a, ha, he⟩), (hrest a ha).right.right⟩

theorem checkDistinctIds_eq_ok_iff {seen : List Nat} : checkDistinctIds count seen ids = .ok () ↔
    (∀ id ∈ ids, id < count ∧ id ∉ seen) ∧ ids.Nodup := by
  induction ids generalizing seen with
  | nil => simp [checkDistinctIds]
  | cons id ids ih =>
    simp only [checkDistinctIds, check_bind_eq_ok_iff, require_eq_ok_iff, ih, List.mem_cons, List.nodup_cons]
    grind

-- As many numbers as there are below the count, all of them below it and none of them twice, are all of these.
theorem perm_range_iff : ids.Perm (List.range count) ↔
    ids.length = count ∧ (∀ id ∈ ids, id < count) ∧ ids.Nodup := by
  constructor
  case mp =>
    intro h
    refine ⟨by simpa using h.length_eq, fun id hid => ?_, h.nodup_iff.mpr List.nodup_range⟩
    exact List.mem_range.mp (h.mem_iff.mp hid)
  case mpr =>
    rintro ⟨hl, hlt, hn⟩
    have hs : ids.Subperm (List.range count) := hn.subperm fun id hid => List.mem_range.mpr (hlt id hid)
    exact hs.perm_of_length_le (by simp [hl])

theorem checkDeviceIds_eq_ok_iff : checkDeviceIds count deviceIds = .ok () ↔
    deviceIds.Perm (List.range count) ∧ deviceIds ≠ List.range count := by
  simp only [checkDeviceIds, check_bind_eq_ok_iff, require_eq_ok_iff, checkDistinctIds_eq_ok_iff, perm_range_iff,
    List.not_mem_nil, not_false_eq_true, and_true, and_assoc]

theorem build_eq_ok_iff :
    build axes deviceIds = .ok mesh ↔ mesh = ⟨axes, deviceIds⟩ ∧ mesh.WellFormed := by
  have hone : 1 ≤ Size.greatest := by decide
  simp only [build, bind_eq_ok_iff, spannedBy_eq_ok_iff hone, Nat.one_mul, List.not_mem_nil, not_false_eq_true,
    and_true]
  constructor
  case mp =>
    rintro ⟨count, ⟨haxes, hnodup, rfl, hle⟩, h⟩
    have hwf (hplaced) : (⟨axes, deviceIds⟩ : Mesh).WellFormed :=
      ⟨fun a ha => (haxes a ha).left, hnodup, fun a ha => (haxes a ha).right, hle, hplaced⟩
    split at h
    case isTrue hnone =>
      cases h
      exact ⟨rfl, hwf (hnone.imp_right .inl)⟩
    case isFalse =>
      obtain ⟨hids, h⟩ := check_bind_eq_ok_iff.mp h
      cases h
      exact ⟨rfl, hwf (.inr (.inr (checkDeviceIds_eq_ok_iff.mp hids)))⟩
  case mpr =>
    rintro ⟨rfl, h⟩
    refine ⟨_, ⟨fun a ha => ⟨h.named a ha, h.sized a ha⟩, h.distinct, rfl, h.counted⟩, ?_⟩
    split
    case isTrue => rfl
    case isFalse hids =>
      obtain ⟨hne, hsingle⟩ := not_or.mp hids
      have hplaced := (h.placed.resolve_left hne).resolve_left hsingle
      exact check_bind_eq_ok_iff.mpr ⟨checkDeviceIds_eq_ok_iff.mpr hplaced, rfl⟩

theorem WellFormed.deviceCount_eq (h : mesh.WellFormed) : mesh.deviceCount = (mesh.axes.map (·.size)).prod :=
  Size.satProd_eq_prod (List.forall_mem_map.mpr h.sized) h.counted

-- Exactly the well-formed meshes can be built, and all of their devices are counted.
theorem exists_build_iff_wellFormed (axes : List MeshAxis) (deviceIds : List Nat) :
    ((∃ mesh, build axes deviceIds = .ok mesh) ↔ (⟨axes, deviceIds⟩ : Mesh).WellFormed) ∧
      ∀ mesh, build axes deviceIds = .ok mesh →
        mesh = ⟨axes, deviceIds⟩ ∧ mesh.deviceCount = (axes.map (·.size)).prod := by
  refine ⟨⟨?_, fun h => ⟨_, build_eq_ok_iff.mpr ⟨rfl, h⟩⟩⟩, fun mesh hb => ?_⟩
  case refine_1 =>
    rintro ⟨mesh, hb⟩
    obtain ⟨rfl, h⟩ := build_eq_ok_iff.mp hb
    exact h
  case refine_2 =>
    obtain ⟨rfl, h⟩ := build_eq_ok_iff.mp hb
    exact ⟨rfl, h.deviceCount_eq⟩

theorem exists_build_iff_wellFormed_placed :
    let axes : List MeshAxis := [⟨"x", 2⟩, ⟨"y", 2⟩]
    build axes [3, 1, 2, 0] = .ok ⟨axes, [3, 1, 2, 0]⟩ ∧ (⟨axes, [3, 1, 2, 0]⟩ : Mesh).WellFormed ∧
      (⟨axes, [3, 1, 2, 0]⟩ : Mesh).deviceCount = 4 := by
  intro axes
  have hbuild : build axes [3, 1, 2, 0] = .ok ⟨axes, [3, 1, 2, 0]⟩ := by rfl
  obtain ⟨hiff, hbuilt⟩ := exists_build_iff_wellFormed axes [3, 1, 2, 0]
  exact ⟨hbuild, hiff.mp ⟨_, hbuild⟩, (hbuilt _ hbuild).right⟩

end Build

section Built

-- The mesh is one that can be built.
def Built (mesh : Mesh) : Prop :=
  Mesh.build mesh.axes mesh.deviceIds = .ok mesh

theorem built_iff_wellFormed : mesh.Built ↔ mesh.WellFormed :=
  build_eq_ok_iff.trans (and_iff_right rfl)

namespace Built

variable (h : mesh.Built)
include h

theorem spans : (∀ axis ∈ mesh.axes, 0 < axis.size) ∧ (mesh.axes.map (·.name)).Nodup ∧
    (mesh.axes.map (·.size)).prod ≤ Size.greatest := by
  have hw := built_iff_wellFormed.mp h
  exact ⟨hw.sized, hw.distinct, hw.counted⟩

theorem axisSize?_eq (ha : axis ∈ mesh.axes) : mesh.axisSize? axis.name = some axis.size := by
  obtain ⟨-, hnodup, -⟩ := h.spans
  have hfind (axes : List MeshAxis) (hn : (axes.map (·.name)).Nodup) (ha : axis ∈ axes) :
      axes.find? (·.name = axis.name) = some axis := by
    induction axes with
    | nil => simp at ha
    | cons first axes ih =>
      obtain ⟨hf, hn⟩ := List.nodup_cons.mp hn
      obtain rfl | ha := List.mem_cons.mp ha
      · simp
      · have hne : first.name ≠ axis.name := fun he => hf (List.mem_map.mpr ⟨axis, ha, he.symm⟩)
        rw [List.find?_cons_of_neg (by simpa using hne)]
        exact ih hn ha
  rw [axisSize?, hfind _ hnodup ha, Option.map_some]

theorem size_le (ha : axis ∈ mesh.axes) : axis.size ≤ Size.greatest := by
  have ⟨hpos, _, hle⟩ := h.spans
  apply Nat.le_trans (Nat.le_of_dvd _ _) hle
  case _ => exact List.prod_pos (List.forall_mem_map.mpr hpos)
  case _ => exact List.dvd_prod (List.mem_map_of_mem ha)

theorem size_pos {name : String} {size : Nat} (hs : mesh.axisSize? name = some size) : 0 < size := by
  obtain ⟨axis, hf, rfl⟩ := Option.map_eq_some_iff.mp hs
  exact h.spans.left axis (List.mem_of_find?_eq_some hf)

theorem deviceCount_eq : mesh.deviceCount = (mesh.axes.map (·.size)).prod :=
  (built_iff_wellFormed.mp h).deviceCount_eq

end Built

end Built

end Mesh

end MeshSharding
