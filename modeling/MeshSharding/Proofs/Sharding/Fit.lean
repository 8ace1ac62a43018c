import MeshSharding.Proofs.Sharding.Axes

namespace MeshSharding

open AxisRef

-- The dimension has merged axes, and the number of its shards divides its size.
structure DimSharding.Splits (dim : DimSharding) (mesh : Mesh) (size : Nat) : Prop where
  merged : checkMerged dim.axes = .ok ()
  evenly : ∃ shards, dim.shardCount mesh = .ok shards ∧ size % shards = 0

namespace Sharding

variable {s : Sharding} {mesh : Mesh} {shape : List Nat} {axes used result : List AxisRef}

section Check

theorem useAxes_eq_ok_iff (hu : Apart mesh used) :
    useAxes mesh used axes = .ok result ↔ Apart mesh (used ++ axes) ∧ used ++ axes = result := by
  induction axes generalizing used with
  | nil => simp [useAxes, hu]
  | cons axis axes ih =>
    have happend : used ++ axis :: axes = used ++ [axis] ++ axes := by simp
    have hneeds (h : Apart mesh (used ++ axis :: axes)) :
        axis.check mesh = .ok () ∧ ∀ other ∈ used, other.overlaps axis = false := by
      rw [happend] at h
      exact (apart_concat_iff.mp (h.sublist (List.sublist_append_left _ _))).right
    rw [useAxes, check_bind_eq_ok_iff]
    cases hf : used.find? (·.overlaps axis) with
    | some other =>
      refine iff_of_false (by simp) fun h => ?_
      have hd := (hneeds h.left).right other (List.mem_of_find?_eq_some hf)
      simpa [hd] using List.find?_some hf
    | none =>
      have hd : ∀ other ∈ used, other.overlaps axis = false := by simpa using hf
      constructor
      · rintro ⟨hc, h⟩
        rw [happend]
        exact (ih (apart_concat_iff.mpr ⟨hu, hc, hd⟩)).mp h
      · intro h
        have hc := (hneeds h.left).left
        rw [happend] at h
        exact ⟨hc, (ih (apart_concat_iff.mpr ⟨hu, hc, hd⟩)).mpr h⟩

theorem useDims_eq_ok_iff {dims : List (DimSharding × Nat)} {index : Nat} (hu : Apart mesh used) :
    useDims mesh index used dims = .ok result ↔ Apart mesh (used ++ dims.flatMap (·.1.axes)) ∧
      (∀ entry ∈ dims, entry.1.Splits mesh entry.2) ∧ used ++ dims.flatMap (·.1.axes) = result := by
  induction dims generalizing index used with
  | nil => simp [useDims, hu]
  | cons entry dims ih =>
    obtain ⟨dim, size⟩ := entry
    have happend : used ++ ((dim, size) :: dims).flatMap (·.1.axes) =
        used ++ dim.axes ++ dims.flatMap (·.1.axes) := by
      simp
    simp only [useDims, bind_eq_ok_iff, useAxes_eq_ok_iff hu, exists_require_eq_ok_iff, List.forall_mem_cons,
      happend]
    constructor
    · rintro ⟨_, ⟨ha, rfl⟩, _, hm, shards, hs, hd, h⟩
      obtain ⟨h, hrest, hr⟩ := (ih ha).mp h
      exact ⟨h, ⟨⟨hm, shards, hs, hd⟩, hrest⟩, hr⟩
    · rintro ⟨h, ⟨⟨hm, shards, hs, hd⟩, hrest⟩, hr⟩
      have ha := h.sublist (List.sublist_append_left _ _)
      exact ⟨_, ⟨ha, rfl⟩, (), hm, shards, hs, hd, (ih ha).mpr ⟨h, hrest, hr⟩⟩

theorem flatMap_axes_zip (h : s.rank = shape.length) :
    (s.dims.zip shape).flatMap (·.1.axes) = s.shardingAxes := by
  have hfst : (s.dims.zip shape).map Prod.fst = s.dims := List.map_fst_zip (Nat.le_of_eq h)
  rw [shardingAxes, ← hfst, List.flatMap_map]
  rw [hfst]

theorem checkIn_eq_ok_iff : s.checkIn mesh shape = .ok () ↔ s.rank = shape.length ∧
    Apart mesh (s.shardingAxes ++ s.replicated) ∧
    (∀ entry ∈ s.dims.zip shape, entry.1.Splits mesh entry.2) ∧
    checkCanonical s.replicated mesh = .ok () := by
  simp only [checkIn, bind_eq_ok_iff, exists_require_eq_ok_iff, useDims_eq_ok_iff Apart.nil, List.nil_append]
  refine and_congr_right fun hr => ?_
  rw [flatMap_axes_zip hr]
  constructor
  · rintro ⟨_, ⟨ha, hs, rfl⟩, _, hu, hc⟩
    exact ⟨((useAxes_eq_ok_iff ha).mp hu).left, hs, hc⟩
  · rintro ⟨ha, hs, hc⟩
    have hd := ha.sublist (List.sublist_append_left _ _)
    exact ⟨_, ⟨hd, hs, rfl⟩, _, (useAxes_eq_ok_iff hd).mpr ⟨ha, rfl⟩, hc⟩

end Check

section Local

variable {manual : List String} {dim : DimSharding} {type inner : TensorType} {size shards : Nat}

theorem filter_append_of_checkManualFirst {index : Nat} (h : checkManualFirst manual index none axes = .ok ()) :
    axes.filter (·.isManual manual) ++ axes.filter (fun axis => !axis.isManual manual) = axes := by
  have hfree (free : AxisRef) (axes : List AxisRef)
      (h : checkManualFirst manual index (some free) axes = .ok ()) :
      ∀ axis ∈ axes, axis.isManual manual = false := by
    induction axes generalizing free with
    | nil => simp
    | cons axis axes ih =>
      cases hm : axis.isManual manual with
      | true  => simp [checkManualFirst, hm] at h
      | false =>
        simp only [checkManualFirst, hm, Bool.false_eq_true, if_false] at h
        exact List.forall_mem_cons.mpr ⟨hm, ih axis h⟩
  induction axes with
  | nil => rfl
  | cons axis axes ih =>
    cases hm : axis.isManual manual with
    | true =>
      simp only [checkManualFirst, hm, if_true] at h
      simpa [hm] using ih h
    | false =>
      simp only [checkManualFirst, hm, Bool.false_eq_true, if_false] at h
      have hrest := hfree axis axes h
      have hnone : axes.filter (·.isManual manual) = [] := by simpa using hrest
      have hall : axes.filter (fun axis => !axis.isManual manual) = axes := by simpa using hrest
      simp [hm, hnone, hall]

theorem checkDimsManualFirst_iff {index : Nat} {dims : List DimSharding}
    (h : checkDimsManualFirst manual index dims = .ok ()) :
    ∀ dim ∈ dims, ∃ index, checkManualFirst manual index none dim.axes = .ok () := by
  induction dims generalizing index with
  | nil => simp
  | cons dim dims ih =>
    obtain ⟨hd, h⟩ := check_bind_eq_ok_iff.mp h
    exact List.forall_mem_cons.mpr ⟨⟨index, hd⟩, ih h⟩

-- A dimension that is split evenly by all of its axes has a rest that the free ones split evenly.
theorem splits_withAxes {index : Nat} (hb : mesh.Built) (ha : Apart mesh dim.axes)
    (hm : checkManualFirst manual index none dim.axes = .ok ()) (h : dim.Splits mesh size)
    (hs : totalSize (dim.axes.filter (·.isManual manual)) mesh = .ok shards) :
    (dim.withAxes (dim.axes.filter fun axis => !axis.isManual manual)).Splits mesh (size / shards) := by
  have happend := filter_append_of_checkManualFirst hm
  have hmanual := ha.sublist (List.filter_sublist (p := (·.isManual manual)))
  have hfree := ha.sublist (List.filter_sublist (p := fun axis => !axis.isManual manual))
  obtain rfl := Except.ok.inj ((hmanual.totalSize_eq hb).symm.trans hs)
  obtain ⟨hmerged, total, htotal, heven⟩ := h
  obtain rfl := Except.ok.inj ((ha.totalSize_eq hb).symm.trans htotal)
  constructor
  · rw [checkMerged_iff, ← happend] at hmerged
    exact checkMerged_iff.mpr hmerged.right_of_append
  · refine ⟨_, hfree.totalSize_eq hb, ?_⟩
    have hdvd := Nat.dvd_of_mod_eq_zero heven
    rw [← happend, List.map_append, List.prod_append] at hdvd
    exact Nat.mod_eq_zero_of_dvd (Nat.dvd_div_of_mul_dvd hdvd)

theorem localDims_eq_ok {index : Nat} {entries : List (DimSharding × Nat)} {sizes : List Nat}
    (h : localDims mesh manual index entries = .ok sizes) :
    List.Forall₂ (fun entry size => ∃ shards,
      totalSize (entry.1.axes.filter (·.isManual manual)) mesh = .ok shards ∧ entry.2 % shards = 0 ∧
        size = entry.2 / shards) entries sizes := by
  induction entries generalizing index sizes with
  | nil =>
    cases h
    exact .nil
  | cons entry entries ih =>
    simp only [localDims, bind_eq_ok_iff, exists_require_eq_ok_iff, pure, Except.pure, Except.ok.injEq] at h
    obtain ⟨shards, hs, heven, rest, hrest, rfl⟩ := h
    exact .cons ⟨shards, hs, heven, rfl⟩ (ih hrest)

theorem localType_eq_ok (h : s.localType manual mesh type = .ok inner) :
    s.checkIn mesh type.shape = .ok () ∧ checkDimsManualFirst manual 0 s.dims = .ok () ∧
      s.localShape manual mesh type.shape = .ok inner.shape ∧ inner.element = type.element := by
  simp only [localType, bind_eq_ok_iff] at h
  obtain ⟨_, hfits, _, hfirst, h⟩ := h
  split at h
  case h_1 => contradiction
  case h_2 =>
    simp only [bind_eq_ok_iff, pure, Except.pure, Except.ok.injEq] at h
    obtain ⟨sizes, hsizes, rfl⟩ := h
    exact ⟨hfits, hfirst, hsizes, rfl⟩

theorem shardingAxes_localView :
    (s.localView manual).shardingAxes = s.shardingAxes.filter fun axis => !axis.isManual manual := by
  simp [shardingAxes, localView, List.flatMap_map, List.filter_flatMap, DimSharding.withAxes]

theorem axes_sublist (hd : dim ∈ s.dims) : dim.axes.Sublist (s.shardingAxes ++ s.replicated) :=
  (List.sublist_flatten_of_mem (List.mem_map_of_mem hd)).trans (List.sublist_append_left _ _)

-- The local view of a sharding that crosses a boundary fits what is left of the type inside.
theorem checkIn_localView (hb : mesh.Built) (h : s.localType manual mesh type = .ok inner) :
    (s.localView manual).checkIn mesh inner.shape = .ok () := by
  obtain ⟨hfits, hfirst, hsizes, -⟩ := localType_eq_ok h
  obtain ⟨hrank, hapart, hsplits, hcanonical⟩ := checkIn_eq_ok_iff.mp hfits
  have hlocal := localDims_eq_ok hsizes
  have hdims : (s.dims.zip type.shape).map Prod.fst = s.dims := List.map_fst_zip (Nat.le_of_eq hrank)
  have hlength : (s.dims.zip type.shape).length = s.dims.length := by rw [← List.length_map, hdims]
  refine checkIn_eq_ok_iff.mpr ⟨?_, ?_, ?_, ?_⟩
  · rw [rank, localView, List.length_map, ← hlocal.length_eq, hlength]
  · refine hapart.sublist ?_
    rw [shardingAxes_localView]
    exact List.filter_sublist.append List.filter_sublist
  · rintro ⟨dim', size'⟩ he
    rw [localView, ← hdims, List.map_map, List.zip_map_left, List.mem_map] at he
    obtain ⟨⟨⟨dim, size⟩, _⟩, he, heq⟩ := he
    cases heq
    have hentry := (List.of_mem_zip he).left
    have hdim := (List.of_mem_zip hentry).left
    obtain ⟨shards, hshards, -, rfl⟩ := List.forall₂_zip hlocal he
    obtain ⟨_, hmanual⟩ := checkDimsManualFirst_iff hfirst dim hdim
    exact splits_withAxes hb (hapart.sublist (axes_sublist hdim)) hmanual (hsplits _ hentry) hshards
  · have hall : ∀ axis ∈ s.replicated, axis.check mesh = .ok () :=
      fun axis ha => hapart.checked axis (List.mem_append_right _ ha)
    have hkept : ∀ axis ∈ (s.localView manual).replicated, axis.check mesh = .ok () :=
      fun axis ha => hall axis (List.mem_of_mem_filter ha)
    exact (checkCanonical_iff hkept).mpr (((checkCanonical_iff hall).mp hcanonical).filter _)

end Local

end Sharding

end MeshSharding
