import MeshSharding.Proofs.Collective.Inverse
import MeshSharding.Proofs.Sharding.Fit

namespace MeshSharding

open AxisRef

variable {mesh : Mesh} {operand out : Sharding}

section Apart

variable {axes used others : List AxisRef}

theorem AxisRef.Apart.perm (h : Apart mesh axes) (hp : used.Perm axes) : Apart mesh used where
  checked axis ha := h.checked axis (hp.subset ha)
  disjoint        := NoOverlaps.perm h.disjoint hp

end Apart

namespace Sharding

section Moves

variable {dims rest : List DimSharding} {move : AxisMove} {moves : List AxisMove} {rank i j : Nat}
  {previous : Option Nat} {used : List Nat}

-- Appends axes to the end of one dimension.
def extendDim (dims : List DimSharding) (i : Nat) (axes : List AxisRef) : List DimSharding :=
  dims.modify i fun dim => dim.withAxes (dim.axes ++ axes)

variable {axes : List AxisRef}

theorem length_extendDim : (extendDim dims i axes).length = dims.length :=
  List.length_modify _ _ _

theorem getElem?_extendDim_self :
    (extendDim dims i axes)[i]? = dims[i]?.map fun dim => dim.withAxes (dim.axes ++ axes) := by
  simp [extendDim]

theorem getElem?_extendDim_of_ne (h : i ≠ j) : (extendDim dims i axes)[j]? = dims[j]? := by
  simp [extendDim, h]

theorem flatMap_axes_extendDim (h : i < dims.length) :
    ((extendDim dims i axes).flatMap (·.axes)).Perm (dims.flatMap (·.axes) ++ axes) := by
  induction dims generalizing i with
  | nil => simp at h
  | cons dim dims ih =>
    cases i with
    | zero =>
      simp only [extendDim, List.modify_zero_cons, List.flatMap_cons, DimSharding.withAxes, List.append_assoc]
      exact List.perm_append_comm.append_left _
    | succ i =>
      simp only [extendDim, List.modify_succ_cons, List.flatMap_cons, List.append_assoc]
      exact (ih (by simpa using h)).append_left _

-- A move appends its axes to one dimension that it finds appended to another.
theorem applyMove_eq_ok (hs : move.source < dims.length) {moved : List DimSharding}
    (h : applyMove dims move = .ok moved) :
    ∃ rest, extendDim rest move.source move.axes = dims ∧ extendDim rest move.target move.axes = moved := by
  simp only [applyMove, List.getElem?_eq_getElem hs, Option.map_some, Option.getD_some] at h
  split at h
  case h_1 => contradiction
  case h_2 kept hk =>
    have hk := dropSuffix?_eq_some_iff.mp hk
    refine ⟨dims.modify move.source (·.withAxes kept), ?_, Except.ok.inj h⟩
    apply List.ext_getElem?
    intro j
    by_cases hj : move.source = j
    case pos =>
      subst hj
      simp [getElem?_extendDim_self, DimSharding.withAxes, List.getElem?_eq_getElem hs, ← hk]
    case neg => simp [getElem?_extendDim_of_ne hj, hj]

theorem checkMovesFrom_cons_iff : checkMovesFrom rank previous used (move :: moves) = .ok () ↔
    (move.source < rank ∧ move.target < rank ∧ move.source ≠ move.target ∧ move.axes ≠ []) ∧
      (∀ p ∈ previous, p < move.source) ∧ (move.source ∉ used ∧ move.target ∉ used) ∧
      checkMovesFrom rank (some move.source) (move.source :: move.target :: used) moves = .ok () := by
  cases previous <;> simp [checkMovesFrom, check_bind_eq_ok_iff, require_eq_ok_iff, and_assoc]

theorem not_mem_used_of_checkMovesFrom (h : checkMovesFrom rank previous used moves = .ok ()) :
    ∀ move ∈ moves, move.source ∉ used ∧ move.target ∉ used := by
  induction moves generalizing previous used with
  | nil => simp
  | cons first moves ih =>
    have ⟨_, _, hu, h⟩ := checkMovesFrom_cons_iff.mp h
    refine List.forall_mem_cons.mpr ⟨hu, fun move hm => ?_⟩
    have ⟨hs, ht⟩ := ih h move hm
    simp only [List.mem_cons, not_or] at hs ht
    exact ⟨hs.right.right, ht.right.right⟩

-- The dimensions after some moves. Those that they use are those they do not share with others.
structure Rearranged (used : List Nat) (moves : List AxisMove) (dims moved : List DimSharding) : Prop where
  perm   : (moved.flatMap (·.axes)).Perm (dims.flatMap (·.axes))
  length : moved.length = dims.length
  unused : ∀ i ∈ used, moved[i]? = dims[i]?
  target : ∀ move ∈ moves, ∀ dim, dims[move.target]? = some dim →
    moved[move.target]? = some (dim.withAxes (dim.axes ++ move.axes))
  other  : ∀ i, (∀ move ∈ moves, move.target ≠ i) → ∀ kept, moved[i]? = some kept →
    ∃ dim, dims[i]? = some dim ∧ kept.axes <+: dim.axes

variable {moved : List DimSharding}

-- The first move and all others use different dimensions.
theorem Rearranged.cons (hs : move.source < rest.length) (ht : move.target < rest.length)
    (hne : move.source ≠ move.target) (hu : move.source ∉ used ∧ move.target ∉ used)
    (hm : ∀ other ∈ moves, other.source ∉ move.source :: move.target :: used ∧
      other.target ∉ move.source :: move.target :: used)
    (h : Rearranged (move.source :: move.target :: used) moves (extendDim rest move.target move.axes) moved) :
    Rearranged used (move :: moves) (extendDim rest move.source move.axes) moved where
  perm := by
    apply h.perm.trans
    exact (flatMap_axes_extendDim ht).trans (flatMap_axes_extendDim hs).symm
  length := h.length.trans (length_extendDim.trans length_extendDim.symm)
  unused := by
    intro i hi
    have hsource : move.source ≠ i := fun heq => hu.left (heq ▸ hi)
    have htarget : move.target ≠ i := fun heq => hu.right (heq ▸ hi)
    rw [h.unused i (by simp [hi]), getElem?_extendDim_of_ne htarget, getElem?_extendDim_of_ne hsource]
  target := by
    refine List.forall_mem_cons.mpr ⟨fun dim hd => ?_, fun other ho dim hd => ?_⟩
    case refine_1 =>
      rw [getElem?_extendDim_of_ne hne] at hd
      rw [h.unused _ (by simp), getElem?_extendDim_self, hd, Option.map_some]
    case refine_2 =>
      have ⟨_, hfree⟩ := hm other ho
      simp only [List.mem_cons, not_or] at hfree
      rw [getElem?_extendDim_of_ne (Ne.symm hfree.left)] at hd
      apply h.target other ho
      rw [getElem?_extendDim_of_ne (Ne.symm hfree.right.left), hd]
  other := by
    intro i hi kept hk
    have ⟨hti, hi⟩ := List.forall_mem_cons.mp hi
    have ⟨dim, hd, hp⟩ := h.other i hi kept hk
    rw [getElem?_extendDim_of_ne hti] at hd
    by_cases hsi : move.source = i
    case pos =>
      subst hsi
      refine ⟨_, by rw [getElem?_extendDim_self, hd, Option.map_some], ?_⟩
      exact hp.trans (List.prefix_append _ _)
    case neg => exact ⟨dim, by rw [getElem?_extendDim_of_ne hsi, hd], hp⟩

theorem rearranged_of_foldlM_applyMove (hc : checkMovesFrom dims.length previous used moves = .ok ())
    (h : moves.foldlM applyMove dims = .ok moved) : Rearranged used moves dims moved := by
  induction moves generalizing previous used dims with
  | nil =>
    cases h
    exact ⟨.rfl, rfl, fun _ _ => rfl, by simp, fun i _ kept hk => ⟨kept, hk, List.prefix_rfl⟩⟩
  | cons move moves ih =>
    rw [List.foldlM_cons, bind_eq_ok_iff] at h
    have ⟨next, hfirst, h⟩ := h
    have ⟨⟨hs, ht, hne, _⟩, _, hu, hrest⟩ := checkMovesFrom_cons_iff.mp hc
    obtain ⟨rest, rfl, rfl⟩ := applyMove_eq_ok hs hfirst
    rw [length_extendDim] at hs ht hrest
    have hrest : checkMovesFrom (extendDim rest move.target move.axes).length (some move.source)
        (move.source :: move.target :: used) moves = .ok () := by rwa [length_extendDim]
    exact (ih hrest h).cons hs ht hne hu (not_mem_used_of_checkMovesFrom hrest)

theorem rearranged_of_allToAll (h : operand.allToAll moves = .ok out) :
    Rearranged [] moves operand.dims out.dims ∧ out = operand.withDims out.dims := by
  simp only [allToAll, checkMoves, bind_eq_ok_iff, exists_require_eq_ok_iff, pure, Except.pure,
    Except.ok.injEq] at h
  obtain ⟨_, ⟨_, hc⟩, dims, hm, rfl⟩ := h
  exact ⟨rearranged_of_foldlM_applyMove hc hm, rfl⟩

end Moves

end Sharding

namespace CollectiveAction

-- All axes that an action reads from its own data.
def axes : CollectiveAction → List AxisRef
  | .allGather axes | .allSlice axes | .reduceScatter axes => axes.flatten
  | .allToAll moves    => moves.flatMap (·.axes)
  | .collectivePermute => []
  | .allReduce axes    => axes

-- The actions whose result follows from the operand, and this result.
inductive Infers (operand out : Sharding) : CollectiveAction → Prop
  | allGather {axes : List (List AxisRef)} (h : operand.allGather axes = .ok out) :
    Infers operand out (.allGather axes)
  | allSlice {axes : List (List AxisRef)} (h : operand.allSlice axes = .ok out) :
    Infers operand out (.allSlice axes)
  | allToAll {moves : List AxisMove} (h : operand.allToAll moves = .ok out) :
    Infers operand out (.allToAll moves)
  | reduceScatter {axes : List (List AxisRef)} (h : operand.reduceScatter axes = .ok out) :
    Infers operand out (.reduceScatter axes)

-- Where axes are appended to those of a dimension, no two neighbours are one larger factor.
def JoinsMerged (operand : Sharding) : CollectiveAction → Prop
  | .allSlice axes | .reduceScatter axes =>
    ∀ entry ∈ operand.dims.zip axes, checkMerged (entry.1.axes ++ entry.2) = .ok ()
  | .allToAll moves =>
    ∀ move ∈ moves, ∀ dim, operand.dims[move.target]? = some dim →
      checkMerged (dim.axes ++ move.axes) = .ok ()
  | _ => True

end CollectiveAction

namespace Sharding

variable {shape : List Nat} {action : CollectiveAction}

-- The number of shards of each dimension divides its size.
def SplitsEvenly (sharding : Sharding) (mesh : Mesh) (shape : List Nat) : Prop :=
  ∀ entry ∈ sharding.dims.zip shape, ∃ shards, entry.1.shardCount mesh = .ok shards ∧ shards ∣ entry.2

theorem checkMerged_of_prefix {axes kept : List AxisRef} (h : checkMerged axes = .ok ()) (hp : kept <+: axes) :
    checkMerged kept = .ok () := by
  rw [checkMerged_iff] at h ⊢
  exact h.prefix hp

theorem checkMerged_of_checkIn (h : operand.checkIn mesh shape = .ok ()) :
    ∀ dim ∈ operand.dims, checkMerged dim.axes = .ok () := by
  have ⟨hr, _, hs, _⟩ := checkIn_eq_ok_iff.mp h
  have hfst : (operand.dims.zip shape).map Prod.fst = operand.dims := List.map_fst_zip (Nat.le_of_eq hr)
  rw [← hfst]
  exact List.forall_mem_map.mpr fun entry he => (hs entry he).merged

-- What is left to ask of a sharding that uses its axes properly and splits the dimensions evenly.
theorem checkIn_iff_merged (hr : out.rank = shape.length) (ha : Apart mesh (out.shardingAxes ++ out.replicated))
    (hc : checkCanonical out.replicated mesh = .ok ()) (hd : out.SplitsEvenly mesh shape) :
    out.checkIn mesh shape = .ok () ↔ ∀ dim ∈ out.dims, checkMerged dim.axes = .ok () := by
  refine ⟨checkMerged_of_checkIn, fun hm => ?_⟩
  refine checkIn_eq_ok_iff.mpr ⟨hr, ha, fun entry he => ?_, hc⟩
  have ⟨shards, hs, hdvd⟩ := hd entry he
  exact ⟨hm _ (List.of_mem_zip he).left, shards, hs, Nat.mod_eq_zero_of_dvd hdvd⟩

section Parts

variable {axes : List (List AxisRef)} {moves : List AxisMove} (hv : operand.checkIn mesh shape = .ok ())
include hv

theorem checkIn_of_allGather (h : operand.allGather axes = .ok out) (hd : out.SplitsEvenly mesh shape) :
    out.checkIn mesh shape = .ok () := by
  have hperm := shardingAxes_of_allGather h
  obtain ⟨hl, hr, rfl⟩ := allGather_eq_ok_iff.mp h
  have hl : axes.length = out.rank := hl.trans hr.symm
  have ⟨hrank, hapart, _, hcanonical⟩ := checkIn_eq_ok_iff.mp hv
  have hkept : Apart mesh (out.shardingAxes ++ out.replicated) := by
    apply (hapart.perm (hperm.symm.append_right _)).sublist
    exact (List.sublist_append_left _ _).append_right _
  refine (checkIn_iff_merged (hr.trans hrank) hkept hcanonical hd).mpr fun dim hdim => ?_
  have ⟨i, hi, heq⟩ := List.mem_iff_getElem.mp hdim
  have hi' : i < axes.length := hl ▸ hi
  have hfull : dim.withAxes (dim.axes ++ axes[i]) ∈ sliceDims out.dims axes := by
    apply List.mem_iff_getElem.mpr
    exact ⟨i, by simp [sliceDims, hi, hi'], by simp [sliceDims, heq]⟩
  exact checkMerged_of_prefix (checkMerged_of_checkIn hv _ hfull) (List.prefix_append _ _)

theorem checkIn_of_allSlice (hc : ∀ axis ∈ axes.flatten, axis.check mesh = .ok ())
    (h : operand.allSlice axes = .ok out) (hd : out.SplitsEvenly mesh shape) :
    out.checkIn mesh shape = .ok () ↔ (CollectiveAction.allSlice axes).JoinsMerged operand := by
  have ⟨hl, hfree, hadded, hout⟩ := allSlice_eq_ok_iff.mp h
  have ⟨hrank, hapart, _, hcanonical⟩ := checkIn_eq_ok_iff.mp hv
  let replicated := operand.replicated.filter fun axis => !anyOverlaps axes.flatten axis
  have hsub : replicated.Sublist operand.replicated := List.filter_sublist
  have hkept : Apart mesh (operand.shardingAxes ++ axes.flatten ++ replicated) := by
    have hrest := hapart.sublist (hsub.append_left operand.shardingAxes)
    have ⟨hdims, hnone, hdisjoint⟩ := noOverlaps_append_iff.mp hrest.disjoint
    refine ⟨fun axis ha => ?_, noOverlaps_append_iff.mpr ⟨?_, hnone, fun axis ha => ?_⟩⟩
    case refine_1 =>
      simp only [List.mem_append, or_right_comm (c := _ ∈ replicated)] at ha
      exact ha.elim (fun ha => hrest.checked axis (List.mem_append.mpr ha)) (hc axis)
    case refine_2 => exact noOverlaps_append_iff.mpr ⟨hdims, hadded, hfree⟩
    case refine_3 =>
      have hslices : anyOverlaps axes.flatten axis = false := by
        simpa using (List.mem_filter.mp ha).right
      rw [anyOverlaps_eq_false_iff, List.forall_mem_append]
      exact ⟨anyOverlaps_eq_false_iff.mp (hdisjoint axis ha), anyOverlaps_eq_false_iff.mp hslices⟩
  have hcanonical' : checkCanonical replicated mesh = .ok () := by
    have hall : ∀ axis ∈ operand.replicated, axis.check mesh = .ok () :=
      fun axis ha => hapart.checked axis (List.mem_append_right _ ha)
    apply (checkCanonical_iff fun axis ha => hall axis (hsub.subset ha)).mpr
    exact ((checkCanonical_iff hall).mp hcanonical).filter _
  have hdims : out.dims = sliceDims operand.dims axes := by rw [← hout]; rfl
  have hreplicated : out.replicated = replicated := by rw [← hout]; rfl
  have hr : out.rank = shape.length := by rw [rank, hdims, length_sliceDims hl, ← hrank, rank]
  have hused : Apart mesh (out.shardingAxes ++ out.replicated) := by
    rw [hreplicated]
    exact hkept.perm ((shardingAxes_of_allSlice h).append_right _)
  rw [checkIn_iff_merged hr hused (by rwa [hreplicated]) hd, hdims, sliceDims_eq_map_zip, List.forall_mem_map]
  rfl

theorem checkIn_of_allToAll (h : operand.allToAll moves = .ok out) (hd : out.SplitsEvenly mesh shape) :
    out.checkIn mesh shape = .ok () ↔ (CollectiveAction.allToAll moves).JoinsMerged operand := by
  have ⟨hm, hout⟩ := rearranged_of_allToAll h
  have ⟨hrank, hapart, _, hcanonical⟩ := checkIn_eq_ok_iff.mp hv
  have hreplicated : out.replicated = operand.replicated := by rw [hout]; rfl
  have hkept : Apart mesh (out.shardingAxes ++ out.replicated) := by
    rw [hreplicated]
    exact hapart.perm (hm.perm.append_right _)
  rw [checkIn_iff_merged (hm.length.trans hrank) hkept (by rwa [hreplicated]) hd]
  constructor
  case mp =>
    intro hmerged move hmove dim hdim
    exact hmerged _ (List.mem_of_getElem? (hm.target move hmove dim hdim))
  case mpr =>
    intro hjoins kept hk
    have ⟨i, hi⟩ := List.mem_iff_getElem?.mp hk
    by_cases ht : ∀ move ∈ moves, move.target ≠ i
    case pos =>
      have ⟨dim, hdim, hp⟩ := hm.other i ht kept hi
      exact checkMerged_of_prefix (checkMerged_of_checkIn hv dim (List.mem_of_getElem? hdim)) hp
    case neg =>
      push Not at ht
      obtain ⟨move, hmove, rfl⟩ := ht
      have hlt : move.target < operand.dims.length := hm.length ▸ (List.getElem?_eq_some_iff.mp hi).choose
      have hdim := List.getElem?_eq_getElem hlt
      cases hi.symm.trans (hm.target move hmove _ hdim)
      exact hjoins move hmove _ hdim

end Parts

-- An inferred sharding fits if and only if the axes that were appended need not be merged.
theorem infers_checkIn_iff (hv : operand.checkIn mesh shape = .ok ())
    (hc : ∀ axis ∈ action.axes, axis.check mesh = .ok ()) (hi : action.Infers operand out)
    (hd : out.SplitsEvenly mesh shape) : out.checkIn mesh shape = .ok () ↔ action.JoinsMerged operand := by
  cases hi with
  | allGather h => exact iff_of_true (checkIn_of_allGather hv h hd) trivial
  | allSlice h  => exact checkIn_of_allSlice hv hc h hd
  | allToAll h  => exact checkIn_of_allToAll hv h hd
  | reduceScatter h =>
    simp only [reduceScatter, bind_eq_ok_iff] at h
    obtain ⟨_, _, _, _, h⟩ := h
    exact checkIn_of_allSlice hv hc h hd

section Halves

-- An axis with three factors of two.
def cube : Mesh :=
  ⟨[⟨"c", 8⟩], []⟩

-- A vector, or the rows of a matrix, over the major factor.
def majorFactor (columns : List DimSharding) : Sharding :=
  { mesh := .literal cube, dims := { axes := [.sub "c" 1 2] } :: columns, replicated := [.sub "c" 4 2] }

def majorFactors (columns : List DimSharding) : Sharding :=
  { majorFactor columns with dims := { axes := [.sub "c" 1 2, .sub "c" 2 2] } :: columns }

theorem infers_checkIn_iff_majorFactor :
    let out := { majorFactor [] with dims := [{}, { axes := [.sub "c" 1 2] }] }
    (CollectiveAction.allToAll [⟨[.sub "c" 1 2], 0, 1⟩]).Infers (majorFactor [{}]) out ∧
      out.checkIn cube [8, 8] = .ok () := by
  intro out
  have hmoved : (majorFactor [{}]).allToAll [⟨[.sub "c" 1 2], 0, 1⟩] = .ok out := by decide
  have heven : out.SplitsEvenly cube [8, 8] := by
    intro entry he
    have he : entry = (⟨[], true, none⟩, 8) ∨ entry = (⟨[.sub "c" 1 2], true, none⟩, 8) := by simpa [out] using he
    cases he with
    | inl he => exact ⟨1, by subst he; decide, by subst he; decide⟩
    | inr he => exact ⟨2, by subst he; decide, by subst he; decide⟩
  have hjoins : (CollectiveAction.allToAll [⟨[.sub "c" 1 2], 0, 1⟩]).JoinsMerged (majorFactor [{}]) := by
    intro move hm dim hd
    cases List.mem_singleton.mp hm
    cases hd
    decide
  exact ⟨.allToAll hmoved, (infers_checkIn_iff (by decide) (by decide) (.allToAll hmoved) heven).mpr hjoins⟩

-- Slicing over the factor that continues that of a dimension gives neighbours that are not merged.
theorem not_checkIn_allSlice_majorFactor : cube.Built ∧ (majorFactor []).checkIn cube [8] = .ok () ∧
    (AxisRef.sub "c" 2 2).check cube = .ok () ∧
    (majorFactor []).allSlice [[.sub "c" 2 2]] = .ok (majorFactors []) ∧
    (majorFactors []).shardCounts cube = .ok [4] ∧ 4 ∣ 8 ∧
    (majorFactors []).checkIn cube [8] = .error (.unmergedSubAxes (.sub "c" 1 2) (.sub "c" 2 2)) := by
  refine ⟨rfl, ?_, ?_, ?_, ?_, ?_, ?_⟩ <;> decide

end Halves

end Sharding

end MeshSharding
