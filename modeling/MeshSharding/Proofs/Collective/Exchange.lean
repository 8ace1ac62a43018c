import MeshSharding.Proofs.Collective.Infer

namespace MeshSharding

open AxisRef

-- The move that brings the axes back.
def AxisMove.reverse (move : AxisMove) : AxisMove :=
  { move with source := move.target, target := move.source }

namespace Sharding

-- Moves that can be made together: no dimension has a part in two of them.
structure Exchanges (rank : Nat) (moves : List AxisMove) : Prop where
  bounds    : ∀ move ∈ moves, move.source < rank ∧ move.target < rank
  axes      : ∀ move ∈ moves, move.axes ≠ []
  ascending : moves.Pairwise fun move other => move.source < other.source
  distinct  : (moves.flatMap fun move => [move.source, move.target]).Nodup

-- The axes of the move for which a dimension is the source, or the target; none if there is no such move.
def movedAxes (dim : AxisMove → Nat) (moves : List AxisMove) (i : Nat) : List AxisRef :=
  ((moves.find? fun move => dim move = i).map (·.axes)).getD []

-- For each dimension, the axes that leave it.
def axesFrom (moves : List AxisMove) (rank : Nat) : List (List AxisRef) :=
  (List.range rank).map (movedAxes (·.source) moves)

-- For each dimension, the axes that come to it.
def axesTo (moves : List AxisMove) (rank : Nat) : List (List AxisRef) :=
  (List.range rank).map (movedAxes (·.target) moves)

-- The moves that bring all axes back, again with ascending sources.
def takeBack (moves : List AxisMove) : List AxisMove :=
  (moves.map (·.reverse)).mergeSort fun move other => move.source ≤ other.source

variable {operand out mid : Sharding} {dims kept moved : List DimSharding} {move : AxisMove}
  {moves others : List AxisMove} {rank i j : Nat} {dim : AxisMove → Nat} {axes : List AxisRef}

section Check

theorem exchanges_nil : Exchanges rank [] :=
  ⟨by simp, by simp, .nil, .nil⟩

theorem exchanges_cons_iff : Exchanges rank (move :: moves) ↔
    (move.source < rank ∧ move.target < rank ∧ move.source ≠ move.target ∧ move.axes ≠ []) ∧
      (∀ other ∈ moves, move.source < other.source) ∧
      (∀ other ∈ moves, other.source ∉ [move.source, move.target] ∧ other.target ∉ [move.source, move.target]) ∧
      Exchanges rank moves := by
  have hdistinct : ((move :: moves).flatMap fun move => [move.source, move.target]).Nodup ↔
      move.source ≠ move.target ∧ (moves.flatMap fun move => [move.source, move.target]).Nodup ∧
        ∀ other ∈ moves, other.source ∉ [move.source, move.target] ∧ other.target ∉ [move.source, move.target] := by
    simp only [List.flatMap_cons, List.nodup_append]
    grind
  constructor
  case mp =>
    rintro ⟨hb, ha, hs, hd⟩
    have ⟨⟨hsource, htarget⟩, hb⟩ := List.forall_mem_cons.mp hb
    have ⟨haxes, ha⟩ := List.forall_mem_cons.mp ha
    have ⟨hfirst, hs⟩ := List.pairwise_cons.mp hs
    have ⟨hne, hd, hother⟩ := hdistinct.mp hd
    exact ⟨⟨hsource, htarget, hne, haxes⟩, hfirst, hother, hb, ha, hs, hd⟩
  case mpr =>
    rintro ⟨⟨hsource, htarget, hne, haxes⟩, hfirst, hother, hb, ha, hs, hd⟩
    exact {
      bounds    := List.forall_mem_cons.mpr ⟨⟨hsource, htarget⟩, hb⟩
      axes      := List.forall_mem_cons.mpr ⟨haxes, ha⟩
      ascending := List.pairwise_cons.mpr ⟨hfirst, hs⟩
      distinct  := hdistinct.mpr ⟨hne, hd, hother⟩ }

theorem checkMovesFrom_eq_ok_iff {previous : Option Nat} {used : List Nat} :
    checkMovesFrom rank previous used moves = .ok () ↔ Exchanges rank moves ∧
      (∀ p ∈ previous, ∀ move ∈ moves, p < move.source) ∧ ∀ move ∈ moves, move.source ∉ used ∧ move.target ∉ used := by
  induction moves generalizing previous used with
  | nil => simp [checkMovesFrom, exchanges_nil]
  | cons move moves ih =>
    simp only [checkMovesFrom_cons_iff, ih, exchanges_cons_iff, List.mem_cons, Option.mem_def]
    grind

theorem checkMoves_eq_ok_iff : checkMoves moves rank = .ok () ↔ moves ≠ [] ∧ Exchanges rank moves := by
  simp [checkMoves, check_bind_eq_ok_iff, require_eq_ok_iff, checkMovesFrom_eq_ok_iff]

theorem nodup_sources (h : Exchanges rank moves) : (moves.map (·.source)).Nodup :=
  (List.pairwise_map.mpr h.ascending).imp Nat.ne_of_lt

theorem nodup_targets (h : Exchanges rank moves) : (moves.map (·.target)).Nodup := by
  induction moves with
  | nil => exact .nil
  | cons move moves ih =>
    have ⟨_, _, hother, h⟩ := exchanges_cons_iff.mp h
    refine List.nodup_cons.mpr ⟨fun hm => ?_, ih h⟩
    have ⟨other, ho, he⟩ := List.mem_map.mp hm
    have := (hother other ho).right
    simp_all

end Check

section Moved

theorem movedAxes_of_mem (hn : (moves.map dim).Nodup) (hm : move ∈ moves) :
    movedAxes dim moves (dim move) = move.axes := by
  cases hf : moves.find? fun other => dim other = dim move with
  | none       => simpa using List.find?_eq_none.mp hf move hm
  | some other =>
    have hother : dim other = dim move := by simpa using List.find?_some hf
    rw [movedAxes, hf, List.inj_on_of_nodup_map hn (List.mem_of_find?_eq_some hf) hm hother]
    rfl

theorem movedAxes_of_forall_ne (h : ∀ move ∈ moves, dim move ≠ i) : movedAxes dim moves i = [] := by
  have hf : moves.find? (fun move => dim move = i) = none := by simpa using h
  rw [movedAxes, hf]
  rfl

theorem movedAxes_perm (hp : moves.Perm others) (hn : (moves.map dim).Nodup) :
    movedAxes dim moves i = movedAxes dim others i := by
  by_cases h : ∃ move ∈ moves, dim move = i
  case pos =>
    obtain ⟨move, hm, rfl⟩ := h
    rw [movedAxes_of_mem hn hm, movedAxes_of_mem ((hp.map dim).nodup_iff.mp hn) (hp.subset hm)]
  case neg =>
    push Not at h
    rw [movedAxes_of_forall_ne h, movedAxes_of_forall_ne fun move hm => h move (hp.symm.subset hm)]

theorem length_axesFrom : (axesFrom moves rank).length = rank := by
  simp [axesFrom]

theorem length_axesTo : (axesTo moves rank).length = rank := by
  simp [axesTo]

-- The axes of all moves appended where they come from, or where they go.
def appendMoves (dim : AxisMove → Nat) (moves : List AxisMove) (dims : List DimSharding) : List DimSharding :=
  moves.foldr (fun move dims => extendDim dims (dim move) move.axes) dims

theorem length_appendMoves : (appendMoves dim moves dims).length = dims.length := by
  induction moves with
  | nil              => rfl
  | cons move moves ih => exact length_extendDim.trans ih

theorem getElem?_appendMoves (hn : (moves.map dim).Nodup) : (appendMoves dim moves dims)[i]? =
    dims[i]?.map fun d => d.withAxes (d.axes ++ movedAxes dim moves i) := by
  induction moves with
  | nil => simp [appendMoves, movedAxes, DimSharding.withAxes]
  | cons move moves ih =>
    obtain ⟨hfresh, hrest⟩ := List.nodup_cons.mp hn
    have ih := ih hrest
    change (extendDim (appendMoves dim moves dims) (dim move) move.axes)[i]? = _
    by_cases hi : dim move = i
    case pos =>
      have hnone : movedAxes dim moves i = [] :=
        movedAxes_of_forall_ne fun other ho he => hfresh (List.mem_map.mpr ⟨other, ho, he.trans hi.symm⟩)
      have hself : movedAxes dim (move :: moves) i = move.axes := hi ▸ movedAxes_of_mem hn List.mem_cons_self
      rw [← hi, getElem?_extendDim_self, hi, ih, hnone, hself]
      cases dims[i]? <;> simp [DimSharding.withAxes]
    case neg =>
      have hskip : movedAxes dim (move :: moves) i = movedAxes dim moves i := by simp [movedAxes, hi]
      rw [getElem?_extendDim_of_ne hi, ih, hskip]

-- Appending all at once.
theorem sliceDims_movedAxes (hn : (moves.map dim).Nodup) :
    sliceDims dims ((List.range dims.length).map (movedAxes dim moves)) = appendMoves dim moves dims := by
  apply List.ext_getElem?
  intro i
  rw [getElem?_appendMoves hn]
  by_cases hi : i < dims.length <;> simp [sliceDims, hi]

theorem flatMap_axes_appendMoves (h : ∀ move ∈ moves, dim move < dims.length) :
    ((appendMoves dim moves dims).flatMap (·.axes)).Perm (dims.flatMap (·.axes) ++ moves.flatMap (·.axes)) := by
  induction moves with
  | nil => simp [appendMoves]
  | cons move moves ih =>
    have ⟨hmove, h⟩ := List.forall_mem_cons.mp h
    have hlt : dim move < (appendMoves dim moves dims).length := by rwa [length_appendMoves]
    refine (flatMap_axes_extendDim hlt).trans (((ih h).append_right _).trans ?_)
    rw [List.append_assoc, List.flatMap_cons]
    exact List.perm_append_comm.append_left _

theorem flatten_movedAxes_perm (hn : (moves.map dim).Nodup) (h : ∀ move ∈ moves, dim move < rank) :
    ((List.range rank).map (movedAxes dim moves)).flatten.Perm (moves.flatMap (·.axes)) := by
  obtain ⟨dims, rfl⟩ : ∃ dims : List DimSharding, dims.length = rank :=
    ⟨List.replicate rank { axes := [] }, List.length_replicate⟩
  have hslice : ((appendMoves dim moves dims).flatMap (·.axes)).Perm
      (dims.flatMap (·.axes) ++ ((List.range dims.length).map (movedAxes dim moves)).flatten) := by
    rw [← sliceDims_movedAxes hn]
    exact flatMap_axes_sliceDims (by simp)
  exact (List.perm_append_left_iff _).mp (hslice.symm.trans (flatMap_axes_appendMoves h))

theorem extendDim_comm {added : List AxisRef} (h : i ≠ j) :
    extendDim (extendDim dims i axes) j added = extendDim (extendDim dims j added) i axes := by
  apply List.ext_getElem?
  intro k
  simp only [extendDim, List.getElem?_modify]
  grind

theorem appendMoves_extendDim (h : ∀ move ∈ moves, dim move ≠ i) :
    appendMoves dim moves (extendDim dims i axes) = extendDim (appendMoves dim moves dims) i axes := by
  induction moves with
  | nil => rfl
  | cons move moves ih =>
    have ⟨hne, h⟩ := List.forall_mem_cons.mp h
    change extendDim (appendMoves dim moves (extendDim dims i axes)) (dim move) move.axes = _
    rw [ih h, extendDim_comm (Ne.symm hne)]
    rfl

end Moved

section Moves

theorem applyMove_extendDim (h : move.source < dims.length) :
    applyMove (extendDim dims move.source move.axes) move = .ok (extendDim dims move.target move.axes) := by
  have hs : (extendDim dims move.source move.axes)[move.source]? =
      some (dims[move.source].withAxes (dims[move.source].axes ++ move.axes)) := by
    rw [getElem?_extendDim_self, List.getElem?_eq_getElem h, Option.map_some]
  have hd : dropSuffix? move.axes (dims[move.source].axes ++ move.axes) = some dims[move.source].axes :=
    dropSuffix?_eq_some_iff.mpr rfl
  have hback :
      (extendDim dims move.source move.axes).modify move.source (·.withAxes dims[move.source].axes) = dims := by
    apply List.ext_getElem?
    intro i
    by_cases hi : move.source = i
    case pos =>
      subst hi
      simp [hs, DimSharding.withAxes, List.getElem?_eq_getElem h]
    case neg => simp [hi, getElem?_extendDim_of_ne hi]
  have hsource : (dims[move.source].withAxes (dims[move.source].axes ++ move.axes)).axes =
    dims[move.source].axes ++ move.axes := rfl
  simp only [applyMove, hs, Option.map_some, Option.getD_some, hsource, hd, hback]
  rfl

theorem foldlM_applyMove_appendMoves (h : Exchanges kept.length moves) :
    moves.foldlM applyMove (appendMoves (·.source) moves kept) = .ok (appendMoves (·.target) moves kept) := by
  induction moves generalizing kept with
  | nil => rfl
  | cons move moves ih =>
    have ⟨⟨hs, ht, _, _⟩, _, hother, h⟩ := exchanges_cons_iff.mp h
    have hsource : ∀ other ∈ moves, other.source ≠ move.target := fun other ho => by
      have := (hother other ho).left
      simp_all
    have htarget : ∀ other ∈ moves, other.target ≠ move.target := fun other ho => by
      have := (hother other ho).right
      simp_all
    have hfirst : applyMove (appendMoves (·.source) (move :: moves) kept) move =
        .ok (appendMoves (·.source) moves (extendDim kept move.target move.axes)) := by
      have hlt : move.source < (appendMoves (·.source) moves kept).length := by rwa [length_appendMoves]
      rw [appendMoves_extendDim hsource]
      exact applyMove_extendDim hlt
    rw [List.foldlM_cons, hfirst]
    change moves.foldlM applyMove (appendMoves (·.source) moves (extendDim kept move.target move.axes)) = _
    rw [ih (by rwa [length_extendDim]), appendMoves_extendDim htarget]
    rfl

-- A move finds its axes at the end of its source as it was at first.
theorem suffix_of_foldlM_applyMove (h : Exchanges dims.length moves) (hm : moves.foldlM applyMove dims = .ok moved) :
    ∀ move ∈ moves, ∀ d, dims[move.source]? = some d → move.axes <:+ d.axes := by
  induction moves generalizing dims with
  | nil => simp
  | cons move moves ih =>
    have ⟨⟨hs, _⟩, _, hother, h⟩ := exchanges_cons_iff.mp h
    rw [List.foldlM_cons, bind_eq_ok_iff] at hm
    have ⟨next, hfirst, hm⟩ := hm
    obtain ⟨rest, rfl, rfl⟩ := applyMove_eq_ok hs hfirst
    rw [length_extendDim] at h
    refine List.forall_mem_cons.mpr ⟨fun d hd => ?_, fun other ho d hd => ?_⟩
    case refine_1 =>
      rw [getElem?_extendDim_self, Option.map_eq_some_iff] at hd
      obtain ⟨d, _, rfl⟩ := hd
      exact List.suffix_append _ _
    case refine_2 =>
      have ⟨hfree, _⟩ := hother other ho
      simp only [List.mem_cons, List.not_mem_nil, or_false, not_or] at hfree
      rw [getElem?_extendDim_of_ne (Ne.symm hfree.left)] at hd
      apply ih (by rwa [length_extendDim]) hm other ho d
      rw [getElem?_extendDim_of_ne (Ne.symm hfree.right), hd]

-- A dimension ends with the axes that leave it.
theorem suffix_axesFrom (h : Exchanges dims.length moves) (hm : moves.foldlM applyMove dims = .ok moved) :
    ∀ entry ∈ dims.zip (axesFrom moves dims.length), entry.2 <:+ entry.1.axes := by
  intro entry he
  have ⟨i, hi⟩ := List.mem_iff_getElem?.mp he
  have ⟨hd, ha⟩ := List.getElem?_zip_eq_some.mp hi
  simp only [axesFrom, List.getElem?_map, Option.map_eq_some_iff] at ha
  obtain ⟨j, hj, ha⟩ := ha
  have hij : i = j := by simpa using (List.getElem?_eq_some_iff.mp hj).choose_spec
  subst hij
  rw [← ha]
  by_cases hsource : ∃ move ∈ moves, move.source = i
  case pos =>
    obtain ⟨move, hmem, rfl⟩ := hsource
    have hmoved : movedAxes (·.source) moves move.source = move.axes := movedAxes_of_mem (nodup_sources h) hmem
    rw [hmoved]
    exact suffix_of_foldlM_applyMove h hm move hmem _ hd
  case neg =>
    push Not at hsource
    rw [movedAxes_of_forall_ne hsource]
    exact List.nil_suffix

theorem exists_sliceDims_eq {lists : List (List AxisRef)} (hl : lists.length = dims.length)
    (h : ∀ entry ∈ dims.zip lists, entry.2 <:+ entry.1.axes) :
    ∃ kept : List DimSharding, kept.length = dims.length ∧ sliceDims kept lists = dims := by
  induction dims generalizing lists with
  | nil => exact ⟨[], rfl, rfl⟩
  | cons d dims ih =>
    cases lists with
    | nil => simp at hl
    | cons first lists =>
      rw [List.zip_cons_cons, List.forall_mem_cons] at h
      have ⟨⟨front, hfront⟩, h⟩ := h
      have ⟨kept, hk, hs⟩ := ih (by simpa using hl) h
      refine ⟨d.withAxes front :: kept, by simp [hk], ?_⟩
      change d.withAxes (front ++ first) :: sliceDims kept lists = d :: dims
      rw [hfront, hs]
      rfl

-- The result has the axes of the moves appended where they go, instead of where they come from.
theorem allToAll_eq_ok_iff (h : checkMoves moves operand.rank = .ok ()) : operand.allToAll moves = .ok out ↔
    ∃ mid : Sharding, mid.rank = operand.rank ∧
      mid.withDims (sliceDims mid.dims (axesFrom moves operand.rank)) = operand ∧
      mid.withDims (sliceDims mid.dims (axesTo moves operand.rank)) = out := by
  have hx := (checkMoves_eq_ok_iff.mp h).right
  have hmoves : operand.allToAll moves = .ok out ↔
      ∃ moved, moves.foldlM applyMove operand.dims = .ok moved ∧ operand.withDims moved = out := by
    rw [allToAll, check_bind_eq_ok_iff, and_iff_right h, bind_eq_ok_iff]
    simp only [pure, Except.pure, Except.ok.injEq]
  have hfrom {kept : List DimSharding} (hk : kept.length = operand.rank) :
      sliceDims kept (axesFrom moves operand.rank) = appendMoves (·.source) moves kept := by
    rw [axesFrom, ← hk, sliceDims_movedAxes (nodup_sources hx)]
  have hto {kept : List DimSharding} (hk : kept.length = operand.rank) :
      sliceDims kept (axesTo moves operand.rank) = appendMoves (·.target) moves kept := by
    rw [axesTo, ← hk, sliceDims_movedAxes (nodup_targets hx)]
  have hrun {kept : List DimSharding} (hk : kept.length = operand.rank) :
      moves.foldlM applyMove (appendMoves (·.source) moves kept) = .ok (appendMoves (·.target) moves kept) :=
    foldlM_applyMove_appendMoves (hk ▸ hx)
  rw [hmoves]
  constructor
  case mp =>
    rintro ⟨moved, hm, rfl⟩
    obtain ⟨kept, hk, hs⟩ : ∃ kept : List DimSharding, kept.length = operand.rank ∧
        sliceDims kept (axesFrom moves operand.rank) = operand.dims :=
      exists_sliceDims_eq length_axesFrom (suffix_axesFrom hx hm)
    rw [← hs, hfrom hk, hrun hk, ← hto hk] at hm
    cases hm
    exact ⟨operand.withDims kept, hk, congrArg operand.withDims hs, rfl⟩
  case mpr =>
    rintro ⟨mid, hr, ho, rfl⟩
    have hdims : operand.dims = sliceDims mid.dims (axesFrom moves operand.rank) := (congrArg dims ho).symm
    have hrest : operand.withDims = mid.withDims := by rw [← ho]; rfl
    exact ⟨_, by rw [hdims, hfrom hr, hrun hr, ← hto hr], by rw [hrest]⟩

end Moves

section TakeBack

theorem takeBack_perm : (takeBack moves).Perm (moves.map (·.reverse)) :=
  List.mergeSort_perm _ _

theorem takeBack_ne_nil (h : moves ≠ []) : takeBack moves ≠ [] := by
  intro hnil
  have hempty : [].Perm (moves.map (·.reverse)) := hnil ▸ takeBack_perm
  exact h (List.map_eq_nil_iff.mp hempty.symm.eq_nil)

theorem exchanges_takeBack (h : Exchanges rank moves) : Exchanges rank (takeBack moves) := by
  have hmem : ∀ move ∈ takeBack moves, ∃ other ∈ moves, other.reverse = move := fun move hm =>
    List.mem_map.mp (takeBack_perm.subset hm)
  have hsources : ((takeBack moves).map (·.source)).Nodup := by
    refine ((takeBack_perm.map _).nodup_iff).mpr ?_
    rw [List.map_map]
    exact nodup_targets h
  have hsorted : (takeBack moves).Pairwise fun move other => move.source ≤ other.source := by
    have hp : (takeBack moves).Pairwise fun move other => decide (move.source ≤ other.source) = true :=
      List.pairwise_mergeSort (by grind) (by grind) (moves.map (·.reverse))
    exact hp.imp of_decide_eq_true
  refine ⟨fun move hm => ?bounds, fun move hm => ?axes, ?ascending, ?distinct⟩
  case bounds =>
    obtain ⟨other, ho, rfl⟩ := hmem move hm
    exact (h.bounds other ho).symm
  case axes =>
    obtain ⟨other, ho, rfl⟩ := hmem move hm
    exact h.axes other ho
  case ascending =>
    refine (hsorted.and (List.pairwise_map.mp hsources)).imp fun ⟨hle, hne⟩ => ?_
    exact Nat.lt_of_le_of_ne hle hne
  case distinct =>
    refine ((takeBack_perm.flatMap_right _).nodup_iff).mpr ?_
    rw [List.flatMap_map]
    refine (List.Perm.flatMap_left moves fun move _ => ?_).nodup_iff.mpr h.distinct
    exact List.Perm.swap _ _ _

theorem movedAxes_map_reverse {dim back : AxisMove → Nat} (h : ∀ move, dim move.reverse = back move) :
    movedAxes dim (moves.map (·.reverse)) i = movedAxes back moves i := by
  have hp : (fun move => decide (dim move = i)) ∘ AxisMove.reverse = fun move => decide (back move = i) := by
    funext move
    simp [h]
  rw [movedAxes, movedAxes, List.find?_map, Option.map_map, hp]
  rfl

theorem axesFrom_takeBack (h : Exchanges rank moves) : axesFrom (takeBack moves) rank = axesTo moves rank := by
  apply List.map_congr_left
  intro i _
  rw [movedAxes_perm takeBack_perm (nodup_sources (exchanges_takeBack h))]
  exact movedAxes_map_reverse fun _ => rfl

theorem axesTo_takeBack (h : Exchanges rank moves) : axesTo (takeBack moves) rank = axesFrom moves rank := by
  apply List.map_congr_left
  intro i _
  rw [movedAxes_perm takeBack_perm (nodup_targets (exchanges_takeBack h))]
  exact movedAxes_map_reverse fun _ => rfl

end TakeBack

-- For an operand in which no axes overlap. The moves use no dimension twice, so their order does not matter, and
-- they can be taken back.
theorem allToAll_iff_allGather_allSlice (hd : NoOverlaps (operand.shardingAxes ++ operand.replicated))
    (hm : checkMoves moves operand.rank = .ok ()) :
    (operand.allToAll moves = .ok out ↔ ∃ mid, operand.allGather (axesFrom moves operand.rank) = .ok mid ∧
      mid.allSlice (axesTo moves operand.rank) = .ok out) ∧
    (operand.allToAll moves = .ok out → out.allToAll (takeBack moves) = .ok operand) := by
  have ⟨hne, hx⟩ := checkMoves_eq_ok_iff.mp hm
  rw [allToAll_eq_ok_iff hm]
  constructor
  case left =>
    have hfrom := flatten_movedAxes_perm (nodup_sources hx) fun move hmem => (hx.bounds move hmem).left
    have hto := flatten_movedAxes_perm (nodup_targets hx) fun move hmem => (hx.bounds move hmem).right
    have hslice {mid : Sharding} (hg : operand.allGather (axesFrom moves operand.rank) = .ok mid) :
        mid.allSlice (axesTo moves operand.rank) =
          .ok (mid.withDims (sliceDims mid.dims (axesTo moves operand.rank))) :=
      allSlice_of_allGather hd hg (length_axesTo.trans length_axesFrom.symm) (hto.trans hfrom.symm)
    constructor
    case mp =>
      rintro ⟨mid, hr, ho, rfl⟩
      have hg := allGather_eq_ok_iff.mpr ⟨length_axesFrom, hr, ho⟩
      exact ⟨mid, hg, hslice hg⟩
    case mpr =>
      rintro ⟨mid, hg, hs⟩
      have ⟨_, hr, ho⟩ := allGather_eq_ok_iff.mp hg
      rw [hslice hg, Except.ok.injEq] at hs
      exact ⟨mid, hr, ho, hs⟩
  case right =>
    rintro ⟨mid, hr, ho, hout⟩
    have hrank : out.rank = operand.rank := by
      rw [← hout]
      exact (length_sliceDims (length_axesTo.trans hr.symm)).trans hr
    have hback : checkMoves (takeBack moves) out.rank = .ok () := by
      rw [hrank]
      exact checkMoves_eq_ok_iff.mpr ⟨takeBack_ne_nil hne, exchanges_takeBack hx⟩
    rw [allToAll_eq_ok_iff hback, hrank, axesFrom_takeBack hx, axesTo_takeBack hx]
    exact ⟨mid, hr, hout, ho⟩

-- The axes of two dimensions are exchanged crosswise, so that the moves back are in the other order.
def crossedMoves : List AxisMove :=
  [{ source := 0, target := 3, axes := [.sub "c" 1 2] },
    { source := 1, target := 2, axes := [.whole "d", .sub "c" 4 2] }]

def uncrossedAxes : Sharding :=
  { mesh := .symbol "mesh"
    dims := [{ axes := [.whole "a", .sub "c" 1 2] }, { axes := [.whole "d", .sub "c" 4 2] },
      { axes := [.whole "e"], closed := false }, { axes := [], priority := some 1 }]
    replicated := [.whole "b"] }

def crossedAxes : Sharding :=
  { mesh := .symbol "mesh"
    dims := [{ axes := [.whole "a"] }, { axes := [] },
      { axes := [.whole "e", .whole "d", .sub "c" 4 2], closed := false },
      { axes := [.sub "c" 1 2], priority := some 1 }]
    replicated := [.whole "b"] }

theorem allToAll_crossedMoves : NoOverlaps (uncrossedAxes.shardingAxes ++ uncrossedAxes.replicated) ∧
    checkMoves crossedMoves uncrossedAxes.rank = .ok () ∧
    (∃ mid, uncrossedAxes.allGather (axesFrom crossedMoves uncrossedAxes.rank) = .ok mid ∧
      mid.allSlice (axesTo crossedMoves uncrossedAxes.rank) = .ok crossedAxes) ∧
    crossedAxes.allToAll (takeBack crossedMoves) = .ok uncrossedAxes := by
  have hd : NoOverlaps (uncrossedAxes.shardingAxes ++ uncrossedAxes.replicated) := by decide
  have hm : checkMoves crossedMoves uncrossedAxes.rank = .ok () := by decide
  have hmove : uncrossedAxes.allToAll crossedMoves = .ok crossedAxes := by decide
  obtain ⟨hsplit, hback⟩ := allToAll_iff_allGather_allSlice hd hm
  exact ⟨hd, hm, hsplit.mp hmove, hback hmove⟩

end Sharding

end MeshSharding
