import MeshSharding.Program.OpCheck
import MeshSharding.Proofs.Checks

namespace MeshSharding

-- The axes that the values are summed over.
def Collective.reducedAxes (collective : Collective) : List AxisRef :=
  match collective.action with
  | .allReduce axes     => axes
  | .reduceScatter axes => axes.flatten
  | _                   => []

namespace Sharding

variable {operand operand' out : Sharding} {mesh outMesh : Mesh}

theorem rank_eq_length_dimAxes (sharding : Sharding) : sharding.rank = sharding.dimAxes.length := by
  simp [rank, dimAxes]

theorem shardingAxes_eq_flatten (sharding : Sharding) :
    sharding.shardingAxes = sharding.dimAxes.flatten := by
  simp [shardingAxes, dimAxes, List.flatMap]

-- What is declared has the axes of what is produced.
theorem declared_eq_ok_iff {produced : Except Error Sharding} :
    (produced >>= fun expected => expected.checkDeclared out) = .ok () ↔
      ∃ expected, produced = .ok expected ∧ expected.dimAxes = out.dimAxes := by
  simp only [bind_eq_ok_iff, checkDeclared, require_eq_ok_iff, splitsLike, decide_eq_true_eq]

theorem map_dimAxes_checkDeclared {produced : Except Error Sharding} :
    (produced >>= fun expected => expected.checkDeclared out) = .ok () ↔
      produced.map dimAxes = .ok out.dimAxes := by
  rw [declared_eq_ok_iff]
  cases produced <;> simp [Except.map]

theorem gatherDims_congr {dims dims' : List DimSharding} (h : dims'.map (·.axes) = dims.map (·.axes))
    (index : Nat) (axes : List (List AxisRef)) :
    (gatherDims index (dims'.zip axes)).map (·.map (·.axes)) =
      (gatherDims index (dims.zip axes)).map (·.map (·.axes)) := by
  induction dims generalizing dims' index axes with
  | nil =>
    cases List.map_eq_nil_iff.mp h
    rfl
  | cons dim dims ih =>
    obtain ⟨dim', dims', rfl, hd, hds⟩ := List.map_eq_cons_iff.mp h
    cases axes with
    | nil => rfl
    | cons first axes =>
      have hrest := ih hds (index + 1) axes
      simp only [List.zip_cons_cons, gatherDims, hd]
      split
      case _ => rfl
      case _ kept _ =>
        cases hg : gatherDims (index + 1) (dims.zip axes) <;>
          cases hg' : gatherDims (index + 1) (dims'.zip axes) <;>
            simp_all [bind, Except.bind, pure, Except.pure, Except.map, DimSharding.withAxes]

theorem allGather_congr (h : operand'.dimAxes = operand.dimAxes) (axes : List (List AxisRef)) :
    (operand'.allGather axes).map dimAxes = (operand.allGather axes).map dimAxes := by
  have hg := gatherDims_congr h 0 axes
  simp only [allGather, rank_eq_length_dimAxes, h]
  cases require (axes.length = operand.dimAxes.length)
    (.arityMismatch .gatheringLists operand.dimAxes.length axes.length) with
  | error e => rfl
  | ok _ =>
    cases hd : gatherDims 0 (operand.dims.zip axes) <;>
      cases hd' : gatherDims 0 (operand'.dims.zip axes) <;>
        simp_all [bind, Except.bind, pure, Except.pure, Except.map, dimAxes, withDims]

theorem takeSlices_congr (h : operand'.shardingAxes = operand.shardingAxes) (index : Nat)
    (sliced axes : List AxisRef) :
    operand'.takeSlices index sliced axes = operand.takeSlices index sliced axes := by
  induction axes generalizing sliced with
  | nil            => rfl
  | cons axis axes ih => simp only [takeSlices, h, ih]

theorem takeAllSlices_congr (h : operand'.shardingAxes = operand.shardingAxes) (index : Nat)
    (sliced : List AxisRef) (axes : List (List AxisRef)) :
    operand'.takeAllSlices index sliced axes = operand.takeAllSlices index sliced axes := by
  induction axes generalizing sliced index with
  | nil                => rfl
  | cons first axes ih => simp only [takeAllSlices, takeSlices_congr h, ih]

theorem allSlice_congr (h : operand'.dimAxes = operand.dimAxes) (axes : List (List AxisRef)) :
    (operand'.allSlice axes).map dimAxes = (operand.allSlice axes).map dimAxes := by
  have hs : operand'.shardingAxes = operand.shardingAxes := by
    rw [shardingAxes_eq_flatten, shardingAxes_eq_flatten, h]
  have hz (sharding : Sharding) : (sharding.dims.zipWith
      (fun dim axes => dim.withAxes (dim.axes ++ axes)) axes).map (·.axes) =
        sharding.dimAxes.zipWith (· ++ ·) axes := by
    simp [List.map_zipWith, DimSharding.withAxes, dimAxes, List.zipWith_map_left]
  simp only [allSlice, rank_eq_length_dimAxes, h, takeAllSlices_congr hs]
  cases require (axes.length = operand.dimAxes.length)
    (.arityMismatch .slicingLists operand.dimAxes.length axes.length) with
  | error e => rfl
  | ok _ =>
    cases operand.takeAllSlices 0 [] axes with
    | error e => rfl
    | ok _    =>
      simp only [bind, Except.bind, pure, Except.pure, Except.map, dimAxes, withDims, withReplicated,
        Except.ok.injEq]
      exact (hz operand').trans ((congrArg (·.zipWith (· ++ ·) axes) h).trans (hz operand).symm)

theorem applyMove_congr {dims dims' : List DimSharding} (h : dims'.map (·.axes) = dims.map (·.axes))
    (move : AxisMove) :
    (applyMove dims' move).map (·.map (·.axes)) = (applyMove dims move).map (·.map (·.axes)) := by
  have hi (i : Nat) : dims'[i]?.map (·.axes) = dims[i]?.map (·.axes) := by
    rw [← List.getElem?_map, h, List.getElem?_map]
  have hmodify (dims : List DimSharding) (i : Nat) (f : List AxisRef → List AxisRef) :
      (dims.modify i fun dim => dim.withAxes (f dim.axes)).map (·.axes) =
        (dims.map (·.axes)).modify i f := by
    apply List.ext_getElem? fun j => ?_
    simp only [List.getElem?_map, List.getElem?_modify]
    cases dims[j]? <;> by_cases hj : i = j <;> simp [hj, DimSharding.withAxes]
  simp only [applyMove, hi]
  split
  case _ => rfl
  case _ kept _ =>
    simp only [Except.map, Except.ok.injEq]
    rw [hmodify _ move.target (· ++ move.axes), hmodify _ move.target (· ++ move.axes),
      hmodify _ move.source fun _ => kept, hmodify _ move.source fun _ => kept, h]

theorem foldlM_applyMove_congr {dims dims' : List DimSharding}
    (h : dims'.map (·.axes) = dims.map (·.axes)) (moves : List AxisMove) :
    (moves.foldlM applyMove dims').map (·.map (·.axes)) =
      (moves.foldlM applyMove dims).map (·.map (·.axes)) := by
  induction moves generalizing dims dims' with
  | nil             => simp [pure, Except.pure, Except.map, h]
  | cons move moves ih =>
    have hm := applyMove_congr h move
    simp only [List.foldlM_cons]
    cases ha : applyMove dims move with
    | error e =>
      cases ha' : applyMove dims' move <;> simp_all [bind, Except.bind, Except.map]
    | ok next =>
      cases ha' : applyMove dims' move with
      | error e  => simp [ha, ha', Except.map] at hm
      | ok next' =>
        simp only [ha, ha', Except.map, Except.ok.injEq] at hm
        exact ih hm

theorem allToAll_congr (h : operand'.dimAxes = operand.dimAxes) (moves : List AxisMove) :
    (operand'.allToAll moves).map dimAxes = (operand.allToAll moves).map dimAxes := by
  have hm := foldlM_applyMove_congr h moves
  simp only [allToAll, rank_eq_length_dimAxes, h]
  cases checkMoves moves operand.dimAxes.length with
  | error e => rfl
  | ok _ =>
    cases hd : moves.foldlM applyMove operand.dims <;>
      cases hd' : moves.foldlM applyMove operand'.dims <;>
        simp_all [bind, Except.bind, pure, Except.pure, Except.map, dimAxes, withDims]

theorem checkShardCounts_congr {dims dims' : List DimSharding}
    (h : dims'.map (·.axes) = dims.map (·.axes)) (index : Nat) (outDims : List DimSharding) :
    checkShardCounts mesh outMesh index (dims'.zip outDims) =
      checkShardCounts mesh outMesh index (dims.zip outDims) := by
  induction dims generalizing dims' index outDims with
  | nil =>
    cases List.map_eq_nil_iff.mp h
    rfl
  | cons dim dims ih =>
    obtain ⟨dim', dims', rfl, hd, hds⟩ := List.map_eq_cons_iff.mp h
    cases outDims with
    | nil => rfl
    | cons outDim outDims =>
      simp only [List.zip_cons_cons, checkShardCounts, DimSharding.shardCount, hd, ih hds]

theorem checkPermute_congr (h : operand'.dimAxes = operand.dimAxes) :
    operand'.checkPermute mesh out outMesh = operand.checkPermute mesh out outMesh := by
  simp only [checkPermute, rank_eq_length_dimAxes, h, checkShardCounts_congr h]

theorem checkFree_eq_ok_iff {axes : List AxisRef} : operand.checkFree axes = .ok () ↔
    ∀ axis ∈ axes, ¬ AxisRef.anyOverlaps operand.shardingAxes axis ∧
      ¬ AxisRef.anyOverlaps operand.replicated axis := by
  induction axes with
  | nil => simp [checkFree]
  | cons axis axes ih =>
    simp only [checkFree, require, List.forall_mem_cons, ← ih]
    by_cases hs : AxisRef.anyOverlaps operand.shardingAxes axis = true <;>
      by_cases hr : AxisRef.anyOverlaps operand.replicated axis = true <;>
        simp [hs, hr, bind, Except.bind]

theorem checkFree_congr (h : operand'.dimAxes = operand.dimAxes) {axes : List AxisRef}
    (hr : ∀ axis ∈ axes, ¬ AxisRef.anyOverlaps operand'.replicated axis)
    (hc : operand.checkFree axes = .ok ()) : operand'.checkFree axes = .ok () := by
  rw [checkFree_eq_ok_iff] at hc ⊢
  rw [shardingAxes_eq_flatten, h, ← shardingAxes_eq_flatten]
  exact fun axis ha => ⟨(hc axis ha).left, hr axis ha⟩

theorem checkReduce_congr (h : operand'.dimAxes = operand.dimAxes) {axes : List AxisRef}
    (hr : ∀ axis ∈ axes, ¬ AxisRef.anyOverlaps operand'.replicated axis)
    (hc : operand.checkReduce axes out mesh = .ok ()) :
    operand'.checkReduce axes out mesh = .ok () := by
  have hs : operand'.splitsLike out = operand.splitsLike out := by simp only [splitsLike, h]
  simp only [checkReduce, bind_eq_ok_iff, require_eq_ok_iff, hs] at hc ⊢
  obtain ⟨_, ha, _, hm, _, hf, rest⟩ := hc
  exact ⟨_, ha, _, hm, (), checkFree_congr h hr hf, rest⟩

theorem reduceScatter_congr (h : operand'.dimAxes = operand.dimAxes) {axes : List (List AxisRef)}
    (hr : ∀ axis ∈ axes.flatten, ¬ AxisRef.anyOverlaps operand'.replicated axis)
    (hc : operand.checkFree axes.flatten = .ok ()) :
    (operand'.reduceScatter axes).map dimAxes = (operand.reduceScatter axes).map dimAxes := by
  simp only [reduceScatter, rank_eq_length_dimAxes, h]
  cases require (axes.length = operand.dimAxes.length)
    (.arityMismatch .reduceScatterLists operand.dimAxes.length axes.length) with
  | error e => rfl
  | ok _    =>
    rw [hc, checkFree_congr h hr hc]
    exact allSlice_congr h axes

end Sharding

namespace Collective

variable {collective : Collective} {operand operand' : Sharding} {mesh outMesh : Mesh}

-- A collective that is satisfied with its operand has found the axes of its reduction free.
theorem checkFree_of_check (h : collective.check operand mesh outMesh = .ok ()) :
    operand.checkFree collective.reducedAxes = .ok () := by
  simp only [check] at h
  simp only [reducedAxes]
  cases ha : collective.action with
  | allReduce axes =>
    simp only [ha, Sharding.checkReduce, bind_eq_ok_iff] at h
    obtain ⟨_, _, _, _, _, hf, _⟩ := h
    exact hf
  | reduceScatter axes =>
    simp only [ha, Sharding.reduceScatter, bind_eq_ok_iff] at h
    obtain ⟨_, ⟨_, _, _, hf, _⟩, _⟩ := h
    exact hf
  | allGather _ | allSlice _ | allToAll _ | collectivePermute => rfl

theorem allowsDifferentMeshes_of_allowsMissingOperand (h : collective.allowsMissingOperand) :
    collective.allowsDifferentMeshes = false := by
  simp only [allowsMissingOperand, allowsDifferentMeshes] at h ⊢
  split at h <;> simp_all

theorem check_congr (hd : operand'.dimAxes = operand.dimAxes)
    (hr : ∀ axis ∈ collective.reducedAxes, ¬ AxisRef.anyOverlaps operand'.replicated axis)
    (h : collective.check operand mesh outMesh = .ok ()) :
    collective.check operand' mesh outMesh = .ok () := by
  have hf := checkFree_of_check h
  simp only [check] at h ⊢
  simp only [reducedAxes] at hr hf
  cases ha : collective.action with
  | allGather axes =>
    simp only [ha, Sharding.map_dimAxes_checkDeclared] at h ⊢
    rw [Sharding.allGather_congr hd, h]
  | allSlice axes =>
    simp only [ha, Sharding.map_dimAxes_checkDeclared] at h ⊢
    rw [Sharding.allSlice_congr hd, h]
  | allToAll moves =>
    simp only [ha, Sharding.map_dimAxes_checkDeclared] at h ⊢
    rw [Sharding.allToAll_congr hd, h]
  | collectivePermute =>
    simp only [ha] at h ⊢
    rw [Sharding.checkPermute_congr hd, h]
  | allReduce axes =>
    simp only [ha] at h hr ⊢
    exact Sharding.checkReduce_congr hd hr h
  | reduceScatter axes =>
    simp only [ha] at hr hf
    simp only [ha, Sharding.map_dimAxes_checkDeclared] at h ⊢
    rw [Sharding.reduceScatter_congr hd hr hf, h]

end Collective

namespace Program

variable {p q : Program} {o : OpId} {v w : ValueId} {collective : Collective} {ref : MeshRef}

theorem checkUnary_eq_ok_iff {op : Operation} : p.checkUnary op = .ok v ↔
    ∃ r, op.operands = [v] ∧ op.results = [r] ∧ p.typeOf v = p.typeOf r := by
  simp only [checkUnary, checkArity, checkType, bind_eq_ok_iff, exists_require_eq_ok_iff, pure,
    Except.pure, Except.ok.injEq]
  constructor
  · rintro ⟨ho, hr, ht, rfl⟩
    obtain ⟨v, hv⟩ := List.length_eq_one_iff.mp ho.symm
    obtain ⟨r, hr⟩ := List.length_eq_one_iff.mp hr.symm
    exact ⟨r, by simp [hv], hr, by simpa [hr] using ht⟩
  · rintro ⟨r, ho, hr, ht⟩
    simp [ho, hr, ht]

theorem input_eq_of_checkUnary (h : p.checkUnary (p.op o) = .ok v) : p.input o = v := by
  obtain ⟨_, ho, _⟩ := checkUnary_eq_ok_iff.mp h
  simp [input, ho]

theorem operandSharding_of_some {s : Sharding} (h : p.sharding v = some s) :
    p.operandSharding collective v = .ok s := by
  simp [operandSharding, h]

theorem operandSharding_of_missing (h : p.sharding v = none) (ha : collective.allowsMissingOperand) :
    p.operandSharding collective v =
      .ok (Sharding.fullyReplicated collective.out.mesh (p.typeOf v).rank) := by
  simp [operandSharding, h, ha]

theorem checkCollective_eq_ok_iff : p.checkCollective collective v = .ok () ↔
    p.checkFits collective.out v = .ok () ∧ ∃ operand mesh outMesh,
      p.operandSharding collective v = .ok operand ∧ p.meshes.resolve operand.mesh = .ok mesh ∧
      p.meshes.resolve collective.out.mesh = .ok outMesh ∧
      (collective.allowsDifferentMeshes ∨ mesh = outMesh) ∧
      collective.check operand mesh outMesh = .ok () := by
  simp only [checkCollective, bind_eq_ok_iff, exists_require_eq_ok_iff]
  constructor
  · rintro ⟨_, hf, operand, ho, mesh, hm, outMesh, hout, hsame, hc⟩
    exact ⟨hf, operand, mesh, outMesh, ho, hm, hout, hsame, hc⟩
  · rintro ⟨hf, operand, mesh, outMesh, ho, hm, hout, hsame, hc⟩
    exact ⟨_, hf, operand, ho, mesh, hm, outMesh, hout, hsame, hc⟩

theorem checkOp_collective_iff (hk : (p.op o).kind = .collective collective) :
    p.checkOp o = .ok () ↔
      p.checkUnary (p.op o) = .ok (p.input o) ∧ p.checkCollective collective (p.input o) = .ok () := by
  simp only [checkOp, hk, bind_eq_ok_iff]
  constructor
  · rintro ⟨v, hv, hc⟩
    exact input_eq_of_checkUnary hv ▸ ⟨hv, hc⟩
  · exact fun ⟨hu, hc⟩ => ⟨_, hu, hc⟩

-- An operand that splits the dimensions alike, on the same mesh, does as well.
theorem checkCollective_congr (h : p.checkCollective collective v = .ok ()) (hm : q.meshes = p.meshes)
    (ht : q.typeOf w = p.typeOf v) {operand operand' : Sharding}
    (ho : p.operandSharding collective v = .ok operand)
    (ho' : q.operandSharding collective w = .ok operand')
    (hr : p.meshes.resolve operand'.mesh = p.meshes.resolve operand.mesh)
    (hd : operand'.dimAxes = operand.dimAxes)
    (hf : ∀ axis ∈ collective.reducedAxes, ¬ AxisRef.anyOverlaps operand'.replicated axis) :
    q.checkCollective collective w = .ok () := by
  obtain ⟨hfits, _, mesh, outMesh, hop, hmesh, hout, hsame, hc⟩ := checkCollective_eq_ok_iff.mp h
  cases ho.symm.trans hop
  refine checkCollective_eq_ok_iff.mpr
    ⟨?_, operand', mesh, outMesh, ho', hm ▸ hr ▸ hmesh, hm ▸ hout, hsame, Collective.check_congr hd hf hc⟩
  rw [checkFits, hm, ht]
  exact hfits

end Program

end MeshSharding
