import MeshSharding.Proofs.Coherent
import MeshSharding.Proofs.Collective.Infer
import MeshSharding.Proofs.Sharding.Exact

namespace MeshSharding

open AxisRef

-- The numbers of shards before and after the collective.
def Collective.Accounts (collective : Collective) (operand : Sharding) (mesh outMesh : Mesh) : Prop :=
  ∃ total outTotal, operand.totalShards mesh = .ok total ∧ collective.out.totalShards outMesh = .ok outTotal ∧
    match collective.action with
    | .allGather axes                      => total = outTotal * (axes.flatten.map (extent mesh)).prod
    | .allSlice axes | .reduceScatter axes => outTotal = total * (axes.flatten.map (extent mesh)).prod
    | .allToAll _ | .allReduce _           => outTotal = total
    | .collectivePermute => outTotal = total ∧ ∃ counts,
      operand.shardCounts mesh = .ok counts ∧ collective.out.shardCounts outMesh = .ok counts

namespace Sharding

variable {operand out : Sharding} {mesh outMesh : Mesh}

theorem shardingAxes_congr (h : operand.dimAxes = out.dimAxes) : operand.shardingAxes = out.shardingAxes := by
  rw [shardingAxes_eq_flatten, h, ← shardingAxes_eq_flatten]

theorem exists_counts_of_checkShardCounts {dims outDims : List DimSharding} {index : Nat}
    (hl : dims.length = outDims.length) (h : checkShardCounts mesh outMesh index (dims.zip outDims) = .ok ()) :
    ∃ counts, dims.mapM (·.shardCount mesh) = .ok counts ∧ outDims.mapM (·.shardCount outMesh) = .ok counts := by
  induction dims generalizing outDims index with
  | nil =>
    obtain rfl := List.length_eq_zero_iff.mp hl.symm
    exact ⟨[], rfl, rfl⟩
  | cons dim dims ih =>
    cases outDims with
    | nil => simp at hl
    | cons outDim outDims =>
      simp only [List.zip_cons_cons, checkShardCounts, bind_eq_ok_iff, exists_require_eq_ok_iff] at h
      obtain ⟨count, hc, _, hc', rfl, h⟩ := h
      obtain ⟨counts, hs, hs'⟩ := ih (by simpa using hl) h
      exact ⟨count :: counts, by rw [List.mapM_cons, hc, hs]; rfl, by rw [List.mapM_cons, hc', hs']; rfl⟩

theorem shardCounts_of_checkPermute (h : operand.checkPermute mesh out outMesh = .ok ()) :
    ∃ counts, operand.shardCounts mesh = .ok counts ∧ out.shardCounts outMesh = .ok counts := by
  simp only [checkPermute, check_bind_eq_ok_iff, require_eq_ok_iff] at h
  obtain ⟨-, hr, h⟩ := h
  exact exists_counts_of_checkShardCounts hr h

end Sharding

namespace Collective

variable {collective : Collective} {operand : Sharding} {mesh outMesh : Mesh}

-- Equal counts in all dimensions have equal products, even if these are held at the greatest size.
theorem accounts_of_checkPermute (ha : collective.action = .collectivePermute)
    (h : operand.checkPermute mesh collective.out outMesh = .ok ()) : collective.Accounts operand mesh outMesh := by
  obtain ⟨counts, hs, hs'⟩ := Sharding.shardCounts_of_checkPermute h
  refine ⟨Size.satProd counts, Size.satProd counts, ?_, ?_, ?_⟩
  · rw [Sharding.totalShards, hs]
    rfl
  · rw [Sharding.totalShards, hs']
    rfl
  · rw [ha]
    exact ⟨rfl, counts, hs, hs'⟩

theorem accounts_of_check (hb : mesh.Built) (ha : Apart mesh operand.shardingAxes) (hb' : outMesh.Built)
    (ho : Apart outMesh collective.out.shardingAxes) (hm : collective.allowsDifferentMeshes ∨ mesh = outMesh)
    (h : collective.check operand mesh outMesh = .ok ()) : collective.Accounts operand mesh outMesh := by
  have htotal := Sharding.totalShards_eq hb ha
  have houtTotal := Sharding.totalShards_eq hb' ho
  -- The axes of both sides are the same, or those of one side are in the other beside the axes of the action.
  have hprod {axes others added : List AxisRef} (hp : axes.Perm (others ++ added)) :
      (axes.map (extent mesh)).prod = (others.map (extent mesh)).prod * (added.map (extent mesh)).prod := by
    rw [(hp.map _).prod_eq, List.map_append, List.prod_append]
  have hsame (hne : collective.action ≠ .collectivePermute) : mesh = outMesh := by
    refine hm.resolve_left ?_
    rw [allowsDifferentMeshes]
    split <;> simp_all
  obtain ⟨action, out⟩ := collective
  cases action with
  | collectivePermute => exact accounts_of_checkPermute rfl h
  | allGather axes =>
    obtain rfl := hsame (by simp)
    obtain ⟨expected, hg, hs⟩ := Sharding.declared_eq_ok_iff.mp h
    have hperm := Sharding.shardingAxes_of_allGather hg
    rw [Sharding.shardingAxes_congr hs] at hperm
    exact ⟨_, _, htotal, houtTotal, hprod hperm⟩
  | allSlice axes =>
    obtain rfl := hsame (by simp)
    obtain ⟨expected, hg, hs⟩ := Sharding.declared_eq_ok_iff.mp h
    have hperm := Sharding.shardingAxes_of_allSlice hg
    rw [Sharding.shardingAxes_congr hs] at hperm
    exact ⟨_, _, htotal, houtTotal, hprod hperm⟩
  | reduceScatter axes =>
    obtain rfl := hsame (by simp)
    obtain ⟨expected, hg, hs⟩ := Sharding.declared_eq_ok_iff.mp h
    simp only [Sharding.reduceScatter, check_bind_eq_ok_iff] at hg
    have hperm := Sharding.shardingAxes_of_allSlice hg.right.right
    rw [Sharding.shardingAxes_congr hs] at hperm
    exact ⟨_, _, htotal, houtTotal, hprod hperm⟩
  | allToAll moves =>
    obtain rfl := hsame (by simp)
    obtain ⟨expected, hg, hs⟩ := Sharding.declared_eq_ok_iff.mp h
    have hperm : expected.shardingAxes.Perm operand.shardingAxes := (Sharding.rearranged_of_allToAll hg).left.perm
    rw [Sharding.shardingAxes_congr hs] at hperm
    exact ⟨_, _, htotal, houtTotal, (hperm.map _).prod_eq⟩
  | allReduce axes =>
    obtain rfl := hsame (by simp)
    change operand.checkReduce axes out mesh = .ok () at h
    simp only [Sharding.checkReduce, check_bind_eq_ok_iff, require_eq_ok_iff] at h
    obtain ⟨-, -, -, -, hs⟩ := h
    have hs : operand.dimAxes = out.dimAxes := of_decide_eq_true hs
    exact ⟨_, _, htotal, houtTotal, by rw [Sharding.shardingAxes_congr hs]⟩

end Collective

namespace Program

variable {p : Program} {o : OpId} {v : ValueId} {collective : Collective} {operand : Sharding} {mesh : Mesh}

-- An operand that the collective sees is defined by an operation of the program, if by any.
theorem Coherent.operandSharding (hp : p.Coherent) (hv : p.Valid) (ho : o ∈ p.walk)
    (hout : collective.out.Coherent p.meshes) (hm : v ∈ (p.op o).operands)
    (h : p.operandSharding collective v = .ok operand) : operand.Coherent p.meshes := by
  have hwf := hv.sound.wellFormed
  rw [Program.operandSharding] at h
  split at h
  case h_1 hs =>
    cases h
    refine hp.sharding hv (fun u hu => ?_) hs
    exact hwf.definer_mem_walk (hv.sound.scope o ho v hm) ho (hwf.result_of_definer? (hwf.operands o v hm) hu)
  case h_2 =>
    split at h <;> cases h
    exact hout.fullyReplicated _

theorem apart_of_coherent (h : operand.Coherent p.meshes) (hm : p.meshes.resolve operand.mesh = .ok mesh) :
    Apart mesh operand.shardingAxes := by
  obtain ⟨other, hr, ha⟩ := h
  cases hm.symm.trans hr
  exact ha.sublist (List.sublist_append_left _ _)

-- An operand without a sharding counts as replicated on the mesh of the result.
theorem verify_accounts (hp : p.Reachable) (hv : p.verify = .ok ()) (ho : p.isLive o)
    (hk : (p.op o).kind = .collective collective)
    (hbuilt : ∀ s ∈ collective.out :: (p.sharding (p.input o)).toList, ∀ mesh,
      p.meshes.resolve s.mesh = .ok mesh → mesh.Built) :
    ∃ operand mesh outMesh, p.operandSharding collective (p.input o) = .ok operand ∧
      p.meshes.resolve operand.mesh = .ok mesh ∧ p.meshes.resolve collective.out.mesh = .ok outMesh ∧
      collective.Accounts operand mesh outMesh := by
  have hwf := hp.wellFormed
  have hvalid := ((verify_iff hwf).mp hv).left
  have how : o ∈ p.walk := (hp.housed.mem_walk_iff_isLive hwf hvalid.sound.rooted).mpr ho
  obtain ⟨-, hc⟩ := (checkOp_collective_iff hk).mp (hp.checkOp_of_isLive hv ho)
  obtain ⟨hfits, operand, mesh, outMesh, hs, hm, hm', hsame, hc⟩ := checkCollective_eq_ok_iff.mp hc
  refine ⟨operand, mesh, outMesh, hs, hm, hm', ?_⟩
  have hout : collective.out.Coherent p.meshes := Sharding.coherent_of_check hfits
  have hinput : p.input o ∈ (p.op o).operands := by simp [hwf.operands_eq (o := o) (by simp [hk, OpKind.isUnary])]
  have hoperand := hp.coherent.operandSharding hvalid how hout hinput hs
  have hb' := hbuilt collective.out List.mem_cons_self outMesh hm'
  have hb : mesh.Built := by
    rw [operandSharding] at hs
    split at hs
    case h_1 hs' =>
      cases hs
      exact hbuilt operand (by simp [hs']) mesh hm
    case h_2 =>
      split at hs <;> cases hs
      exact hbuilt collective.out List.mem_cons_self mesh hm
  exact Collective.accounts_of_check hb (apart_of_coherent hoperand hm) hb' (apart_of_coherent hout hm') hsame hc

-- A part of an axis is gathered from each of two dimensions.
def gatheredParts? : Option Program :=
  build "main" [
    .mesh "mesh" ⟨[⟨"a", 2⟩, ⟨"b", 12⟩], []⟩,
    .argument ⟨[8, 9], .f32⟩
      (some ⟨.symbol "mesh", [{ axes := [.whole "a", .sub "b" 1 2] }, { axes := [.sub "b" 4 3] }], []⟩),
    .append entry (.collective ⟨0⟩ ⟨.allGather [[.sub "b" 1 2], [.sub "b" 4 3]],
      ⟨.symbol "mesh", [{ axes := [.whole "a"] }, {}], []⟩⟩),
    .append entry (.terminator [⟨1⟩])]

theorem verify_accounts_gatheredParts :
    let p := gatheredParts?.get (by rfl)
    let collective : Collective := ⟨.allGather [[.sub "b" 1 2], [.sub "b" 4 3]],
      ⟨.symbol "mesh", [{ axes := [.whole "a"] }, {}], []⟩⟩
    let mesh : Mesh := ⟨[⟨"a", 2⟩, ⟨"b", 12⟩], []⟩
    p.Reachable ∧ p.verify = .ok () ∧ p.isLive ⟨0⟩ ∧ (p.op ⟨0⟩).kind = .collective collective ∧
      ∃ operand total outTotal, p.sharding ⟨0⟩ = some operand ∧ operand.totalShards mesh = .ok total ∧
        collective.out.totalShards mesh = .ok outTotal ∧ total = outTotal * (2 * 3) ∧ outTotal = 2 := by
  intro p collective mesh
  have hp : p.Reachable := build_reachable (Option.some_get _).symm
  have hv : p.verify = .ok () := by rfl
  have ho : p.isLive ⟨0⟩ := by rfl
  have hk : (p.op ⟨0⟩).kind = .collective collective := by rfl
  let s : Sharding := ⟨.symbol "mesh", [{ axes := [.whole "a", .sub "b" 1 2] }, { axes := [.sub "b" 4 3] }], []⟩
  have hs : p.sharding (p.input ⟨0⟩) = some s := by rfl
  have hm : p.meshes.resolve (.symbol "mesh") = .ok mesh := by rfl
  have hbuilt (t : Sharding) (ht : t ∈ collective.out :: (p.sharding (p.input ⟨0⟩)).toList) (other : Mesh)
      (hr : p.meshes.resolve t.mesh = .ok other) : other.Built := by
    rw [hs] at ht
    have htm : t.mesh = .symbol "mesh" := by
      obtain rfl | rfl : t = collective.out ∨ t = s := by simpa using ht
      · rfl
      · rfl
    cases hm.symm.trans (htm ▸ hr)
    rfl
  obtain ⟨operand, other, outMesh, hoperand, hmesh, houtMesh, total, outTotal, ht, ht', heq⟩ :=
    verify_accounts hp hv ho hk hbuilt
  have hfound : p.operandSharding collective (p.input ⟨0⟩) = .ok s := by rfl
  cases hfound.symm.trans hoperand
  cases hm.symm.trans hmesh
  cases hm.symm.trans houtMesh
  have hout : collective.out.totalShards mesh = .ok 2 := by rfl
  exact ⟨hp, hv, ho, hk, s, total, outTotal, hs, ht, ht', heq, Except.ok.inj (ht'.symm.trans hout)⟩

end Program

end MeshSharding
