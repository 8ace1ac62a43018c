import MeshSharding.Proofs.Verify.Regular

namespace MeshSharding

namespace Sharding

variable {operand produced : Sharding} {axes : List (List AxisRef)}

theorem gatherDims_empty {dims : List DimSharding} (hl : axes.length = dims.length)
    (h : ∀ list ∈ axes, list = []) (index : Nat) : gatherDims index (dims.zip axes) = .ok dims := by
  induction dims generalizing axes index with
  | nil => rfl
  | cons dim dims ih =>
    obtain ⟨list, axes, rfl⟩ := List.exists_cons_of_length_eq_add_one hl
    rw [List.forall_mem_cons] at h
    have hd : dropSuffix? list dim.axes = some dim.axes := by simp [dropSuffix?_eq_some_iff, h.left]
    have hrest := ih (by simpa using hl) h.right (index + 1)
    simp [gatherDims, hd, hrest, bind, Except.bind, pure, Except.pure, DimSharding.withAxes]

theorem dimAxes_of_allGather (h : ∀ list ∈ axes, list = []) (hs : operand.allGather axes = .ok produced) :
    produced.dimAxes = operand.dimAxes := by
  simp only [allGather, bind_eq_ok_iff, exists_require_eq_ok_iff] at hs
  obtain ⟨hl, dims, hd, hp⟩ := hs
  cases (gatherDims_empty hl h 0).symm.trans hd
  cases hp
  rfl

theorem dimAxes_of_allSlice (h : ∀ list ∈ axes, list = []) (hs : operand.allSlice axes = .ok produced) :
    produced.dimAxes = operand.dimAxes := by
  simp only [allSlice, bind_eq_ok_iff, exists_require_eq_ok_iff] at hs
  obtain ⟨hl, _, _, hp⟩ := hs
  cases hp
  apply List.ext_getElem? fun i => ?_
  simp only [dimAxes, withReplicated, withDims, List.getElem?_map, List.getElem?_zipWith]
  have hi : i < axes.length ↔ i < operand.dims.length := by rw [hl, rank]
  cases hd : operand.dims[i]? with
  | none => simp
  | some dim =>
    have hlt := hi.mpr (List.getElem?_eq_some_iff.mp hd).choose
    simp [List.getElem?_eq_getElem hlt, h _ (List.getElem_mem hlt), DimSharding.withAxes]

end Sharding

namespace Collective

variable {collective : Collective} {operand : Sharding} {mesh outMesh : Mesh}

-- A collective that does nothing declares that the dimensions are split as those of the operand.
theorem dimAxes_of_isIdentityOn (h : collective.isIdentityOn operand)
    (hc : collective.check operand mesh outMesh = .ok ()) : operand.dimAxes = collective.out.dimAxes := by
  have hempty {axes : List (List AxisRef)} (h : axes.all (·.isEmpty)) : ∀ list ∈ axes, list = [] := by
    simpa using h
  simp only [isIdentityOn] at h
  simp only [check] at hc
  cases ha : collective.action with
  | allGather axes =>
    simp only [ha, Sharding.declared_eq_ok_iff] at h hc
    obtain ⟨produced, hp, hd⟩ := hc
    rw [← hd, Sharding.dimAxes_of_allGather (hempty h) hp]
  | allSlice axes =>
    simp only [ha, Sharding.declared_eq_ok_iff] at h hc
    obtain ⟨produced, hp, hd⟩ := hc
    rw [← hd, Sharding.dimAxes_of_allSlice (hempty h) hp]
  | reduceScatter axes =>
    simp only [ha, Sharding.declared_eq_ok_iff] at h hc
    obtain ⟨produced, hp, hd⟩ := hc
    simp only [Sharding.reduceScatter, check_bind_eq_ok_iff] at hp
    rw [← hd, Sharding.dimAxes_of_allSlice (hempty h) hp.right.right]
  | allToAll moves => simp [ha] at h
  | collectivePermute =>
    simp only [ha, Bool.and_eq_true, Sharding.splitsLike, decide_eq_true_eq] at h
    exact h.right
  | allReduce axes =>
    simp only [ha, Sharding.checkReduce, bind_eq_ok_iff, require_eq_ok_iff, Sharding.splitsLike,
      decide_eq_true_eq] at hc
    obtain ⟨_, _, _, _, _, _, _, _, hd⟩ := hc
    exact hd

end Collective

namespace Program

variable {p q : Program} {o u : OpId} {v w : ValueId} {collective : Collective}

section Handed

variable (hp : p.Regular)
include hp

omit hp in
-- A collective that does nothing hands on how its operand is split and, up to its name, the mesh.
theorem Settles.of_isIdentityOn {operand : Sharding} (hc : p.Settles collective v)
    (ho : p.operandSharding collective v = .ok operand) (hi : collective.isIdentityOn operand) :
    p.meshes.resolve operand.mesh = p.meshes.resolve collective.out.mesh ∧
      operand.dimAxes = collective.out.dimAxes := by
  obtain ⟨_, _, mesh, outMesh, hop, hmesh, hout, hsame, hc⟩ := hc
  cases ho.symm.trans hop
  have hi' : collective.isIdentityOn (operand.withReplicated []) := hi
  have hd : (operand.withReplicated []).dimAxes = _ := Collective.dimAxes_of_isIdentityOn hi' hc
  refine ⟨?_, hd⟩
  obtain hd | hm := hsame
  · have hmesh : operand.mesh = collective.out.mesh := by
      simp only [Collective.allowsDifferentMeshes] at hd
      simp only [Collective.isIdentityOn] at hi
      split at hd <;> simp_all
    rw [hmesh]
  · rw [hmesh, hout, hm]

theorem Regular.settles_of_identity {handing : Collective} {operand : Sharding} (ho : o ∈ p.walk)
    (hk : (p.op o).kind = .collective handing) (hs : p.sharding (p.input o) = some operand)
    (hi : handing.isIdentityOn operand) (hc : p.Settles collective (p.output o)) :
    p.Settles collective (p.input o) := by
  have ht : (p.op o).kind.isTransparent := by
    rw [hk]
    exact Collective.isTransparent_of_isIdentityOn hi
  have hch : p.Settles handing (p.input o) := by
    have := hp.valid.checks o ho
    simp only [Checked, hk] at this
    exact this.right
  obtain ⟨hr, hd⟩ := hch.of_isIdentityOn (operandSharding_of_some hs) hi
  refine hc.congr rfl (hp.typeOf_eq ho ht) (operandSharding_of_some ?_) (operandSharding_of_some hs) hr hd
  simp [hp.sharding_output ht, shardingOfResult, hk]

-- Without a sharding, the operand counts as fully replicated on the mesh that each user declares.
theorem Regular.settles_of_missing {handing : Collective} (ho : o ∈ p.walk)
    (hk : (p.op o).kind = .collective handing) (hs : p.sharding (p.input o) = none)
    (ha : handing.allowsMissingOperand)
    (hi : handing.isIdentityOn
      (Sharding.fullyReplicated handing.out.mesh (p.typeOf (p.input o)).rank))
    (ha' : collective.allowsMissingOperand) (hc : p.Settles collective (p.output o)) :
    p.Settles collective (p.input o) := by
  have ht : (p.op o).kind.isTransparent := by
    rw [hk]
    exact Collective.isTransparent_of_isIdentityOn hi
  have hop := operandSharding_of_missing hs ha
  have hch : p.Settles handing (p.input o) := by
    have := hp.valid.checks o ho
    simp only [Checked, hk] at this
    exact this.right
  obtain ⟨_, hd⟩ := hch.of_isIdentityOn hop hi
  have hout : p.operandSharding collective (p.output o) = .ok handing.out := by
    refine operandSharding_of_some ?_
    simp [hp.sharding_output ht, shardingOfResult, hk]
  have hr : p.meshes.resolve collective.out.mesh = p.meshes.resolve handing.out.mesh := by
    obtain ⟨_, _, mesh, outMesh, hop, hmesh, hres, hsame, _⟩ := id hc
    cases hout.symm.trans hop
    have hdifferent := Collective.allowsDifferentMeshes_of_allowsMissingOperand ha'
    simp only [hdifferent, Bool.false_eq_true, false_or] at hsame
    rw [hmesh, hres, hsame]
  exact hc.congr rfl (hp.typeOf_eq ho ht) hout (operandSharding_of_missing hs ha') hr hd

end Handed

section Steps

theorem Regular.simplifyOp (hp : p.Regular) (ho : o ∈ p.walk) (h : p.simplifyOp o = some q) :
    q.Regular ∧ ∀ u, p.Held u → q.Held u := by
  have hs := hp.valid.sound
  simp only [Program.simplifyOp, Option.map_eq_some_iff] at h
  obtain ⟨simplification, h, rfl⟩ := h
  have hbypass (ht : (p.op o).kind.isTransparent) (he : (p.op o).kind.isEdge = false)
      (hset : ∀ u ∈ p.walk, p.input u = p.output o → ∀ collective,
        (p.op u).kind = .collective collective → p.Settles collective (p.output o) →
          p.Settles collective (p.input o)) :
      (p.bypass o).Regular ∧ ∀ u, p.Held u → (p.bypass o).Held u :=
    ⟨hp.bypass ho ht hset fun v _ => by rw [hp.sharding_bypass ho ht he], fun u hu => hu.bypass hp ho ht⟩
  cases simplification?_simplifies h with
  | identity hk hsh hi =>
    have ht : (p.op o).kind.isTransparent := by
      rw [hk]
      exact Collective.isTransparent_of_isIdentityOn hi
    refine hbypass ht (by simp [hk, OpKind.isEdge]) fun u _ _ collective _ hc => ?_
    exact hp.settles_of_identity ho hk hsh hi hc
  | missing hk hsh ha husers hi =>
    have ht : (p.op o).kind.isTransparent := by
      rw [hk]
      exact Collective.isTransparent_of_isIdentityOn hi
    refine hbypass ht (by simp [hk, OpKind.isEdge]) fun u hu hi' collective hk' hc => ?_
    refine hp.settles_of_missing ho hk hsh ha hi ?_ hc
    -- The user is among those that were asked.
    have huse : ⟨u, 0⟩ ∈ p.uses (p.output o) := by
      refine hs.wellFormed.mem_uses_iff.mpr ⟨hs.wellFormed.isLive_of_mem_walk hs.rooted hu, ?_⟩
      simp [hs.wellFormed.operands_eq (o := u) (by simp [hk', OpKind.isUnary]), hi']
    simp only [usersAllowMissing, List.all_eq_true] at husers
    simpa [hk'] using husers _ huse
  | satisfied hk hsat =>
    have ht : (p.op o).kind.isTransparent := by simp [hk, OpKind.isTransparent]
    refine hbypass ht (by simp [hk, OpKind.isEdge]) fun u _ _ collective _ hc => ?_
    refine hp.settles_of_satisfies ho ht ?_ hsat hc
    simp [hp.sharding_output ht, shardingOfResult, hk]
  | unused hk hu =>
    have ht : (p.op o).kind.isTransparent := by simp [hk, OpKind.isTransparent]
    have hunary := OpKind.isUnary_of_isTransparent ht
    have hr := hs.wellFormed.regions_eq_nil (OpKind.takesRegions_of_isUnary hunary)
    have hcore : (p.op o).kind.isCore = false := by simp [OpKind.isCore, ht]
    refine ⟨hp.erase ho hr hcore (by simp [hk, OpKind.isEdge]) fun u huw v hv => ?_,
      fun u h => h.erase hs.wellFormed hr hcore⟩
    rw [hs.wellFormed.results_eq hunary, List.mem_singleton]
    rintro rfl
    exact hs.wellFormed.unused_of_hasUses hs.rooted hu huw hv
  | @chain _ _ inner hk hd hki =>
    have ht : (p.op inner).kind.isTransparent := by simp [hki, OpKind.isTransparent]
    have hunary : (p.op o).kind.isUnary := by simp [hk, OpKind.isUnary]
    have hi := hs.wellFormed.eq_output_of_definer? (hs.wellFormed.input_lt hunary) hd
      (OpKind.isUnary_of_isTransparent ht)
    have hz : (p.op o).operands[0]? = some (p.output inner) := by
      simp [hs.wellFormed.operands_eq hunary, hi]
    have hm : ∀ use ∈ [(⟨o, 0⟩ : Use)], (p.op use.user).operands[use.index]? = some (p.output inner) := by
      simpa using hz
    obtain ⟨hinner, _⟩ := hs.inScope_behind ht ho (List.mem_of_getElem? hz)
    rw [applySimplification, setOperand_eq hz]
    refine ⟨hp.redirect hinner ht (by simp [hki, OpKind.isEdge]) hm (by simp) ?_, fun u hu => ?_⟩
    · -- A change of sharding is no collective.
      intro u _ hu collective hk'
      simp only [List.mem_singleton, Use.mk.injEq, and_true] at hu
      simp [hu, hk] at hk'
    · exact hu.redirect hs.wellFormed
        (hs.wellFormed.input_lt (OpKind.isUnary_of_isTransparent ht)) hm (by simp)

-- A round goes over the operations that the program had at its start.
theorem Regular.simplifyRound (hp : p.Regular) : (applyWhere Program.simplifyOp p false p.walk).1.Regular := by
  have h : p.Regular ∧ ∀ o ∈ p.walk, p.Held o := ⟨hp, fun _ ho => .inl ho⟩
  refine And.left (applyWhere_keeps (P := fun q => q.Regular ∧ ∀ o ∈ p.walk, q.Held o) ?_ h false)
  intro q r o ho hs ⟨hq, hheld⟩
  obtain hw | he := hheld o ho
  · obtain ⟨hr, hk⟩ := hq.simplifyOp hw hs
    exact ⟨hr, fun u hu => hk u (hheld u hu)⟩
  · simp [Program.simplifyOp, simplification?, he] at hs

theorem Regular.simplify (hp : p.Regular) : p.simplify.1.Regular :=
  simplifyRounds_keeps (P := Regular) (fun _ hq => hq.simplifyRound) hp _ _

end Steps

-- All that can be wrong with a program after simplifying is a reduction with an operand that declares
-- one of its axes replicated.
theorem simplify_verify_iff (hp : p.Reachable) (hv : p.verify = .ok ()) (he : p.EdgesOwned) :
    p.simplify.1.verify = .ok () ↔ p.simplify.1.ReductionsFree :=
  (hp.wellFormed.regular_of_verify hv he).simplify.verify_iff

-- An argument that declares an axis replicated is resharded before a reduction over this axis.
def reshardedReduction? : Option Program :=
  let type : TensorType := ⟨[8], .f32⟩
  build "main" [
    .mesh "mesh" { axes := [⟨"a", 2⟩] },
    .argument type (some ⟨.symbol "mesh", [{}], [⟨"a", none⟩]⟩),
    .append entry (.reshard ⟨0⟩ ⟨.symbol "mesh", [{}], []⟩),
    .append entry (.collective ⟨1⟩ ⟨.allReduce [⟨"a", none⟩], ⟨.symbol "mesh", [{}], []⟩⟩),
    .append entry (.terminator [⟨2⟩])]

def reshardedReduction : Program :=
  reshardedReduction?.get (by rfl)

theorem simplify_verify_not_reshardedReduction :
    let p := reshardedReduction
    p.verify = .ok () ∧ p.simplify.2 = true ∧
      p.simplify.1.verify = .error
        ⟨.operation ⟨1⟩ "sdy.all_reduce", .reductionAxisInUse ⟨"a", none⟩ .operandReplicated⟩ :=
  ⟨by rfl, by rfl, by rfl⟩

theorem simplify_verify_iff_reshardedReduction :
    let p := reshardedReduction
    p.Reachable ∧ p.verify = .ok () ∧ p.EdgesOwned ∧
      (p.simplify.1.verify = .ok () ↔ p.simplify.1.ReductionsFree) := by
  have hp : reshardedReduction.Reachable := build_reachable (Option.some_get _).symm
  have hv : reshardedReduction.verify = .ok () := by rfl
  have he : reshardedReduction.EdgesOwned := by
    intro e he hk
    have hnone : ∀ op ∈ reshardedReduction.operations, op.kind.isEdge = false := by decide
    simp [hnone _ (op_mem_of_not_erased he)] at hk
  exact ⟨hp, hv, he, simplify_verify_iff hp hv he⟩

end Program

end MeshSharding
