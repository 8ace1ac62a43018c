import MeshSharding.Proofs.Edit.Redirect
import MeshSharding.Proofs.Flow.Keeps
import MeshSharding.Proofs.Verify.Groups

namespace MeshSharding.Program

-- The collective is satisfied with its operand, if the replicated axes of this are left aside.
def Settles (p : Program) (collective : Collective) (v : ValueId) : Prop :=
  p.checkFits collective.out v = .ok () ∧ ∃ operand mesh outMesh,
    p.operandSharding collective v = .ok operand ∧ p.meshes.resolve operand.mesh = .ok mesh ∧
    p.meshes.resolve collective.out.mesh = .ok outMesh ∧
    (collective.allowsDifferentMeshes ∨ mesh = outMesh) ∧
    collective.check (operand.withReplicated []) mesh outMesh = .ok ()

-- The operation obeys its own rules, if those for reductions are left aside.
def Checked (p : Program) (o : OpId) : Prop :=
  match (p.op o).kind with
  | .collective collective =>
    p.checkUnary (p.op o) = .ok (p.input o) ∧ p.Settles collective (p.input o)
  | _ => p.checkOp o = .ok ()

-- No operand of a reduction declares an axis of it replicated.
def ReductionsFree (p : Program) : Prop :=
  ∀ o ∈ p.walk, ∀ collective, (p.op o).kind = .collective collective →
    ∀ s, p.sharding (p.input o) = some s →
      ∀ axis ∈ collective.reducedAxes, ¬ AxisRef.anyOverlaps s.replicated axis

-- An edge operation is the only user of its owner.
def EdgesAlone (p : Program) : Prop :=
  ∀ e ∈ p.walk, (p.op e).kind.isEdge → ∀ use : Use, p.isLive use.user →
    (p.op use.user).operands[use.index]? = some (p.input e) → use = ⟨e, 0⟩

-- All other rules.
structure Valid (p : Program) : Prop where
  sound       : p.Sound
  shallow     : ∀ n b, p.Below entry n b → n < p.blocks.length
  body        : (p.terminator? entry).isSome
  terminators : ∀ b ∈ p.nested, ∀ o ∈ (p.block b).operations,
    (p.op o).kind.isTerminator ↔ (p.block b).operations.getLast? = some o
  checks      : ∀ o ∈ p.walk, p.Checked o
  groups      : ∀ first ∈ p.groupEntries, ∀ entry ∈ p.groupEntries, first.id = entry.id →
    p.manualAround? first.value = p.manualAround? entry.value
  stored      : ∀ v s, p.storedSharding v = some s →
    (∀ o, p.definer? v = some o → (p.op o).erased = false) → p.checkFits s v = .ok ()

variable {p q : Program} {o u : OpId} {v w : ValueId} {b c : BlockId} {depth : Nat}
  {collective : Collective}

section Collective

theorem checkCollective_iff : p.checkCollective collective v = .ok () ↔ p.Settles collective v ∧
    ∀ s, p.sharding v = some s →
      ∀ axis ∈ collective.reducedAxes, ¬ AxisRef.anyOverlaps s.replicated axis := by
  have hd (operand : Sharding) : (operand.withReplicated []).dimAxes = operand.dimAxes := rfl
  rw [checkCollective_eq_ok_iff]
  constructor
  · rintro ⟨hf, operand, mesh, outMesh, ho, hm, hout, hsame, hc⟩
    refine ⟨⟨hf, operand, mesh, outMesh, ho, hm, hout, hsame, ?_⟩, fun s hs => ?_⟩
    · exact Collective.check_congr (hd operand)
        (by simp [Sharding.withReplicated, AxisRef.anyOverlaps]) hc
    · simp only [operandSharding, hs, Except.ok.injEq] at ho
      subst ho
      exact fun axis ha => (Sharding.checkFree_eq_ok_iff.mp (Collective.checkFree_of_check hc) axis ha).right
  · rintro ⟨⟨hf, operand, mesh, outMesh, ho, hm, hout, hsame, hc⟩, hfree⟩
    refine ⟨hf, operand, mesh, outMesh, ho, hm, hout, hsame,
      Collective.check_congr (hd operand).symm ?_ hc⟩
    simp only [operandSharding] at ho
    cases hs : p.sharding v with
    | some s =>
      simp only [hs, Except.ok.injEq] at ho
      exact ho ▸ hfree s hs
    | none =>
      simp only [hs] at ho
      split at ho <;> cases ho
      simp [Sharding.fullyReplicated, AxisRef.anyOverlaps]

theorem checkOp_iff : p.checkOp o = .ok () ↔ p.Checked o ∧
    ∀ collective, (p.op o).kind = .collective collective → ∀ s, p.sharding (p.input o) = some s →
      ∀ axis ∈ collective.reducedAxes, ¬ AxisRef.anyOverlaps s.replicated axis := by
  by_cases hk : ∃ collective, (p.op o).kind = .collective collective
  case pos =>
    obtain ⟨collective, hk⟩ := hk
    rw [checkOp_collective_iff hk, checkCollective_iff, Checked, hk]
    constructor
    · rintro ⟨hu, hs, hf⟩
      refine ⟨⟨hu, hs⟩, fun other ho => ?_⟩
      cases ho
      exact hf
    · exact fun ⟨⟨hu, hs⟩, hf⟩ => ⟨hu, hs, hf collective rfl⟩
  case neg =>
    have hc : p.Checked o ↔ p.checkOp o = .ok () := by
      rw [Checked]
      split
      case _ collective h => exact absurd ⟨collective, h⟩ hk
      case _ => rfl
    rw [hc]
    exact ⟨fun h => ⟨h, fun collective h => absurd ⟨collective, h⟩ hk⟩, fun h => h.left⟩

end Collective

section Blocks

theorem attach_eq_ok_iff {α : Type} {location : Location} {checked : Except Error α} {a : α} :
    location.attach checked = .ok a ↔ checked = .ok a := by
  cases checked <;> simp [Location.attach, Except.mapError]

theorem verifyOp_eq_ok_iff {visible : List ValueId} {last : Bool} :
    p.verifyOp visible last o = .ok () ↔
      (p.op o).operands ⊆ visible ∧ (p.op o).kind.isTerminator = last ∧ p.checkOp o = .ok () := by
  simp only [verifyOp, attach_eq_ok_iff, check_bind_eq_ok_iff, require_eq_ok_iff]
  cases hf : (p.op o).operands.find? fun v => !visible.contains v with
  | none =>
    have hv : (p.op o).operands ⊆ visible := fun v hv => by simpa using List.find?_eq_none.mp hf v hv
    simp [hv]
  | some v =>
    have he : (throw (.valueNotInScope v) >>= fun _ : Unit => p.checkOp o) ≠ .ok () := by
      simp [throw, throwThe, MonadExceptOf.throw, bind, Except.bind]
    refine iff_of_false (fun h => he h.right) fun h => ?_
    have hv := List.find?_some hf
    simp [h.left (List.mem_of_find?_eq_some hf)] at hv

-- An operation by itself, whatever it sees.
def Orderly (p : Program) (o : OpId) (last : Bool) : Prop :=
  (p.op o).kind.isTerminator = last ∧ p.checkOp o = .ok ()

theorem verifyOps_iff {region : List ValueId → BlockId → Except Diagnostic Unit}
    {visible : List ValueId} {os : List OpId} : p.verifyOps region visible os = .ok () ↔
      p.scopedOps (fun outer b => region outer b = .ok ()) visible os ∧
        ∀ before o after, os = before ++ o :: after → p.Orderly o after.isEmpty := by
  induction os generalizing visible with
  | nil => simp [verifyOps, scopedOps]
  | cons u os ih =>
    simp only [verifyOps, scopedOps, check_bind_eq_ok_iff, verifyOp_eq_ok_iff, forM_eq_ok_iff, ih]
    constructor
    · rintro ⟨⟨hv, ho⟩, hr, hs, h⟩
      refine ⟨⟨hv, hr, hs⟩, fun before o after he => ?_⟩
      cases before with
      | nil =>
        cases he
        exact ho
      | cons w before =>
        cases he
        exact h before o after rfl
    · rintro ⟨⟨hv, hr, hs⟩, h⟩
      exact ⟨⟨hv, h [] u os rfl⟩, hr, hs, fun before o after he => h (u :: before) o after (by simp [he])⟩

theorem scopedOps_and {rule : List ValueId → BlockId → Prop} {other : BlockId → Prop}
    {visible : List ValueId} {os : List OpId} :
    p.scopedOps (fun outer b => rule outer b ∧ other b) visible os ↔
      p.scopedOps rule visible os ∧ ∀ o ∈ os, ∀ b ∈ (p.op o).regions, other b := by
  induction os generalizing visible with
  | nil => simp [scopedOps]
  | cons u os ih =>
    simp only [scopedOps, ih, List.forall_mem_cons]
    constructor
    · rintro ⟨hv, hr, hs, h⟩
      exact ⟨⟨hv, fun b hb => (hr b hb).left, hs⟩, fun b hb => (hr b hb).right, h⟩
    · rintro ⟨⟨hv, hr, hs⟩, ho, h⟩
      exact ⟨hv, fun b hb => ⟨hr b hb, ho b hb⟩, hs, h⟩

-- The rules for a block are the one about scopes, and others that hold in each block for itself.
theorem verifyBlock_iff {outer : List ValueId} : p.verifyBlock depth outer b = .ok () ↔
    p.scopedBlock depth outer b ∧ ∀ n c, p.Below b n c → n < depth ∧
      ∀ before o after, (p.block c).operations = before ++ o :: after → p.Orderly o after.isEmpty := by
  induction depth generalizing outer b with
  | zero =>
    refine iff_of_false (by simp [verifyBlock]) fun h => ?_
    exact absurd (h.right 0 b .here).left (Nat.not_lt_zero 0)
  | succ depth ih =>
    simp only [verifyBlock, verifyOps_iff, scopedBlock, ih, scopedOps_and]
    constructor
    · rintro ⟨⟨hs, hr⟩, ho⟩
      refine ⟨hs, fun n c hc => ?_⟩
      cases n with
      | zero =>
        cases hc
        exact ⟨Nat.succ_pos depth, ho⟩
      | succ n =>
        obtain ⟨o, hm, d, hd, hc⟩ := hc.exists_head
        obtain ⟨hn, h⟩ := hr o hm d hd n c hc
        exact ⟨Nat.succ_lt_succ hn, h⟩
    · rintro ⟨hs, h⟩
      refine ⟨⟨hs, fun o hm d hd n c hc => ?_⟩, (h 0 b .here).right⟩
      obtain ⟨hn, h⟩ := h (n + 1) c (hc.head hm hd)
      exact ⟨Nat.lt_of_succ_lt_succ hn, h⟩

end Blocks

section Program

-- A program in which nesting is not followed beyond its depth has no way from the body back to it.
theorem WellFormed.rooted_of_shallow (hp : p.WellFormed)
    (h : ∀ n b, p.Below entry n b → n < p.blocks.length) : p.Rooted := by
  refine hp.rooted_of_not_below fun n hcycle => ?_
  have hround (m : Nat) : p.Below entry (m * (n + 1)) entry := by
    induction m with
    | zero      => simpa using .here
    | succ m ih =>
      rw [Nat.succ_mul]
      exact ih.trans hcycle
  exact absurd (h _ _ (hround p.blocks.length))
    (Nat.not_lt.mpr (Nat.le_mul_of_pos_right _ (Nat.succ_pos n)))

theorem getLast?_append_cons_iff {before after : List OpId} (h : (before ++ o :: after).Nodup) :
    (before ++ o :: after).getLast? = some o ↔ after = [] := by
  constructor
  · intro hl
    by_contra hn
    obtain ⟨rest, u, rfl⟩ := (List.eq_nil_or_concat' after).resolve_left hn
    rw [← List.cons_append, ← List.append_assoc, List.getLast?_concat, Option.some.injEq] at hl
    subst hl
    simp [List.nodup_append] at h
  · rintro rfl
    simp

theorem verifyEdge_eq_ok_iff : p.verifyEdge o = .ok () ↔
    ((p.op o).kind.isEdge → p.uses (p.input o) = [⟨o, 0⟩]) := by
  simp only [verifyEdge, attach_eq_ok_iff, require_eq_ok_iff]

theorem verifyStored_eq_ok_iff : p.verifyStored v = .ok () ↔ ∀ s, p.storedSharding v = some s →
    (∀ o, p.definer? v = some o → (p.op o).erased = false) → p.checkFits s v = .ok () := by
  simp only [verifyStored]
  cases hs : p.storedSharding v with
  | none => simp
  | some s =>
    simp only [Option.some.injEq, forall_eq']
    cases hd : p.definer? v with
    | none => simp [attach_eq_ok_iff]
    | some o =>
      cases he : (p.op o).erased <;> simp [he, attach_eq_ok_iff]

theorem WellFormed.mem_uses_iff (hp : p.WellFormed) {use : Use} : use ∈ p.uses v ↔
    p.isLive use.user ∧ (p.op use.user).operands[use.index]? = some v := by
  rw [Program.uses, List.mem_filter, and_comm]
  refine and_congr_right fun hl => ⟨fun hu => hp.operand_of_use hu (erased_of_isLive hl), fun hu => ?_⟩
  exact hp.use_of_operand hu (erased_of_isLive hl)

theorem WellFormed.uses_nodup (hp : p.WellFormed) (v : ValueId) : (p.uses v).Nodup := by
  simpa [Program.uses, movable] using hp.movable_nodup v none

theorem WellFormed.uses_eq_singleton_iff (hp : p.WellFormed) (hl : p.isLive o)
    (ho : (p.op o).operands[0]? = some v) : p.uses v = [⟨o, 0⟩] ↔
      ∀ use : Use, p.isLive use.user → (p.op use.user).operands[use.index]? = some v → use = ⟨o, 0⟩ := by
  constructor
  · intro h use hu hv
    have hm := hp.mem_uses_iff.mpr ⟨hu, hv⟩
    simpa [h] using hm
  · intro h
    have hs : p.uses v ⊆ [⟨o, 0⟩] := fun use hu =>
      List.mem_singleton.mpr (h use (hp.mem_uses_iff.mp hu).left (hp.mem_uses_iff.mp hu).right)
    have hm : (⟨o, 0⟩ : Use) ∈ p.uses v := hp.mem_uses_iff.mpr ⟨hl, ho⟩
    exact (List.perm_singleton.mp (((hp.uses_nodup v).subperm hs).antisymm (List.singleton_subperm_iff.mpr hm)))

theorem verify_eq_ok_iff : p.verify = .ok () ↔ (p.terminator? entry).isSome ∧
    p.verifyBlock p.blocks.length [] entry = .ok () ∧
    (∀ o ∈ p.walk, (p.op o).kind.isEdge → p.uses (p.input o) = [⟨o, 0⟩]) ∧
    (∃ groups, p.groups = .ok groups) ∧
    ∀ v, v.index < p.values.length → p.verifyStored v = .ok () := by
  have hv : (∀ v ∈ (List.range p.values.length).map ValueId.mk, p.verifyStored v = .ok ()) ↔
      ∀ v, v.index < p.values.length → p.verifyStored v = .ok () := by
    simp only [List.forall_mem_map, List.mem_range]
    exact ⟨fun h v hv => h v.index hv, fun h i hi => h ⟨i⟩ hi⟩
  rw [verify, check_bind_eq_ok_iff, attach_eq_ok_iff, require_eq_ok_iff, check_bind_eq_ok_iff,
    check_bind_eq_ok_iff, forM_eq_ok_iff, bind_eq_ok_iff, exists_and_right, forM_eq_ok_iff, hv]
  simp only [verifyEdge_eq_ok_iff]

theorem below_mem_nested (h : ∀ n b, p.Below entry n b → n < p.blocks.length) :
    (∃ n, p.Below entry n b) ↔ b ∈ p.nested := by
  rw [mem_nested_iff]
  exact ⟨fun ⟨n, hn⟩ => ⟨n, h n b hn, hn⟩, fun ⟨n, _, hn⟩ => ⟨n, hn⟩⟩

-- The rules that each operation obeys where it stands, one at a time.
theorem WellFormed.orderly_iff (hp : p.WellFormed) :
    (∀ before o after, (p.block b).operations = before ++ o :: after → p.Orderly o after.isEmpty) ↔
      (∀ o ∈ (p.block b).operations,
        ((p.op o).kind.isTerminator ↔ (p.block b).operations.getLast? = some o) ∧ p.checkOp o = .ok ()) := by
  have hlast : ∀ before o after, (p.block b).operations = before ++ o :: after →
      (after.isEmpty ↔ (p.block b).operations.getLast? = some o) := by
    intro before o after h
    have hn := hp.nodup b
    rw [h] at hn ⊢
    rw [getLast?_append_cons_iff hn, List.isEmpty_iff]
  constructor
  · intro h o ho
    obtain ⟨before, after, hs⟩ := List.append_of_mem ho
    obtain ⟨ht, hc⟩ := h before o after hs
    exact ⟨by rw [ht, hlast before o after hs], hc⟩
  · intro h before o after hs
    obtain ⟨ht, hc⟩ := h o (by simp [hs])
    exact ⟨Bool.eq_iff_iff.mpr (ht.trans (hlast before o after hs).symm), hc⟩

theorem verify_iff (hp : p.WellFormed) :
    p.verify = .ok () ↔ p.Valid ∧ p.EdgesAlone ∧ p.ReductionsFree := by
  have halone (hr : p.Rooted) (hc : ∀ o ∈ p.walk, p.Checked o) : p.EdgesAlone ↔
      ∀ o ∈ p.walk, (p.op o).kind.isEdge → p.uses (p.input o) = [⟨o, 0⟩] := by
    refine forall₂_congr fun o ho => forall_congr' fun hk => ?_
    rw [hp.uses_eq_singleton_iff (hp.isLive_of_mem_walk hr ho)]
    simp [hp.operands_eq (OpKind.isUnary_of_isEdge hk)]
  have hstored : (∀ v s, p.storedSharding v = some s →
      (∀ o, p.definer? v = some o → (p.op o).erased = false) → p.checkFits s v = .ok ()) ↔
        ∀ v, v.index < p.values.length → p.verifyStored v = .ok () := by
    simp only [verifyStored_eq_ok_iff]
    refine ⟨fun h v _ => h v, fun h v s hs => ?_⟩
    by_cases hv : v.index < p.values.length
    · exact h v hv s hs
    · simp [storedSharding, value_of_length_le (Nat.le_of_not_lt hv)] at hs
  have hfree : (∀ o ∈ p.walk, p.checkOp o = .ok ()) ↔ (∀ o ∈ p.walk, p.Checked o) ∧ p.ReductionsFree := by
    simp only [checkOp_iff, ReductionsFree, forall₂_and]
  rw [verify_eq_ok_iff, verifyBlock_iff, groups_ok_iff, ← hstored]
  simp only [hp.orderly_iff]
  constructor
  · rintro ⟨hbody, ⟨hscope, hblocks⟩, hedges, hgroups, hstored⟩
    have hshallow : ∀ n b, p.Below entry n b → n < p.blocks.length := fun n b h => (hblocks n b h).left
    have hr := hp.rooted_of_shallow hshallow
    have hops : ∀ b ∈ p.nested, ∀ o ∈ (p.block b).operations,
        ((p.op o).kind.isTerminator ↔ (p.block b).operations.getLast? = some o) ∧
          p.checkOp o = .ok () := by
      intro b hb
      obtain ⟨n, hn⟩ := (below_mem_nested hshallow).mpr hb
      exact (hblocks n b hn).right
    obtain ⟨hc, hf⟩ := hfree.mp fun o ho => by
      obtain ⟨b, hb, hm⟩ := mem_walk_iff.mp ho
      exact (hops b hb o hm).right
    have hvalid : p.Valid := {
      sound       := ⟨hp, hr, (hp.scoped_iff hr).mp hscope⟩
      shallow     := hshallow
      body        := hbody
      terminators := fun b hb o ho => (hops b hb o ho).left
      checks      := hc
      groups      := hgroups
      stored      := hstored }
    exact ⟨hvalid, (halone hr hc).mpr hedges, hf⟩
  · rintro ⟨h, hedges, hf⟩
    refine ⟨h.body, ⟨h.sound.scoped, fun n b hb => ⟨h.shallow n b hb, fun o ho => ?_⟩⟩,
      (halone h.sound.rooted h.checks).mp hedges, h.groups, h.stored⟩
    have hb := (below_mem_nested h.shallow).mp ⟨n, hb⟩
    exact ⟨h.terminators b hb o ho, hfree.mpr ⟨h.checks, hf⟩ o (mem_walk_iff.mpr ⟨b, hb, ho⟩)⟩

end Program

end MeshSharding.Program
