import MeshSharding.Proofs.Nesting.Climb
import MeshSharding.Proofs.Verify.Retyped

namespace MeshSharding.Program

-- The rules about how blocks, scopes and groups are laid out.
structure Standing (p : Program) : Prop where
  sound       : p.Sound
  shallow     : ∀ n b, p.Below entry n b → n < p.blocks.length
  body        : (p.terminator? entry).isSome
  terminators : ∀ b ∈ p.nested, ∀ o ∈ (p.block b).operations,
    (p.op o).kind.isTerminator ↔ (p.block b).operations.getLast? = some o
  groups      : ∀ first ∈ p.groupEntries, ∀ entry ∈ p.groupEntries, first.id = entry.id →
    p.manualAround? first.value = p.manualAround? entry.value

-- The operation obeys its own rules, those apart about the sharding of an operand or an owner.
def Formed (p : Program) (o : OpId) : Prop :=
  match (p.op o).kind with
  | .collective _ => p.checkUnary (p.op o) = .ok (p.input o)
  | .edge _       => p.checkUnary (p.op o) = .ok (p.input o) ∧ p.checkEdgeOwner (p.input o) = .ok ()
  | _             => p.checkOp o = .ok ()

-- Shardings that are kept with values fit them, unless the values are results of erased operations.
def StoredFit (p : Program) : Prop :=
  ∀ v s, p.storedSharding v = some s →
    (∀ o, p.definer? v = some o → (p.op o).erased = false) → p.checkFits s v = .ok ()

-- In the program, an edge operation is the only user of its owner.
def EdgesApart (p : Program) : Prop :=
  ∀ e ∈ p.walk, (p.op e).kind.isEdge → ∀ u ∈ p.walk, ∀ i : Nat,
    (p.op u).operands[i]? = some (p.input e) → u = e ∧ i = 0

-- All rules but the two.
structure Upright (p : Program) : Prop where
  standing : p.Standing
  formed   : ∀ o ∈ p.walk, p.Formed o
  stored   : p.StoredFit
  apart    : p.EdgesApart

variable {p q : Program} {o u e : OpId} {v w : ValueId} {b c : BlockId} {keep : OpId → Bool} {n : Nat}

theorem Valid.standing (hp : p.Valid) : p.Standing :=
  ⟨hp.sound, hp.shallow, hp.body, hp.terminators, hp.groups⟩

theorem Upright.wellFormed (hp : p.Upright) : p.WellFormed :=
  hp.standing.sound.wellFormed

theorem Standing.mem_nested_of_region (hp : p.Standing) (ho : o ∈ p.walk) (hb : b ∈ (p.op o).regions) :
    b ∈ p.nested := by
  obtain ⟨c, hc, hm⟩ := mem_walk_iff.mp ho
  obtain ⟨n, _, hn⟩ := mem_nested_iff.mp hc
  have hn := hn.step hm hb
  exact mem_nested_iff.mpr ⟨_, hp.shallow _ b hn, hn⟩

theorem OpKind.isCore_of_isTerminator {kind : OpKind} (h : kind.isTerminator) : kind.isCore := by
  cases kind <;> first | rfl | contradiction

-- An operation at the end of a block ends it.
theorem Standing.not_last (hp : p.Standing) (ho : o ∈ p.walk) (hk : (p.op o).kind.isCore = false)
    (b : BlockId) : (p.block b).operations.getLast? ≠ some o := by
  intro hl
  obtain ⟨c, hc, hoc⟩ := mem_walk_iff.mp ho
  obtain rfl := hp.sound.wellFormed.member_unique hoc (List.mem_of_getLast? hl)
  simp [OpKind.isCore_of_isTerminator ((hp.terminators c hc o hoc).mpr hl)] at hk

section Rules

theorem checkOp_iff_formed : p.checkOp o = .ok () ↔ p.Formed o ∧
    (∀ collective, (p.op o).kind = .collective collective →
      p.checkCollective collective (p.input o) = .ok ()) ∧
    ∀ s, (p.op o).kind = .edge (some s) → p.checkFits s (p.input o) = .ok () := by
  have hunary {f : ValueId → Except Error Unit} : (p.checkUnary (p.op o) >>= f) = .ok () ↔
      p.checkUnary (p.op o) = .ok (p.input o) ∧ f (p.input o) = .ok () := by
    rw [bind_eq_ok_iff]
    constructor
    · rintro ⟨v, hu, hf⟩
      exact input_eq_of_checkUnary hu ▸ ⟨hu, hf⟩
    · exact fun h => ⟨_, h⟩
  cases hk : (p.op o).kind with
  | collective collective => simp [Formed, checkOp, hk, hunary]
  | edge sharding =>
    simp only [Formed, checkOp, hk, hunary, check_bind_eq_ok_iff]
    cases sharding with
    | none   => simp [pure, Except.pure]
    | some s =>
      cases hf : p.checkFits s (p.input o) <;> simp [hf, bind, Except.bind, pure, Except.pure]
  | _ => simp [Formed, checkOp, hk]

theorem EdgesAlone.apart (h : p.EdgesAlone) (hp : p.Sound) : p.EdgesApart := by
  intro e he hk u hu i hi
  have := h e he hk ⟨u, i⟩ (hp.wellFormed.isLive_of_mem_walk hp.rooted hu) hi
  simpa using this

theorem EdgesApart.alone (h : p.EdgesApart) (hp : p.Sound) (hh : p.Housed) : p.EdgesAlone := by
  rintro e he hk ⟨u, i⟩ hu hi
  have := h e he hk u ((hh.mem_walk_iff_isLive hp.wellFormed hp.rooted).mpr hu) i hi
  simpa using this

theorem Upright.of_verify (hp : p.WellFormed) (h : p.verify = .ok ()) :
    p.Upright ∧ ∀ o ∈ p.walk, p.checkOp o = .ok () := by
  obtain ⟨hv, ha, hf⟩ := (verify_iff hp).mp h
  have hc : ∀ o ∈ p.walk, p.checkOp o = .ok () := fun o ho =>
    checkOp_iff.mpr ⟨hv.checks o ho, hf o ho⟩
  exact ⟨⟨hv.standing, fun o ho => (checkOp_iff_formed.mp (hc o ho)).left, hv.stored, ha.apart hv.sound⟩, hc⟩

theorem Upright.verify_iff (hp : p.Upright) (hh : p.Housed) : p.verify = .ok () ↔ ∀ o ∈ p.walk,
    (∀ collective, (p.op o).kind = .collective collective →
      p.checkCollective collective (p.input o) = .ok ()) ∧
    ∀ s, (p.op o).kind = .edge (some s) → p.checkFits s (p.input o) = .ok () := by
  obtain ⟨hs, hf, hstored, ha⟩ := hp
  constructor
  · exact fun h o ho => (checkOp_iff_formed.mp ((Upright.of_verify hs.sound.wellFormed h).right o ho)).right
  · intro h
    have hc : ∀ o ∈ p.walk, p.checkOp o = .ok () := fun o ho => checkOp_iff_formed.mpr ⟨hf o ho, h o ho⟩
    refine (Program.verify_iff hs.sound.wellFormed).mpr ⟨?_, ha.alone hs.sound hh, ?_⟩
    · exact ⟨hs.sound, hs.shallow, hs.body, hs.terminators, fun o ho => (checkOp_iff.mp (hc o ho)).left,
        hs.groups, hstored⟩
    · exact fun o ho => (checkOp_iff.mp (hc o ho)).right

-- The operation obeys the rules if it did before, and an edge operation still stands on a result of a
-- structural operation.
theorem Retyped.formed (h : Retyped p q o) (hk : (q.op o).kind = (p.op o).kind) (hs : (p.op o).Shaped)
    (hc : p.Formed o) (he : (p.op o).kind.isEdge → p.checkEdgeOwner (p.input o) = .ok () →
      q.checkEdgeOwner (q.input o) = .ok ()) : q.Formed o := by
  cases hkind : (p.op o).kind with
  | collective _ =>
    simp only [Formed, hk, hkind] at hc ⊢
    exact (h.checkUnary hc).left
  | edge _ =>
    simp only [Formed, hk, hkind] at hc ⊢
    exact ⟨(h.checkUnary hc.left).left, he (by simp [hkind, OpKind.isEdge]) hc.right⟩
  | _ =>
    simp only [Formed, hk, hkind] at hc ⊢
    exact h.checkOp hk hs (by simp [hkind, OpKind.readsTypes]) hc

end Rules

-- An edit that keeps the types of operands and the ends of blocks. Operations that are not kept come or
-- go, and are leaves that neither end a block nor group values.
structure Recasts (keep : OpId → Bool) (p q : Program) : Prop where
  rewrites   : Rewrites keep p q
  sound      : q.Sound
  meshes     : q.meshes = p.meshes
  types      : ∀ v, v.index < p.values.length → q.typeOf v = p.typeOf v
  enclosing  : q.enclosingManual? = p.enclosingManual?
  last       : ∀ b, (q.block b).operations.getLast? = (p.block b).operations.getLast?
  terminator : ∀ o, keep o → (q.op o).kind.isTerminator = (p.op o).kind.isTerminator
  group      : ∀ o ∈ q.walk, ∀ id, (q.op o).kind = .group id → keep o ∧ (p.op o).kind = .group id
  operands   : ∀ o ∈ q.walk, keep o → (q.op o).operands.map q.typeOf = (p.op o).operands.map p.typeOf

theorem Rewrites.below (h : Rewrites keep p q) (hb : q.Below b n c) : p.Below b n c := by
  induction hb with
  | here => exact .here
  | @step n c d o _ ho hd ih =>
    have hk : keep o := by
      by_contra hc
      simp [(h.right o (by simpa using hc)).left] at hd
    have hm : o ∈ (q.block c).operations.filter keep := List.mem_filter.mpr ⟨ho, hk⟩
    rw [h.operations] at hm
    exact .step ih (List.mem_of_mem_filter hm) ((h.alike o hk).regions ▸ hd)

namespace Recasts

variable (h : Recasts keep p q)
include h

theorem mem_walk (ho : o ∈ q.walk) (hk : keep o) : o ∈ p.walk :=
  (h.rewrites.mem_walk_iff hk).mp ho

theorem mem_block (hk : keep o) (ho : o ∈ (q.block b).operations) : o ∈ (p.block b).operations := by
  have hm : o ∈ (q.block b).operations.filter keep := List.mem_filter.mpr ⟨ho, hk⟩
  rw [h.rewrites.operations] at hm
  exact List.mem_of_mem_filter hm

-- The last operation of a block stays, because it ends the block.
theorem mem_walk_of_last (hp : p.Standing) (hb : b ∈ p.nested)
    (ho : (p.block b).operations.getLast? = some o) : keep o ∧ o ∈ q.walk := by
  have hm := List.mem_of_getLast? ho
  have hw := mem_walk_iff.mpr ⟨b, hb, hm⟩
  have hk : keep o := by
    by_contra hc
    have hcore := (h.rewrites.left o (by simpa using hc)).right hw
    simp [OpKind.isCore_of_isTerminator ((hp.terminators b hb o hm).mpr ho)] at hcore
  exact ⟨hk, (h.rewrites.mem_walk_iff hk).mpr hw⟩

theorem map_typeOf {vs : List ValueId} (hv : ∀ v ∈ vs, v.index < p.values.length) :
    vs.map q.typeOf = vs.map p.typeOf :=
  List.map_congr_left fun v hm => h.types v (hv v hm)

theorem retyped (hp : p.Standing) (ho : o ∈ q.walk) (hk : keep o) : Retyped p q o where
  meshes         := h.meshes
  operands       := h.operands o ho hk
  results        := by
    rw [(h.rewrites.alike o hk).results]
    exact h.map_typeOf fun v hv => hp.sound.wellFormed.result_lt hv
  regions        := (h.rewrites.alike o hk).regions
  arguments b _  := by
    rw [h.rewrites.arguments]
    exact h.map_typeOf fun v hv => hp.sound.wellFormed.argument_lt hv
  returned b hb  := by
    have hn := hp.mem_nested_of_region (h.mem_walk ho hk) hb
    simp only [returned?, terminator?, h.last]
    cases hl : (p.block b).operations.getLast? with
    | none   => rfl
    | some t =>
      obtain ⟨htk, ht⟩ := h.mem_walk_of_last hp hn hl
      simp only [Option.filter_some, h.terminator t htk]
      split <;> simp [h.operands t ht htk]

-- What is grouped stays in the same manual computation, since it is in scope.
theorem manualAround? (hp : p.Sound) (ho : o ∈ q.walk) (hk : keep o) (hq : (q.op o).kind.isGroup)
    (hg : (p.op o).kind.isGroup) : q.manualAround? (q.input o) = p.manualAround? (p.input o) := by
  have hi {r : Program} (hr : r.Sound) (ho : o ∈ r.walk) (hk : (r.op o).kind.isGroup) :
      r.manualAround? (r.input o) = r.enclosingManual? (r.op o).block := by
    obtain ⟨v, hv, _⟩ := (hr.wellFormed.shaped o).group hk
    have hi : r.input o ∈ (r.op o).operands := by simp [input, hv]
    exact hr.wellFormed.manualAround?_of_inScope (hr.scope o ho _ hi)
  rw [hi h.sound ho hq, hi hp (h.mem_walk ho hk) hg, h.enclosing, (h.rewrites.alike o hk).block]

theorem standing (hp : p.Standing) : q.Standing where
  sound         := h.sound
  shallow n b hb := by
    rw [h.rewrites.length]
    exact hp.shallow n b (h.rewrites.below hb)
  body          := by
    have hb := hp.body
    simp only [terminator?, h.last] at hb ⊢
    cases hl : (p.block entry).operations.getLast? with
    | none   => simp [hl] at hb
    | some t =>
      have hn : entry ∈ p.nested := mem_nested_iff.mpr ⟨0, hp.shallow 0 _ .here, .here⟩
      simpa [hl, h.terminator t (h.mem_walk_of_last hp hn hl).left] using hb
  terminators b hb o ho := by
    have hw := mem_walk_iff.mpr ⟨b, hb, ho⟩
    rw [h.rewrites.nested] at hb
    rw [h.last]
    by_cases hk : keep o
    case pos => rw [h.terminator o hk, hp.terminators b hb o (h.mem_block hk ho)]
    case neg =>
      have hcore := (h.rewrites.right o (by simpa using hk)).right hw
      refine iff_of_false (fun ht => ?_) fun hl => hk (h.mem_walk_of_last hp hb hl).left
      simp [OpKind.isCore_of_isTerminator ht] at hcore
  groups        := by
    have hentry : ∀ entry ∈ q.groupEntries, ∃ first ∈ p.groupEntries, first.id = entry.id ∧
        q.manualAround? entry.value = p.manualAround? first.value := by
      intro entry he
      obtain ⟨ho, hk, hv⟩ := mem_groupEntries_iff.mp he
      obtain ⟨hkeep, hk'⟩ := h.group entry.op ho entry.id hk
      refine ⟨⟨entry.op, p.input entry.op, entry.id⟩, ?_, rfl, ?_⟩
      · exact mem_groupEntries_iff.mpr ⟨h.mem_walk ho hkeep, hk', rfl⟩
      · rw [← hv]
        exact h.manualAround? hp.sound ho hkeep (by simp [hk, OpKind.isGroup]) (by simp [hk', OpKind.isGroup])
    intro first hf entry he hid
    obtain ⟨first', hf', hid₁, hm₁⟩ := hentry first hf
    obtain ⟨entry', he', hid₂, hm₂⟩ := hentry entry he
    rw [hm₁, hm₂]
    exact hp.groups first' hf' entry' he' (hid₁.trans (hid.trans hid₂.symm))

end Recasts

end MeshSharding.Program
