import MeshSharding.Proofs.Flow.Root

namespace MeshSharding

-- Passes take out and put in other operations only.
def OpKind.isCore (kind : OpKind) : Bool :=
  !kind.isTransparent && !kind.isGroup

-- Of an operation, what it is and where it stands.
structure CoreOp where
  op       : OpId
  mnemonic : String
  block    : BlockId
  regions  : List BlockId

-- Two operations that differ in operands only, or in kinds that are both transparent.
structure Operation.Alike (op other : Operation) : Prop where
  results     : other.results = op.results
  regions     : other.regions = op.regions
  block       : other.block = op.block
  isolated    : other.kind.isIsolated = op.kind.isIsolated
  transparent : other.kind.isTransparent = op.kind.isTransparent
  group       : other.kind.isGroup = op.kind.isGroup
  mnemonic    : op.kind.isCore → other.mnemonic = op.mnemonic

theorem Operation.Alike.core {op other : Operation} (h : op.Alike other) :
    other.kind.isCore = op.kind.isCore := by
  simp only [OpKind.isCore, h.transparent, h.group]

theorem Operation.Alike.trans {op other third : Operation} (h : op.Alike other) (h' : other.Alike third) :
    op.Alike third where
  results     := h'.results.trans h.results
  regions     := h'.regions.trans h.regions
  block       := h'.block.trans h.block
  isolated    := h'.isolated.trans h.isolated
  transparent := h'.transparent.trans h.transparent
  group       := h'.group.trans h.group
  mnemonic hc := (h'.mnemonic (h.core.trans hc)).trans (h.mnemonic hc)

theorem Operation.Alike.of_kind_eq {op other : Operation} (hk : other.kind = op.kind)
    (hr : other.results = op.results) (hg : other.regions = op.regions)
    (hb : other.block = op.block) : op.Alike other :=
  ⟨hr, hg, hb, by rw [hk], by rw [hk], by rw [hk],
    fun _ => by simp only [Operation.mnemonic, hk]⟩

namespace Program

def core (p : Program) : List CoreOp :=
  (p.walk.filter fun o => (p.op o).kind.isCore).map fun o =>
    { op       := o
      mnemonic := (p.op o).mnemonic
      block    := (p.op o).block
      regions  := (p.op o).regions }

-- A program that verification accepts, as far as the flow of data goes.
structure Sound (p : Program) : Prop where
  wellFormed : p.WellFormed
  rooted     : p.Rooted
  scope      : ∀ o ∈ p.walk, ∀ v ∈ (p.op o).operands, p.InScope o v

-- The operations that do more than hand on a value or group it stay, with the roots of their operands and the
-- scopes. Operations of the program before are part of the one after only if they were part of it. This
-- makes the relation transitive.
structure KeepsFlow (p q : Program) : Prop where
  grows : p.operations.length ≤ q.operations.length
  lived : ∀ o ∈ q.walk, o.index < p.operations.length → o ∈ p.walk
  core  : q.core = p.core
  arity : ∀ o ∈ p.walk, o ∈ q.walk → (q.op o).operands.length = (p.op o).operands.length
  roots : ∀ o ∈ p.walk, o ∈ q.walk → ∀ (i : Nat) v w, (p.op o).operands[i]? = some v →
    (q.op o).operands[i]? = some w → ∀ root, p.Root v root → q.Root w root

variable {p q r : Program} {o u : OpId} {v w : ValueId} {keep : OpId → Bool}

theorem WellFormed.sound (hp : p.WellFormed) (ht : p.IsTree) (hs : p.Scoped) : p.Sound :=
  ⟨hp, ht.rooted hp, (hp.scoped_iff (ht.rooted hp)).mp hs⟩

theorem Sound.scoped (hp : p.Sound) : p.Scoped :=
  (hp.wellFormed.scoped_iff hp.rooted).mpr hp.scope

namespace KeepsFlow

theorem refl (p : Program) : KeepsFlow p p where
  grows       := le_refl _
  lived _ h _ := h
  core        := rfl
  arity _ _ _ := rfl
  roots _ _ _ _ v w hv hw root h := by
    have he := Option.some.inj (hv.symm.trans hw)
    exact he ▸ h

theorem lived_left (h : KeepsFlow p q) (h' : KeepsFlow q r) (hp : p.WellFormed) (ho : o ∈ p.walk)
    (hr : o ∈ r.walk) : o ∈ q.walk :=
  h'.lived o hr (Nat.lt_of_lt_of_le (hp.walk_lt ho) h.grows)

theorem trans (hp : p.WellFormed) (h : KeepsFlow p q) (h' : KeepsFlow q r) : KeepsFlow p r where
  grows         := h.grows.trans h'.grows
  lived o ho hl := h.lived o (h'.lived o ho (Nat.lt_of_lt_of_le hl h.grows)) hl
  core          := h'.core.trans h.core
  arity o ho hr := by
    have hq := h.lived_left h' hp ho hr
    exact (h'.arity o hq hr).trans (h.arity o ho hq)
  roots o ho hr i v w hv hw root hroot := by
    have hq := h.lived_left h' hp ho hr
    have hi : i < (q.op o).operands.length := by
      rw [← h'.arity o hq hr]
      exact (List.getElem?_eq_some_iff.mp hw).choose
    have hx := List.getElem?_eq_getElem hi
    exact h'.roots o hq hr i _ w hx hw root (h.roots o ho hq i v _ hv hx root hroot)

end KeepsFlow

-- A step after others.
theorem Sound.andThen (hp : p.Sound) (hq : q.Sound ∧ KeepsFlow p q)
    (hr : q.Sound → r.Sound ∧ KeepsFlow q r) : r.Sound ∧ KeepsFlow p r :=
  have ⟨hs, hf⟩ := hr hq.left
  ⟨hs, hq.right.trans hp.wellFormed hf⟩

-- An edit of a program, where operations that are not kept do not matter: they are leaves.
structure Rewrites (keep : OpId → Bool) (p q : Program) : Prop where
  length     : q.blocks.length = p.blocks.length
  arguments  : ∀ b, (q.block b).arguments = (p.block b).arguments
  operations : ∀ b, (q.block b).operations.filter keep = (p.block b).operations.filter keep
  alike      : ∀ o, keep o → (p.op o).Alike (q.op o)
  left       : ∀ o, keep o = false →
    (p.op o).regions = [] ∧ (o ∈ p.walk → (p.op o).kind.isCore = false)
  right      : ∀ o, keep o = false →
    (q.op o).regions = [] ∧ (o ∈ q.walk → (q.op o).kind.isCore = false)

namespace Rewrites

theorem leavesDiffer (h : Rewrites keep p q) : LeavesDiffer keep p q :=
  ⟨h.operations, fun o ho => (h.alike o ho).regions, fun o ho => (h.left o ho).left,
    fun o ho => (h.right o ho).left⟩

theorem walk (h : Rewrites keep p q) : q.walk.filter keep = p.walk.filter keep := by
  rw [Program.walk, Program.walk, h.length]
  exact h.leavesDiffer.walkBlock

theorem nested (h : Rewrites keep p q) : q.nested = p.nested := by
  rw [Program.nested, h.length, h.leavesDiffer.blocksWithin, Program.nested]

theorem rooted (h : Rewrites keep p q) (hr : p.Rooted) : q.Rooted := by
  rw [Rooted, h.nested]
  exact hr

theorem mem_walk_iff (h : Rewrites keep p q) (ho : keep o) : o ∈ q.walk ↔ o ∈ p.walk := by
  have hw : o ∈ q.walk.filter keep ↔ o ∈ p.walk.filter keep := by rw [h.walk]
  simpa [ho] using hw

theorem core (h : Rewrites keep p q) : q.core = p.core := by
  -- What is core is kept.
  have hk : ∀ r : Program, (∀ o, keep o = false → o ∈ r.walk → (r.op o).kind.isCore = false) →
      r.walk.filter (fun o => (r.op o).kind.isCore) =
        (r.walk.filter keep).filter fun o => (r.op o).kind.isCore := by
    intro r hr
    rw [List.filter_filter]
    refine List.filter_congr fun o ho => ?_
    cases hc : keep o with
    | true  => simp
    | false => simp [hr o hc ho]
  rw [Program.core, Program.core, hk q fun o ho => (h.right o ho).right,
    hk p fun o ho => (h.left o ho).right, h.walk]
  have ha : ∀ o ∈ p.walk.filter keep, (p.op o).Alike (q.op o) :=
    fun o ho => h.alike o (List.mem_filter.mp ho).right
  have hf := List.filter_congr fun o ho => (ha o ho).core
  rw [hf]
  refine List.map_congr_left fun o ho => ?_
  have ⟨ho, hc⟩ := List.mem_filter.mp ho
  simp only [(ha o ho).mnemonic hc, (ha o ho).block, (ha o ho).regions]

-- What an operation sees, it still sees, unless this is a result of one that is taken out.
theorem inScope (h : Rewrites keep p q) (ho : keep o) (hv : ∀ u, v ∈ (p.op u).results → keep u)
    (hs : p.InScope o v) : q.InScope o v := by
  have hsub : ∀ b, ((p.block b).operations.filter keep).Sublist (q.block b).operations := by
    intro b
    rw [← h.operations]
    exact List.filter_sublist
  have hmem : ∀ b u, keep u → u ∈ (p.block b).operations → u ∈ (q.block b).operations := by
    intro b u hu hm
    exact (hsub b).subset (List.mem_filter.mpr ⟨hm, hu⟩)
  induction hs with
  | argument hm ha => exact .argument (hmem _ _ ho hm) (by rwa [h.arguments])
  | @result b u o v hs hr =>
    have hu := hv u hr
    refine .result (b := b) (u := u) ?_ (by rwa [(h.alike u hu).results])
    have hf := hs.filter keep
    rw [List.filter_cons_of_pos hu, List.filter_cons_of_pos ho, List.filter_nil] at hf
    exact hf.trans (hsub b)
  | @outer b u o v hm hb hr hi _ ih =>
    have hu : keep u := by
      by_contra hc
      simp [(h.left u (by simpa using hc)).left] at hr
    have hr' : b ∈ (q.op u).regions := by rwa [(h.alike u hu).regions]
    exact .outer (hmem _ _ ho hm) hb hr' ((h.alike u hu).isolated.trans hi) (ih hu hv)

-- Operations come and go, and the others have the operands that they had.
theorem keepsFlow (h : Rewrites keep p q) (hp : p.WellFormed) (hk : KeepsRoots p q)
    (hg : p.operations.length ≤ q.operations.length)
    (hn : ∀ o ∈ q.walk, o.index < p.operations.length → keep o)
    (ho : ∀ o, keep o → (q.op o).operands = (p.op o).operands) : KeepsFlow p q where
  grows         := hg
  lived o hq hl := (h.mem_walk_iff (hn o hq hl)).mp hq
  core          := h.core
  arity o hw hq := by rw [ho o (hn o hq (hp.walk_lt hw))]
  roots o hw hq i v w hv hv' root hr := by
    rw [ho o (hn o hq (hp.walk_lt hw))] at hv'
    have he := Option.some.inj (hv.symm.trans hv')
    exact he ▸ hk.root hp (hp.operands o v (List.mem_of_getElem? hv)) hr

end Rewrites

end Program

end MeshSharding
