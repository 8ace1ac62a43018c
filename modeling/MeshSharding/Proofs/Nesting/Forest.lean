import MeshSharding.Proofs.History
import MeshSharding.Proofs.Nesting.Climb

namespace MeshSharding.Program

variable {p q : Program} {b c d : BlockId} {o u : OpId} {n m position : Nat} {new : NewOp} {call : Call}
  {calls : List Call}

-- No block is nested in itself, no block is a region twice, and the body is no region.
structure IsForest (p : Program) : Prop where
  acyclic : p.Acyclic
  once    : ((p.operations.filter (!·.erased)).flatMap (·.regions)).Nodup
  body    : ∀ o, entry ∉ (p.op o).regions

section Once

theorem WellFormed.once_iff (hp : p.WellFormed) :
    ((p.operations.filter (!·.erased)).flatMap (·.regions)).Nodup ↔
      ∀ o, (p.op o).erased = false → (p.op o).regions.Nodup := by
  have hop {i : Nat} (hi : i < p.operations.length) : p.op ⟨i⟩ = p.operations[i] := by simp [op, hi]
  rw [List.nodup_flatMap]
  constructor
  · rintro ⟨hn, -⟩ o he
    exact hn _ (List.mem_filter.mpr ⟨op_mem_of_not_erased he, by simp [he]⟩)
  · intro hn
    constructor
    · intro x hx
      obtain ⟨hx, he⟩ := List.mem_filter.mp hx
      obtain ⟨i, hi, rfl⟩ := List.mem_iff_getElem.mp hx
      exact hop hi ▸ hn ⟨i⟩ (by simpa [hop hi] using he)
    · refine List.Pairwise.filter _ (List.pairwise_iff_getElem.mpr fun i j hi hj hij c hc hc' => ?_)
      rw [← hop hi] at hc
      rw [← hop hj] at hc'
      have := OpId.mk.inj (hp.parent_unique hc hc')
      omega

theorem IsForest.regions_nodup (h : p.IsForest) (hp : p.WellFormed) (ho : (p.op o).erased = false) :
    (p.op o).regions.Nodup :=
  hp.once_iff.mp h.once o ho

end Once

section Navigate

-- Walks and climbs end, and their results obey the equations by which they go on from block to block.
structure Navigable (p : Program) : Prop where
  down       : ∀ b n c, p.Below b n c → n < p.blocks.length
  up         : ∀ b, ∃ n, p.outer? n b = none
  walks      : ∀ b, p.walkBlock p.blocks.length b = (p.block b).operations.flatMap fun o =>
    o :: (p.op o).regions.flatMap (p.walkBlock p.blocks.length)
  lives      : ∀ o, p.isLive o ↔ (p.op o).erased = false ∧
    ((p.op o).block = entry ∨ ∃ u, (p.block (p.op o).block).parent = some u ∧ p.isLive u)
  encloses   : ∀ b, p.enclosingManual? b = (p.block b).parent.bind fun u =>
    if (p.op u).kind.isManual then some u else p.enclosingManual? (p.op u).block
  walk_nodup : p.walk.Nodup
  walk_live  : ∀ o, o ∈ p.walk ↔ p.isLive o

theorem IsForest.navigable (h : p.IsForest) (hp : p.WellFormed) (hh : p.Housed) : p.Navigable where
  down _ _ _   := h.acyclic.below_lt hp
  up           := h.acyclic.exists_outer?_eq_none
  walks _      := (walkBlock_succ fun _ _ => h.acyclic.below_lt hp).symm
  lives _      := hh.isLive_iff hp (h.acyclic.rooted hp)
  encloses     := hp.enclosingManual?_eq
  walk_nodup   := hp.walk_nodup (h.acyclic.blocksWithin_nodup hp fun _ => h.regions_nodup hp)
  walk_live _  := hh.mem_walk_iff_isLive hp (h.acyclic.rooted hp)

end Navigate

section Reshape

theorem WellFormed.parent_lt (hp : p.WellFormed) (h : (p.block b).parent = some o) :
    o.index < p.operations.length := by
  by_contra hl
  have hr := (hp.regions b o).mpr h
  simp [op_of_length_le (Nat.le_of_not_lt hl)] at hr

theorem Reshapes.around? (h : Reshapes p q) (hp : p.WellFormed) (b : BlockId) :
    q.around? b = p.around? b := by
  rw [Program.around?, Program.around?, h.parents]
  exact Option.map_congr fun o ho => h.blocks o (hp.parent_lt ho)

theorem Reshapes.isForest (h : Reshapes p q) (hp : p.WellFormed) (hq : q.WellFormed) (hf : p.IsForest) :
    q.IsForest where
  acyclic := hf.acyclic.congr (h.around? hp)
  body o  := h.regions o ▸ hf.body o
  once    := by
    refine hq.once_iff.mpr fun o he => ?_
    rw [h.regions]
    by_cases hl : o.index < p.operations.length
    case pos =>
      refine hf.regions_nodup hp (Bool.eq_false_iff.mpr fun hpe => ?_)
      rw [h.erased o hl hpe] at he
      cases he
    case neg =>
      rw [op_of_length_le (Nat.le_of_not_lt hl)]
      exact List.nodup_nil

end Reshape

section Place

-- The regions of a new operation are different, none is the body, and the operation is not put into one
-- of them or into a block in one of them. That a region is on its own is checked before anything is attached,
-- so only the attachment of regions can go against this.
structure NestsAt (p : Program) (b : BlockId) (new : NewOp) : Prop where
  once    : new.regions.Nodup
  body    : entry ∉ new.regions
  outside : ∀ c ∈ new.regions, ∀ n, p.outer? n b ≠ some c

theorem nestsAt_of_leaf (h : new.regions = []) : p.NestsAt b new := by
  constructor <;> simp [h]

-- An operation in a block that is on its own.
theorem nestsAt_of_parent_eq_none (hb : (p.block b).parent = none) (hn : new.regions.Nodup)
    (he : entry ∉ new.regions) (hbn : b ∉ new.regions) : p.NestsAt b new where
  once              := hn
  body              := he
  outside c hc n h  := by
    cases n with
    | zero   => exact hbn (Option.some.inj h ▸ hc)
    | succ n => simp [outer?, around?, hb] at h

variable (hp : p.WellFormed) (ha : p.Accepts new)
include hp ha

theorem around?_place : (p.place b position new).around? c =
    if c ∈ new.regions then some b else p.around? c := by
  rw [around?, around?, block_place]
  dsimp only
  by_cases hc : c ∈ new.regions
  case pos => simp [hc, (ha.regions c hc).left, op_place_nextOp, placed]
  case neg =>
    simp only [hc, false_and, if_false]
    exact Option.map_congr fun o ho => by rw [op_place_of_ne (ne_nextOp (hp.parent_lt ho))]

-- The ways up that there were are still there, because new regions were on their own.
theorem outer?_place (h : p.outer? n c = some d) : (p.place b position new).outer? n c = some d := by
  induction n generalizing c with
  | zero => exact h
  | succ n ih =>
    rw [outer?, Option.bind_eq_some_iff] at h ⊢
    obtain ⟨e, he, h⟩ := h
    have hc : c ∉ new.regions := fun hc => by simp [around?, (ha.regions c hc).right] at he
    exact ⟨e, by rw [around?_place hp ha, if_neg hc, he], ih h⟩

-- A new way up goes through one of the new regions to the block of the operation.
theorem outer?_place_cases (h : (p.place b position new).outer? n c = some d) : p.outer? n c = some d ∨
    ∃ k m, n = k + 1 + m ∧ (∃ e ∈ new.regions, p.outer? k c = some e) ∧
      (p.place b position new).outer? m b = some d := by
  induction n generalizing c with
  | zero => exact .inl h
  | succ n ih =>
    rw [outer?, Option.bind_eq_some_iff] at h
    obtain ⟨e, he, h⟩ := h
    rw [around?_place hp ha] at he
    split at he
    case isTrue hc =>
      cases he
      exact .inr ⟨0, n, by omega, ⟨c, hc, rfl⟩, h⟩
    case isFalse =>
      obtain h | ⟨k, m, rfl, ⟨r, hr, hk⟩, hm⟩ := ih h
      · exact .inl (by rw [outer?, he, Option.bind_some, h])
      · exact .inr ⟨k + 1, m, by omega, ⟨r, hr, by rw [outer?, he, Option.bind_some, hk]⟩, hm⟩

theorem NestsAt.outer?_place (hn : p.NestsAt b new) (h : (p.place b position new).outer? n b = some d) :
    p.outer? n b = some d := by
  obtain h | ⟨k, _, _, ⟨e, he, hk⟩, _⟩ := outer?_place_cases hp ha h
  · exact h
  · exact absurd hk (hn.outside e he k)

theorem NestsAt.acyclic (hn : p.NestsAt b new) (h : p.Acyclic) : (p.place b position new).Acyclic := by
  intro c n hc
  obtain hc | ⟨k, m, _, ⟨e, he, hk⟩, hm⟩ := outer?_place_cases hp ha hc
  · exact h c n hc
  · -- From `b` up to `c` and on to the region `e`.
    refine hn.outside e he (m + k) ?_
    rw [outer?_add, hn.outer?_place hp ha hm, Option.bind_some, hk]

theorem isForest_place_iff (hf : p.IsForest) : (p.place b position new).IsForest ↔ p.NestsAt b new := by
  have hq := hp.place ha b position
  constructor
  · intro h
    constructor
    case once =>
      have hr := h.regions_nodup hq (o := p.nextOp) (by simp [op_place_nextOp, placed])
      rwa [op_place_nextOp] at hr
    case body =>
      have hr := h.body p.nextOp
      rwa [op_place_nextOp] at hr
    case outside =>
      intro c hc n hn
      refine h.acyclic c n ?_
      rw [outer?, around?_place hp ha, if_pos hc, Option.bind_some]
      exact outer?_place hp ha hn
  · intro hn
    constructor
    case acyclic => exact hn.acyclic hp ha hf.acyclic
    case once =>
      refine hq.once_iff.mpr fun u he => ?_
      rw [op_place] at he ⊢
      split
      case isTrue       => exact hn.once
      case isFalse hu   => exact hf.regions_nodup hp (by rwa [if_neg hu] at he)
    case body =>
      intro u
      rw [op_place]
      split
      case isTrue  => exact hn.body
      case isFalse => exact hf.body u

end Place

section History

-- If the call adds an operation, then its regions are nested in the block that it is put into.
def Nests (p : Program) : Call → Prop
  | .construct (.operation b position new) =>
    ∀ o, (p.insertInPlace b position new).result = .ok o → p.NestsAt b new
  | _ => True

theorem isForest_insert_iff (hp : p.WellFormed) (hf : p.IsForest) :
    (p.insertInPlace b position new).program.IsForest ↔
      ∀ o, (p.insertInPlace b position new).result = .ok o → p.NestsAt b new := by
  rw [hp.insertInPlace_eq]
  cases hi : p.insert b position new with
  | error e => simpa [Outcome.ofChecked] using hf
  | ok pair =>
    obtain ⟨q, o⟩ := pair
    obtain ⟨rfl, -, ha⟩ := insert_eq_ok hi
    simpa [Outcome.ofChecked] using isForest_place_iff hp ha hf

theorem reshapes_construct {call : Construction} (hc : ∀ b position new, call ≠ .operation b position new) :
    Reshapes p (p.construct call).program := by
  cases call with
  | mesh name mesh =>
    rw [construct]
    cases hm : p.declareMesh name mesh with
    | error e => exact .refl p
    | ok q    => exact reshapes_declareMesh hm
  | argument type sharding =>
    rw [construct]
    cases ha : p.addArgument type sharding with
    | error e => exact .refl p
    | ok pair => exact reshapes_addArgument ha
  | sharding v sharding =>
    rw [construct]
    cases hs : p.setSharding v sharding with
    | error e => exact .refl p
    | ok q    => exact .of_bare_eq (setSharding_bare hs)
  | operation b position new => exact absurd rfl (hc b position new)

theorem isForest_after_iff (hp : p.Reachable) (hf : p.IsForest) (hc : p.Fits call) :
    (p.after call).IsForest ↔ p.Nests call := by
  have hkeep (h : Reshapes p (p.after call)) : (p.after call).IsForest :=
    h.isForest hp.wellFormed (hp.after hc).wellFormed hf
  cases call with
  | construct call =>
    cases call with
    | operation b position new => exact isForest_insert_iff hp.wellFormed hf
    | mesh | argument | sharding => exact iff_of_true (hkeep (reshapes_construct (by simp))) trivial
  | region types              => exact iff_of_true (hkeep (reshapes_addRegion types)) trivial
  | transform name transform  => exact iff_of_true (hkeep (reshapes_registerTransform name transform)) trivial
  | replaceUses source target => exact iff_of_true (hkeep (.replaceUsesExcept none)) trivial
  | setOperand o index v      => exact iff_of_true (hkeep (.setOperand index)) trivial
  | erase o                   => exact iff_of_true (hkeep (hp.wellFormed.reshapes_erase o)) trivial
  | run pass                  => exact iff_of_true (hkeep (hp.wellFormed.reshapes_run hp.housed pass)) trivial

theorem isForest_states_iff (hp : p.Reachable) (hf : p.IsForest) (hc : p.Along Fits calls) :
    (∀ q ∈ p.states calls, q.IsForest) ↔ p.Along Nests calls := by
  induction calls generalizing p with
  | nil => simpa [states, Along] using hf
  | cons call calls ih =>
    have hnext := isForest_after_iff hp hf hc.left
    simp only [states, List.forall_mem_cons, hf, true_and, Along, ← hnext]
    constructor
    · intro h
      have hq := h _ mem_states_self
      exact ⟨hq, (ih (hp.after hc.left) hq hc.right).mp h⟩
    · rintro ⟨hq, h⟩
      exact (ih (hp.after hc.left) hq hc.right).mpr h

theorem isForest_empty (name : String) : (empty name).IsForest where
  acyclic b n := by
    have hb : (empty name).around? b = none := by
      obtain ⟨i⟩ := b
      cases i <;> rfl
    simp [outer?, hb]
  once        := List.nodup_nil
  body o      := by simp [empty, op]

-- The nesting of blocks is a forest in all states of a history, just if the regions of all operations
-- that are added are nested where they are. In such states walks and climbs end, and a walk lists the
-- live operations once each.
theorem states_forest_iff {name : String} (h : (empty name).Along Fits calls) :
    ((∀ p ∈ (empty name).states calls, p.IsForest) ↔ (empty name).Along Nests calls) ∧
      ∀ p ∈ (empty name).states calls, p.IsForest → p.Navigable := by
  have hempty : (empty name).Reachable := .empty name
  refine ⟨isForest_states_iff hempty (isForest_empty name) h, fun p hp hf => ?_⟩
  have hp := hempty.states h p hp
  exact hf.navigable hp.wellFormed hp.housed

-- A block that is a region of one operation, and gets an operation before its end later.
def loopHistory : List Call := [
  .region [],
  .construct (.operation ⟨1⟩ 0 (.terminator [])),
  .construct (.operation entry 0 (.generic ⟨"scf.for", false⟩ [] [] [⟨1⟩])),
  .construct (.operation entry 1 (.terminator [])),
  .construct (.operation ⟨1⟩ 0 (.constant "1" ⟨[], .i32⟩))]

theorem states_forest_iff_loopHistory : (empty "main").Along Fits loopHistory ∧
    ∀ p ∈ (empty "main").states loopHistory, p.IsForest ∧ p.Navigable := by
  have hfits : (empty "main").Along Fits loopHistory :=
    ⟨trivial, ⟨by decide, by decide⟩, ⟨by decide, by decide⟩, ⟨by decide, by decide⟩,
      ⟨by decide, by decide⟩, trivial⟩
  have hnests : (empty "main").Along Nests loopHistory :=
    ⟨trivial, fun _ _ => nestsAt_of_leaf rfl,
      fun _ _ => nestsAt_of_parent_eq_none rfl (by decide) (by decide) (by decide),
      fun _ _ => nestsAt_of_leaf rfl, fun _ _ => nestsAt_of_leaf rfl, trivial⟩
  obtain ⟨hforest, hnavigable⟩ := states_forest_iff hfits
  have hall := hforest.mpr hnests
  exact ⟨hfits, fun p hp => ⟨hall p hp, hnavigable p hp (hall p hp)⟩⟩

-- A block that is a region of one operation twice.
def sharedRegion? : Option Program :=
  build "main" [
    .region [],
    .append ⟨1⟩ (.terminator []),
    .append entry (.generic ⟨"scf.if", false⟩ [] [] [⟨1⟩, ⟨1⟩]),
    .append entry (.terminator [])]

theorem isForest_not_sharedRegion :
    let p := sharedRegion?.get (by rfl)
    p.Reachable ∧ p.verify = .ok () ∧ ¬ p.IsForest ∧ p.walk = [⟨1⟩, ⟨0⟩, ⟨0⟩, ⟨2⟩] := by
  intro p
  have hp : p.Reachable := build_reachable (Option.some_get _).symm
  refine ⟨hp, by rfl, fun h => ?_, by rfl⟩
  have hn : (p.op ⟨1⟩).regions.Nodup := h.regions_nodup hp.wellFormed (by rfl)
  exact absurd hn (by decide)

end History

end MeshSharding.Program
