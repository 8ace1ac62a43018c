import MeshSharding.Proofs.Nesting.Forest

namespace MeshSharding.Program

variable {p : Program} {v : ValueId} {calls : List Call}

theorem WellFormed.count_uses (hp : p.WellFormed) (v : ValueId) (use : Use) : (p.uses v).count use =
    if p.isLive use.user ∧ (p.op use.user).operands[use.index]? = some v then 1 else 0 := by
  by_cases hu : use ∈ p.uses v
  case pos => rw [List.count_eq_one_of_mem (hp.uses_nodup v) hu, if_pos (hp.mem_uses_iff.mp hu)]
  case neg => rw [List.count_eq_zero_of_not_mem hu, if_neg (hu ∘ hp.mem_uses_iff.mpr)]

-- In all states of a history in which no block is nested in itself, the uses of a value are all operands
-- that it is of live operations, and these are the operations of a walk.
theorem states_uses_exact {name : String} (h : (empty name).Along Fits calls) :
    ∀ p ∈ (empty name).states calls, (∀ b n, ¬ p.Below b (n + 1) b) →
      (∀ v u i, (p.uses v).count ⟨u, i⟩ =
        if p.isLive u ∧ (p.op u).operands[i]? = some v then 1 else 0) ∧
      ∀ u, p.isLive u ↔ u ∈ p.walk := by
  intro p hp hn
  have hp : p.Reachable := (Reachable.empty name).states h p hp
  have hr : p.Rooted := hp.wellFormed.rooted_of_not_below (hn entry)
  exact ⟨fun v u i => hp.wellFormed.count_uses v ⟨u, i⟩,
    fun u => (hp.housed.mem_walk_iff_isLive hp.wellFormed hr).symm⟩

-- A block returns a value before it is a region. The operation that it becomes a region of uses the
-- value as well, and is erased in the end. A constraint on a value that does not exist is refused.
def sharedUse : List Call := [
  .construct (.argument ⟨[8], .f32⟩ none),
  .region [],
  .construct (.operation ⟨1⟩ 0 (.terminator [⟨0⟩])),
  .construct (.operation entry 0 (.group ⟨1⟩ 0)),
  .construct (.operation entry 0 (.generic ⟨"scf.if", false⟩ [⟨0⟩, ⟨0⟩] [] [⟨1⟩])),
  .erase ⟨1⟩]

theorem states_uses_exact_sharedUse :
    ((empty "main").states sharedUse).map (·.uses ⟨0⟩) =
      [[], [], [], [], [], [⟨⟨0⟩, 0⟩, ⟨⟨1⟩, 0⟩, ⟨⟨1⟩, 1⟩], []] ∧
    ∀ p ∈ (empty "main").states sharedUse, (∀ b n, ¬ p.Below b (n + 1) b) ∧
      (∀ v u i, (p.uses v).count ⟨u, i⟩ =
        if p.isLive u ∧ (p.op u).operands[i]? = some v then 1 else 0) ∧
      ∀ u, p.isLive u ↔ u ∈ p.walk := by
  have hfits : (empty "main").Along Fits sharedUse :=
    ⟨trivial, trivial, ⟨by decide, by decide⟩, ⟨by decide, by decide⟩, ⟨by decide, by decide⟩,
      Nat.lt_succ_self 1, trivial⟩
  have hnests : (empty "main").Along Nests sharedUse :=
    ⟨trivial, trivial, fun _ _ => nestsAt_of_leaf rfl, fun _ _ => nestsAt_of_leaf rfl,
      fun _ _ => nestsAt_of_parent_eq_none rfl (by decide) (by decide) (by decide), trivial, trivial⟩
  refine ⟨by rfl, fun p hp => ?_⟩
  have hforest := (isForest_states_iff (.empty "main") (isForest_empty "main") hfits).mpr hnests p hp
  have hn (b : BlockId) (n : Nat) : ¬ p.Below b (n + 1) b :=
    hforest.acyclic.not_below ((Reachable.empty "main").states hfits p hp).wellFormed
  exact ⟨hn, states_uses_exact hfits p hp hn⟩

end MeshSharding.Program
