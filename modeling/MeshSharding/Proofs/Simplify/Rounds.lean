import MeshSharding.Proofs.Flow.Passes
import MeshSharding.Proofs.Verify.Simplify

namespace MeshSharding.Program

variable {p q r : Program} {rank : OpId → Nat} {o u : OpId} {v source target : ValueId} {moved : List Use}

section Rank

-- The ranks below that of the operation that defines a value, and this rank.
def depth (p : Program) (rank : OpId → Nat) (v : ValueId) : Nat :=
  ((p.definer? v).map (rank · + 1)).getD 0

-- What an operation of the program reads is defined by operations of smaller ranks.
def Ranked (p : Program) (rank : OpId → Nat) : Prop :=
  ∀ o ∈ p.walk, ∀ v ∈ (p.op o).operands, p.depth rank v ≤ rank o

-- The number of operations of which an operation sees a result.
open Classical in
noncomputable def scopeSize (p : Program) (o : OpId) : Nat :=
  ((Finset.range p.operations.length).filter fun i => ∃ v ∈ (p.op ⟨i⟩).results, p.InScope o v).card

theorem scopeSize_le (p : Program) (o : OpId) : p.scopeSize o ≤ p.operations.length := by
  classical
  exact (Finset.card_filter_le ..).trans_eq (Finset.card_range _)

-- Whoever reads from an operation sees more than this operation.
theorem Sound.ranked (hp : p.Sound) : p.Ranked p.scopeSize := by
  intro o ho v hv
  cases hd : p.definer? v with
  | none   => simp [depth, hd]
  | some u =>
    have hr := hp.wellFormed.result_of_definer? (hp.wellFormed.operands o v hv) hd
    have hs := hp.scope o ho v hv
    have hu := hp.wellFormed.definer_mem_walk hs ho hr
    have hlt := hp.wellFormed.walk_lt hu
    rw [depth, hd, Option.map_some, Option.getD_some, scopeSize, scopeSize]
    apply Finset.card_lt_card
    refine (Finset.ssubset_iff_of_subset fun i hi => ?_).mpr ⟨u.index, ?_, ?_⟩
    case refine_1 =>
      simp only [Finset.mem_filter] at hi ⊢
      have ⟨hi, w, hw, hs'⟩ := hi
      exact ⟨hi, w, hw, hp.wellFormed.inScope_trans hs hr hs'⟩
    case refine_2 => simpa [hlt] using ⟨v, hr, hs⟩
    case refine_3 =>
      simp only [Finset.mem_filter, not_and, not_exists]
      exact fun _ w hw => hp.wellFormed.not_inScope_of_result hp.rooted hu hw

end Rank

section Weight

-- An operation weighs as much as the rank of what it reads from, and one more; what has been taken out weighs
-- nothing. Steps make the program lighter.
def weight (p : Program) (rank : OpId → Nat) (o : OpId) : Nat :=
  if o ∈ p.walk ∧ (p.op o).kind.isTransparent then p.depth rank (p.input o) + 1 else 0

def totalWeight (p : Program) (rank : OpId → Nat) : Nat :=
  ∑ i ∈ Finset.range p.operations.length, p.weight rank ⟨i⟩

theorem WellFormed.operands_getElem?_zero (hp : p.WellFormed) (ho : (p.op o).kind.isTransparent) :
    (p.op o).operands[0]? = some (p.input o) := by
  rw [hp.operands_eq (OpKind.isUnary_of_isTransparent ho), List.getElem?_cons_zero]

theorem WellFormed.input_mem (hp : p.WellFormed) (ho : (p.op o).kind.isTransparent) : p.input o ∈ (p.op o).operands :=
  List.mem_of_getElem? (hp.operands_getElem?_zero ho)

theorem Ranked.totalWeight_le (h : p.Ranked rank) (hp : p.WellFormed) {bound : Nat} (hb : ∀ o, rank o ≤ bound) :
    p.totalWeight rank ≤ p.operations.length * (bound + 1) := by
  have hw (o : OpId) : p.weight rank o ≤ bound + 1 := by
    rw [weight]
    split
    case isTrue ho  => exact Nat.succ_le_succ ((h o ho.left _ (hp.input_mem ho.right)).trans (hb o))
    case isFalse    => exact Nat.zero_le _
  simpa [totalWeight] using Finset.sum_le_card_nsmul (Finset.range p.operations.length) _ _ fun i _ => hw ⟨i⟩

-- What a step of simplifying does to the ranks and the weights.
structure Lightens (rank : OpId → Nat) (p q : Program) : Prop where
  length : q.operations.length = p.operations.length
  ranked : q.Ranked rank
  le     : ∀ o, q.weight rank o ≤ p.weight rank o

namespace Lightens

theorem trans (h : Lightens rank p q) (h' : Lightens rank q r) : Lightens rank p r where
  length := h'.length.trans h.length
  ranked := h'.ranked
  le o   := (h'.le o).trans (h.le o)

theorem totalWeight_lt (h : Lightens rank p q) (hp : p.WellFormed) (ho : q.weight rank o < p.weight rank o) :
    q.totalWeight rank < p.totalWeight rank := by
  have hl : o.index < p.operations.length := by
    by_contra hc
    have hw : o ∉ p.walk := fun hw => hc (hp.walk_lt hw)
    simp [weight, hw] at ho
  rw [totalWeight, totalWeight, h.length]
  exact Finset.sum_lt_sum (fun i _ => h.le ⟨i⟩) ⟨o.index, Finset.mem_range.mpr hl, ho⟩

end Lightens

-- Operands are replaced by values that are defined further up.
theorem Relinks.lightens (h : Relinks p q) (hp : p.WellFormed) (hr : p.Ranked rank)
    (ho : ∀ o ∈ p.walk, ∀ (i : Nat) v w, (p.op o).operands[i]? = some v → (q.op o).operands[i]? = some w →
      p.depth rank w ≤ p.depth rank v) : Lightens rank p q := by
  have hd (v : ValueId) : q.depth rank v = p.depth rank v := by rw [depth, h.definer, depth]
  constructor
  case length => exact h.length
  case ranked =>
    intro o hw w hm
    have hw := h.mem_walk_iff.mp hw
    have ⟨i, hi⟩ := List.mem_iff_getElem?.mp hm
    have hl : i < (p.op o).operands.length := by
      rw [← h.arity]
      exact (List.getElem?_eq_some_iff.mp hi).choose
    have hv := List.getElem?_eq_getElem hl
    exact (hd w).trans_le ((ho o hw i _ w hv hi).trans (hr o hw _ (List.getElem_mem hl)))
  case le =>
    intro o
    simp only [weight, h.mem_walk_iff, (h.alike o).transparent]
    split
    case isFalse    => exact Nat.zero_le _
    case isTrue hwt =>
      have hi := hp.operands_getElem?_zero hwt.right
      have hi' := h.wellFormed.operands_getElem?_zero ((h.alike o).transparent.trans hwt.right)
      exact Nat.succ_le_succ ((hd _).trans_le (ho o hwt.left 0 _ _ hi hi'))

theorem WellFormed.lightens_erase (hp : p.WellFormed) (hr : p.Ranked rank) (ho : (p.op o).kind.isTransparent) :
    Lightens rank p (p.erase o) := by
  have hg : (p.op o).regions = [] :=
    hp.regions_eq_nil (OpKind.takesRegions_of_isUnary (OpKind.isUnary_of_isTransparent ho))
  have hop (u : OpId) := op_erase_leaf (u := u) hg
  have hd (v : ValueId) : (p.erase o).depth rank v = p.depth rank v := by
    rw [depth, definer?, definitionOf_erase, ← definer?, depth]
  have hw (u : OpId) (hu : u ∈ (p.erase o).walk) : u ∈ p.walk := by
    have hne := hp.ne_of_mem_walk_erase hg hu
    exact ((hp.erase_rewrites hg (by simp [OpKind.isCore, ho])).mem_walk_iff (by simpa using hne)).mp hu
  constructor
  case length => exact length_operations_erase
  case ranked =>
    intro u hu v hv
    rw [hop] at hv
    exact (hd v).trans_le (hr u (hw u hu) v hv)
  case le =>
    intro u
    simp only [weight, input_erase, hd, hop]
    split
    case isFalse    => exact Nat.zero_le _
    case isTrue hwt => rw [if_pos ⟨hw u hwt.left, hwt.right⟩]

theorem WellFormed.weight_erase (hp : p.WellFormed) (ho : (p.op o).kind.isTransparent) : (p.erase o).weight rank o = 0 := by
  have hg : (p.op o).regions = [] :=
    hp.regions_eq_nil (OpKind.takesRegions_of_isUnary (OpKind.isUnary_of_isTransparent ho))
  exact if_neg fun h => hp.ne_of_mem_walk_erase hg h.left rfl

theorem weight_pos (ho : o ∈ p.walk) (ht : (p.op o).kind.isTransparent) : 0 < p.weight rank o := by
  rw [weight, if_pos ⟨ho, ht⟩]
  exact Nat.succ_pos _

end Weight

section Steps

-- Behind a transparent operation it goes further up.
theorem Ranked.depth_lt (h : p.Ranked rank) (hp : p.WellFormed) (ho : o ∈ p.walk) (ht : (p.op o).kind.isTransparent) :
    p.depth rank (p.input o) < p.depth rank (p.output o) := by
  have hd : p.definer? (p.output o) = some o :=
    hp.definer?_of_result (by simp [hp.results_eq (OpKind.isUnary_of_isTransparent ht)])
  have hout : p.depth rank (p.output o) = rank o + 1 := by simp [depth, hd]
  rw [hout]
  exact Nat.lt_succ_of_le (h o ho _ (hp.input_mem ht))

theorem Sound.lightens_redirect (hp : p.Sound) (hr : p.Ranked rank) (ho : o ∈ p.walk) (ht : (p.op o).kind.isTransparent)
    (hm : ∀ use ∈ moved, (p.op use.user).operands[use.index]? = some (p.output o)) (hn : moved.Nodup) :
    Lightens rank p (p.redirect (p.output o) (p.input o) moved) := by
  have hi := hp.wellFormed.input_lt (OpKind.isUnary_of_isTransparent ht)
  apply (hp.wellFormed.relinks_redirect hi hm hn).lightens hp.wellFormed hr
  intro u _ i v w hv hw
  rw [operands_redirect hm] at hw
  split at hw
  case isTrue hu =>
    cases hw
    cases hv.symm.trans (hm _ hu)
    exact (hr.depth_lt hp.wellFormed ho ht).le
  case isFalse   => rw [Option.some.inj (hw.symm.trans hv)]

theorem Sound.lightens_bypass (hp : p.Sound) (hr : p.Ranked rank) (ho : o ∈ p.walk) (ht : (p.op o).kind.isTransparent) :
    Lightens rank p (p.bypass o) ∧ (p.bypass o).weight rank o < p.weight rank o ∧
      ∀ u, p.Held u → (p.bypass o).Held u := by
  have hw := hp.wellFormed
  have hne : p.output o ≠ p.input o := fun he => Nat.lt_irrefl _ (he ▸ hr.depth_lt hw ho ht)
  have hm : ∀ use ∈ p.movable (p.output o) none, (p.op use.user).operands[use.index]? = some (p.output o) :=
    fun _ => hw.operand_of_movable
  have hn := hw.movable_nodup (p.output o) none
  have hi := hw.input_lt (OpKind.isUnary_of_isTransparent ht)
  have hredirect := hp.lightens_redirect hr ho ht hm hn
  have hwq := hw.redirect hi hm hn
  have htq : ((p.redirect (p.output o) (p.input o) (p.movable (p.output o) none)).op o).kind.isTransparent := by
    rwa [kind_redirect]
  rw [Program.bypass, replaceUses, replaceUsesExcept_eq hne]
  refine ⟨hredirect.trans (hwq.lightens_erase hredirect.ranked htq), ?_, fun u hu => ?_⟩
  case refine_1 => exact (hwq.weight_erase htq).trans_lt (weight_pos ho ht)
  case refine_2 =>
    have hg := hwq.regions_eq_nil (OpKind.takesRegions_of_isUnary (OpKind.isUnary_of_isTransparent htq))
    exact (hu.redirect hw hi hm hn).erase hwq hg (by simp [OpKind.isCore, ht])

theorem Sound.lightens_setOperand (hp : p.Sound) (hr : p.Ranked rank) (ho : o ∈ p.walk)
    (ht : (p.op o).kind.isTransparent) (hd : p.definer? (p.input o) = some u) (hu : (p.op u).kind.isTransparent) :
    let q := p.setOperand o 0 (p.input u)
    Lightens rank p q ∧ q.weight rank o < p.weight rank o ∧ ∀ w, p.Held w → q.Held w := by
  have hw := hp.wellFormed
  have hout := hw.eq_output_of_definer? (hw.input_lt (OpKind.isUnary_of_isTransparent ht)) hd
    (OpKind.isUnary_of_isTransparent hu)
  have hz : (p.op o).operands[0]? = some (p.output u) := hout ▸ hw.operands_getElem?_zero ht
  have hm : ∀ use ∈ [(⟨o, 0⟩ : Use)], (p.op use.user).operands[use.index]? = some (p.output u) := by simpa using hz
  have huw := (hp.inScope_behind hu ho (List.mem_of_getElem? hz)).left
  have hi := hw.input_lt (OpKind.isUnary_of_isTransparent hu)
  have hlinks := hw.relinks_redirect hi hm (List.nodup_singleton _)
  intro q
  have hq : q = p.redirect (p.output u) (p.input u) [⟨o, 0⟩] := setOperand_eq hz
  have hinput : q.input o = p.input u := by
    simp [input, hq, operands_redirect hm]
  rw [← hq] at hlinks
  refine ⟨hq ▸ hp.lightens_redirect hr huw hu hm (List.nodup_singleton _), ?_, fun w hh => ?_⟩
  case refine_1 =>
    have hdepth : q.depth rank (p.input u) = p.depth rank (p.input u) := by rw [depth, hlinks.definer, depth]
    rw [weight, weight, if_pos ⟨hlinks.mem_walk_iff.mpr ho, (hlinks.alike o).transparent.trans ht⟩, if_pos ⟨ho, ht⟩,
      hinput, hdepth, hout]
    exact Nat.succ_lt_succ (hr.depth_lt hw huw hu)
  case refine_2 => exact hq ▸ hh.redirect hw hi hm (List.nodup_singleton _)

theorem Sound.lightens_simplifyOp (hp : p.Sound) (hr : p.Ranked rank) (ho : o ∈ p.walk) (h : p.simplifyOp o = some q) :
    Lightens rank p q ∧ q.weight rank o < p.weight rank o ∧ ∀ u, p.Held u → q.Held u := by
  simp only [Program.simplifyOp, Option.map_eq_some_iff] at h
  obtain ⟨simplification, h, rfl⟩ := h
  cases simplification?_simplifies h with
  | identity hk _ hi | missing hk _ _ _ hi =>
    have ht := Collective.isTransparent_of_isIdentityOn hi
    exact hp.lightens_bypass hr ho (by simpa [hk, OpKind.isTransparent] using ht)
  | satisfied hk _ => exact hp.lightens_bypass hr ho (by simp [hk, OpKind.isTransparent])
  | unused hk _ =>
    have ht : (p.op o).kind.isTransparent := by simp [hk, OpKind.isTransparent]
    have hg := hp.wellFormed.regions_eq_nil (OpKind.takesRegions_of_isUnary (OpKind.isUnary_of_isTransparent ht))
    exact ⟨hp.wellFormed.lightens_erase hr ht, (hp.wellFormed.weight_erase ht).trans_lt (weight_pos ho ht),
      fun u hu => hu.erase hp.wellFormed hg (by simp [OpKind.isCore, ht])⟩
  | chain hk hd hu =>
    exact hp.lightens_setOperand hr ho (by simp [hk, OpKind.isTransparent]) hd (by simp [hu, OpKind.isTransparent])

end Steps

section Rounds

-- A round leaves the program as it is, or makes it lighter.
theorem Sound.simplifyRound {os : List OpId} (hp : p.Sound) (hr : p.Ranked rank) (ho : ∀ o ∈ os, p.Held o)
    {changed : Bool} {result : Program × Bool} (h : applyWhere Program.simplifyOp p changed os = result) :
    result = (p, changed) ∨ result.2 = true ∧ result.1.Sound ∧ Lightens rank p result.1 ∧
      result.1.totalWeight rank < p.totalWeight rank := by
  induction os generalizing p changed with
  | nil => exact .inl h.symm
  | cons o os ih =>
    cases hs : p.simplifyOp o with
    | none =>
      simp only [applyWhere, hs] at h
      exact ih hp hr (fun u hu => ho u (List.mem_cons_of_mem o hu)) h
    | some q =>
      have hw : o ∈ p.walk := by
        refine (ho o List.mem_cons_self).resolve_right fun he => ?_
        simp [Program.simplifyOp, simplification?, he] at hs
      obtain ⟨hl, hlt, hheld⟩ := hp.lightens_simplifyOp hr hw hs
      have hlt := hl.totalWeight_lt hp.wellFormed hlt
      have hq := (hp.simplifyOp hs).left
      simp only [applyWhere, hs] at h
      refine .inr ?_
      cases ih hq hl.ranked (fun u hu => hheld u (ho u (List.mem_cons_of_mem o hu))) h with
      | inl he => exact he ▸ ⟨rfl, hq, hl, hlt⟩
      | inr hi => exact ⟨hi.left, hi.right.left, hl.trans hi.right.right.left, hi.right.right.right.trans hlt⟩

-- Rounds beyond those that the weight allows for change nothing.
theorem Sound.simplifyRounds_of_lt {n m : Nat} (hp : p.Sound) (hr : p.Ranked rank) (hn : p.totalWeight rank < n)
    (hm : n ≤ m) (changed : Bool) : p.simplifyRounds m changed = p.simplifyRounds n changed := by
  induction n generalizing p m changed with
  | zero => exact absurd hn (Nat.not_lt_zero _)
  | succ n ih =>
    obtain ⟨k, hk⟩ := Nat.exists_eq_add_of_le' (Nat.one_le_of_lt hm)
    rw [hk, simplifyRounds, simplifyRounds]
    cases hq : Program.applyWhere Program.simplifyOp p false p.walk with
    | mk q result =>
      have hround := hp.simplifyRound hr (fun o ho => .inl ho) hq
      cases result with
      | false => rfl
      | true  =>
        obtain ⟨_, hs, hl, hlt⟩ := hround.resolve_left (by simp)
        exact ih hs hl.ranked (Nat.lt_of_lt_of_le hlt (Nat.le_of_lt_succ hn)) (by omega) true

theorem Sound.simplify_eq {n : Nat} (hp : p.Sound) (hn : (p.operations.length + 1) * (p.operations.length + 1) + 1 ≤ n) :
    p.simplifyRounds n false = p.simplify := by
  have hle := hp.ranked.totalWeight_le hp.wellFormed p.scopeSize_le
  refine hp.simplifyRounds_of_lt hp.ranked ?_ hn false
  exact Nat.lt_succ_of_le (hle.trans (Nat.mul_le_mul_right _ (Nat.le_succ _)))

end Rounds

end MeshSharding.Program
