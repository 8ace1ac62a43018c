import MeshSharding.Proofs.Nesting.Climb
import MeshSharding.Proofs.Simplify.Rounds

namespace MeshSharding.Program

variable {p q r : Program} {rank : OpId → Nat} {o u : OpId} {os : List OpId} {n m : Nat} {changed : Bool}

section Round

-- Going over operations takes a number of steps to another program.
inductive Rewriting : Program → List OpId → Nat → Program → Prop
  | done {p : Program} : Rewriting p [] 0 p
  | skip {p q : Program} {o : OpId} {os : List OpId} {n : Nat} : p.simplifyOp o = none →
      Rewriting p os n q → Rewriting p (o :: os) n q
  | step {p q r : Program} {o : OpId} {os : List OpId} {n : Nat} : p.simplifyOp o = some q →
      Rewriting q os n r → Rewriting p (o :: os) (n + 1) r

theorem exists_rewriting (p : Program) (os : List OpId) : ∃ n q, Rewriting p os n q := by
  induction os generalizing p with
  | nil => exact ⟨0, p, .done⟩
  | cons o os ih =>
    cases hs : p.simplifyOp o with
    | none =>
      have ⟨n, q, hq⟩ := ih p
      exact ⟨n, q, .skip hs hq⟩
    | some r =>
      have ⟨n, q, hq⟩ := ih r
      exact ⟨n + 1, q, .step hs hq⟩

namespace Rewriting

theorem applyWhere (h : Rewriting p os n q) (changed : Bool) :
    Program.applyWhere Program.simplifyOp p changed os = (q, changed || decide (0 < n)) := by
  induction h generalizing changed with
  | done           => simp [Program.applyWhere]
  | skip hs _ ih   => simp [Program.applyWhere, hs, ih]
  | step hs _ ih   => simp [Program.applyWhere, hs, ih]

theorem unique (h : Rewriting p os n q) (h' : Rewriting p os m r) : n = m ∧ q = r := by
  induction h generalizing m with
  | done =>
    cases h'
    exact ⟨rfl, rfl⟩
  | skip hs _ ih =>
    cases h' with
    | skip _ h'   => exact ih h'
    | step hs' _  => cases hs.symm.trans hs'
  | step hs _ ih =>
    cases h' with
    | skip hs' _  => cases hs.symm.trans hs'
    | step hs' h' =>
      cases hs.symm.trans hs'
      have ⟨hn, hr⟩ := ih h'
      exact ⟨congrArg (· + 1) hn, hr⟩

theorem eq_self (h : Rewriting p os 0 q) : q = p ∧ ∀ o ∈ os, p.simplifyOp o = none := by
  generalize hn : 0 = n at h
  induction h with
  | done => exact ⟨rfl, fun _ ho => absurd ho List.not_mem_nil⟩
  | skip hs _ ih =>
    have ⟨he, hos⟩ := ih hn
    exact ⟨he, List.forall_mem_cons.mpr ⟨hs, hos⟩⟩
  | step => cases hn

-- The steps are paid for by what the program gets lighter.
theorem lightens (h : Rewriting p os n q) (hp : p.Sound) (hr : p.Ranked rank) (ho : ∀ o ∈ os, p.Held o) :
    q.Sound ∧ q.Ranked rank ∧ n + q.totalWeight rank ≤ p.totalWeight rank := by
  induction h with
  | done => exact ⟨hp, hr, (Nat.zero_add _).le⟩
  | skip _ _ ih => exact ih hp hr fun u hu => ho u (List.mem_cons_of_mem _ hu)
  | @step p r q o os n hs _ ih =>
    have hw : o ∈ p.walk := by
      refine (ho o List.mem_cons_self).resolve_right fun he => ?_
      simp [Program.simplifyOp, simplification?, he] at hs
    obtain ⟨hl, hlt, hheld⟩ := hp.lightens_simplifyOp hr hw hs
    obtain ⟨hq, hrank, hle⟩ :=
      ih (hp.simplifyOp hs).left hl.ranked fun u hu => hheld u (ho u (List.mem_cons_of_mem o hu))
    have hlt := hl.totalWeight_lt hp.wellFormed hlt
    exact ⟨hq, hrank, by omega⟩

end Rewriting

end Round

section Loop

-- Round follows upon round until one takes no step. There is no bound on the rounds, and the steps are counted.
inductive Simplifying : Program → Nat → Program → Prop
  | done {p q : Program} : Rewriting p p.walk 0 q → Simplifying p 0 q
  | round {p q r : Program} {n m : Nat} : Rewriting p p.walk (n + 1) q → Simplifying q m r →
      Simplifying p (n + 1 + m) r

namespace Simplifying

-- The last round takes no step.
theorem last (h : Simplifying p n q) : Rewriting q q.walk 0 q := by
  induction h with
  | done h =>
    obtain ⟨rfl, _⟩ := h.eq_self
    exact h
  | round _ _ ih => exact ih

theorem unique (h : Simplifying p n q) (h' : Simplifying p m r) : n = m ∧ q = r := by
  induction h generalizing m with
  | done h =>
    cases h' with
    | done h'    => exact h.unique h'
    | round h' _ => exact absurd (h.unique h').left (by simp)
  | round h _ ih =>
    cases h' with
    | done h'       => exact absurd (h.unique h').left (by simp)
    | round h' hend =>
      obtain ⟨hn, rfl⟩ := h.unique h'
      obtain ⟨hm, hr⟩ := ih hend
      exact ⟨by omega, hr⟩

-- Enough rounds come to the end of the loop.
theorem simplifyRounds (h : Simplifying p n q) {rounds : Nat} (hn : n < rounds) (changed : Bool) :
    p.simplifyRounds rounds changed = (q, changed || decide (0 < n)) := by
  induction h generalizing rounds changed with
  | done h =>
    obtain ⟨k, rfl⟩ := Nat.exists_eq_add_of_lt hn
    obtain ⟨rfl, _⟩ := h.eq_self
    rw [Program.simplifyRounds, h.applyWhere]
    simp
  | @round p q r n m h _ ih =>
    obtain ⟨k, rfl⟩ := Nat.exists_eq_add_of_lt hn
    have hrest : m < n + 1 + m + k := by omega
    rw [Program.simplifyRounds, h.applyWhere]
    simp [ih hrest]

end Simplifying

-- The loop comes to an end, before it has taken more steps than the program has weight.
theorem Sound.exists_simplifying (hp : p.Sound) (hr : p.Ranked rank) :
    ∃ n q, n ≤ p.totalWeight rank ∧ Simplifying p n q := by
  induction hw : p.totalWeight rank using Nat.strong_induction_on generalizing p with
  | h weight ih =>
    obtain ⟨n, q, hq⟩ := exists_rewriting p p.walk
    obtain ⟨hs, hrank, hle⟩ := hq.lightens hp hr fun _ ho => .inl ho
    cases n with
    | zero => exact ⟨0, q, Nat.zero_le _, .done hq⟩
    | succ n =>
      obtain ⟨m, r, hm, hend⟩ := ih (q.totalWeight rank) (by omega) hs hrank rfl
      exact ⟨n + 1 + m, r, by omega, .round hq hend⟩

theorem Sound.simplify_simplifying (hp : p.Sound) :
    ∃ n ≤ p.operations.length * (p.operations.length + 1), Simplifying p n p.simplify.1 ∧
      (p.simplify.2 = true ↔ 0 < n) := by
  have hle := hp.ranked.totalWeight_le hp.wellFormed p.scopeSize_le
  obtain ⟨n, q, hn, hq⟩ := hp.exists_simplifying hp.ranked
  have hn := hn.trans hle
  have hs : p.simplify = (q, false || decide (0 < n)) := by
    apply hq.simplifyRounds
    exact Nat.lt_succ_of_le (hn.trans (Nat.mul_le_mul_right _ (Nat.le_succ _)))
  exact ⟨n, hn, by rwa [hs], by simp [hs]⟩

end Loop

section Normal

-- A change of sharding that is needed: it is used, does not follow another one, and its operand is on another
-- mesh or split in another way.
structure Needed (p : Program) (o : OpId) (sharding : Sharding) : Prop where
  used    : p.uses (p.output o) ≠ []
  first   : ∀ u inner, p.definer? (p.input o) = some u → (p.op u).kind ≠ .reshard inner
  changes : ∀ operand, p.sharding (p.input o) = some operand →
    ¬(operand.mesh = sharding.mesh ∧ operand.dimAxes = sharding.dimAxes)

theorem needed_of_simplification? {sharding : Sharding} (ho : (p.op o).erased = false)
    (hk : (p.op o).kind = .reshard sharding) (h : p.simplification? o = none) : p.Needed o sharding := by
  simp only [simplification?, ho, hk, simplifyReshard?, Bool.false_eq_true, if_false] at h
  split at h
  case isTrue => contradiction
  case isFalse hs =>
    split at h
    case isTrue => contradiction
    case isFalse hu =>
      constructor
      case used =>
        intro hnil
        simp only [uses, List.filter_eq_nil_iff] at hnil
        simp only [hasUses, Bool.not_eq_true', Bool.not_eq_false, List.any_eq_true] at hu
        obtain ⟨use, hm, hl⟩ := hu
        exact hnil use hm hl
      case first =>
        intro u inner hd hi
        simp [hd, hi] at h
      case changes =>
        intro operand ho hm
        simp [Sharding.satisfies, Sharding.splitsLike, ho, hm] at hs

end Normal

-- The loop ends, always in the same way and with as many steps as pairs of operations at most, and
-- says whether there were any. Then nothing can be simplified, each change of sharding is needed, and
-- simplifying again changes nothing.
theorem simplify_normal (hp : p.Reachable) (hv : p.verify = .ok ()) :
    let q := p.simplify.1
    (∃ n ≤ p.operations.length * (p.operations.length + 1), (∀ m r, Simplifying p m r ↔ m = n ∧ r = q) ∧
      (p.simplify.2 = true ↔ 0 < n)) ∧
    (∀ o, q.isLive o → q.simplification? o = none) ∧
    (∀ o sharding, q.isLive o → (q.op o).kind = .reshard sharding → q.Needed o sharding) ∧
    q.simplify = (q, false) := by
  intro q
  have hs : p.Sound := ((verify_iff hp.wellFormed).mp hv).left.sound
  have hq : q.Reachable := .run .simplify hp
  obtain ⟨n, hn, hloop, hc⟩ := hs.simplify_simplifying
  have hlast := hloop.last
  have hnone (o : OpId) (ho : q.isLive o) : q.simplification? o = none := by
    have hw := (hq.mem_walk_iff hs.simplify.left.rooted).mpr ho
    exact Option.map_eq_none_iff.mp (hlast.eq_self.right o hw)
  have hunique (m : Nat) (r : Program) : Simplifying p m r ↔ m = n ∧ r = q := by
    constructor
    case mp  => exact fun h => h.unique hloop
    case mpr =>
      rintro ⟨rfl, rfl⟩
      exact hloop
  refine ⟨⟨n, hn, hunique, hc⟩, hnone, fun o sharding ho hk => ?_, ?_⟩
  case refine_1 => exact needed_of_simplification? (erased_of_isLive ho) hk (hnone o ho)
  case refine_2 => exact (Simplifying.done hlast).simplifyRounds (Nat.succ_pos _) false

-- Three changes of sharding in a row.
def reshardedChain? : Option Program :=
  let type : TensorType := ⟨[8], .f32⟩
  let whole : Sharding := ⟨.symbol "mesh", [{}], []⟩
  let split : Sharding := ⟨.symbol "mesh", [{ axes := [⟨"b", none⟩] }], []⟩
  build "main" [
    .mesh "mesh" { axes := [⟨"a", 2⟩, ⟨"b", 2⟩] },
    .argument type (some ⟨.symbol "mesh", [{ axes := [⟨"a", none⟩] }], []⟩),
    .append entry (.reshard ⟨0⟩ split),
    .append entry (.reshard ⟨1⟩ whole),
    .append entry (.reshard ⟨2⟩ split),
    .append entry (.terminator [⟨3⟩])]

def reshardedChain : Program :=
  reshardedChain?.get (by rfl)

theorem simplify_normal_reshardedChain :
    let p := reshardedChain
    let q := p.simplify.1
    p.Reachable ∧ p.verify = .ok () ∧ p.walk = [⟨0⟩, ⟨1⟩, ⟨2⟩, ⟨3⟩] ∧ p.simplify.2 = true ∧ q.walk = [⟨2⟩, ⟨3⟩] ∧
      (∃ n ≤ p.operations.length * (p.operations.length + 1), (∀ m r, Simplifying p m r ↔ m = n ∧ r = q) ∧
        (p.simplify.2 = true ↔ 0 < n)) ∧
      (∀ o, q.isLive o → q.simplification? o = none) ∧
      (∀ o sharding, q.isLive o → (q.op o).kind = .reshard sharding → q.Needed o sharding) ∧
      q.simplify = (q, false) := by
  have hp : reshardedChain.Reachable := build_reachable (Option.some_get _).symm
  have hv : reshardedChain.verify = .ok () := by rfl
  exact ⟨hp, hv, by rfl, by rfl, by rfl, simplify_normal hp hv⟩

end MeshSharding.Program
