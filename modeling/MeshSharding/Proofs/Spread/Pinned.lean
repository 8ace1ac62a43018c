import MeshSharding.Proofs.Spread.Fixpoint
import MeshSharding.Proofs.Verify.Operand

namespace MeshSharding

namespace Program

variable {p q : Program} {v w : ValueId} {sharding : Sharding}

theorem setSharding_sharding_eq_of_fixed (hq : p.setSharding v sharding = .ok q)
    (hw : p.isSettable w = false) : q.sharding w = p.sharding w := by
  obtain ⟨place, hpv, hwrite⟩ := setSharding_written hq
  refine hwrite.sharding_eq hpv ?_
  by_contra hc
  obtain ⟨other, hpw⟩ := Option.ne_none_iff_exists'.mp hc
  simp [isSettable_iff.mpr ⟨other, hpw⟩] at hw

end Program

namespace SpreadPlan

variable {plan : SpreadPlan} {start p q : Program} {v w : ValueId} {vs : List ValueId} {link : Link}
  {proposal : Sharding}

theorem Adopts.sharding_eq_of_fixed (h : plan.Adopts proposal p vs q) (hw : p.isSettable w = false) :
    q.sharding w = p.sharding w := by
  induction h with
  | nil => rfl
  | cons _ hq _ ih =>
    have hs := Program.read_of_bare_eq (fun r => r.isSettable w) (by simp) (Program.setSharding_bare hq)
    exact (ih (hs.trans hw)).trans (Program.setSharding_sharding_eq_of_fixed hq hw)

theorem Evaluates.sharding_eq_of_fixed (h : plan.Evaluates p link vs q) (hw : p.isSettable w = false) :
    q.sharding w = p.sharding w := by
  cases h with
  | nothing      => rfl
  | adopt _ _ ha => exact ha.sharding_eq_of_fixed hw

theorem Adopts.free (h : plan.Adopts proposal p vs q) (hv : v ∈ vs) : plan.storage v ∉ plan.pinned := by
  induction h with
  | nil => contradiction
  | cons hc _ _ ih =>
    obtain rfl | hv := List.mem_cons.mp hv
    · exact hc.free
    · exact ih hv

theorem Evaluates.free (h : plan.Evaluates p link vs q) (hv : v ∈ vs) : plan.storage v ∉ plan.pinned := by
  cases h with
  | nothing      => contradiction
  | adopt _ _ ha => exact ha.free hv

-- Each evaluation of a run keeps the shardings of pinned values, or has them filled.
theorem run_keptOrFilled (hp : start.WellFormed) (hs : plan.storage = start.storageOf)
    (hl : ∀ link ∈ plan.links, link.Within start) (hw : w.index < start.values.length)
    (hpin : start.storageOf w ∈ plan.pinned) (budget : Nat) (queue : List Nat) (changed : Bool) :
    Program.KeptOrFilled start start (plan.run budget queue changed start).program w := by
  let R (p q : Program) : Prop := p.bare = start.bare → start.KeepsBoundaries p →
    q.bare = start.bare ∧ p.KeepsBoundaries q ∧ Program.KeptOrFilled start p q w
  have hrun : R start (plan.run budget queue changed start).program := by
    refine run_of_evaluates (R := R) ?_ ?_ ?_ budget queue changed start
    · exact fun p hb _ => ⟨hb, .refl p, .inl rfl⟩
    · intro p q r hpq hqr hb hk
      obtain ⟨hbq, hkq, hfq⟩ := hpq hb hk
      obtain ⟨hbr, hkr, hfr⟩ := hqr hbq (hk.trans hkq)
      exact ⟨hbr, hkq.trans hkr, hfq.trans hfr hkr⟩
    · intro p q vs i he hb hk
      have hlink := forall_links hl ⟨by simp, by simp⟩ i
      refine ⟨he.bare_eq.trans hb, he.keepsBoundaries, he.keptOrFilled hp hb hk hlink hw fun v hv hst => ?_⟩
      exact he.free hv (by rw [hs, ← hst]; exact hpin)
  exact (hrun rfl (.refl start)).right.right

end SpreadPlan

namespace Program

variable {p q : Program} {v : ValueId} {o : OpId}

theorem spread_sharding_eq_of_fixed (options : SpreadOptions) (hv : p.isSettable v = false) :
    (p.spread options).program.sharding v = p.sharding v := by
  cases hplan : p.spreadPlan options with
  | error e =>
    have he : (p.spread options).program = p := by simp [spread, hplan]
    rw [he]
  | ok plan =>
    rw [spread_program p options hplan]
    refine (SpreadPlan.run_of_evaluates (R := fun p q => p.isSettable v = false →
      q.isSettable v = false ∧ q.sharding v = p.sharding v) ?_ ?_ ?_ _ _ _ p hv).right
    · exact fun _ hv => ⟨hv, rfl⟩
    · exact fun hpq hqr hv => ⟨(hqr (hpq hv).left).left, (hqr (hpq hv).left).right.trans (hpq hv).right⟩
    · intro p q vs _ he hv
      have hs := read_of_bare_eq (fun r => r.isSettable v) (by simp) he.bare_eq
      exact ⟨hs.trans hv, he.sharding_eq_of_fixed hv⟩

theorem spread_keptOrFilled (hp : p.WellFormed) (options : SpreadOptions)
    (hv : v.index < p.values.length) (hpin : p.storageOf v ∈ p.pinned) :
    KeptOrFilled p p (p.spread options).program v := by
  cases hplan : p.spreadPlan options with
  | error e =>
    have he : (p.spread options).program = p := by simp [spread, hplan]
    exact .inl (by rw [he])
  | ok plan =>
    have hpinned : plan.pinned = p.pinned := ((p.spreadPlan_eq_ok_iff options).mp hplan).right.right.right
    rw [spread_program p options hplan]
    exact SpreadPlan.run_keptOrFilled hp (spreadPlan_storage hplan) (hp.spreadPlan_within hplan) hv
      (hpinned ▸ hpin) _ _ _

theorem mem_pinned {collective : Collective} (ho : o ∈ p.walk)
    (hk : (p.op o).kind = .collective collective) : p.storageOf (p.input o) ∈ p.pinned :=
  List.mem_filterMap.mpr ⟨o, ho, by simp [hk]⟩

section Check

variable {collective : Collective} {ref : MeshRef}

theorem checkUnary_of_bare_eq (h : q.bare = p.bare) : q.checkUnary (q.op o) = p.checkUnary (p.op o) := by
  have ho : (q.op o).operands = (p.op o).operands :=
    read_of_bare_eq (fun r => (r.op o).operands) (by simp) h
  have hr : (q.op o).results = (p.op o).results := read_of_bare_eq (fun r => (r.op o).results) (by simp) h
  have ht (v : ValueId) : q.typeOf v = p.typeOf v := read_of_bare_eq (fun r => r.typeOf v) (by simp) h
  simp only [checkUnary, ho, hr, ht]

theorem kind_eq_of_bare_eq (h : q.bare = p.bare) (hk : (p.op o).kind = .collective collective) :
    (q.op o).kind = .collective collective := by
  have hb := read_of_bare_eq (fun r => (r.op o).kind.bare) (by simp) h
  cases hq : (q.op o).kind <;> simp_all [OpKind.bare]

theorem checkOp_eq_of_sharding_eq (h : q.bare = p.bare) (hk : (p.op o).kind = .collective collective)
    (hs : q.sharding (p.input o) = p.sharding (p.input o)) : q.checkOp o = p.checkOp o := by
  have hm : q.meshes = p.meshes := read_of_bare_eq (fun r => r.meshes) (by simp) h
  have ht (v : ValueId) : q.typeOf v = p.typeOf v := read_of_bare_eq (fun r => r.typeOf v) (by simp) h
  have hc (v : ValueId) (hv : q.sharding v = p.sharding v) :
      q.checkCollective collective v = p.checkCollective collective v := by
    simp only [checkCollective, checkFits, operandSharding, hm, ht, hv]
  simp only [checkOp, kind_eq_of_bare_eq h hk, hk, checkUnary_of_bare_eq h]
  cases hu : p.checkUnary (p.op o) with
  | error e => rfl
  | ok v    => exact hc v (input_eq_of_checkUnary hu ▸ hs)

-- An operand without a sharding counts as fully replicated, on the mesh that the collective declares.
-- So with an open sharding it is a question of the mesh alone.
theorem checkOp_filled_iff (h : q.bare = p.bare) (hk : (p.op o).kind = .collective collective)
    (hn : p.sharding (p.input o) = none)
    (hf : q.sharding (p.input o) = some (Sharding.fullyOpen ref (p.typeOf (p.input o)).rank))
    (hc : p.checkOp o = .ok ()) :
    q.checkOp o = .ok () ↔ p.meshes.resolve ref = p.meshes.resolve collective.out.mesh := by
  have hm : q.meshes = p.meshes := read_of_bare_eq (fun r => r.meshes) (by simp) h
  have ht := read_of_bare_eq (fun r => r.typeOf (p.input o)) (by simp) h
  have hi : q.input o = p.input o := read_of_bare_eq (fun r => r.input o) (by simp) h
  rw [checkOp_collective_iff hk] at hc
  rw [checkOp_collective_iff (kind_eq_of_bare_eq h hk), checkUnary_of_bare_eq h, hi]
  obtain ⟨_, operand, _, _, ho, _⟩ := checkCollective_eq_ok_iff.mp hc.right
  simp only [operandSharding, hn] at ho
  split at ho
  case isFalse => contradiction
  case isTrue hallow =>
    have hdifferent := Collective.allowsDifferentMeshes_of_allowsMissingOperand hallow
    have hop := operandSharding_of_missing hn hallow
    have ho' : q.operandSharding collective (p.input o) = _ := operandSharding_of_some hf
    constructor
    · rintro ⟨_, hq⟩
      obtain ⟨_, _, mesh', outMesh', hopq, hmesh', hout', hsame', _⟩ := checkCollective_eq_ok_iff.mp hq
      cases ho'.symm.trans hopq
      rw [hm] at hmesh' hout'
      simp only [hdifferent, Bool.false_eq_true, false_or] at hsame'
      exact hmesh'.trans (hsame' ▸ hout'.symm)
    · intro hr
      refine ⟨hc.left, checkCollective_congr hc.right hm ht hop ho' hr ?_
        (by simp [Sharding.fullyOpen, AxisRef.anyOverlaps])⟩
      simp [Sharding.fullyOpen, Sharding.fullyReplicated, Sharding.dimAxes]

end Check

-- Fixed shardings stay, and so do those of the operands of collectives, unless one is filled in. Then
-- the collective is as good as before if its operand is on the mesh that it declares.
theorem spread_pins (h : p.Reachable) (options : SpreadOptions) :
    let q := (p.spread options).program
    (∀ v, p.isSettable v = false → q.sharding v = p.sharding v) ∧
      ∀ o ∈ p.walk, ∀ collective, (p.op o).kind = .collective collective →
        let v := p.input o
        (q.sharding v = p.sharding v ∧ q.checkOp o = p.checkOp o) ∨
          (p.sharding v = none ∧ p.FilledBeside q v ∧
            ∃ ref, q.sharding v = some (Sharding.fullyOpen ref (p.typeOf v).rank) ∧
              (p.checkOp o = .ok () →
                (q.checkOp o = .ok () ↔ p.meshes.resolve ref = p.meshes.resolve collective.out.mesh))) := by
  intro q
  have hp := h.wellFormed
  have hb : q.bare = p.bare := (p.spread_refines options).bare_eq
  refine ⟨fun v hv => spread_sharding_eq_of_fixed options hv, ?_⟩
  intro o ho collective hk v
  have hv : v.index < p.values.length := hp.input_lt (by simp [hk, OpKind.isUnary])
  obtain hs | ⟨hn, hf, ref, hr⟩ := spread_keptOrFilled hp options hv (mem_pinned ho hk)
  · exact .inl ⟨hs, checkOp_eq_of_sharding_eq hb hk hs⟩
  · exact .inr ⟨hn, hf, ref, hr, checkOp_filled_iff hb hk hn hr⟩

-- Two operands flow into a named computation that has no shardings yet. One of them is sharded, and the
-- argument for the other one is reduced over an axis of another mesh.
def reducedBoundary? : Option Program :=
  let type : TensorType := ⟨[8], .f32⟩
  let sharding : Sharding := ⟨.symbol "other", [{ axes := [⟨"b", none⟩], closed := false }], []⟩
  build "main" [
    .mesh "mesh" { axes := [⟨"a", 2⟩] },
    .mesh "other" { axes := [⟨"b", 2⟩] },
    .argument type none,
    .argument type (some sharding),
    .region [type, type],
    .append ⟨1⟩ (.collective ⟨2⟩ ⟨.allReduce [⟨"a", none⟩], ⟨.symbol "mesh", [{}], []⟩⟩),
    .append ⟨1⟩ (.terminator []),
    .append entry (.named ⟨"f", none, none⟩ [⟨0⟩, ⟨1⟩] ⟨1⟩),
    .append entry (.terminator [])]

def reducedBoundary : Program :=
  reducedBoundary?.get (by rfl)

-- The operand of the reduction is filled in on the mesh of the other argument, and the reduction is no
-- longer as it has to be.
theorem spread_pins_not_reducedBoundary :
    let p := reducedBoundary
    let q := (p.spread {}).program
    p.verify = .ok () ∧ (p.spread {}).result = .ok true ∧ p.isLive ⟨0⟩ ∧
      p.sharding (p.input ⟨0⟩) = none ∧
      q.sharding (p.input ⟨0⟩) = some (Sharding.fullyOpen (.symbol "other") 1) ∧
      p.checkOp ⟨0⟩ = .ok () ∧
      q.checkOp ⟨0⟩ = .error (.incompatibleMeshes (.symbol "other") (.symbol "mesh")) :=
  ⟨by rfl, by rfl, by rfl, by rfl, by rfl, by rfl, by rfl⟩

theorem spread_pins_reducedBoundary :
    let p := reducedBoundary
    let q := (p.spread {}).program
    p.Reachable ∧ (∀ v, p.isSettable v = false → q.sharding v = p.sharding v) ∧
      ∀ o ∈ p.walk, ∀ collective, (p.op o).kind = .collective collective →
        let v := p.input o
        (q.sharding v = p.sharding v ∧ q.checkOp o = p.checkOp o) ∨
          (p.sharding v = none ∧ p.FilledBeside q v ∧
            ∃ ref, q.sharding v = some (Sharding.fullyOpen ref (p.typeOf v).rank) ∧
              (p.checkOp o = .ok () →
                (q.checkOp o = .ok () ↔ p.meshes.resolve ref = p.meshes.resolve collective.out.mesh))) := by
  have hr : reducedBoundary.Reachable := build_reachable (Option.some_get _).symm
  exact ⟨hr, spread_pins hr {}⟩

end Program

end MeshSharding
