import MeshSharding.Proofs.Entries
import MeshSharding.Proofs.Spread.Convergence

namespace MeshSharding.Program

variable {p q : Program} {v : ValueId} {s : Sharding} {plan : SpreadPlan} {options : SpreadOptions} {write : Write}

-- Spreading stops at a write that fails, and goes on to the groups when all of them have been made. The groups are
-- those that the program started with, so that only their shardings can be at fault.
theorem spread_performs (hplan : p.spreadPlan options = .ok plan) :
    ∃ result, p.Performs (p.spreadWrites options) (p.spread options).program result ∧
      match result with
      | .ok ()   => (∃ changed, (p.spread options).result = .ok changed) ∨ ∃ e, (p.spread options).result = .error e ∧
        (e.cause = .notConverged options.maxIterations ∨ ∃ id s t, e.cause = .groupConflict id s t)
      | .error e => (p.spread options).result = .error e := by
  obtain ⟨groups, hgroups, -⟩ := links_eq_ok_iff.mp ((p.spreadPlan_eq_ok_iff options).mp hplan).left
  obtain ⟨result, hperforms, hresult⟩ :=
    plan.run_performs p options.maxIterations (List.range plan.links.length) false
  refine ⟨result, by simpa only [spreadWrites, hplan, spread_program p options hplan] using hperforms, ?_⟩
  simp only [spread, hplan, Outcome.andThen]
  cases result with
  | error e => simp only [hresult]
  | ok _    =>
    obtain ⟨changed, hr⟩ | hr := hresult
    case inr =>
      rw [p.spreadPlan_options options hplan] at hr
      refine .inr ⟨⟨.program, .notConverged options.maxIterations⟩, ?_, .inl rfl⟩
      simp only [hr]
    case inl =>
      have hg := (read_of_bare_eq (·.groups) (fun r => r.bare_groups) hperforms.bare_eq.left).trans hgroups
      simp only [hr, hg, bind, Except.bind, pure, Except.pure]
      split
      case h_1 e hc => exact .inr ⟨e, rfl, .inr (checkAgreement_error hc)⟩
      case h_2      => exact .inl ⟨changed, rfl⟩

theorem exists_spreadPlan_of_verify (hp : p.WellFormed) (hv : p.verify = .ok ()) (options : SpreadOptions) :
    ∃ plan, p.spreadPlan options = .ok plan := by
  obtain ⟨groups, hgroups⟩ := groups_ok_iff.mpr ((verify_iff hp).mp hv).left.groups
  exact ⟨_, spreadPlan_eq options (links_eq_ok_iff.mpr ⟨groups, hgroups, rfl⟩)⟩

theorem WellFormed.overruns_of_performs {writes : List Write} {result : Except Diagnostic Unit} (hp : p.WellFormed)
    (h : p.Performs writes q result) (hw : write ∈ writes) : write.program.Overruns v ↔ p.Overruns v := by
  induction h with
  | none p => simp at hw
  | last _ =>
    obtain rfl := List.mem_singleton.mp hw
    rfl
  | next hs _ ih =>
    obtain rfl | hw := List.mem_cons.mp hw
    · rfl
    · exact (ih (hp.of_bare_eq (setSharding_bare hs)) hw).trans (hp.overruns_of_setSharding hs)

-- What a member adopts fits it, and is written unless there is no entry for it.
theorem Reachable.accepts (hp : p.Reachable) (hplan : p.spreadPlan options = .ok plan)
    (hw : write ∈ p.spreadWrites options) : write.program.isSettable write.value ∧
      write.program.checkFits write.sharding write.value = .ok () ∧
      ((∃ q, write.outcome = .ok q) ↔ ¬ p.Overruns write.value) := by
  obtain ⟨_, hperforms, -⟩ := spread_performs hplan
  have hadopted : plan.Adopted write := SpreadPlan.mem_runWrites (by simpa only [spreadWrites, hplan] using hw)
  obtain ⟨link, hl, hm⟩ := hadopted.member
  obtain ⟨proposal, hchanges⟩ := hadopted.changes
  have hlt : write.value.index < write.program.values.length := by
    have hlt := (hp.wellFormed.spreadPlan_within hplan link hl).members _ hm
    rwa [read_of_bare_eq (·.values.length) (by simp) (hperforms.bare_eq.right write hw)]
  refine ⟨hchanges.settable, hchanges.fits, ?_⟩
  rw [Write.outcome, (hperforms.reachable hp write hw).exists_setSharding_iff hlt,
    hp.wellFormed.overruns_of_performs hperforms hw]
  exact ⟨fun h => h.right.right, fun h => ⟨hchanges.fits, hchanges.settable, h⟩⟩

-- The body of the program becomes the body of a named computation in a block that is not part of the program. The
-- computation states a sharding for the one argument that there is.
def calledBody? : Option Program :=
  let type : TensorType := ⟨[8], .f32⟩
  build "main" [
    .mesh "mesh" { axes := [⟨"a", 2⟩] },
    .argument type none,
    .append entry (.terminator []),
    .region [],
    .append ⟨1⟩ (.named ⟨"f", some [⟨.symbol "mesh", [{}], []⟩], none⟩ [⟨0⟩] entry)]

-- Then the body gets another argument, which a constraint is on.
def overrunBody? : Option Program :=
  [ .argument ⟨[8], .f32⟩ none,
    .append entry (.constraint ⟨1⟩ ⟨.symbol "mesh", [{ axes := [.whole "a"] }], []⟩),
    .append entry (.terminator [⟨2⟩])].foldlM buildStep? ((calledBody?.get (by rfl)).erase ⟨0⟩)

def overrunBody : Program :=
  overrunBody?.get (by rfl)

end MeshSharding.Program
