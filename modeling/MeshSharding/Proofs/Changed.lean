import MeshSharding.Proofs.Finish.Guidance
import MeshSharding.Proofs.Simplify.Normal
import MeshSharding.Proofs.Spread.Convergence
import MeshSharding.Proofs.Spread.Fixpoint

namespace MeshSharding

-- Either the flag is down and nothing has happened to the program, or the flag is up and the program is told
-- from what it was.
inductive Flagged (p : Program) (Differs : Program → Prop) : Program → Bool → Prop
  | kept : Flagged p Differs p false
  | changed {q : Program} : Differs q → Flagged p Differs q true

variable {p q : Program} {Differs : Program → Prop} {changed final : Bool}

theorem Flagged.imp {Apart : Program → Prop} (h : Flagged p Differs q changed) (hd : Differs q → Apart q) :
    Flagged p Apart q changed := by
  cases h with
  | kept      => exact .kept
  | changed h => exact .changed (hd h)

theorem Flagged.changed_iff (h : Flagged p (· ≠ p) q changed) : changed = true ↔ q ≠ p := by
  cases h with
  | kept      => simp
  | changed h => simpa using h

section Loops

-- The first step that does something is taken on the program itself. It tells the program from what it was, and the
-- later ones do not change that.
theorem Outcome.forEach_flagged {α : Type} {step : Program → α → Outcome Bool} {items : List α}
    (hstep : ∀ a ∈ items, ∀ c, (step p a).result = .ok c → Flagged p Differs (step p a).program c)
    (hkeep : ∀ q, ∀ a ∈ items, Differs q → Differs (step q a).program) (h : Flagged p Differs q changed)
    (hr : (forEach step q changed items).result = .ok final) :
    Flagged p Differs (forEach step q changed items).program final := by
  induction items generalizing q changed with
  | nil =>
    cases hr
    exact h
  | cons a items ih =>
    rw [forEach, andThen] at hr ⊢
    cases hs : (step q a).result with
    | error e => simp [hs] at hr
    | ok c    =>
      simp only [hs] at hr ⊢
      refine ih (fun b hb => hstep b (List.mem_cons_of_mem a hb)) (fun r b hb => hkeep r b (List.mem_cons_of_mem a hb))
        ?_ hr
      cases h with
      | kept      => exact hstep a List.mem_cons_self c hs
      | changed h => exact .changed (hkeep q a List.mem_cons_self h)

theorem Program.applyWhere_flagged {step : Program → OpId → Option Program} {os : List OpId}
    (hstep : ∀ o ∈ os, ∀ r, step p o = some r → Differs r)
    (hkeep : ∀ q r, ∀ o ∈ os, step q o = some r → Differs q → Differs r) (h : Flagged p Differs q changed) :
    Flagged p Differs (applyWhere step q changed os).1 (applyWhere step q changed os).2 := by
  induction os generalizing q changed with
  | nil => exact h
  | cons o os ih =>
    rw [applyWhere]
    have hstep' := fun u (hu : u ∈ os) => hstep u (List.mem_cons_of_mem o hu)
    have hkeep' := fun q r u (hu : u ∈ os) => hkeep q r u (List.mem_cons_of_mem o hu)
    cases hs : step q o with
    | none   => exact ih hstep' hkeep' h
    | some r =>
      refine ih hstep' hkeep' (.changed ?_)
      cases h with
      | kept      => exact hstep o List.mem_cons_self r hs
      | changed h => exact hkeep q r o List.mem_cons_self hs h

end Loops

namespace Program

variable {r : Program} {o : OpId} {b : BlockId} {position : Nat} {owner : ValueId} {targets owners : List ValueId}

section Prepare

-- The edits of a pass have put in an operation or taken one out.
structure Advances (p q : Program) : Prop where
  edits   : PassEdits p q
  further : p.operations.length < q.operations.length ∨ ∃ o, (p.op o).erased = false ∧ (q.op o).erased

theorem Advances.ne (h : Advances p q) : q ≠ p := by
  rintro rfl
  obtain hl | ⟨o, hn, he⟩ := h.further
  · exact Nat.lt_irrefl _ hl
  · simp [hn] at he

theorem Advances.trans (h : Advances p q) (hp : p.WellFormed) (h' : PassEdits q r) : Advances p r where
  edits   := h.edits.trans h'
  further := by
    have hr := (h'.reshapes (h.edits.reshapes hp).left).right
    have hl := (h.edits.reshapes hp).right.length
    obtain hlt | ⟨o, hn, he⟩ := h.further
    · exact .inl (hlt.trans_le hr.length)
    · exact .inr ⟨o, hn, hr.erased o ((index_lt_of_not_erased hn).trans_le hl) he⟩

theorem moveConstraint_flagged (ho : (p.op o).erased = false) (h : (p.moveConstraint o).result = .ok final) :
    Flagged p (Advances p) (p.moveConstraint o).program final := by
  have hedits := WellFormed.edits_moveConstraint (p := p) o
  simp only [moveConstraint] at h hedits ⊢
  cases hk : (p.op o).kind with
  | constraint sharding =>
    simp only [hk] at h hedits ⊢
    split at h
    case isTrue hs =>
      cases h
      rw [if_pos hs]
      exact .kept
    case isFalse hs =>
      rw [if_neg hs] at hedits ⊢
      cases hq : p.setSharding (p.input o) sharding with
      | error e => simp [hq] at h
      | ok q    =>
        simp only [hq, Except.ok.injEq] at h hedits ⊢
        subst h
        exact .changed ⟨hedits, .inr ⟨o, ho, by simp [op_erase]⟩⟩
  | _ =>
    simp only [hk, Except.ok.injEq] at h ⊢
    subst h
    exact .kept

theorem attachEdge_advances (hp : p.WellFormed) (h : p.attachEdge b position owner targets = .ok q)
    (hb : b.index < p.blocks.length) (hi : position ≤ (p.block b).operations.length) : Advances p q where
  edits   := (hp.edits_attachEdge h hb hi).left
  further := by
    obtain ⟨r, edge, sharding, hr, hq⟩ := attachEdge_eq_ok h
    have hl := read_of_bare_eq (·.operations.length) bare_length_operations hq
    rw [length_operations_replaceUsesExcept, (insert_eq_ok hr).left, length_operations_place] at hl
    exact .inl (by omega)

theorem attachEdges_flagged (hp : p.WellFormed) {view : FlowView} (h : Flagged p (Advances p) q changed)
    (hb : b.index < q.blocks.length) (hi : position ≤ (q.block b).operations.length)
    (hr : (attachEdges view b q position changed owners).result = .ok final) :
    Flagged p (Advances p) (attachEdges view b q position changed owners).program final := by
  induction owners generalizing q position changed with
  | nil =>
    cases hr
    exact h
  | cons owner owners ih =>
    rw [attachEdges] at hr ⊢
    split at hr
    case isTrue hs =>
      rw [if_pos hs]
      exact ih h hb hi hr
    case isFalse hs =>
      rw [if_neg hs]
      cases ha : q.attachEdge b position owner (view.targets q owner) with
      | error e => simp [ha] at hr
      | ok r    =>
        simp only [ha] at hr ⊢
        have hq : q.WellFormed := by
          cases h with
          | kept      => exact hp
          | changed h => exact (h.edits.reshapes hp).left
        obtain ⟨hedits, hb', hl⟩ := hq.edits_attachEdge ha hb hi
        refine ih (.changed ?_) hb' (by omega) hr
        cases h with
        | kept      => exact attachEdge_advances hp ha hb hi
        | changed h => exact h.trans hp hedits

theorem attachEdgesOf_flagged (hp : p.WellFormed) (hh : p.Housed) (h : (p.attachEdgesOf o).result = .ok final) :
    Flagged p (Advances p) (p.attachEdgesOf o).program final := by
  rw [attachEdgesOf] at h ⊢
  split at h
  case _ hv =>
    exact attachEdges_flagged hp .kept (hh.lt (erased_of_flowView? hv)) (WellFormed.positionAfter_le p o) h
  case _ =>
    cases h
    exact .kept

theorem prepare_flagged (hp : p.WellFormed) (hh : p.Housed) (h : p.prepare.result = .ok final) :
    Flagged p (Advances p) p.prepare.program final := by
  rw [prepare] at h ⊢
  cases hg : p.groups.bind p.checkAgreement with
  | error e => simp [hg] at h
  | ok _    =>
    simp only [hg, Outcome.andThen] at h ⊢
    cases hm : (Outcome.forEach moveConstraint p false p.walk).result with
    | error e => simp [hm] at h
    | ok c    =>
      simp only [hm] at h ⊢
      refine Outcome.forEach_flagged (fun o _ c hc => attachEdgesOf_flagged hp hh hc) (fun q o _ hq => ?_) ?_ h
      · obtain ⟨hw, hr⟩ := hq.edits.reshapes hp
        exact hq.trans hp (hw.edits_attachEdgesOf (hr.housed hh) o)
      · exact Outcome.forEach_flagged (fun o ho c hc => moveConstraint_flagged (hp.not_erased ho) hc)
          (fun q o _ hq => hq.trans hp (WellFormed.edits_moveConstraint o)) .kept hm

end Prepare

section Done

variable {Mark : Prop}

-- Steps on the program itself show the mark, and then it shows for good.
theorem applyWhere_marked {step : Program → OpId → Option Program} {os : List OpId}
    (hstep : q = p → ∀ o ∈ os, ∀ r, step p o = some r → Mark) (h : Flagged p (fun _ => Mark) q changed) :
    Flagged p (fun _ => Mark) (applyWhere step q changed os).1 (applyWhere step q changed os).2 := by
  cases h with
  | kept      => exact applyWhere_flagged (hstep rfl) (fun _ _ _ _ _ h => h) .kept
  | changed h => exact applyWhere_flagged (fun _ _ _ _ => h) (fun _ _ _ _ _ h => h) (.changed h)

-- A program with something to finish differs from one that is finished.
theorem Sound.finish_flagged (hp : p.Sound) : Flagged p (· ≠ p) p.finish.1 p.finish.2 := by
  have hf : Flagged p (fun _ => ∃ o ∈ p.walk, (p.op o).kind.isTemporary) p.finish.1 p.finish.2 := by
    refine applyWhere_marked (fun heq o ho r hs => ⟨o, heq ▸ ho, ?_⟩)
      (applyWhere_marked (fun _ o ho r hs => ⟨o, ho, ?_⟩) .kept)
    · by_contra hc
      simp [finishOp_eq_none (by simpa using hc)] at hs
    · by_contra hc
      simp [sinkOp_eq_none (by simpa using hc)] at hs
  refine hf.imp fun h heq => ?_
  obtain ⟨o, ho, ht⟩ := h
  have hcleared := hp.finish_cleared.right
  rw [heq] at hcleared
  simp [hcleared o ho] at ht

-- Nothing can be simplified at the end.
theorem Sound.simplify_flagged (hp : p.Sound) : Flagged p (· ≠ p) p.simplify.1 p.simplify.2 := by
  obtain ⟨n, -, hloop, hc⟩ := hp.simplify_simplifying
  cases hchanged : p.simplify.2 with
  | false =>
    have hn : n = 0 := by simpa [hchanged] using hc
    have hself : p.simplify.1 = p := by
      cases hloop with
      | done h    => exact h.eq_self.left
      | round _ _ => omega
    rw [hself]
    exact .kept
  | true =>
    refine .changed fun heq => ?_
    have hlast := hloop.last
    rw [heq] at hloop hlast
    obtain ⟨rfl, -⟩ := hloop.unique (.done hlast)
    simp [hchanged] at hc

end Done

end Program

section Spread

-- The shardings are refined, and not all are as before.
structure Program.Exceeds (p q : Program) : Prop where
  refines : p.Refines q
  ne      : q.sharding ≠ p.sharding

variable {r : Program}

theorem Program.Exceeds.trans (h : Exceeds p q) (h' : q.Refines r) : Exceeds p r where
  refines := h.refines.trans h'
  ne heq  := by
    refine h.ne (funext fun v => ?_)
    have hr := congrFun heq v
    cases hq : q.sharding v with
    | none   =>
      cases hp : p.sharding v with
      | none   => rfl
      | some s =>
        obtain ⟨t, ht, -⟩ := h.refines.sharding v s hp
        simp [ht] at hq
    | some t =>
      obtain ⟨u, hu, htu⟩ := h'.sharding v t hq
      have hp : p.sharding v = some u := hr.symm.trans hu
      obtain ⟨t', ht, hut⟩ := h.refines.sharding v u hp
      cases hq.symm.trans ht
      rw [hp, hut.antisymm htu]

namespace SpreadPlan

variable {plan : SpreadPlan} {v : ValueId} {vs : List ValueId} {proposal refined : Sharding} {link : Link}

theorem Changes.exceeds (h : plan.Changes p proposal v refined) (hq : p.setSharding v refined = .ok q)
    (hv : v.index < p.values.length) : p.Exceeds q where
  refines := h.refines_program hq
  ne heq  := h.ne (heq ▸ Program.setSharding_sharding_eq hq hv)

theorem Evaluates.flagged (h : plan.Evaluates p link vs q) (hl : link.Within p) :
    Flagged p p.Exceeds q (!vs.isEmpty) := by
  cases h with
  | nothing        => exact .kept
  | adopt _ hsub h =>
    cases h with
    | nil          => exact .kept
    | cons hc hq h => exact .changed ((hc.exceeds hq (hl.members _ (hsub List.mem_cons_self))).trans h.refines_program)

theorem run_flagged (hl : ∀ link ∈ plan.links, link.Within p) {budget : Nat} {queue : List Nat}
    (h : Flagged p p.Exceeds q changed) (hr : (plan.run budget queue changed q).result = .ok final) :
    Flagged p p.Exceeds (plan.run budget queue changed q).program final := by
  induction budget generalizing queue changed q with
  | zero =>
    cases queue with
    | nil      => cases hr; exact h
    | cons _ _ => simp [run] at hr
  | succ budget ih =>
    cases queue with
    | nil              => cases hr; exact h
    | cons index queue =>
      obtain ⟨vs, he, hvs⟩ := evaluate_evaluates plan q ((plan.links[index]?).getD default)
      have hlink : ((plan.links[index]?).getD default).Within p := forall_links hl ⟨by simp, by simp⟩ index
      rw [run, Outcome.andThen] at hr ⊢
      cases hres : (plan.evaluate q ((plan.links[index]?).getD default)).result with
      | error e    => simp [hres] at hr
      | ok updated =>
        obtain rfl := hvs updated hres
        simp only [hres] at hr ⊢
        refine ih ?_ hr
        cases h with
        | kept      => exact he.flagged hlink
        | changed h => exact .changed (h.trans he.refines_program)

end SpreadPlan

end Spread

namespace Program

theorem WellFormed.spread_flagged (hp : p.WellFormed) {options : SpreadOptions}
    (h : (p.spread options).result = .ok final) : Flagged p p.Exceeds (p.spread options).program final := by
  obtain ⟨plan, hplan⟩ := exists_spreadPlan h
  rw [spread_program p options hplan]
  exact SpreadPlan.run_flagged (hp.spreadPlan_within hplan) .kept ((spread_eq_ok_iff hplan).mp h).left

-- A pass that succeeds says truly whether the program differs from the one before: a step is never taken back.
-- Preparing puts operations in or takes some out, spreading only ever refines shardings, and after finishing or
-- simplifying there is nothing left to do.
theorem run_changed_iff (hp : p.Reachable) (hv : p.verify = .ok ()) (pass : Pass)
    (h : (pass.run p).result = .ok changed) : changed = true ↔ (pass.run p).program ≠ p := by
  have hwf := hp.wellFormed
  have hsound := ((verify_iff hwf).mp hv).left.sound
  refine Flagged.changed_iff ?_
  cases pass with
  | prepare        => exact (prepare_flagged hwf hp.housed h).imp Advances.ne
  | spread options => exact (hwf.spread_flagged h).imp fun he heq => he.ne (congrArg sharding heq)
  | finish         =>
    cases h
    exact hsound.finish_flagged
  | simplify       =>
    cases h
    exact hsound.simplify_flagged

-- A constraint that nothing uses: it can be moved onto its operand, and there is nothing to simplify.
def idleConstraint? : Option Program :=
  build "main" [
    .mesh "mesh" ⟨[⟨"a", 2⟩], []⟩,
    .argument ⟨[8], .f32⟩ none,
    .append entry (.constraint ⟨0⟩ ⟨.symbol "mesh", [{ axes := [⟨"a", none⟩] }], []⟩),
    .append entry (.terminator [⟨0⟩])]

def idleConstraint : Program :=
  idleConstraint?.get (by rfl)

theorem run_changed_iff_idleConstraint :
    let p := idleConstraint
    p.Reachable ∧ p.verify = .ok () ∧
      (Pass.prepare.run p).result = .ok true ∧ (Pass.prepare.run p).program ≠ p ∧
      (Pass.simplify.run p).result = .ok false ∧ (Pass.simplify.run p).program = p := by
  intro p
  have hp : p.Reachable := build_reachable (Option.some_get _).symm
  have hv : p.verify = .ok () := by rfl
  have hprepare : (Pass.prepare.run p).result = .ok true := by rfl
  have hsimplify : (Pass.simplify.run p).result = .ok false := by rfl
  have hsame := run_changed_iff hp hv .simplify hsimplify
  exact ⟨hp, hv, hprepare, (run_changed_iff hp hv .prepare hprepare).mp rfl, hsimplify, by simpa using hsame⟩

end Program

end MeshSharding
