import MeshSharding.Proofs.Verify.Sink

namespace MeshSharding

-- Operations of this kind only guide spreading.
def OpKind.isGuide : OpKind → Bool
  | constraint _ | group _ => true
  | _                      => false

def OpKind.isBarrier : OpKind → Bool
  | barrier _ => true
  | _         => false

namespace Program

variable {p q : Program} {o u : OpId} {s : Sharding}

-- A barrier that states no sharding hides none.
def BarriersClear (p : Program) : Prop :=
  ∀ o ∈ p.walk, (p.op o).kind.isBarrier → p.sharding (p.output o) = none →
    p.sharding (p.input o) = none

-- What finishing takes for granted.
structure Exportable (p : Program) : Prop extends Sinkable p where
  barriers : p.BarriersClear
  tree     : p.IsTree

section Guides

theorem verifyFinished_iff : p.verifyFinished = .ok () ↔
    p.verify = .ok () ∧ ∀ o ∈ p.walk, (p.op o).kind.isGuide = false := by
  simp only [verifyFinished, check_bind_eq_ok_iff, forM_eq_ok_iff]
  refine and_congr_right fun _ => forall₂_congr fun o _ => ?_
  cases (p.op o).kind <;> simp [OpKind.isGuide]

-- Nothing else is passed over.
theorem isGuide_of_finishOp (h : p.finishOp o = none) : (p.op o).kind.isGuide = false := by
  cases hk : (p.op o).kind <;> simp only [OpKind.isGuide]
  case constraint =>
    simp only [finishOp, hk] at h
    split at h <;> contradiction
  case group => simp [finishOp, hk] at h

end Guides

section Steps

variable (hp : p.Regular) (ho : o ∈ p.walk)
include hp ho

theorem Regular.setReshard_finishes (ht : (p.op o).kind.isTransparent)
    (he : (p.op o).kind.isEdge = false) (hs : p.sharding (p.output o) = some s)
    (hf : p.checkFits s (p.input o) = .ok ()) : Finishes p (p.setKind o (.reshard s)) o := by
  have hwf := hp.wellFormed
  have hl : Relinks p (p.setKind o (.reshard s)) := hwf.relinks_setKind ht rfl
  have hi (u : OpId) : (p.setKind o (.reshard s)).input u = p.input u := by rw [input, op_setKind, input]
  have hr (u : OpId) : (p.setKind o (.reshard s)).output u = p.output u := by
    rw [output, op_setKind, output]
  exact {
    regular       := hp.setReshard ho ht he hs hf
    nested        := hl.rewrites.nested
    walk u hu     := hl.mem_walk_iff.mp hu
    held u hu _   := hl.mem_walk_iff.mpr hu
    kind u hu     := by simp [op_setKind, hu]
    done _        := ⟨s, kind_setKind_self fun hk => by simp [hk, OpKind.isTransparent] at ht⟩
    input u _ hk  := by rw [hi, hwf.sharding_setReshard ht he (fun _ => hs) (hwf.input_lt hk)]
    output u _ hk := by rw [hr, hwf.sharding_setReshard ht he (fun _ => hs) (hwf.output_lt hk)] }

theorem Regular.erase_finishes (hk : (p.op o).kind.isGroup) : Finishes p (p.erase o) o := by
  have hwf := hp.wellFormed
  have he : (p.op o).kind.isEdge = false ∧ (p.op o).kind.takesRegions = false := by
    cases h : (p.op o).kind <;> simp [h, OpKind.isGroup] at hk
    exact ⟨rfl, rfl⟩
  have hr := hwf.regions_eq_nil he.right
  have hcore : (p.op o).kind.isCore = false := by simp [OpKind.isCore, hk]
  obtain ⟨_, _, hresults⟩ := (hwf.shaped o).group hk
  have hw := hwf.erase_rewrites hr hcore
  have hne (u : OpId) (hu : u ∈ (p.erase o).walk) : u ≠ o := hwf.ne_of_mem_walk_erase hr hu
  have hout (u : OpId) : (p.erase o).output u = p.output u := by rw [output, op_erase, output]
  exact {
    regular        := hp.erase ho hr hcore he.left fun u _ v _ => by simp [hresults]
    nested         := hw.nested
    walk u hu      := (hw.mem_walk_iff (by simpa using hne u hu)).mp hu
    held u hu hne  := (hw.mem_walk_iff (by simpa using hne)).mpr hu
    kind u _       := by rw [op_erase]
    done h         := absurd rfl (hne o h)
    input u _ _    := by rw [input_erase, sharding_erase hr he.left]
    output u _ _   := by rw [hout, sharding_erase hr he.left] }

theorem Regular.finishOp (hb : p.BarriersClear) (h : p.finishOp o = some q) : Finishes p q o := by
  have hwf := hp.wellFormed
  cases hk : (p.op o).kind <;> simp only [Program.finishOp, hk, reduceCtorEq] at h
  case group => exact Option.some.inj h ▸ hp.erase_finishes ho (by simp [hk, OpKind.isGroup])
  all_goals
    have ht : (p.op o).kind.isTransparent := by rw [hk]; rfl
    have he : (p.op o).kind.isEdge = false := by rw [hk]; rfl
    have hbypass hs : Finishes p (p.bypass o) o :=
      hp.bypass_finishes ho ht hs fun v _ => by rw [hp.sharding_bypass ho ht he]
    have hsatisfied {s : Sharding} (hs : p.sharding (p.output o) = some s)
        (h : Sharding.satisfies (p.sharding (p.input o)) s) : Finishes p (p.bypass o) o :=
      hbypass (.inr (by rw [hs, Sharding.satisfies_iff.mp h, Option.map_some]))
    have hout := hp.sharding_output ht
    simp only [shardingOfResult, hk] at hout
  case constraint s =>
    have hf : p.checkFits s (p.input o) = .ok () := by
      have hc := hp.valid.checks o ho
      simp only [Checked, checkOp, hk, bind_eq_ok_iff] at hc
      obtain ⟨v, hu, hf⟩ := hc
      rwa [input_eq_of_checkUnary hu]
    split at h <;> cases h
    case isTrue h =>
      simp only [Bool.or_eq_true, Bool.not_eq_true'] at h
      obtain hu | hs := h
      · exact hbypass (.inl fun u huw => hwf.unused_of_hasUses hp.valid.sound.rooted hu huw)
      · exact hsatisfied hout hs
    case isFalse => exact hp.setReshard_finishes ho ht he hout hf
  case barrier direction =>
    split at h
    case _ hnone =>
      cases h
      exact hbypass (.inr (by rw [hnone, hb o ho (by rw [hk]; rfl) hnone]))
    case _ s hs =>
      split at h <;> cases h
      case isTrue h  => exact hsatisfied hs h
      case isFalse   =>
        refine hp.setReshard_finishes ho ht he hs ?_
        -- What is kept with the result fits the operand as well, since this is of the same type.
        have hd : p.definer? (p.output o) = some o := hwf.definer?_of_result (by
          simp [hwf.results_eq (OpKind.isUnary_of_isTransparent ht)])
        rw [checkFits_congr rfl (hp.typeOf_eq ho ht)]
        refine hp.valid.stored _ s (hout ▸ hs) fun u hu => ?_
        cases hd.symm.trans hu
        exact hwf.not_erased ho

end Steps

section Runs

-- The operations that a pass still has to go over, each of them once, are part of the program.
structure Pending (p : Program) (os : List OpId) : Prop where
  nodup : os.Nodup
  walk  : ∀ o ∈ os, o ∈ p.walk

variable {os : List OpId}

theorem Pending.head (h : p.Pending (o :: os)) : o ∈ p.walk :=
  h.walk o List.mem_cons_self

theorem Pending.tail (h : p.Pending (o :: os)) : p.Pending os :=
  ⟨h.nodup.of_cons, fun u hu => h.walk u (List.mem_cons_of_mem o hu)⟩

theorem Pending.of_finishes (h : p.Pending (o :: os)) (hf : Finishes p q o) : q.Pending os where
  nodup     := h.tail.nodup
  walk u hu := hf.held u (h.tail.walk u hu) fun he => (List.nodup_cons.mp h.nodup).left (he ▸ hu)

theorem Finishes.tree (hf : Finishes p q o) (h : p.IsTree) : q.IsTree := by
  rwa [IsTree, hf.nested]

theorem WellFormed.pending (hp : p.WellFormed) (ht : p.IsTree) : p.Pending p.walk :=
  ⟨hp.walk_nodup ht, fun _ => id⟩

theorem applyWhere_induction {step : Program → OpId → Option Program} {P : Program → List OpId → Prop}
    (hsome : ∀ q r o os, step q o = some r → P q (o :: os) → P r os)
    (hnone : ∀ q o os, step q o = none → P q (o :: os) → P q os) (hp : P p os) (changed : Bool) :
    P (applyWhere step p changed os).1 [] := by
  induction os generalizing p changed with
  | nil => exact hp
  | cons o os ih =>
    rw [applyWhere]
    cases h : step p o with
    | some q => exact ih (hsome p q o os h hp) true
    | none   => exact ih (hnone p o os h hp) changed

-- What is left of a barrier has an operand and a result that are sharded as before.
theorem BarriersClear.of_finishes (h : p.BarriersClear) (hf : Finishes p q o) : q.BarriersClear := by
  intro u hu hk hnone
  have hne : u ≠ o := by
    rintro rfl
    obtain ⟨s, hs⟩ := hf.done hu
    simp [hs, OpKind.isBarrier] at hk
  rw [hf.kind u hne] at hk
  have hunary : (p.op u).kind.isUnary := by
    cases h : (p.op u).kind <;> simp [h, OpKind.isBarrier] at hk
    rfl
  have hout := hf.output u hu hunary
  have hin  := hf.input u hu hunary
  rw [hnone, Option.map_none, eq_comm, Option.map_eq_none_iff] at hout
  rwa [h u (hf.walk u hu) hk hout, Option.map_none, Option.map_eq_none_iff] at hin

-- Between two steps of the first pass, which takes out the edge operations.
structure Sinking (p : Program) (os : List OpId) : Prop where
  regular    : p.Regular
  exportable : p.Exportable
  pending    : p.Pending os

theorem Sinking.step (h : p.Sinking (o :: os)) (hs : p.sinkOp o = some q) : q.Sinking os := by
  simp only [sinkOp, Option.ite_none_right_eq_some, Option.some.injEq] at hs
  obtain ⟨hk, rfl⟩ := hs
  obtain ⟨hf, hsink⟩ := h.regular.sinkEdge h.exportable.toSinkable h.pending.head hk
  exact {
    regular    := hf.regular
    exportable := ⟨hsink, h.exportable.barriers.of_finishes hf, hf.tree h.exportable.tree⟩
    pending    := h.pending.of_finishes hf }

theorem Sinking.skip (h : p.Sinking (o :: os)) : p.Sinking os :=
  ⟨h.regular, h.exportable, h.pending.tail⟩

theorem Regular.sinkAll (hp : p.Regular) (he : p.Exportable) (changed : Bool) :
    (applyWhere sinkOp p changed p.walk).1.Sinking [] :=
  applyWhere_induction (fun _ _ _ _ hs h => h.step hs) (fun _ _ _ _ h => h.skip)
    ⟨hp, he, hp.wellFormed.pending he.tree⟩ changed

-- Between two steps of the second pass. What is still to be removed is still to be gone over.
structure Finishing (p : Program) (os : List OpId) : Prop where
  regular  : p.Regular
  barriers : p.BarriersClear
  pending  : p.Pending os
  guides   : ∀ o ∈ p.walk, (p.op o).kind.isGuide → o ∈ os

theorem Finishing.step (h : p.Finishing (o :: os)) (hs : p.finishOp o = some q) : q.Finishing os := by
  have hf := h.regular.finishOp h.pending.head h.barriers hs
  refine ⟨hf.regular, h.barriers.of_finishes hf, h.pending.of_finishes hf, fun u hu hk => ?_⟩
  by_cases hne : u = o
  case pos =>
    subst hne
    obtain ⟨s, hs⟩ := hf.done hu
    simp [hs, OpKind.isGuide] at hk
  case neg =>
    rw [hf.kind u hne] at hk
    exact (List.mem_cons.mp (h.guides u (hf.walk u hu) hk)).resolve_left hne

theorem Finishing.skip (h : p.Finishing (o :: os)) (hs : p.finishOp o = none) : p.Finishing os := by
  refine ⟨h.regular, h.barriers, h.pending.tail, fun u hu hk => ?_⟩
  refine (List.mem_cons.mp (h.guides u hu hk)).resolve_left ?_
  rintro rfl
  simp [isGuide_of_finishOp hs] at hk

theorem Regular.finishAll (hp : p.Regular) (hb : p.BarriersClear) (ht : p.IsTree) (changed : Bool) :
    (applyWhere Program.finishOp p changed p.walk).1.Finishing [] :=
  applyWhere_induction (fun _ _ _ _ hs h => h.step hs) (fun _ _ _ hs h => h.skip hs)
    ⟨hp, hb, hp.wellFormed.pending ht, fun _ ho _ => ho⟩ changed

theorem Regular.finish (hp : p.Regular) (he : p.Exportable) : p.finish.1.Finishing [] := by
  obtain ⟨hq, he, _⟩ := hp.sinkAll he false
  exact hq.finishAll he.barriers he.tree _

theorem Finishing.verifyFinished_iff (h : p.Finishing []) : p.verifyFinished = .ok () ↔ p.ReductionsFree := by
  have hg : ∀ o ∈ p.walk, (p.op o).kind.isGuide = false := fun o ho => by
    by_contra hc
    simpa using h.guides o ho (by simpa using hc)
  rw [Program.verifyFinished_iff, and_iff_left hg, h.regular.verify_iff]

end Runs

-- All that can be wrong with a program after finishing is a reduction with an operand that declares one
-- of its axes replicated. Transforms of data-flow edges may be any, if what the targets get of them is on the
-- same mesh with the same splits, and fits the targets.
theorem finish_verifyFinished_iff (hp : p.Reachable) (hv : p.verify = .ok ()) (he : p.Exportable) :
    p.finish.1.verifyFinished = .ok () ↔ p.finish.1.ReductionsFree := by
  have howned := he.attached.owned ((verify_iff hp.wellFormed).mp hv).left
  exact ((hp.wellFormed.regular_of_verify hv howned).finish he).verifyFinished_iff

-- An argument that declares an axis replicated meets a constraint before a reduction over this axis.
def constrainedReduction? : Option Program :=
  let type : TensorType := ⟨[8], .f32⟩
  build "main" [
    .mesh "mesh" { axes := [⟨"a", 2⟩] },
    .argument type (some ⟨.symbol "mesh", [{}], [⟨"a", none⟩]⟩),
    .append entry (.constraint ⟨0⟩ ⟨.symbol "mesh", [{}], []⟩),
    .append entry (.collective ⟨1⟩ ⟨.allReduce [⟨"a", none⟩], ⟨.symbol "mesh", [{}], []⟩⟩),
    .append entry (.terminator [⟨2⟩])]

def constrainedReduction : Program :=
  constrainedReduction?.get (by rfl)

theorem finish_verifyFinished_not_constrainedReduction :
    let p := constrainedReduction
    p.verify = .ok () ∧ p.finish.2 = true ∧
      p.finish.1.verifyFinished = .error
        ⟨.operation ⟨1⟩ "sdy.all_reduce", .reductionAxisInUse ⟨"a", none⟩ .operandReplicated⟩ :=
  ⟨by rfl, by rfl, by rfl⟩

-- A loop behind a barrier, with an edge operation, a constraint and a group on its result. The edge states a replicated
-- axis, which its targets do not get.
def guidedLoop? : Option Program :=
  let type : TensorType := ⟨[8], .f32⟩
  let whole : Sharding := ⟨.symbol "mesh", [{}], []⟩
  let split : Sharding := ⟨.symbol "mesh", [{ axes := [⟨"a", none⟩] }], []⟩
  build "main" [
    .mesh "mesh" { axes := [⟨"a", 2⟩, ⟨"b", 2⟩] },
    .argument type none,
    .region [type],
    .append ⟨1⟩ (.terminator [⟨1⟩]),
    .append entry (.barrier ⟨0⟩ .neither),
    .append entry (.generic { name := "while" } [⟨2⟩] [type] [⟨1⟩]),
    .append entry (.edge ⟨3⟩ (some (split.withReplicated [⟨"b", none⟩]))),
    .append entry (.constraint ⟨4⟩ whole),
    .append entry (.group ⟨5⟩ 0),
    .append entry (.collective ⟨5⟩ ⟨.allSlice [[⟨"a", none⟩]], split⟩),
    .append entry (.terminator [⟨6⟩])]

def guidedLoop : Program :=
  (guidedLoop?.get (by rfl)).registerTransform "while" .implicitReplication

theorem finish_verifyFinished_iff_guidedLoop :
    let p := guidedLoop
    p.Reachable ∧ p.verify = .ok () ∧ p.Exportable ∧
      (p.finish.1.verifyFinished = .ok () ↔ p.finish.1.ReductionsFree) := by
  have hp : guidedLoop.Reachable := .registerTransform _ _ (build_reachable (Option.some_get _).symm)
  have hv : guidedLoop.verify = .ok () := by rfl
  have he : guidedLoop.Exportable := {
    attached e he hk    := by
      have h : ∀ i < 8, (guidedLoop.op ⟨i⟩).kind.isEdge → (⟨i⟩ : OpId) ∈ guidedLoop.walk := by decide
      exact h e.index (index_lt_of_not_erased he) hk
    targets v hv e hedge := by
      have h : ∀ i < 7, ∀ e ∈ guidedLoop.edgeForTarget? ⟨i⟩, guidedLoop.takesOver ⟨i⟩ e := by decide
      exact h v.index hv e hedge
    barriers             := by
      have h : ∀ o ∈ guidedLoop.walk, (guidedLoop.op o).kind.isBarrier →
        guidedLoop.sharding (guidedLoop.output o) = none →
          guidedLoop.sharding (guidedLoop.input o) = none := by decide
      exact h
    tree                 := by
      have h : guidedLoop.nested.Nodup := by decide
      exact h }
  exact ⟨hp, hv, he, finish_verifyFinished_iff hp hv he⟩

-- Without the condition on barriers: an operand without a sharding counts as replicated, but after a
-- barrier the value in front of it comes to light.
example : (build "main" [
    .mesh "mesh" { axes := [⟨"a", 2⟩] },
    .argument ⟨[8], .f32⟩ (some ⟨.symbol "mesh", [{ axes := [⟨"a", none⟩] }], []⟩),
    .append entry (.barrier ⟨0⟩ .neither),
    .append entry (.collective ⟨1⟩
      ⟨.allSlice [[⟨"a", none⟩]], ⟨.symbol "mesh", [{ axes := [⟨"a", none⟩] }], []⟩⟩),
    .append entry (.terminator [⟨2⟩])]).map (fun p => (p.verify, p.finish.1.verifyFinished)) =
      some (.ok (), .error ⟨.operation ⟨1⟩ "sdy.all_slice", .axisAlreadyInUse ⟨"a", none⟩ 0⟩) := by
  rfl

-- Without the condition on the targets of edges: an argument of the body of a loop may have another shape
-- than the result.
example : (build "main" [
    .mesh "mesh" { axes := [⟨"a", 2⟩] },
    .argument ⟨[8], .f32⟩ none,
    .region [⟨[8, 8], .f32⟩],
    .append ⟨1⟩ (.terminator [⟨0⟩]),
    .append entry (.generic { name := "while" } [⟨0⟩] [⟨[8], .f32⟩] [⟨1⟩]),
    .append entry (.edge ⟨2⟩ (some ⟨.symbol "mesh", [{}], []⟩)),
    .append entry (.terminator [⟨3⟩])]).map (fun p => (p.verify, p.finish.1.verifyFinished)) =
      some (.ok (), .error ⟨.program, .rankMismatch 1 2⟩) := by
  rfl

-- And without the one on what they get: a transform may give them a sharding on a mesh that there is not.
example :
    let abroad : TargetTransform := ⟨fun _ _ s => { s with mesh := .symbol "other" }⟩
    (guidedLoop.registerTransform "while" abroad).finish.1.verifyFinished =
      .error ⟨.program, .unknownMesh "other"⟩ := by
  rfl

end Program

end MeshSharding
