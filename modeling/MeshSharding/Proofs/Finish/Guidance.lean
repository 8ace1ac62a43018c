import MeshSharding.Proofs.Arrival
import MeshSharding.Proofs.Flow.Passes
import MeshSharding.Proofs.Nesting.Climb
import MeshSharding.Proofs.Verify.Finish

namespace MeshSharding

-- Operations of this kind are there for spreading only. Besides guides these are barriers and the
-- operations that keep the shardings of edges.
def OpKind.isTemporary : OpKind → Bool
  | constraint _ | group _ | edge _ | barrier _ => true
  | _                                           => false

theorem OpKind.isTemporary_of_isGuide {kind : OpKind} (h : kind.isGuide) : kind.isTemporary := by
  cases kind <;> first | rfl | contradiction

namespace Program

variable {p q r : Program} {o u : OpId} {os : List OpId}

-- Uses are moved and operations are taken out. All else stays.
structure Prunes (p q : Program) : Prop extends Frame p q where
  kind   : ∀ o, (q.op o).kind = (p.op o).kind
  erased : ∀ o, (p.op o).erased → (q.op o).erased

namespace Prunes

theorem refl (p : Program) : Prunes p p :=
  ⟨.refl p, fun _ => rfl, fun _ h => h⟩

theorem trans (h : Prunes p q) (h' : Prunes q r) : Prunes p r where
  toFrame    := h.toFrame.trans h'.toFrame
  kind o     := (h'.kind o).trans (h.kind o)
  erased o e := h'.erased o (h.erased o e)

theorem redirect (source target : ValueId) (moved : List Use) : Prunes p (p.redirect source target moved) where
  toFrame    := .redirect
  kind _     := kind_redirect
  erased _ h := by rwa [erased_redirect]

theorem replaceUses (source target : ValueId) : Prunes p (p.replaceUses source target) := by
  by_cases h : source = target
  case pos =>
    rw [Program.replaceUses, replaceUsesExcept, if_pos h]
    exact .refl p
  case neg =>
    rw [Program.replaceUses, replaceUsesExcept_eq h]
    exact .redirect source target _

theorem setOperand (o : OpId) (index : Nat) (v : ValueId) : Prunes p (p.setOperand o index v) := by
  cases h : (p.op o).operands[index]? with
  | none        =>
    rw [Program.setOperand, h]
    exact .refl p
  | some source =>
    rw [setOperand_eq h]
    exact .redirect source v _

theorem erase (o : OpId) : Prunes p (p.erase o) where
  toFrame    := .erase
  kind _     := by rw [op_erase]
  erased _ h := by rw [op_erase, h, Bool.true_or]

theorem bypass (o : OpId) : Prunes p (p.bypass o) :=
  (replaceUses _ _).trans (erase o)

theorem simplifyOp (h : p.simplifyOp o = some q) : Prunes p q := by
  obtain ⟨simplification, _, rfl⟩ := Option.map_eq_some_iff.mp h
  cases simplification with
  | bypass     => exact bypass o
  | erase      => exact erase o
  | readFrom v => exact setOperand o 0 v

theorem simplify (p : Program) : Prunes p p.simplify.1 := by
  refine simplifyRounds_keeps (P := Prunes p) (fun q hq => ?_) (refl p) _ _
  exact applyWhere_keeps (P := Prunes p) (fun _ _ _ _ h hr => hr.trans (simplifyOp h)) hq false

end Prunes

-- What simplifying leaves in a program was there before, and of the same kind.
theorem isLive_of_simplify (h : p.simplify.1.isLive o) :
    p.isLive o ∧ (p.simplify.1.op o).kind = (p.op o).kind :=
  have hp := Prunes.simplify p
  ⟨hp.isLive hp.erased h, hp.kind o⟩

-- A step of finishing takes an operation out or makes it a change of sharding. The others stay as they
-- are, their operands aside.
structure Discharges (p q : Program) (o : OpId) : Prop where
  sound : q.Sound
  frame : Frame p q
  walk  : q.walk = p.walk ∨ q.walk = p.walk.filter (· ≠ o)
  kind  : ∀ u, u ≠ o → (q.op u).kind = (p.op u).kind
  alive : ∀ u, q.isLive u → p.isLive u
  done  : o ∈ q.walk → ∃ s, (q.op o).kind = .reshard s

theorem Discharges.mem_walk (h : Discharges p q o) (hu : u ∈ q.walk) : u ∈ p.walk := by
  obtain he | he := h.walk <;> rw [he] at hu
  · exact hu
  · exact List.mem_of_mem_filter hu

theorem Discharges.held (h : Discharges p q o) (hu : u ∈ p.walk) (hne : u ≠ o) : u ∈ q.walk := by
  obtain he | he := h.walk <;> rw [he]
  · exact hu
  · exact List.mem_filter.mpr ⟨hu, by simpa using hne⟩

section Steps

theorem Sound.erase_discharges (hp : p.Sound) (hr : (p.op o).regions = []) (hk : (p.op o).kind.isCore = false)
    (hs : (p.erase o).Sound) : Discharges p (p.erase o) o where
  sound    := hs
  frame    := .erase
  walk     := by
    refine .inr ((List.filter_eq_self.mpr fun u hu => ?_).symm.trans (hp.wellFormed.erase_rewrites hr hk).walk)
    simpa using hp.wellFormed.ne_of_mem_walk_erase hr hu
  kind u _ := by rw [op_erase]
  alive _  := (Prunes.erase o).isLive (Prunes.erase o).erased
  done ho  := absurd rfl (hp.wellFormed.ne_of_mem_walk_erase hr ho)

theorem Sound.bypass_discharges (hp : p.Sound) (ho : (p.op o).kind.isTransparent) :
    Discharges p (p.bypass o) o := by
  obtain ⟨hq, _, hl, _⟩ := hp.replaceUses_behind ho
  have hr : ((p.replaceUses (p.output o) (p.input o)).op o).regions = [] := by
    rw [(hl.alike o).regions]
    exact hp.wellFormed.regions_eq_nil (OpKind.takesRegions_of_isUnary (OpKind.isUnary_of_isTransparent ho))
  have hk : ((p.replaceUses (p.output o) (p.input o)).op o).kind.isCore = false := by
    rw [(hl.alike o).core, OpKind.isCore, ho]
    rfl
  have h := hq.erase_discharges hr hk (hp.bypass ho).left
  have hw : (p.replaceUses (p.output o) (p.input o)).walk = p.walk := by
    simpa using hl.rewrites.walk
  exact {
    sound    := h.sound
    frame    := (Prunes.bypass o).toFrame
    walk     := hw ▸ h.walk
    kind u _ := (Prunes.bypass o).kind u
    alive _  := (Prunes.bypass o).isLive (Prunes.bypass o).erased
    done     := h.done }

theorem Sound.setReshard_discharges (hp : p.Sound) (ho : (p.op o).kind.isTransparent) (s : Sharding) :
    Discharges p (p.setKind o (.reshard s)) o where
  sound     := (hp.setKind ho rfl).left
  frame     := .setKind (OpKind.isUnary_of_isTransparent ho) rfl
  walk      := by
    have hl : Relinks p (p.setKind o (.reshard s)) := hp.wellFormed.relinks_setKind ho rfl
    exact .inl (by simpa using hl.rewrites.walk)
  kind u hu := kind_setKind_of_ne hu
  alive u   := (Frame.setKind (OpKind.isUnary_of_isTransparent ho) rfl).isLive fun u hu => by rwa [op_setKind]
  done _    := ⟨s, kind_setKind_of_transparent ho⟩

theorem Sound.sinkOp_discharges (hp : p.Sound) (h : p.sinkOp o = some q) : Discharges p q o := by
  simp only [Program.sinkOp, Option.ite_none_right_eq_some, Option.some.injEq] at h
  obtain ⟨r, hr, hop, he⟩ := sinkEdge_eq p o
  have hs := (hp.of_bare_eq hr).left
  rw [← h.right, he]
  have hd := hs.bypass_discharges (o := o) (hop ▸ OpKind.isTransparent_of_isEdge h.left)
  exact {
    sound      := hd.sound
    frame      := (Frame.of_bare_eq hr).trans hd.frame
    walk       := read_of_bare_eq Program.walk bare_walk hr ▸ hd.walk
    kind u hne := (hd.kind u hne).trans (by rw [hop])
    alive u hu := (Frame.of_bare_eq hr).isLive (fun u he => by rwa [hop]) (hd.alive u hu)
    done       := hd.done }

-- What finishing does with an operation, and why.
inductive Resolves (p : Program) (o : OpId) : Program → Prop
  | unused {s} : (p.op o).kind = .constraint s → p.hasUses (p.output o) = false → Resolves p o (p.bypass o)
  | satisfied {s} : (p.op o).kind = .constraint s → Sharding.satisfies (p.sharding (p.input o)) s →
      Resolves p o (p.bypass o)
  | unsatisfied {s} : (p.op o).kind = .constraint s → ¬ Sharding.satisfies (p.sharding (p.input o)) s →
      Resolves p o (p.setKind o (.reshard s))
  | group {id} : (p.op o).kind = .group id → Resolves p o (p.erase o)
  | opened {direction} : (p.op o).kind = .barrier direction → Resolves p o (p.bypass o)
  | closed {direction s} : (p.op o).kind = .barrier direction → p.sharding (p.output o) = some s →
      Resolves p o (p.setKind o (.reshard s))

theorem resolves_of_finishOp (h : p.finishOp o = some q) : p.Resolves o q := by
  simp only [finishOp] at h
  cases hk : (p.op o).kind <;> simp only [hk, reduceCtorEq] at h
  case constraint s =>
    split at h <;> cases h
    case isTrue h =>
      simp only [Bool.or_eq_true, Bool.not_eq_true'] at h
      exact h.elim (.unused hk) (.satisfied hk)
    case isFalse h =>
      simp only [Bool.or_eq_true, not_or] at h
      exact .unsatisfied hk h.right
  case group =>
    cases h
    exact .group hk
  case barrier =>
    split at h
    case _ =>
      cases h
      exact .opened hk
    case _ s hs =>
      split at h <;> cases h
      · exact .opened hk
      · exact .closed hk hs

theorem Sound.finishOp_discharges (hp : p.Sound) (h : p.finishOp o = some q) : Discharges p q o := by
  cases resolves_of_finishOp h with
  | unused hk _ | satisfied hk _ | opened hk => exact hp.bypass_discharges (by rw [hk]; rfl)
  | unsatisfied hk _ | closed hk _           => exact hp.setReshard_discharges (by rw [hk]; rfl) _
  | group hk =>
    refine hp.erase_discharges (hp.wellFormed.regions_eq_nil ?_) ?_ (hp.finishOp h).left
    · rw [hk]
      rfl
    · rw [hk]
      rfl

theorem sinkOp_eq_none (h : (p.op o).kind.isTemporary = false) : p.sinkOp o = none := by
  cases hk : (p.op o).kind <;> simp [hk, OpKind.isTemporary, sinkOp, OpKind.isEdge] at h ⊢

theorem finishOp_eq_none (h : (p.op o).kind.isTemporary = false) : p.finishOp o = none := by
  cases hk : (p.op o).kind <;> simp [hk, OpKind.isTemporary, finishOp] at h ⊢

theorem not_isTemporary_of_finishOp (h : p.finishOp o = none) (he : (p.op o).kind.isEdge = false) :
    (p.op o).kind.isTemporary = false := by
  cases hk : (p.op o).kind <;> simp only [OpKind.isTemporary]
  case edge => simp [hk, OpKind.isEdge] at he
  case barrier =>
    simp only [finishOp, hk] at h
    split at h
    · contradiction
    · split at h <;> contradiction
  all_goals
    have hg := isGuide_of_finishOp h
    simp [hk, OpKind.isGuide] at hg

end Steps

section Runs

-- Of the operations of the program, those of some kinds are still to be gone over.
def Awaits (p : Program) (select : OpKind → Bool) (os : List OpId) : Prop :=
  ∀ o ∈ p.walk, select (p.op o).kind → o ∈ os

variable {select : OpKind → Bool}

theorem Awaits.all (p : Program) (select : OpKind → Bool) : p.Awaits select p.walk :=
  fun _ ho _ => ho

theorem Awaits.none (h : p.Awaits select []) : ∀ o ∈ p.walk, select (p.op o).kind = false := by
  intro o ho
  by_contra hk
  exact List.not_mem_nil (h o ho (by simpa using hk))

theorem Awaits.skip (h : p.Awaits select (o :: os)) (ho : o ∈ p.walk → select (p.op o).kind = false) :
    p.Awaits select os := by
  intro u hu hk
  refine (List.mem_cons.mp (h u hu hk)).resolve_left ?_
  rintro rfl
  simp [ho hu] at hk

-- The same operation may come up again. Then it has gone, or is a change of sharding.
theorem Awaits.step (h : p.Awaits select (o :: os)) (hd : Discharges p q o)
    (hr : ∀ s, select (.reshard s) = false) : q.Awaits select os := by
  intro u hu hk
  by_cases hne : u = o
  case pos =>
    subst hne
    obtain ⟨s, hs⟩ := hd.done hu
    simp [hs, hr] at hk
  case neg =>
    rw [hd.kind u hne] at hk
    exact (List.mem_cons.mp (h u (hd.mem_walk hu) hk)).resolve_left hne

theorem Sound.sinkAll (hp : p.Sound) (changed : Bool) :
    (applyWhere Program.sinkOp p changed p.walk).1.Sound ∧
      (applyWhere Program.sinkOp p changed p.walk).1.Awaits OpKind.isEdge [] := by
  refine applyWhere_induction (P := fun q os => q.Sound ∧ q.Awaits OpKind.isEdge os) ?step ?skip
    ⟨hp, .all p _⟩ changed
  case step =>
    rintro q r o os hs ⟨hq, he⟩
    have hd := hq.sinkOp_discharges hs
    exact ⟨hd.sound, he.step hd fun _ => rfl⟩
  case skip =>
    rintro q o os hs ⟨hq, he⟩
    refine ⟨hq, he.skip fun _ => ?_⟩
    by_contra hk
    simp [Program.sinkOp, hk] at hs

-- Edge operations are passed over, so there must be none.
theorem Sound.finishAll (hp : p.Sound) (he : ∀ o ∈ p.walk, (p.op o).kind.isEdge = false) (changed : Bool) :
    (applyWhere Program.finishOp p changed p.walk).1.Sound ∧
      (applyWhere Program.finishOp p changed p.walk).1.Awaits OpKind.isEdge [] ∧
      (applyWhere Program.finishOp p changed p.walk).1.Awaits OpKind.isTemporary [] := by
  refine applyWhere_induction
    (P := fun q os => q.Sound ∧ q.Awaits OpKind.isEdge [] ∧ q.Awaits OpKind.isTemporary os) ?step ?skip
    ⟨hp, fun o ho hk => by simp [he o ho] at hk, .all p _⟩ changed
  case step =>
    rintro q r o os hs ⟨hq, he, ht⟩
    have hd := hq.finishOp_discharges hs
    have he : q.Awaits OpKind.isEdge [o] := fun u hu hk => absurd (he u hu hk) List.not_mem_nil
    exact ⟨hd.sound, he.step hd fun _ => rfl, ht.step hd fun _ => rfl⟩
  case skip =>
    rintro q o os hs ⟨hq, he, ht⟩
    exact ⟨hq, he, ht.skip fun ho => not_isTemporary_of_finishOp hs (he.none o ho)⟩

theorem Sound.finish_cleared (hp : p.Sound) :
    p.finish.1.Sound ∧ ∀ o ∈ p.finish.1.walk, (p.finish.1.op o).kind.isTemporary = false := by
  obtain ⟨hq, he⟩ := hp.sinkAll false
  obtain ⟨hr, _, ht⟩ := hq.finishAll he.none (applyWhere Program.sinkOp p false p.walk).2
  exact ⟨hr, ht.none⟩

theorem applyWhere_eq_self {step : Program → OpId → Option Program} (h : ∀ o ∈ os, step p o = none)
    (changed : Bool) : applyWhere step p changed os = (p, changed) := by
  induction os with
  | nil            => rfl
  | cons o os ih =>
    rw [applyWhere, h o List.mem_cons_self]
    exact ih fun u hu => h u (List.mem_cons_of_mem o hu)

-- Where there is nothing to finish, finishing does nothing.
theorem finish_eq_self (h : ∀ o ∈ p.walk, (p.op o).kind.isTemporary = false) : p.finish = (p, false) := by
  rw [finish, applyWhere_eq_self fun o ho => sinkOp_eq_none (h o ho)]
  exact applyWhere_eq_self (fun o ho => finishOp_eq_none (h o ho)) false

end Runs

section Pipeline

theorem Sound.simplify_cleared (hp : p.Sound) (h : ∀ o ∈ p.walk, (p.op o).kind.isTemporary = false) :
    ∀ o ∈ p.simplify.1.walk, (p.simplify.1.op o).kind.isTemporary = false := by
  obtain ⟨hq, hf⟩ := hp.simplify
  intro o ho
  have hl : o.index < p.operations.length := by
    rw [← (Prunes.simplify p).length]
    exact hq.wellFormed.walk_lt ho
  rw [(Prunes.simplify p).kind]
  exact h o (hf.lived o ho hl)

theorem verifyFinished_of_cleared (hv : p.verify = .ok ())
    (h : ∀ o ∈ p.walk, (p.op o).kind.isTemporary = false) : p.verifyFinished = .ok () := by
  refine verifyFinished_iff.mpr ⟨hv, fun o ho => ?_⟩
  by_contra hk
  have ht := h o ho
  simp [OpKind.isTemporary_of_isGuide (by simpa using hk)] at ht

-- A pass that succeeds, with a check after it.
theorem eq_of_runPass {pass : Pass} (h : (Pipeline.runPass true p pass).arrives? = some q) :
    (pass.run p).program = q ∧ q.verify = .ok () := by
  rw [arrives?_runPass, Option.filter_eq_some_iff] at h
  exact ⟨Outcome.program_of_arrives? h.left, by simpa using h.right⟩

theorem Reachable.verifyFinished_of_spreadShardings (hp : p.Reachable) {options : PipelineOptions}
    (ho : options.verifyEachPass) (h : (p.spreadShardings options).arrives? = some q) :
    q.verifyFinished = .ok () := by
  have hpasses : (Pipeline.ofOptions options).passes =
      .prepare :: .spread options.spread :: .finish :: if options.simplify then [.simplify] else [] := rfl
  rw [arrives?_spreadShardings, ho, hpasses] at h
  simp only [List.foldlM_cons, Option.bind_eq_bind, Option.bind_eq_some_iff] at h
  obtain ⟨prepared, hprepared, spread, hspread, finished, hfinished, hlast⟩ := h
  have hspread : spread.Reachable ∧ spread.verify = .ok () := by
    obtain ⟨hq, _⟩ := eq_of_runPass hprepared
    obtain ⟨hr, hv⟩ := eq_of_runPass hspread
    exact ⟨hr ▸ .run _ (hq ▸ .run _ hp), hv⟩
  obtain ⟨hr, hv⟩ := eq_of_runPass hfinished
  obtain ⟨hs, hc⟩ := ((verify_iff hspread.left.wellFormed).mp hspread.right).left.sound.finish_cleared
  have hr : spread.finish.1 = finished := hr
  rw [hr] at hs hc
  cases hsimplify : options.simplify <;> simp only [hsimplify] at hlast
  case false =>
    cases hlast
    exact verifyFinished_of_cleared hv hc
  case true =>
    simp only [if_true, List.foldlM_cons, List.foldlM_nil, Option.bind_eq_bind, Option.bind_eq_some_iff] at hlast
    obtain ⟨simplified, hsimplified, hlast⟩ := hlast
    cases hlast
    obtain ⟨hr, hv⟩ := eq_of_runPass hsimplified
    exact verifyFinished_of_cleared hv (hr ▸ hs.simplify_cleared hc)

end Pipeline

-- After finishing nothing is left that is there for spreading only. Finishing again changes nothing, and
-- simplifying brings nothing of the kind in. So what the pipeline leaves obeys the rules for programs after
-- spreading, if it checks the program after each pass.
theorem finish_removes_temporary (hp : p.Reachable) (hv : p.verify = .ok ()) :
    let q := p.finish.1
    (∀ o, q.isLive o → (q.op o).kind.isTemporary = false) ∧ q.finish = (q, false) ∧
      (∀ (r : Program) o, r.simplify.1.isLive o → r.isLive o ∧ (r.simplify.1.op o).kind = (r.op o).kind) ∧
      ∀ options : PipelineOptions, options.verifyEachPass → ∀ changed,
        (p.spreadShardings options).result = .ok changed →
          (p.spreadShardings options).program.verifyFinished = .ok () := by
  intro q
  obtain ⟨hs, hc⟩ := ((verify_iff hp.wellFormed).mp hv).left.sound.finish_cleared
  have hq : q.Reachable := .run .finish hp
  refine ⟨fun o ho => hc o ?_, finish_eq_self hc, fun r o => isLive_of_simplify, fun options ho changed h => ?_⟩
  · exact (hq.mem_walk_iff hs.rooted).mpr ho
  · exact hp.verifyFinished_of_spreadShardings ho (by simp [Outcome.arrives?, h])

-- A loop with an edge operation, and in its body two constraints with a barrier between them and a group.
def barredLoop? : Option Program :=
  let type : TensorType := ⟨[8], .f32⟩
  let whole : Sharding := ⟨.symbol "mesh", [{}], []⟩
  let split : Sharding := ⟨.symbol "mesh", [{ axes := [⟨"a", none⟩] }], []⟩
  build "main" [
    .mesh "mesh" { axes := [⟨"a", 2⟩] },
    .argument type none,
    .region [type],
    .append ⟨1⟩ (.constraint ⟨1⟩ split),
    .append ⟨1⟩ (.barrier ⟨2⟩ .neither),
    .append ⟨1⟩ (.constraint ⟨3⟩ whole),
    .append ⟨1⟩ (.group ⟨4⟩ 0),
    .append ⟨1⟩ (.terminator [⟨4⟩]),
    .append entry (.generic { name := "while" } [⟨0⟩] [type] [⟨1⟩]),
    .append entry (.edge ⟨5⟩ none),
    .append entry (.terminator [⟨6⟩])]

def barredLoop : Program :=
  barredLoop?.get (by rfl)

theorem finish_removes_temporary_barredLoop :
    let p := barredLoop
    let q := p.finish.1
    p.Reachable ∧ p.verify = .ok () ∧ p.walk.length = 8 ∧ q.walk.length = 5 ∧
      (∀ o, q.isLive o → (q.op o).kind.isTemporary = false) ∧ q.finish = (q, false) ∧
      (∀ (r : Program) o, r.simplify.1.isLive o → r.isLive o ∧ (r.simplify.1.op o).kind = (r.op o).kind) ∧
      ∀ options : PipelineOptions, options.verifyEachPass → ∀ changed,
        (p.spreadShardings options).result = .ok changed →
          (p.spreadShardings options).program.verifyFinished = .ok () := by
  have hp : barredLoop.Reachable := build_reachable (Option.some_get _).symm
  have hv : barredLoop.verify = .ok () := by rfl
  exact ⟨hp, hv, by rfl, by rfl, finish_removes_temporary hp hv⟩

end Program

end MeshSharding
