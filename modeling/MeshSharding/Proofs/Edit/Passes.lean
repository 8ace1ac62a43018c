import MeshSharding.Proofs.Reachable

namespace MeshSharding.Program

-- Passes are made of edits, so that they keep what every single edit keeps. The kind of an operation is changed
-- only if it has one operand before and after; a sharding is stored with a value without being checked.
structure KeptByEdits (P : Program → Prop) : Prop where
  insert {p q : Program} {b : BlockId} {position : Nat} {new : NewOp} {o : OpId} : p.WellFormed → P p →
    p.insert b position new = .ok (q, o) → P q
  setSharding {p q : Program} {v : ValueId} {sharding : Sharding} : p.WellFormed → P p →
    p.setSharding v sharding = .ok q → P q
  storeSharding {p : Program} (v : ValueId) (sharding : Option Sharding) : P p → P (p.storeSharding v sharding)
  replaceUsesExcept {p : Program} (source target : ValueId) (except : Option OpId) : P p →
    P (p.replaceUsesExcept source target except)
  setOperand {p : Program} (o : OpId) (index : Nat) (v : ValueId) : P p → P (p.setOperand o index v)
  erase {p : Program} (o : OpId) : P p → P (p.erase o)
  setKind {p : Program} {o : OpId} {kind : OpKind} : P p → (p.op o).kind.isUnary → kind.isUnary →
    P (p.setKind o kind)

namespace KeptByEdits

variable {P : Program → Prop} (hk : KeptByEdits P) {p q : Program} {o : OpId}
include hk

theorem bypass (hp : P p) (o : OpId) : P (p.bypass o) :=
  hk.erase o (hk.replaceUsesExcept _ _ none hp)

theorem foldl_storeSharding (hp : P p) (sharding : ValueId → Option Sharding) (vs : List ValueId) :
    P (vs.foldl (fun p v => p.storeSharding v (sharding v)) p) := by
  induction vs generalizing p with
  | nil          => exact hp
  | cons v vs ih => exact ih (hk.storeSharding v (sharding v) hp)

theorem sinkEdge (hp : P p) (o : OpId) : P (p.sinkEdge o) := by
  rw [Program.sinkEdge]
  refine hk.erase o (hk.replaceUsesExcept _ _ none ?_)
  split
  · exact hk.foldl_storeSharding hp _ _
  · exact hp

theorem finishOp (hp : P p) (h : p.finishOp o = some q) : P q := by
  simp only [Program.finishOp] at h
  cases hkind : (p.op o).kind <;> simp only [hkind] at h
  case constraint sharding =>
    split at h <;> cases h
    · exact hk.bypass hp o
    · exact hk.setKind hp (by simp [hkind, OpKind.isUnary]) rfl
  case group =>
    cases h
    exact hk.erase o hp
  case barrier =>
    split at h
    · cases h
      exact hk.bypass hp o
    · split at h <;> cases h
      · exact hk.bypass hp o
      · exact hk.setKind hp (by simp [hkind, OpKind.isUnary]) rfl
  all_goals cases h

theorem finish (hp : P p) : P p.finish.1 := by
  refine applyWhere_keeps (P := P) (fun q r o _ h hq => hk.finishOp hq h) (applyWhere_keeps ?_ hp _) _
  intro q r o _ h hq
  simp only [sinkOp, Option.ite_none_right_eq_some, Option.some.injEq] at h
  exact h.right ▸ hk.sinkEdge hq o

theorem simplifyOp (hp : P p) (h : p.simplifyOp o = some q) : P q := by
  simp only [Program.simplifyOp, Option.map_eq_some_iff] at h
  obtain ⟨simplification, _, rfl⟩ := h
  cases simplification with
  | bypass     => exact hk.bypass hp o
  | erase      => exact hk.erase o hp
  | readFrom v => exact hk.setOperand o 0 v hp

theorem simplify (hp : P p) : P p.simplify.1 :=
  simplifyRounds_keeps (P := P)
    (fun _ hq => applyWhere_keeps (fun _ _ _ _ h hq => hk.simplifyOp hq h) hq _) hp _ _

-- What is inserted and what is set has been checked, for which the program has to be well-formed.
variable (hw : p.WellFormed)
include hw

theorem moveConstraint (hp : P p) (o : OpId) : P (p.moveConstraint o).program := by
  rw [Program.moveConstraint]
  split
  case _ sharding _ =>
    split
    case isTrue  => exact hp
    case isFalse =>
      cases h : p.setSharding (p.input o) sharding with
      | ok q    => exact hk.erase o (hk.setSharding hw hp h)
      | error e => exact hp
  case _ => exact hp

theorem attachEdges (view : FlowView) (b : BlockId) (hp : P p) (position : Nat) (changed : Bool)
    (owners : List ValueId) : P (Program.attachEdges view b p position changed owners).program := by
  induction owners generalizing p position changed with
  | nil => exact hp
  | cons owner owners ih =>
    rw [Program.attachEdges]
    split
    case isTrue  => exact ih hw hp position changed
    case isFalse =>
      cases h : p.attachEdge b position owner (view.targets p owner) with
      | error e => exact hp
      | ok q    =>
        have hq := hw.attachEdge h
        obtain ⟨r, edge, hi, rfl⟩ := attachEdge_eq_ok_iff.mp h
        exact ih hq (hk.foldl_storeSharding (hk.replaceUsesExcept _ _ _ (hk.insert hw hp hi)) (fun _ => none) _) _ _

theorem attachEdgesOf (hp : P p) (o : OpId) : P (p.attachEdgesOf o).program := by
  rw [Program.attachEdgesOf]
  split
  · exact hk.attachEdges hw _ _ hp _ _ _
  · exact hp

theorem prepare (hp : P p) : P p.prepare.program := by
  let R (p : Program) : Prop := p.WellFormed ∧ P p
  have hm : R (Outcome.forEach Program.moveConstraint p false p.walk).program :=
    Outcome.forEach_keeps (P := R)
      (fun _ o _ hq => ⟨hq.left.moveConstraint o, hk.moveConstraint hq.left hq.right o⟩) ⟨hw, hp⟩ false
  rw [Program.prepare]
  split
  case _ => exact hp
  case _ =>
    rw [Outcome.andThen]
    split
    case _ =>
      exact (Outcome.forEach_keeps (P := R)
        (fun _ o _ hq => ⟨hq.left.attachEdgesOf o, hk.attachEdgesOf hq.left hq.right o⟩) hm _).right
    case _ => exact hm.right

theorem adopts {plan : SpreadPlan} {proposal : Sharding} {vs : List ValueId} (h : plan.Adopts proposal p vs q)
    (hp : P p) : P q := by
  induction h with
  | nil            => exact hp
  | cons _ hs _ ih => exact ih (hw.setSharding hs) (hk.setSharding hw hp hs)

theorem spread (hp : P p) (options : SpreadOptions) : P (p.spread options).program := by
  cases h : p.spreadPlan options with
  | error e =>
    have he : (p.spread options).program = p := by simp [Program.spread, h]
    rwa [he]
  | ok plan =>
    rw [spread_program p options h]
    refine SpreadPlan.run_of_evaluates (R := fun q r => q.bare = p.bare → P q → r.bare = p.bare ∧ P r)
      (fun _ => .intro) (fun h h' hb hq => ?_) ?_ _ _ _ p rfl hp |>.right
    · exact h' (h hb hq).left (h hb hq).right
    · intro q r vs i he hb hq
      refine ⟨he.bare_eq.trans hb, ?_⟩
      cases he with
      | nothing      => exact hq
      | adopt _ _ ha => exact hk.adopts (hw.of_bare_eq hb) ha hq

theorem run (hp : P p) (pass : Pass) : P (pass.run p).program := by
  cases pass with
  | prepare        => exact hk.prepare hw hp
  | spread options => exact hk.spread hw hp options
  | finish         => exact hk.finish hp
  | simplify       => exact hk.simplify hp

end KeptByEdits

section Header

variable {p : Program} {o : OpId}

theorem transformOf_of_header_eq {q : Program} (h : q.header = p.header) : q.transformOf = p.transformOf := by
  have ht : q.transforms = p.transforms := congrArg (·.2.2) h
  funext name
  rw [transformOf, ht, transformOf]

theorem header_eraseAlone : (p.eraseAlone o).header = p.header := by
  have hd : ((p.modifyOp o fun op => { op with erased := true }).dropUsesBy o).header = p.header := by
    apply foldl_keeps fun q => q.header
    exact fun _ _ => rfl
  refine Eq.trans ?_ hd
  apply foldl_keeps fun q => q.header
  exact fun _ _ => rfl

theorem header_erase : (p.erase o).header = p.header :=
  foldl_keeps (fun q => q.header) (fun _ _ => header_eraseAlone) _

theorem header_redirect {source target : ValueId} {moved : List Use} :
    (p.redirect source target moved).header = p.header :=
  foldl_moveUse (motive := fun q => q.header = p.header) rfl fun _ _ _ hq => hq

-- The name, the meshes and the transforms of a program are set from outside only.
theorem keptByEdits_header (header : String × MeshTable × List (String × TargetTransform)) :
    KeptByEdits (·.header = header) where
  insert _ hp h      := by
    obtain ⟨rfl, _⟩ := insert_eq_ok h
    exact header_place.trans hp
  setSharding _ hp h := by
    obtain ⟨_, _, hw⟩ := setSharding_written h
    cases hw <;> exact hp
  storeSharding _ _ hp := hp
  replaceUsesExcept source target except hp := by
    by_cases h : source = target
    case pos => rwa [replaceUsesExcept, if_pos h]
    case neg =>
      rw [replaceUsesExcept_eq h]
      exact header_redirect.trans hp
  setOperand {p} o index v hp := by
    cases h : (p.op o).operands[index]? with
    | none   => simpa [setOperand, h] using hp
    | some w =>
      rw [setOperand_eq h]
      exact header_redirect.trans hp
  erase _ hp := header_erase.trans hp
  setKind hp _ _ := hp

end Header

end MeshSharding.Program
