import MeshSharding.Pipeline.Pass
import MeshSharding.Proofs.Edit.Erase
import MeshSharding.Proofs.Edit.Insert
import MeshSharding.Proofs.Edit.Redirect
import MeshSharding.Proofs.Spread.Monotone

namespace MeshSharding

-- What every step keeps is kept by all of them, whether they succeed or not.
theorem Outcome.forEach_keeps {α : Type} {step : Program → α → Outcome Bool} {P : Program → Prop}
    {items : List α} (h : ∀ q, ∀ a ∈ items, P q → P (step q a).program) {p : Program} (hp : P p)
    (changed : Bool) : P (forEach step p changed items).program := by
  induction items generalizing p changed with
  | nil => exact hp
  | cons a items ih =>
    have ha := h p a List.mem_cons_self hp
    rw [forEach, andThen]
    cases hr : (step p a).result with
    | ok _    => exact ih (fun q b hb => h q b (List.mem_cons_of_mem a hb)) ha _
    | error _ => exact ha

namespace Program

variable {p q : Program} {v : ValueId} {o : OpId} {kind : OpKind}

theorem applyWhere_keeps {step : Program → OpId → Option Program} {P : Program → Prop} {os : List OpId}
    (h : ∀ q r, ∀ o ∈ os, step q o = some r → P q → P r) (hp : P p) (changed : Bool) :
    P (applyWhere step p changed os).1 := by
  induction os generalizing p changed with
  | nil => exact hp
  | cons o os ih =>
    have hos := fun q r u (hu : u ∈ os) => h q r u (List.mem_cons_of_mem o hu)
    rw [applyWhere]
    cases hs : step p o with
    | some r => exact ih hos (h p r o List.mem_cons_self hs hp) true
    | none   => exact ih hos hp changed

theorem op_setKind {u : OpId} : (p.setKind o kind).op u = { p.op u with
    kind := if u = o ∧ o.index < p.operations.length then kind else (p.op u).kind } := by
  rw [setKind, op_modifyOp]
  split <;> rfl

namespace WellFormed

theorem setKind (hp : p.WellFormed) (h : (p.op o).kind.isUnary) (hk : kind.isUnary) :
    (p.setKind o kind).WellFormed where
  body          := hp.body
  arguments     := hp.arguments
  results v u i := by rw [op_setKind]; exact hp.results v u i
  operands u v  := by rw [op_setKind]; exact hp.operands u v
  regions       := by simpa [op_setKind] using hp.regions
  members       := by simpa [op_setKind] using hp.members
  nodup         := hp.nodup
  uses          := by simpa [op_setKind] using hp.uses
  users         := by simpa [Program.setKind] using hp.users
  shaped u      := by
    rw [op_setKind]
    split
    case isTrue hu  => exact (hp.shaped u).withUnary (hu.left ▸ h) hk
    case isFalse hu => exact hp.shaped u

theorem bypass (hp : p.WellFormed) (h : (p.op o).kind.isUnary) : (p.bypass o).WellFormed :=
  (hp.replaceUses (hp.input_lt h)).erase o

end WellFormed

theorem bare_foldl_storeSharding (sharding : ValueId → Option Sharding) (vs : List ValueId) :
    (vs.foldl (fun p v => p.storeSharding v (sharding v)) p).bare = p.bare := by
  apply foldl_keeps fun q => q.bare
  exact fun _ _ => bare_storeSharding _

theorem op_foldl_storeSharding (sharding : ValueId → Option Sharding) (vs : List ValueId) :
    (vs.foldl (fun p v => p.storeSharding v (sharding v)) p).op = p.op := by
  apply foldl_keeps fun q => q.op
  exact fun _ _ => rfl

-- An edge operation is bypassed once it has handed over its sharding.
theorem sinkEdge_eq (p : Program) (edge : OpId) : ∃ q : Program, q.bare = p.bare ∧ q.op = p.op ∧
    p.sinkEdge edge = q.bypass edge := by
  simp only [sinkEdge]
  split
  case _ sharding view _ _ =>
    have hq := bare_foldl_storeSharding (p := p) (fun v => some (view.targetSharding p v sharding))
      (p.input edge :: view.targets p (p.input edge))
    have hi := read_of_bare_eq (fun r => r.input edge) (fun r => r.bare_input edge) hq
    exact ⟨_, hq, op_foldl_storeSharding (fun v => some (view.targetSharding p v sharding)) _, by rw [bypass, hi]⟩
  case _ => exact ⟨p, rfl, rfl, rfl⟩

-- The edge operation states a sharding and its owner has an edge.
theorem sinkEdge_eq_bypass {edge : OpId} {s : Sharding} {view : FlowView} (hk : (p.op edge).kind = .edge (some s))
    (hview : (p.definer? (p.input edge)).bind p.flowView? = some view) : p.sinkEdge edge =
      ((p.input edge :: view.targets p (p.input edge)).foldl
        (fun (q : Program) v => q.storeSharding v (some (view.targetSharding p v s))) p).bypass edge := by
  have hi := read_of_bare_eq (fun r => r.input edge) (fun r => r.bare_input edge) <|
    bare_foldl_storeSharding (p := p) (fun v => some (view.targetSharding p v s))
      (p.input edge :: view.targets p (p.input edge))
  simp only [sinkEdge, hk, hview]
  rw [bypass, hi]

theorem attachEdge_eq_ok_iff {b : BlockId} {position : Nat} {owner : ValueId} {targets : List ValueId} :
    p.attachEdge b position owner targets = .ok q ↔ ∃ r edge,
      p.insert b position (.edge owner ((owner :: targets).findSome? p.storedSharding)) = .ok (r, edge) ∧
        q = (owner :: targets).foldl (fun p v => p.storeSharding v none)
          (r.replaceUsesExcept owner (r.output edge) (some edge)) := by
  simp only [attachEdge, bind, Except.bind]
  cases p.insert b position (.edge owner ((owner :: targets).findSome? p.storedSharding)) with
  | error e   => simp
  | ok placed =>
    simp only [pure, Except.pure, Except.ok.injEq]
    exact ⟨fun h => ⟨_, _, rfl, h.symm⟩, fun ⟨_, _, he, h⟩ => he ▸ h.symm⟩

theorem attachEdge_eq_ok {b : BlockId} {position : Nat} {owner : ValueId} {targets : List ValueId}
    (h : p.attachEdge b position owner targets = .ok q) : ∃ r edge sharding,
    p.insert b position (.edge owner sharding) = .ok (r, edge) ∧
      q.bare = (r.replaceUsesExcept owner (r.output edge) (some edge)).bare := by
  obtain ⟨r, edge, hi, rfl⟩ := attachEdge_eq_ok_iff.mp h
  exact ⟨r, edge, _, hi, bare_foldl_storeSharding (fun _ => none) _⟩

namespace WellFormed

theorem setSharding {sharding : Sharding} (hp : p.WellFormed) (h : p.setSharding v sharding = .ok q) :
    q.WellFormed :=
  hp.of_bare_eq (setSharding_bare h)

theorem sinkEdge (hp : p.WellFormed) (h : (p.op o).kind.isEdge) : (p.sinkEdge o).WellFormed := by
  have ⟨q, hq, _, he⟩ := sinkEdge_eq p o
  have hk := read_of_bare_eq (fun r => (r.op o).kind.isUnary) (by simp) hq
  exact he ▸ (hp.of_bare_eq hq).bypass (hk.trans (OpKind.isUnary_of_isEdge h))

theorem finishOp (hp : p.WellFormed) (h : p.finishOp o = some q) : q.WellFormed := by
  simp only [Program.finishOp] at h
  cases hk : (p.op o).kind <;> simp only [hk] at h
  case constraint sharding =>
    have hu : (p.op o).kind.isUnary := by simp [hk, OpKind.isUnary]
    split at h <;> cases h
    · exact hp.bypass hu
    · exact hp.setKind hu rfl
  case group => cases h; exact hp.erase o
  case barrier =>
    have hu : (p.op o).kind.isUnary := by simp [hk, OpKind.isUnary]
    split at h
    · cases h
      exact hp.bypass hu
    · split at h <;> cases h
      · exact hp.bypass hu
      · exact hp.setKind hu rfl
  all_goals cases h

theorem finish (hp : p.WellFormed) : p.finish.1.WellFormed := by
  refine applyWhere_keeps (fun q r o _ h hq => hq.finishOp h) (applyWhere_keeps ?_ hp _) _
  intro q r o _ h hq
  simp only [sinkOp, Option.ite_none_right_eq_some, Option.some.injEq] at h
  exact h.right ▸ hq.sinkEdge h.left

end WellFormed

-- What is known of an operation that is simplified.
inductive Simplifies (p : Program) (o : OpId) : Simplification → Prop
  | identity {c : Collective} {operand : Sharding} : (p.op o).kind = .collective c →
      p.sharding (p.input o) = some operand → c.isIdentityOn operand → Simplifies p o .bypass
  | missing {c : Collective} : (p.op o).kind = .collective c → p.sharding (p.input o) = none →
      c.allowsMissingOperand → p.usersAllowMissing (p.output o) →
      c.isIdentityOn (.fullyReplicated c.out.mesh (p.typeOf (p.input o)).rank) → Simplifies p o .bypass
  | satisfied {sharding : Sharding} : (p.op o).kind = .reshard sharding →
      Sharding.satisfies (p.sharding (p.input o)) sharding → Simplifies p o .bypass
  | unused {sharding : Sharding} : (p.op o).kind = .reshard sharding →
      p.hasUses (p.output o) = false → Simplifies p o .erase
  | chain {sharding inner : Sharding} {u : OpId} : (p.op o).kind = .reshard sharding →
      p.definer? (p.input o) = some u → (p.op u).kind = .reshard inner →
      Simplifies p o (.readFrom (p.input u))

theorem simplifyCollective?_simplifies {c : Collective} {simplification : Simplification}
    (hk : (p.op o).kind = .collective c) (h : p.simplifyCollective? o c = some simplification) :
    p.Simplifies o simplification := by
  simp only [simplifyCollective?, Option.bind_eq_bind] at h
  split at h
  case _ operand hs =>
    simp only [Option.bind_some, Option.ite_none_right_eq_some, Option.some.injEq] at h
    exact h.right ▸ .identity hk hs h.left
  case _ hs =>
    split at h
    case isTrue ha =>
      simp only [Option.bind_some, Option.ite_none_right_eq_some, Option.some.injEq] at h
      rw [Bool.and_eq_true] at ha
      exact h.right ▸ .missing hk hs ha.left ha.right h.left
    case isFalse => contradiction

theorem simplification?_simplifies {simplification : Simplification}
    (h : p.simplification? o = some simplification) : p.Simplifies o simplification := by
  simp only [simplification?] at h
  split at h
  case isTrue => contradiction
  case isFalse =>
    split at h
    case _ c hk =>
      exact simplifyCollective?_simplifies hk h
    case _ sharding hk =>
      simp only [simplifyReshard?] at h
      split at h
      case isTrue hs =>
        cases h
        exact .satisfied hk hs
      case isFalse =>
        split at h
        case isTrue hu =>
          cases h
          exact .unused hk (by simpa using hu)
        case isFalse =>
          simp only [Option.bind_eq_bind, Option.bind_eq_some_iff] at h
          have ⟨u, hd, h⟩ := h
          split at h
          case _ inner hu =>
            cases h
            exact .chain hk hd hu
          case _ => contradiction
    case _ => contradiction

namespace WellFormed

theorem simplifyOp (hp : p.WellFormed) (h : p.simplifyOp o = some q) : q.WellFormed := by
  simp only [Program.simplifyOp, Option.map_eq_some_iff] at h
  obtain ⟨simplification, hs, rfl⟩ := h
  cases simplification?_simplifies hs with
  | identity hk _ _    => exact hp.bypass (by simp [hk, OpKind.isUnary])
  | missing hk _ _ _ _ => exact hp.bypass (by simp [hk, OpKind.isUnary])
  | satisfied hk _     => exact hp.bypass (by simp [hk, OpKind.isUnary])
  | unused _ _         => exact hp.erase o
  | chain _ _ hu       => exact hp.setOperand (hp.input_lt (by simp [hu, OpKind.isUnary])) 0

end WellFormed

-- What a round keeps is kept by all of them.
theorem simplifyRounds_keeps {P : Program → Prop}
    (h : ∀ q, P q → P (applyWhere simplifyOp q false q.walk).1) (hp : P p) (rounds : Nat)
    (changed : Bool) : P (p.simplifyRounds rounds changed).1 := by
  induction rounds generalizing p changed with
  | zero => exact hp
  | succ rounds ih =>
    have hr := h p hp
    rw [simplifyRounds]
    split
    case _ r he =>
      rw [he] at hr
      exact ih hr true
    case _ r he =>
      rw [he] at hr
      exact hr

namespace WellFormed

theorem simplify (hp : p.WellFormed) : p.simplify.1.WellFormed :=
  simplifyRounds_keeps (fun _ hq => applyWhere_keeps (fun _ _ _ _ h hq => hq.simplifyOp h) hq _) hp _ _

theorem moveConstraint (hp : p.WellFormed) (o : OpId) : (p.moveConstraint o).program.WellFormed := by
  rw [Program.moveConstraint]
  split
  case _ sharding _ =>
    split
    case isTrue => exact hp
    case isFalse =>
      cases h : p.setSharding (p.input o) sharding with
      | ok q    => exact (hp.setSharding h).erase o
      | error e => exact hp
  case _ => exact hp

theorem attachEdge {b : BlockId} {position : Nat} {owner : ValueId} {targets : List ValueId}
    (hp : p.WellFormed) (h : p.attachEdge b position owner targets = .ok q) : q.WellFormed := by
  obtain ⟨r, edge, sharding, hi, hq⟩ := attachEdge_eq_ok h
  have hr := hp.insert hi
  obtain ⟨he, ho, ha⟩ := insert_eq_ok hi
  have hk : (r.op edge).kind.isUnary := by
    rw [he, ho, op_place, if_pos rfl]
    rfl
  exact (hr.replaceUsesExcept (hr.output_lt hk) (some edge)).of_bare_eq hq

theorem attachEdges (hp : p.WellFormed) (view : FlowView) (b : BlockId) (position : Nat)
    (changed : Bool) (owners : List ValueId) :
    (Program.attachEdges view b p position changed owners).program.WellFormed := by
  induction owners generalizing p position changed with
  | nil => exact hp
  | cons owner owners ih =>
    rw [Program.attachEdges]
    split
    case isTrue => exact ih hp position changed
    case isFalse =>
      cases h : p.attachEdge b position owner (view.targets p owner) with
      | ok q    => exact ih (hp.attachEdge h) (position + 1) true
      | error e => exact hp

theorem attachEdgesOf (hp : p.WellFormed) (o : OpId) : (p.attachEdgesOf o).program.WellFormed := by
  rw [Program.attachEdgesOf]
  split
  · exact hp.attachEdges ..
  · exact hp

theorem prepare (hp : p.WellFormed) : p.prepare.program.WellFormed := by
  have hm : (Outcome.forEach Program.moveConstraint p false p.walk).program.WellFormed :=
    Outcome.forEach_keeps (fun _ o _ hq => hq.moveConstraint o) hp false
  rw [Program.prepare]
  split
  case _ => exact hp
  case _ =>
    rw [Outcome.andThen]
    split
    case _ => exact Outcome.forEach_keeps (fun _ o _ hq => hq.attachEdgesOf o) hm _
    case _ => exact hm

theorem run (hp : p.WellFormed) (pass : Pass) : (pass.run p).program.WellFormed := by
  cases pass with
  | prepare        => exact hp.prepare
  | spread options => exact hp.of_bare_eq (p.spread_refines options).bare_eq
  | finish         => exact hp.finish
  | simplify       => exact hp.simplify

-- Neither the name nor the meshes and transforms matter.
theorem congr (hp : p.WellFormed) (hv : q.values = p.values) (ho : q.operations = p.operations)
    (hb : q.blocks = p.blocks) : q.WellFormed := by
  obtain ⟨_, _, _, _, _, _⟩ := p
  obtain ⟨_, _, _, _, _, _⟩ := q
  cases hv
  cases ho
  cases hb
  exact ⟨hp.body, hp.arguments, hp.results, hp.operands, hp.regions, hp.members, hp.nodup, hp.shaped,
    hp.uses, hp.users⟩

theorem declareMesh {name : String} {mesh : Mesh} (hp : p.WellFormed)
    (h : p.declareMesh name mesh = .ok q) : q.WellFormed := by
  simp only [Program.declareMesh, bind, Except.bind, pure, Except.pure] at h
  split at h
  case _ => contradiction
  case _ =>
    cases h
    exact hp.congr rfl rfl rfl

theorem empty (name : String) : (empty name).WellFormed where
  body              := Nat.one_pos
  arguments v b i   := by simp [Program.empty, block]
  results v o i     := by simp [Program.empty, op]
  operands o v h    := by simp [Program.empty, op] at h
  regions b o       := by simp [Program.empty, op, block]
  members b o h     := by simp [Program.empty, block] at h
  nodup b           := by simp [Program.empty, block]
  shaped o          := by constructor <;> simp [Program.empty, op, OpKind.isUnary, OpKind.isGroup,
    OpKind.isIsolated]
  uses v use h      := by simp [Program.empty, op] at h
  users v use h     := by simp [Program.empty, value] at h

end WellFormed

-- Programs that are built from nothing. The edits take handles of the program only.
inductive Reachable : Program → Prop
  | empty (name : String) : Reachable (Program.empty name)
  | declareMesh {p q : Program} {name : String} {mesh : Mesh} : Reachable p →
      p.declareMesh name mesh = .ok q → Reachable q
  | registerTransform {p : Program} (name : String) (transform : TargetTransform) : Reachable p →
      Reachable (p.registerTransform name transform)
  | addArgument {p q : Program} {type : TensorType} {sharding : Option Sharding} {v : ValueId} :
      Reachable p → p.addArgument type sharding = .ok (q, v) → Reachable q
  | addRegion {p : Program} (types : List TensorType) : Reachable p → Reachable (p.addRegion types).1
  | insert {p q : Program} {b : BlockId} {position : Nat} {new : NewOp} {o : OpId} : Reachable p →
      b.index < p.blocks.length → position ≤ (p.block b).operations.length →
      p.insert b position new = .ok (q, o) → Reachable q
  | setSharding {p q : Program} {v : ValueId} {sharding : Sharding} : Reachable p →
      p.setSharding v sharding = .ok q → Reachable q
  | replaceUses {p : Program} {source target : ValueId} : Reachable p →
      source.index < p.values.length → target.index < p.values.length →
      Reachable (p.replaceUses source target)
  | setOperand {p : Program} {o : OpId} {index : Nat} {v : ValueId} : Reachable p →
      index < (p.op o).operands.length → v.index < p.values.length →
      Reachable (p.setOperand o index v)
  | erase {p : Program} {o : OpId} : Reachable p → o.index < p.operations.length →
      Reachable (p.erase o)
  | run {p : Program} (pass : Pass) : Reachable p → Reachable (pass.run p).program

theorem Reachable.wellFormed (h : p.Reachable) : p.WellFormed := by
  induction h with
  | empty name               => exact .empty name
  | declareMesh _ h hp       => exact hp.declareMesh h
  | registerTransform _ _ _ hp => exact hp.congr rfl rfl rfl
  | addArgument _ h hp       => exact hp.addArgument h
  | addRegion types _ hp     => exact hp.addRegion types
  | insert _ _ _ h hp        => exact hp.insert h
  | setSharding _ h hp       => exact hp.setSharding h
  | replaceUses _ _ ht hp    => exact hp.replaceUses ht
  | setOperand _ _ hv hp     => exact hp.setOperand hv _
  | erase _ _ hp             => exact hp.erase _
  | run pass _ hp            => exact hp.run pass

-- Steps that build a program from nothing.
inductive BuildStep
  | mesh (name : String) (mesh : Mesh)
  | argument (type : TensorType) (sharding : Option Sharding)
  | region (types : List TensorType)
  | append (b : BlockId) (new : NewOp)

def buildStep? (p : Program) : BuildStep → Option Program
  | .mesh name mesh         => (p.declareMesh name mesh).toOption
  | .argument type sharding => (p.addArgument type sharding).toOption.map (·.1)
  | .region types           => some (p.addRegion types).1
  | .append b new           =>
    if b.index < p.blocks.length then (p.append b new).toOption.map (·.1) else none

def build (name : String) (steps : List BuildStep) : Option Program :=
  steps.foldlM buildStep? (empty name)

theorem Reachable.buildStep (hp : p.Reachable) {step : BuildStep} (h : p.buildStep? step = some q) :
    q.Reachable := by
  cases step with
  | mesh name mesh =>
    cases hm : p.declareMesh name mesh <;> simp [buildStep?, hm, Except.toOption] at h
    exact hp.declareMesh (h ▸ hm)
  | argument type sharding =>
    cases ha : p.addArgument type sharding with
    | error e => simp [buildStep?, ha, Except.toOption] at h
    | ok pair =>
      simp only [buildStep?, ha, Except.toOption, Option.map_some, Option.some.injEq] at h
      subst h
      exact hp.addArgument ha
  | region types =>
    cases h
    exact hp.addRegion types
  | append b new =>
    simp only [buildStep?, Option.ite_none_right_eq_some] at h
    obtain ⟨hb, h⟩ := h
    cases hi : p.append b new with
    | error e => simp [hi, Except.toOption] at h
    | ok pair =>
      simp only [hi, Except.toOption, Option.map_some, Option.some.injEq] at h
      subst h
      exact hp.insert hb (le_refl _) hi

theorem Reachable.foldlM {steps : List BuildStep} (hp : p.Reachable)
    (h : steps.foldlM buildStep? p = some q) : q.Reachable := by
  induction steps generalizing p with
  | nil =>
    cases h
    exact hp
  | cons step steps ih =>
    simp only [List.foldlM_cons, Option.bind_eq_bind, Option.bind_eq_some_iff] at h
    have ⟨r, hr, h⟩ := h
    exact ih (hp.buildStep hr) h

theorem build_reachable {name : String} {steps : List BuildStep} (h : build name steps = some p) :
    p.Reachable :=
  Reachable.foldlM (.empty name) h

end Program

end MeshSharding
