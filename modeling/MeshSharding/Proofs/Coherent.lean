import MeshSharding.Proofs.Growth
import MeshSharding.Proofs.Spread.Manual
import MeshSharding.Proofs.Verify.Fits

namespace MeshSharding

open AxisRef

-- The mesh is known, and the axes are apart on it.
def Sharding.Coherent (s : Sharding) (meshes : MeshTable) : Prop :=
  ∃ mesh, meshes.resolve s.mesh = .ok mesh ∧ Apart mesh (s.shardingAxes ++ s.replicated)

def OpKind.isReshard : OpKind → Bool
  | reshard _ => true
  | _         => false

theorem OpKind.bare_isReshard (kind : OpKind) : kind.bare.isReshard = kind.isReshard := by
  cases kind <;> rfl

-- No sharding is stated unchecked, whether the operation is part of the program or not. The exception is what finishing
-- makes of a barrier: a change to the sharding that is kept with its result. What is kept with values may be anything,
-- since it may have been made by a transform of data-flow edges.
def Program.Coherent (p : Program) : Prop :=
  ∀ o, (p.op o).kind.isReshard = false → ∀ s ∈ (p.op o).kind.shardings, s.Coherent p.meshes

namespace Sharding

variable {s t : Sharding} {meshes meshes' : MeshTable} {mesh : Mesh}

theorem coherent_of_checkIn {shape : List Nat} (hm : meshes.resolve s.mesh = .ok mesh)
    (h : s.checkIn mesh shape = .ok ()) : s.Coherent meshes :=
  ⟨mesh, hm, (checkIn_eq_ok_iff.mp h).right.left⟩

theorem coherent_of_check {shape : List Nat} (h : s.check meshes shape = .ok ()) : s.Coherent meshes := by
  obtain ⟨mesh, hm, h⟩ := bind_eq_ok_iff.mp h
  exact coherent_of_checkIn hm h

namespace Coherent

variable (h : s.Coherent meshes)
include h

theorem declare {name : String} (hm : meshes.declare name mesh = .ok meshes') : s.Coherent meshes' := by
  obtain ⟨other, hr, ha⟩ := h
  exact ⟨other, MeshTable.resolve_declare hm hr, ha⟩

-- Fewer axes on the same mesh.
theorem sublist (hm : t.mesh = s.mesh)
    (hs : (t.shardingAxes ++ t.replicated).Sublist (s.shardingAxes ++ s.replicated)) : t.Coherent meshes := by
  obtain ⟨mesh, hr, ha⟩ := h
  exact ⟨mesh, hm ▸ hr, ha.sublist hs⟩

theorem localView (manual : List String) : (s.localView manual).Coherent meshes := by
  refine h.sublist rfl ?_
  rw [shardingAxes_localView]
  exact List.filter_sublist.append List.filter_sublist

theorem fullyOpen (rank : Nat) : (fullyOpen s.mesh rank).Coherent meshes := by
  have hnone : (Sharding.fullyOpen s.mesh rank).shardingAxes = [] := by
    simp [Sharding.fullyOpen, shardingAxes, List.flatMap_eq_nil_iff]
  exact h.sublist rfl (hnone ▸ List.nil_sublist _)

theorem fullyReplicated (rank : Nat) : (fullyReplicated s.mesh rank).Coherent meshes := by
  have hnone : (Sharding.fullyReplicated s.mesh rank).shardingAxes = [] := by
    simp [Sharding.fullyReplicated, shardingAxes, List.flatMap_eq_nil_iff]
  exact h.sublist rfl (hnone ▸ List.nil_sublist _)

end Coherent

end Sharding

namespace Program

variable {p q : Program} {v w : ValueId} {o u : OpId} {s : Sharding} {kind : OpKind}

section Rules

-- What an operation that obeys its rules states has been compared with the type of a value.
theorem coherent_of_checkOp (h : p.checkOp o = .ok ()) : ∀ s ∈ (p.op o).kind.shardings, s.Coherent p.meshes := by
  simp only [checkOp] at h
  cases hk : (p.op o).kind <;> simp only [hk] at h
  case constraint s | reshard s =>
    obtain ⟨_, _, hf⟩ := bind_eq_ok_iff.mp h
    exact List.forall_mem_singleton.mpr (Sharding.coherent_of_check hf)
  case collective collective =>
    obtain ⟨_, _, hc⟩ := bind_eq_ok_iff.mp h
    exact List.forall_mem_singleton.mpr (Sharding.coherent_of_check (checkCollective_eq_ok_iff.mp hc).left)
  case edge sharding =>
    simp only [bind_eq_ok_iff] at h
    obtain ⟨_, _, _, _, hf⟩ := h
    exact fun s hs => Sharding.coherent_of_check (forM_eq_ok_iff.mp hf s hs)
  case manual computation =>
    obtain ⟨mesh, hall⟩ := localType_of_checkManual h
    intro s hs
    obtain ⟨hm, _, _, hl⟩ := hall s hs
    exact Sharding.coherent_of_checkIn hm (Sharding.localType_eq_ok hl).left
  case named computation =>
    obtain ⟨_, hin, hout⟩ := checkNamed_iff.mp h
    have hall {counted : Counted} {shardings : Option (List Sharding)} {values : List ValueId}
        (hc : p.checkShardings counted shardings values = .ok ()) :
        ∀ s ∈ shardings.getD [], s.Coherent p.meshes := by
      intro s hs
      obtain ⟨l, rfl, hs⟩ : ∃ l, shardings = some l ∧ s ∈ l := by cases shardings <;> simp_all
      obtain ⟨hl, hfits⟩ := checkShardings_eq_ok_iff.mp hc l rfl
      obtain ⟨i, hi⟩ := List.mem_iff_getElem?.mp hs
      obtain ⟨v, hv⟩ := exists_getElem?_of_length_eq hi hl.symm
      exact Sharding.coherent_of_check (hfits i s v hi hv)
    exact List.forall_mem_append.mpr ⟨hall hin, hall hout⟩
  all_goals exact fun s hs => absurd hs List.not_mem_nil

-- Verification compares what is kept with a value, if this is not a result of an erased operation.
theorem Valid.coherent_stored (hv : p.Valid) (hd : ∀ o, p.definer? v = some o → o ∈ p.walk)
    (h : p.storedSharding v = some s) : s.Coherent p.meshes :=
  Sharding.coherent_of_check (hv.stored v s h fun o ho => hv.sound.wellFormed.not_erased (hd o ho))

end Rules

namespace Coherent

section Edits

theorem empty (name : String) : (empty name).Coherent := by
  intro o _ s hs
  simp [Program.empty, op, OpKind.shardings] at hs

variable (hp : p.Coherent)
include hp

-- The operations state what those of another program on the same meshes do.
theorem congr (hm : q.meshes = p.meshes) (hk : ∀ o, (q.op o).kind = (p.op o).kind) : q.Coherent := by
  intro o
  rw [hm, hk]
  exact hp o

theorem foldl_storeSharding (t : ValueId → Option Sharding) (vs : List ValueId) :
    (vs.foldl (fun p v => p.storeSharding v (t v)) p).Coherent := by
  induction vs generalizing p with
  | nil          => exact hp
  | cons v vs ih => exact ih (p := p.storeSharding v (t v)) hp

theorem setKind (hk : kind.isReshard = false → ∀ s ∈ kind.shardings, s.Coherent p.meshes) (o : OpId) :
    (p.setKind o kind).Coherent := by
  intro u
  rw [op_setKind]
  dsimp only
  split
  · exact hk
  · exact hp u

theorem setSharding (h : p.setSharding v s = .ok q) : q.Coherent := by
  obtain ⟨place, _, hw⟩ := setSharding_written h
  have hs : s.Coherent p.meshes := Sharding.coherent_of_check (setSharding_eq_ok_iff.mp h).left
  have hm : q.meshes = p.meshes := read_of_bare_eq (·.meshes) bare_meshes hw.bare_eq
  intro o hr
  have hr : (p.op o).kind.isReshard = false := by
    rwa [← read_of_bare_eq (fun r => (r.op o).kind.isReshard) (fun r => by simp [OpKind.bare_isReshard]) hw.bare_eq]
  rw [hm]
  exact hw.forall_shardings hs hs.fullyOpen (hp o hr)

theorem insert {b : BlockId} {position : Nat} {new : NewOp} (h : p.insert b position new = .ok (q, o)) :
    q.Coherent := by
  obtain ⟨_, rfl, rfl, hc⟩ := insert_eq_ok_iff.mp h
  intro u
  by_cases hu : u = p.nextOp
  case pos => exact fun _ => hu ▸ coherent_of_checkOp hc
  case neg =>
    rw [meshes_place, op_place_of_ne hu]
    exact hp u

theorem replaceUsesExcept (source target : ValueId) (except : Option OpId) :
    (p.replaceUsesExcept source target except).Coherent := by
  by_cases h : source = target
  case pos => rwa [Program.replaceUsesExcept, if_pos h]
  case neg =>
    rw [replaceUsesExcept_eq h]
    exact hp.congr Frame.redirect.meshes fun _ => kind_redirect

theorem setOperand (o : OpId) (index : Nat) (v : ValueId) : (p.setOperand o index v).Coherent := by
  cases h : (p.op o).operands[index]? with
  | none   => simpa [Program.setOperand, h] using hp
  | some w =>
    rw [setOperand_eq h]
    exact hp.congr Frame.redirect.meshes fun _ => kind_redirect

theorem erase (o : OpId) : (p.erase o).Coherent :=
  hp.congr meshes_erase fun _ => by rw [op_erase]

theorem declareMesh {name : String} {mesh : Mesh} (h : p.declareMesh name mesh = .ok q) : q.Coherent := by
  obtain ⟨meshes, hm, heq⟩ := bind_eq_ok_iff.mp h
  cases heq
  exact fun o hr s hs => (hp o hr s hs).declare (attach_eq_ok_iff.mp hm)

theorem addArgument {type : TensorType} {sharding : Option Sharding}
    (h : p.addArgument type sharding = .ok (q, v)) : q.Coherent := by
  obtain ⟨_, _, heq⟩ := bind_eq_ok_iff.mp h
  cases heq
  exact hp.congr rfl fun _ => rfl

theorem addRegion (types : List TensorType) : (p.addRegion types).1.Coherent :=
  hp.congr rfl fun _ => rfl

end Edits

section Reads

variable (hp : p.Coherent) (hv : p.Valid) (hd : ∀ o, p.definer? v = some o → o ∈ p.walk)
include hp hv hd

theorem shardingOfResult {index : Nat} (hdef : p.definitionOf v = .result o index)
    (h : p.shardingOfResult v o index = some s) : s.Coherent p.meshes := by
  have hstated := hp o
  simp only [Program.shardingOfResult] at h
  cases hk : (p.op o).kind <;> simp only [hk, OpKind.shardings, OpKind.isReshard, forall_const] at h hstated
  case constraint | collective => exact hstated s (by simp_all)
  case reshard t =>
    have hc := hv.checks o (hd o (by simp [definer?, hdef]))
    simp only [Checked, hk] at hc
    exact coherent_of_checkOp hc s (by simp_all [OpKind.shardings])
  case edge => exact hstated s (Option.mem_toList.mpr h)
  case manual => exact hstated s (List.mem_append_right _ (List.mem_of_getElem? h))
  case named computation =>
    obtain ⟨shardings, hl, hs⟩ := Option.bind_eq_some_iff.mp h
    exact hstated s (List.mem_append_right _ (by simpa [hl] using List.mem_of_getElem? hs))
  all_goals exact hv.coherent_stored hd h

-- Inside a manual computation, what it states is seen without the manual axes.
theorem shardingOfArgument {b : BlockId} {index : Nat} (h : p.shardingOfArgument v b index = some s) :
    s.Coherent p.meshes := by
  simp only [Program.shardingOfArgument, parentKind?] at h
  cases hb : (p.block b).parent with
  | none   => exact hv.coherent_stored hd (by simpa [hb] using h)
  | some o =>
    have hstated := hp o
    cases hk : (p.op o).kind <;>
      simp only [hb, hk, Option.map_some, OpKind.shardings, OpKind.isReshard, forall_const] at h hstated
    case manual computation =>
      obtain ⟨t, ht, rfl⟩ := Option.map_eq_some_iff.mp h
      exact (hstated t (List.mem_append_left _ (List.mem_of_getElem? ht))).localView _
    case named computation =>
      obtain ⟨shardings, hl, hs⟩ := Option.bind_eq_some_iff.mp h
      exact hstated s (List.mem_append_left _ (by simpa [hl] using List.mem_of_getElem? hs))
    all_goals exact hv.coherent_stored hd h

-- The sharding of a value is kept with it, or is one that an operation states, of which only the one that defines the
-- value has to be part of the program.
theorem sharding (h : p.sharding v = some s) : s.Coherent p.meshes := by
  rw [Program.sharding] at h
  split at h
  case h_1 hk =>
    obtain ⟨e, _, hk⟩ := Option.map_eq_some_iff.mp hk
    exact hp e (by simp [hk, OpKind.isReshard]) s (by simp [hk, OpKind.shardings, h])
  case h_2 =>
    split at h
    case h_1 hdef => exact hp.shardingOfResult hv hd hdef h
    case h_2      => exact hp.shardingOfArgument hv hd h

end Reads

section Passes

variable (hp : p.Coherent)
include hp

theorem bypass (o : OpId) : (p.bypass o).Coherent :=
  (hp.replaceUsesExcept _ _ none).erase o

theorem moveConstraint (o : OpId) : (p.moveConstraint o).program.Coherent := by
  rw [Program.moveConstraint]
  split
  case _ sharding _ =>
    split
    case isTrue => exact hp
    case isFalse =>
      cases h : p.setSharding (p.input o) sharding with
      | ok q    => exact (hp.setSharding h).erase o
      | error e => exact hp
  case _ => exact hp

theorem attachEdge {b : BlockId} {position : Nat} {owner : ValueId} {targets : List ValueId}
    (h : p.attachEdge b position owner targets = .ok q) : q.Coherent := by
  obtain ⟨r, edge, hi, rfl⟩ := attachEdge_eq_ok_iff.mp h
  exact ((hp.insert hi).replaceUsesExcept _ _ _).foldl_storeSharding (fun _ => none) _

theorem attachEdges (view : FlowView) (b : BlockId) (position : Nat) (changed : Bool) (owners : List ValueId) :
    (Program.attachEdges view b p position changed owners).program.Coherent := by
  induction owners generalizing p position changed with
  | nil => exact hp
  | cons owner owners ih =>
    rw [Program.attachEdges]
    split
    case isTrue  => exact ih hp position changed
    case isFalse =>
      cases h : p.attachEdge b position owner (view.targets p owner) with
      | ok q    => exact ih (hp.attachEdge h) (position + 1) true
      | error e => exact hp

theorem attachEdgesOf (o : OpId) : (p.attachEdgesOf o).program.Coherent := by
  rw [Program.attachEdgesOf]
  split
  · exact hp.attachEdges _ _ _ _ _
  · exact hp

theorem prepare : p.prepare.program.Coherent := by
  have hm : (Outcome.forEach Program.moveConstraint p false p.walk).program.Coherent :=
    Outcome.forEach_keeps (fun _ o _ hq => hq.moveConstraint o) hp false
  rw [Program.prepare]
  split
  case _ => exact hp
  case _ =>
    rw [Outcome.andThen]
    split
    case _ => exact Outcome.forEach_keeps (fun _ o _ hq => hq.attachEdgesOf o) hm _
    case _ => exact hm

theorem spread (options : SpreadOptions) : (p.spread options).program.Coherent := by
  have hadopts {plan : SpreadPlan} {proposal : Sharding} {q r : Program} {vs : List ValueId}
      (h : plan.Adopts proposal q vs r) (hq : q.Coherent) : r.Coherent := by
    induction h with
    | nil            => exact hq
    | cons _ hs _ ih => exact ih (hq.setSharding hs)
  cases h : p.spreadPlan options with
  | error e =>
    have he : (p.spread options).program = p := by simp [Program.spread, h]
    rwa [he]
  | ok plan =>
    rw [spread_program p options h]
    refine SpreadPlan.run_of_evaluates (R := fun q r => q.Coherent → r.Coherent) (fun _ => id)
      (fun h h' => h' ∘ h) ?_ _ _ _ p hp
    rintro q r vs i he hq
    cases he with
    | nothing      => exact hq
    | adopt _ _ ha => exact hadopts ha hq

theorem sinkEdge (o : OpId) : (p.sinkEdge o).Coherent := by
  rw [Program.sinkEdge]
  refine (replaceUsesExcept ?_ _ _ none).erase o
  split
  case _ => exact hp.foldl_storeSharding _ _
  case _ => exact hp

theorem finishOp (h : p.finishOp o = some q) : q.Coherent := by
  simp only [Program.finishOp] at h
  cases hk : (p.op o).kind <;> simp only [hk] at h
  case constraint sharding =>
    split at h <;> cases h
    · exact hp.bypass o
    · exact hp.setKind (by simp [OpKind.isReshard]) o
  case group =>
    cases h
    exact hp.erase o
  case barrier =>
    split at h
    · cases h
      exact hp.bypass o
    · split at h <;> cases h
      · exact hp.bypass o
      · exact hp.setKind (by simp [OpKind.isReshard]) o
  all_goals cases h

theorem finish : p.finish.1.Coherent := by
  refine applyWhere_keeps (fun q r o _ h hq => hq.finishOp h) (applyWhere_keeps ?_ hp _) _
  intro q r o _ h hq
  simp only [sinkOp, Option.ite_none_right_eq_some, Option.some.injEq] at h
  exact h.right ▸ hq.sinkEdge o

theorem simplifyOp (h : p.simplifyOp o = some q) : q.Coherent := by
  simp only [Program.simplifyOp, Option.map_eq_some_iff] at h
  obtain ⟨simplification, _, rfl⟩ := h
  cases simplification with
  | bypass     => exact hp.bypass o
  | erase      => exact hp.erase o
  | readFrom v => exact hp.setOperand o 0 v

theorem simplify : p.simplify.1.Coherent :=
  simplifyRounds_keeps (fun _ hq => applyWhere_keeps (fun _ _ _ _ h hq => hq.simplifyOp h) hq _) hp _ _

theorem run (pass : Pass) : (pass.run p).program.Coherent := by
  cases pass with
  | prepare        => exact hp.prepare
  | spread options => exact hp.spread options
  | finish         => exact hp.finish
  | simplify       => exact hp.simplify

end Passes

end Coherent

theorem Reachable.coherent (h : p.Reachable) : p.Coherent := by
  induction h with
  | empty name                 => exact .empty name
  | declareMesh _ h hp         => exact hp.declareMesh h
  | registerTransform _ _ _ hp => exact hp.congr rfl fun _ => rfl
  | addArgument _ h hp         => exact hp.addArgument h
  | addRegion types _ hp       => exact hp.addRegion types
  | insert _ _ _ h hp          => exact hp.insert h
  | setSharding _ h hp         => exact hp.setSharding h
  | replaceUses _ _ _ hp       => exact hp.replaceUsesExcept _ _ none
  | setOperand _ _ _ hp        => exact hp.setOperand _ _ _
  | erase _ _ hp               => exact hp.erase _
  | run pass _ hp              => exact hp.run pass

end Program

end MeshSharding
