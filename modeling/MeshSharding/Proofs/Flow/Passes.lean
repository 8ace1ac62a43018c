import MeshSharding.Proofs.Flow.Attach

namespace MeshSharding.Program

variable {p q r : Program} {o : OpId}

section Steps

variable (hp : p.Sound)
include hp

theorem Sound.sinkOp (h : p.sinkOp o = some q) : q.Sound ∧ KeepsFlow p q := by
  simp only [Program.sinkOp, Option.ite_none_right_eq_some, Option.some.injEq] at h
  obtain ⟨r, hr, _, he⟩ := sinkEdge_eq p o
  rw [← h.right, he]
  refine hp.andThen (hp.of_bare_eq hr) fun hs => hs.bypass ?_
  have hk := read_of_bare_eq (fun s => (s.op o).kind.isTransparent) (by simp) hr
  rw [hk]
  cases hk : (p.op o).kind <;> simp [hk, OpKind.isEdge] at h
  rfl

theorem Sound.finishOp (h : p.finishOp o = some q) : q.Sound ∧ KeepsFlow p q := by
  simp only [Program.finishOp] at h
  cases hk : (p.op o).kind <;> simp only [hk] at h
  case constraint sharding =>
    have ht : (p.op o).kind.isTransparent := by simp [hk, OpKind.isTransparent]
    split at h <;> cases h
    · exact hp.bypass ht
    · exact hp.setKind ht rfl
  case group =>
    cases h
    exact hp.erase_group (by simp [hk, OpKind.isGroup])
  case barrier =>
    have ht : (p.op o).kind.isTransparent := by simp [hk, OpKind.isTransparent]
    split at h
    · cases h
      exact hp.bypass ht
    · split at h <;> cases h
      · exact hp.bypass ht
      · exact hp.setKind ht rfl
  all_goals cases h

theorem Sound.simplifyOp (h : p.simplifyOp o = some q) : q.Sound ∧ KeepsFlow p q := by
  simp only [Program.simplifyOp, Option.map_eq_some_iff] at h
  obtain ⟨simplification, hs, rfl⟩ := h
  cases simplification?_simplifies hs with
  | identity hk _ hi | missing hk _ _ _ hi =>
    have ht := Collective.isTransparent_of_isIdentityOn hi
    exact hp.bypass (by simpa [hk, OpKind.isTransparent] using ht)
  | satisfied hk _ => exact hp.bypass (by simp [hk, OpKind.isTransparent])
  | unused hk hu =>
    apply hp.erase_unary (by simp [hk, OpKind.isTransparent])
    exact fun u hw => hp.wellFormed.unused_of_hasUses hp.rooted hu hw
  | chain hk hd hu =>
    exact hp.setOperand_behind (by simp [hk, OpKind.isTransparent]) hd
      (by simp [hu, OpKind.isTransparent])

theorem Sound.moveConstraint (o : OpId) :
    let q := (p.moveConstraint o).program
    q.Sound ∧ KeepsFlow p q := by
  rw [Program.moveConstraint]
  split
  case _ sharding hk =>
    split
    case isTrue => exact ⟨hp, .refl p⟩
    case isFalse hu =>
      cases h : p.setSharding (p.input o) sharding with
      | error e => exact ⟨hp, .refl p⟩
      | ok q =>
        have hq := setSharding_bare h
        refine hp.andThen (hp.of_bare_eq hq) fun hs => hs.erase_unary ?_ ?_
        · rw [read_of_bare_eq (fun s => (s.op o).kind.isTransparent) (by simp) hq, hk]
          rfl
        · intro u hw
          rw [read_of_bare_eq (fun s => s.walk) bare_walk hq] at hw
          rw [read_of_bare_eq (fun s => s.output o) (fun s => s.bare_output o) hq,
            read_of_bare_eq (fun s => (s.op u).operands) (by simp) hq]
          simp only [Bool.or_eq_true, not_or, Bool.not_eq_true] at hu
          exact hp.wellFormed.unused_of_hasUses hp.rooted hu.left hw
  case _ => exact ⟨hp, .refl p⟩

end Steps

section Runs

variable (hp : p.Sound)
include hp

theorem Sound.finish : p.finish.1.Sound ∧ KeepsFlow p p.finish.1 := by
  have h : p.Sound ∧ KeepsFlow p p := ⟨hp, .refl p⟩
  refine applyWhere_keeps (P := fun q => q.Sound ∧ KeepsFlow p q) ?_
    (applyWhere_keeps (P := fun q => q.Sound ∧ KeepsFlow p q) ?_ h _) _
  · exact fun q r o _ ho hq => hp.andThen hq fun hs => hs.finishOp ho
  · exact fun q r o _ ho hq => hp.andThen hq fun hs => hs.sinkOp ho

theorem Sound.simplify : p.simplify.1.Sound ∧ KeepsFlow p p.simplify.1 := by
  have h : p.Sound ∧ KeepsFlow p p := ⟨hp, .refl p⟩
  refine simplifyRounds_keeps (P := fun q => q.Sound ∧ KeepsFlow p q) (fun q hq => ?_) h _ _
  refine applyWhere_keeps (P := fun q => q.Sound ∧ KeepsFlow p q) ?_ hq false
  exact fun q r o _ ho hq => hp.andThen hq fun hs => hs.simplifyOp ho

theorem Sound.moveConstraints (changed : Bool) (os : List OpId) :
    let q := (Outcome.forEach Program.moveConstraint p changed os).program
    q.Sound ∧ KeepsFlow p q := by
  have h : p.Sound ∧ KeepsFlow p p := ⟨hp, .refl p⟩
  refine Outcome.forEach_keeps (P := fun q => q.Sound ∧ KeepsFlow p q) ?_ h changed
  exact fun q o _ hq => hp.andThen hq fun hs => hs.moveConstraint o

-- The operations that are gone over stay in the program.
theorem Sound.attachAll (changed : Bool) :
    let q := (Outcome.forEach Program.attachEdgesOf p changed p.walk).program
    q.Sound ∧ KeepsFlow p q := by
  intro q
  have h : (p.Sound ∧ KeepsFlow p p) ∧ p.walk ⊆ p.walk := ⟨⟨hp, .refl p⟩, fun _ ho => ho⟩
  have hq : (q.Sound ∧ KeepsFlow p q) ∧ p.walk ⊆ q.walk := by
    refine Outcome.forEach_keeps (P := fun q => (q.Sound ∧ KeepsFlow p q) ∧ p.walk ⊆ q.walk) ?_ h changed
    intro q o ho ⟨hq, hw⟩
    have ⟨_, hwalk⟩ := hq.left.attachEdgesOf (hw ho)
    exact ⟨hp.andThen hq fun hs => (hs.attachEdgesOf (hw ho)).left, fun u hu => hwalk (hw hu)⟩
  exact hq.left

theorem Sound.prepare : p.prepare.program.Sound ∧ KeepsFlow p p.prepare.program := by
  rw [Program.prepare]
  split
  case _ => exact ⟨hp, .refl p⟩
  case _ =>
    have hm := hp.moveConstraints false p.walk
    rw [Outcome.andThen]
    split
    case _ => exact hp.andThen hm fun hs => hs.attachAll _
    case _ => exact hm

theorem Sound.run (pass : Pass) :
    (pass.run p).program.Sound ∧ KeepsFlow p (pass.run p).program := by
  cases pass with
  | prepare        => exact hp.prepare
  | spread options => exact hp.of_bare_eq (p.spread_refines options).bare_eq
  | finish         => exact hp.finish
  | simplify       => exact hp.simplify

end Runs

-- Passes keep all operations but those that hand on values or group them, the roots of all operands,
-- and the scopes. This holds whether they succeed or not.
theorem run_keeps_flow (hp : p.Reachable) (hv : p.verify = .ok ()) (ht : p.IsTree) (pass : Pass) :
    let q := (pass.run p).program
    q.core = p.core ∧
      (∀ o ∈ p.walk, o ∈ q.walk → (q.op o).operands.length = (p.op o).operands.length ∧
        ∀ (i : Nat) v w, (p.op o).operands[i]? = some v → (q.op o).operands[i]? = some w →
          ∃ root, p.Root v root ∧ q.Root w root) ∧
      q.Scoped := by
  intro q
  have hs := scoped_of_verify hv
  have ⟨hq, hf⟩ := (hp.wellFormed.sound ht hs).run pass
  refine ⟨hf.core, fun o ho hoq => ⟨hf.arity o ho hoq, fun i v w hi hw => ?_⟩, hq.scoped⟩
  have ⟨root, hroot⟩ := hp.wellFormed.exists_root ht hs ho (List.mem_of_getElem? hi)
  exact ⟨root, hroot, hf.roots o ho hoq i v w hi hw root hroot⟩

-- A loop on a value, with a constraint on its result that nothing uses.
def loop? : Option Program :=
  let type : TensorType := ⟨[8], .f32⟩
  let sharding : Sharding := ⟨.symbol "mesh", [{ axes := [⟨"a", none⟩], closed := false }], []⟩
  build "main" [
    .mesh "mesh" { axes := [⟨"a", 2⟩] },
    .argument type none,
    .region [type],
    .append ⟨1⟩ (.generic { name := "exp", elementwise := true } [⟨1⟩] [type] []),
    .append ⟨1⟩ (.terminator [⟨2⟩]),
    .append entry (.generic { name := "while" } [⟨0⟩] [type] [⟨1⟩]),
    .append entry (.constraint ⟨3⟩ sharding),
    .append entry (.terminator [⟨3⟩])]

theorem run_keeps_flow_loop :
    let p := loop?.get (by rfl)
    let q := (Pass.prepare.run p).program
    p.Reachable ∧ p.verify = .ok () ∧ p.IsTree ∧ q.core = p.core ∧
      (∀ o ∈ p.walk, o ∈ q.walk → (q.op o).operands.length = (p.op o).operands.length ∧
        ∀ (i : Nat) v w, (p.op o).operands[i]? = some v → (q.op o).operands[i]? = some w →
          ∃ root, p.Root v root ∧ q.Root w root) ∧
      q.Scoped := by
  intro p q
  have hp : p.Reachable := build_reachable (Option.some_get _).symm
  have hv : p.verify = .ok () := rfl
  have ht : p.nested.Nodup := by decide
  exact ⟨hp, hv, ht, run_keeps_flow hp hv ht .prepare⟩

end MeshSharding.Program
