import MeshSharding.Proofs.Nesting.Climb
import MeshSharding.Proofs.Verify.Prepare

namespace MeshSharding.Program

variable {p q r m : Program} {o e : OpId} {v : ValueId}

section Marks

-- Moving constraints leaves the edge operations where they are.
theorem WellFormed.marks_moveConstraint (hp : p.WellFormed) (v : ValueId) (e : OpId) :
    (p.moveConstraint o).program.marks v e = p.marks v e := by
  rw [Program.moveConstraint]
  split
  case _ sharding hk =>
    split
    case isTrue => rfl
    case isFalse =>
      cases h : p.setSharding (p.input o) sharding with
      | error _ => rfl
      | ok q =>
        have hb := setSharding_bare h
        have hm : q.marks v e = p.marks v e :=
          read_of_bare_eq (fun r => r.marks v e) (fun r => by simp [Program.marks]) hb
        have hregions : (q.op o).regions = [] := by
          rw [read_of_bare_eq (fun r => (r.op o).regions) (by simp) hb]
          exact hp.regions_eq_nil (by simp [hk, OpKind.takesRegions])
        have hedge : (q.op o).kind.isEdge = false := by
          rw [read_of_bare_eq (fun r => (r.op o).kind.isEdge) (by simp) hb, hk]
          rfl
        rw [← hm]
        simp only [Program.marks, op_erase_leaf hregions]
        by_cases heo : e = o
        case pos => simp [heo, hedge]
        case neg => simp [heo]
  case _ => rfl

theorem WellFormed.marks_moveConstraints (hp : p.WellFormed) (v : ValueId) (e : OpId) :
    (Outcome.forEach Program.moveConstraint p false p.walk).program.marks v e = p.marks v e := by
  have h : p.WellFormed ∧ p.marks v e = p.marks v e := ⟨hp, rfl⟩
  refine (Outcome.forEach_keeps (P := fun q => q.WellFormed ∧ q.marks v e = p.marks v e) ?_ h false).right
  intro q o _ ⟨hq, hm⟩
  exact ⟨hq.moveConstraint o, (hq.marks_moveConstraint v e).trans hm⟩

theorem Attachments.marks (h : Attachments p q) (he : e.index < p.operations.length) : q.marks v e = p.marks v e := by
  induction h with
  | refl => rfl
  | tail h hs ih =>
    have ⟨o, owner, hs⟩ := hs
    have ⟨s, hi⟩ := hs.interposes
    rw [hi.marks hs.unmarked (ne_nextOp (Nat.lt_of_lt_of_le he (Attachments.kept h).left)), ih]

-- New edge operations are part of the program, and on values that had none.
theorem Attachments.unmarked (h : Attachments p q) (he : p.operations.length ≤ e.index) (hm : q.marks v e) :
    (∀ u, p.marks v u = false) ∧ e ∈ q.walk := by
  induction h with
  | refl => exact absurd (index_lt_of_not_erased (marks_iff.mp hm).left) (Nat.not_lt.mpr he)
  | @tail q r h hs ih =>
    have ⟨o, owner, hs⟩ := hs
    have ⟨s, hi⟩ := hs.interposes
    by_cases hen : e = q.nextOp
    case pos =>
      subst hen
      refine ⟨fun u => ?_, hs.placed⟩
      rw [hi.marks_nextOp.mp hm]
      by_contra hu
      have hlt := index_lt_of_not_erased (marks_iff.mp (by simpa using hu)).left
      rw [← Attachments.marks h hlt, edgeOfOwner?_eq_none_iff.mp hs.unmarked u] at hu
      contradiction
    case neg =>
      rw [hi.marks hs.unmarked hen] at hm
      have ⟨hnone, hw⟩ := ih hm
      exact ⟨hnone, (hi.mem_walk_iff hen).mpr hw⟩

end Marks

section Owners

-- An edge operation of the program is the one use of the value that it is on.
theorem Upright.uses_eq_iff (hp : p.Upright) (hw : ∀ o, o ∈ p.walk ↔ p.isLive o) :
    (∃ e, p.isLive e ∧ (p.op e).kind.isEdge ∧ p.uses v = [⟨e, 0⟩]) ↔ ∃ e ∈ p.walk, p.marks v e := by
  have hwf := hp.wellFormed
  constructor
  case mp =>
    intro ⟨e, hl, hk, hu⟩
    have ⟨_, hv⟩ := hwf.mem_uses_iff.mp (hu ▸ List.mem_singleton_self _)
    exact ⟨e, (hw e).mpr hl, marks_iff.mpr ⟨erased_of_isLive hl, hk, by rwa [List.head?_eq_getElem?]⟩⟩
  case mpr =>
    intro ⟨e, he, hm⟩
    have ⟨_, hk, hv⟩ := marks_iff.mp hm
    rw [List.head?_eq_getElem?] at hv
    have ⟨_, _, hi⟩ := hwf.marks_iff.mp hm
    refine ⟨e, (hw e).mp he, hk, (hwf.uses_eq_singleton_iff ((hw e).mp he) hv).mpr fun use hl hu => ?_⟩
    have ⟨hu, hz⟩ := hp.apart e he hk use.user ((hw _).mpr hl) use.index (hi ▸ hu)
    rw [← hu, ← hz]

-- A value that has got an edge operation has one in the program, unless it had others only.
theorem Attachments.mem_walk_iff (h : Attachments p q) (ha : Attaches p q) (hv : (q.edgeOfOwner? v).isSome) :
    (∃ e ∈ q.walk, q.marks v e) ↔ ((∃ e, p.marks v e) → ∃ e ∈ p.walk, p.marks v e) := by
  constructor
  case mp =>
    intro ⟨e, he, hm⟩ ⟨u, hu⟩
    by_cases hl : e.index < p.operations.length
    case pos => exact ⟨e, ha.within e he hl, h.marks hl ▸ hm⟩
    case neg => simp [(h.unmarked (Nat.le_of_not_lt hl) hm).left u] at hu
  case mpr =>
    intro himp
    have ⟨e, he⟩ := Option.isSome_iff_exists.mp hv
    have ⟨hm, _⟩ := edgeOfOwner?_eq_some_iff.mp he
    by_cases hl : e.index < p.operations.length
    case neg => exact ⟨e, (h.unmarked (Nat.le_of_not_lt hl) hm).right, hm⟩
    case pos =>
      have ⟨u, hu, hm⟩ := himp ⟨e, h.marks hl ▸ hm⟩
      exact ⟨u, ha.stays hu, (h.marks (index_lt_of_not_erased (marks_iff.mp hm).left)).trans hm⟩

end Owners

-- Preparing moves constraints, and then gives all results of structural operations edge operations.
theorem Upright.attachments_of_prepare (hp : p.Upright) {changed : Bool} (h : p.prepare.result = .ok changed) :
    ∃ m, Moves p m ∧ (∀ v e, m.marks v e = p.marks v e) ∧ Attachments m p.prepare.program ∧
      ∀ o ∈ m.walk, (m.op o).isStructural → ∀ v ∈ (m.op o).results, (p.prepare.program.edgeOfOwner? v).isSome := by
  have hm := hp.moves
  have hmarks := hp.wellFormed.marks_moveConstraints
  rw [Program.prepare] at h ⊢
  split at h
  case _ => cases h
  case _ =>
    rw [Outcome.andThen] at h ⊢
    generalize Outcome.forEach Program.moveConstraint p false p.walk = outcome at h hm hmarks ⊢
    obtain ⟨m, result⟩ := outcome
    cases result with
    | error _ => cases h
    | ok moved =>
      obtain ⟨hr, hdone⟩ := hm.upright.attachments (fun _ ho => ho) moved
      exact ⟨m, hm, hmarks, hr, hdone changed h⟩

-- No edge operation gets out of the program.
theorem Moves.exists_marks_iff (h : Moves p m) (hm : ∀ v e, m.marks v e = p.marks v e) :
    (∃ e ∈ m.walk, m.marks v e) ↔ ∃ e ∈ p.walk, p.marks v e := by
  simp only [hm]
  constructor
  case mp  => exact fun ⟨e, he, hme⟩ => ⟨e, h.within he, hme⟩
  case mpr =>
    intro ⟨e, he, hme⟩
    have ⟨_, hk, _⟩ := marks_iff.mp hme
    refine ⟨e, (h.moved e he).resolve_right fun ⟨_, s, hc⟩ => ?_, hme⟩
    simp [hc, OpKind.isEdge] at hk

-- After preparing, a result of a structural operation has an edge operation as its one use, unless the only
-- edge operations that it had before are no part of the program.
theorem prepare_marks_iff (hp : p.Reachable) (hv : p.verify = .ok ()) {changed : Bool}
    (h : p.prepare.result = .ok changed) :
    let q := p.prepare.program
    ∀ o, q.isLive o → (q.op o).isStructural → ∀ v ∈ (q.op o).results,
      ((∃ e, q.isLive e ∧ (q.op e).kind.isEdge ∧ q.uses v = [⟨e, 0⟩]) ↔
        ((∃ e, p.marks v e) → ∃ e, p.isLive e ∧ p.marks v e)) := by
  intro q o ho hs v hr
  obtain ⟨hup, -⟩ := Upright.of_verify hp.wellFormed hv
  obtain ⟨m, hm, hmarks, hattach, hdone⟩ := hup.attachments_of_prepare h
  have ha : Attaches m q := (Attaches.refl hm.upright).attachments hm.upright.wellFormed hattach
  have hq : q.Reachable := .run .prepare hp
  have hlive (o : OpId) : p.isLive o ↔ o ∈ p.walk := (hp.mem_walk_iff hup.standing.sound.rooted).symm
  have hlive' (o : OpId) : o ∈ q.walk ↔ q.isLive o := hq.mem_walk_iff ha.upright.standing.sound.rooted
  have ho := (hlive' o).mpr ho
  -- The operation was there before the edge operations.
  have hl : o.index < m.operations.length := by
    by_contra hl
    obtain ⟨s, hk, -⟩ := ha.fresh o ho (Nat.le_of_not_lt hl)
    simp [Operation.isStructural, OpKind.isGeneric, hk] at hs
  have hop := hattach.kept.right o hl
  rw [hop] at hs hr
  have hsome := hdone o (ha.within o ho hl) hs v hr
  calc (∃ e, q.isLive e ∧ (q.op e).kind.isEdge ∧ q.uses v = [⟨e, 0⟩])
      ↔ ∃ e ∈ q.walk, q.marks v e := ha.upright.uses_eq_iff hlive'
    _ ↔ ((∃ e, m.marks v e) → ∃ e ∈ m.walk, m.marks v e) := hattach.mem_walk_iff ha hsome
    _ ↔ ((∃ e, p.marks v e) → ∃ e, p.isLive e ∧ p.marks v e) := by
      rw [hm.exists_marks_iff hmarks]
      simp only [hmarks, hlive]

-- A loop with two results, the first of which has an edge operation, and in its body a conditional.
def halfMarkedLoop? : Option Program :=
  let type : TensorType := ⟨[8], .f32⟩
  build "main" [
    .argument type none,
    .region [],
    .append ⟨1⟩ (.terminator [⟨0⟩]),
    .region [type, type],
    .append ⟨2⟩ (.generic { name := "if" } [] [type] [⟨1⟩]),
    .append ⟨2⟩ (.terminator [⟨3⟩, ⟨2⟩]),
    .append entry (.generic { name := "while" } [⟨0⟩, ⟨0⟩] [type, type] [⟨2⟩]),
    .append entry (.edge ⟨4⟩ none),
    .append entry (.terminator [⟨6⟩, ⟨5⟩])]

def halfMarkedLoop : Program :=
  halfMarkedLoop?.get (by rfl)

theorem prepare_marks_iff_halfMarkedLoop :
    let p := halfMarkedLoop
    let q := p.prepare.program
    p.Reachable ∧ p.verify = .ok () ∧ p.prepare.result = .ok true ∧
      q.uses ⟨3⟩ = [⟨⟨7⟩, 0⟩] ∧ q.uses ⟨4⟩ = [⟨⟨4⟩, 0⟩] ∧ q.uses ⟨5⟩ = [⟨⟨6⟩, 0⟩] ∧
      ∀ o, q.isLive o → (q.op o).isStructural → ∀ v ∈ (q.op o).results,
        ((∃ e, q.isLive e ∧ (q.op e).kind.isEdge ∧ q.uses v = [⟨e, 0⟩]) ↔
          ((∃ e, p.marks v e) → ∃ e, p.isLive e ∧ p.marks v e)) := by
  have hp : halfMarkedLoop.Reachable := build_reachable (Option.some_get _).symm
  have hv : halfMarkedLoop.verify = .ok () := by rfl
  have h : halfMarkedLoop.prepare.result = .ok true := by rfl
  exact ⟨hp, hv, h, by rfl, by rfl, by rfl, prepare_marks_iff hp hv h⟩

-- The result of a loop has an edge operation in a block that is no part of the program.
def straysFromLoop? : Option Program :=
  let type : TensorType := ⟨[8], .f32⟩
  build "main" [
    .argument type none,
    .region [type],
    .append ⟨1⟩ (.terminator [⟨1⟩]),
    .append entry (.generic { name := "while" } [⟨0⟩] [type] [⟨1⟩]),
    .region [],
    .append ⟨2⟩ (.edge ⟨2⟩ none),
    .append entry (.terminator [⟨2⟩])]

def straysFromLoop : Program :=
  straysFromLoop?.get (by rfl)

-- Preparing succeeds, and what the loop gives is returned without an edge operation in between.
theorem prepare_not_marks_straysFromLoop :
    let p := straysFromLoop
    let q := p.prepare.program
    p.Reachable ∧ p.verify = .ok () ∧ p.prepare.result = .ok false ∧ q.isLive ⟨1⟩ ∧ (q.op ⟨1⟩).isStructural ∧
      ⟨2⟩ ∈ (q.op ⟨1⟩).results ∧ q.uses ⟨2⟩ = [⟨⟨3⟩, 0⟩] ∧
      ¬ ∃ e, q.isLive e ∧ (q.op e).kind.isEdge ∧ q.uses ⟨2⟩ = [⟨e, 0⟩] := by
  have hp : straysFromLoop.Reachable := build_reachable (Option.some_get _).symm
  have hu : straysFromLoop.prepare.program.uses ⟨2⟩ = [⟨⟨3⟩, 0⟩] := by rfl
  have hk : (straysFromLoop.prepare.program.op ⟨3⟩).kind = .terminator := by rfl
  refine ⟨hp, by rfl, by rfl, by rfl, by rfl, by decide, hu, ?_⟩
  rintro ⟨e, -, he, hue⟩
  have he' : [⟨⟨3⟩, 0⟩] = [(⟨e, 0⟩ : Use)] := hu.symm.trans hue
  cases he'
  rw [hk] at he
  contradiction

end MeshSharding.Program
