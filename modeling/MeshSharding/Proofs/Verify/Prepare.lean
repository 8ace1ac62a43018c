import MeshSharding.Proofs.Verify.Interpose
import MeshSharding.Proofs.Verify.Move

namespace MeshSharding.Program

-- Edge operations have been put in. What reads a value that has got one reads the result of this instead.
structure Attaches (p q : Program) : Prop where
  upright : q.Upright
  meshes  : q.meshes = p.meshes
  values  : p.values.length ≤ q.values.length
  length  : p.operations.length ≤ q.operations.length
  types   : ∀ v, v.index < p.values.length → q.typeOf v = p.typeOf v
  kind    : ∀ o, o.index < p.operations.length → (q.op o).kind = (p.op o).kind
  results : ∀ o, o.index < p.operations.length → (q.op o).results = (p.op o).results
  within  : ∀ o ∈ q.walk, o.index < p.operations.length → o ∈ p.walk
  stays   : p.walk ⊆ q.walk
  fresh   : ∀ e ∈ q.walk, p.operations.length ≤ e.index → ∃ s, (q.op e).kind = .edge s ∧
    ∀ t, s = some t → q.checkFits t (q.input e) = .ok ()
  marked  : ∀ v e, q.marks v e → v.index < p.values.length
  reads   : ∀ o ∈ p.walk, q.input o = p.input o ∨ ∃ e, q.edgeOfOwner? (p.input o) = some e ∧
    q.input o = q.output e ∧ p.values.length ≤ (q.output e).index

variable {p m q r : Program} {o e : OpId} {v owner : ValueId} {b : BlockId} {s : Option Sharding}
  {before edges after : List OpId} {owners : List ValueId}

theorem Attaches.refl (hp : p.Upright) : Attaches p p where
  upright        := hp
  meshes         := rfl
  values         := le_refl _
  length         := le_refl _
  types _ _      := rfl
  kind _ _       := rfl
  results _ _    := rfl
  within _ h _   := h
  stays _ h      := h
  fresh e he h   := absurd (hp.wellFormed.walk_lt he) (Nat.not_lt.mpr h)
  marked v e h   := by
    obtain ⟨_, hk, rfl⟩ := hp.wellFormed.marks_iff.mp h
    exact hp.wellFormed.input_lt (OpKind.isUnary_of_isEdge hk)
  reads _ _      := .inl rfl

section Interpose

variable (h : Attaches p q) (hi : Interposes owner s q r) (hn : q.edgeOfOwner? owner = none)
include h hi hn

-- The shardings of the new edge operations fit, that of the newest as well.
theorem Attaches.fits_interposed (he : e ∈ r.walk) (hl : p.operations.length ≤ e.index) :
    ∃ s, (r.op e).kind = .edge s ∧ ∀ t, s = some t → r.checkFits t (r.input e) = .ok () := by
  have hwf := h.upright.wellFormed
  by_cases hen : e = q.nextOp
  case pos =>
    subst hen
    exact ⟨s, hi.kind_nextOp, fun t ht => by rw [hi.input_nextOp, hi.fits t ht]⟩
  case neg =>
    have hw := (hi.mem_walk_iff hen).mp he
    obtain ⟨t, hk, hf⟩ := h.fresh e hw hl
    have hkind : (q.op e).kind.isEdge := by simp [hk, OpKind.isEdge]
    refine ⟨t, (hi.kind hen).trans hk, fun t' ht => ?_⟩
    rw [hi.input_of_isEdge hn hen (hwf.not_erased hw) hkind,
      checkFits_congr hi.meshes (hi.types _ (hwf.input_lt (OpKind.isUnary_of_isEdge hkind)))]
    exact hf t' ht

theorem Attaches.reads_interposed (hv : owner.index < p.values.length) (ho : o ∈ p.walk) :
    r.input o = p.input o ∨ ∃ e, r.edgeOfOwner? (p.input o) = some e ∧ r.input o = r.output e ∧
      p.values.length ≤ (r.output e).index := by
  have hread := h.reads o ho
  obtain hin | ⟨hop, hin⟩ := hi.input_cases (ne_nextOp (h.upright.wellFormed.walk_lt (h.stays ho)))
  case inl =>
    rw [hin]
    obtain hpo | ⟨e, he, hoe, hl⟩ := hread
    · exact .inl hpo
    · have hlt := index_lt_of_not_erased (marks_iff.mp (edgeOfOwner?_eq_some_iff.mp he).left).left
      have hout : r.output e = q.output e := by rw [output, hi.kept e (ne_nextOp hlt), ← output]
      exact .inr ⟨e, hi.edgeOfOwner?_eq hn he, hout ▸ hoe, hout ▸ hl⟩
  case inr =>
    have hqo : q.input o = owner := by simp [input, hop]
    obtain hpo | ⟨e, _, hoe, hl⟩ := hread
    · have hout := hi.output_nextOp (Nat.lt_of_lt_of_le hv h.values)
      refine .inr ⟨q.nextOp, ?_, hin.trans hout.symm, hout ▸ h.values⟩
      rw [← hpo, hqo, hi.edgeOfOwner?_owner hn]
    · -- What was diverted before is not diverted again.
      rw [← hoe, hqo] at hl
      exact absurd hv (Nat.not_lt.mpr hl)

theorem Attaches.interpose (hr : r.Sound) (hv : owner.index < p.values.length) : Attaches p r := by
  have hwf := h.upright.wellFormed
  have hne {o : OpId} (hl : o.index < p.operations.length) : o ≠ q.nextOp :=
    ne_nextOp (Nat.lt_of_lt_of_le hl h.length)
  exact {
    upright      := hi.upright hn h.upright hr (Nat.lt_of_lt_of_le hv h.values)
    meshes       := hi.meshes.trans h.meshes
    values       := h.values.trans (hi.values ▸ Nat.le_succ _)
    length       := h.length.trans (hi.length ▸ Nat.le_succ _)
    types v hv   := (hi.types v (Nat.lt_of_lt_of_le hv h.values)).trans (h.types v hv)
    kind o hl    := (hi.kind (hne hl)).trans (h.kind o hl)
    results o hl := by rw [hi.kept o (hne hl), ← h.results o hl]
    within o ho  := fun hl => h.within o ((hi.mem_walk_iff (hne hl)).mp ho) hl
    stays o ho   := (hi.mem_walk_iff (ne_nextOp (hwf.walk_lt (h.stays ho)))).mpr (h.stays ho)
    fresh _ he   := h.fits_interposed hi hn he
    marked v e   := by
      intro hm
      by_cases hen : e = q.nextOp
      case pos => exact hi.marks_nextOp.mp (hen ▸ hm) ▸ hv
      case neg => exact h.marked v e (hi.marks hn hen ▸ hm)
    reads _ ho   := h.reads_interposed hi hn hv ho }

end Interpose

section Attachments

-- An edge operation is put on a result of a structural operation that has none.
structure Attachment (o : OpId) (owner : ValueId) (p q : Program) : Prop where
  mem        : o ∈ p.walk
  structural : (p.op o).isStructural
  owned      : owner ∈ (p.op o).results
  unmarked   : p.edgeOfOwner? owner = none
  interposes : ∃ s, Interposes owner s p q
  sound      : q.Sound
  placed     : p.nextOp ∈ q.walk

-- Edge operations are put in, one after the other.
def Attachments : Program → Program → Prop :=
  Relation.ReflTransGen fun p q => ∃ o owner, Attachment o owner p q

theorem Attachments.edgeOfOwner?_eq (h : Attachments p q) (hv : p.edgeOfOwner? v = some e) :
    q.edgeOfOwner? v = some e := by
  induction h with
  | refl => exact hv
  | tail _ hs ih =>
    have ⟨o, owner, hs⟩ := hs
    have ⟨s, hi⟩ := hs.interposes
    exact hi.edgeOfOwner?_eq hs.unmarked ih

theorem Attachments.kept (h : Attachments p q) : p.operations.length ≤ q.operations.length ∧
    ∀ o, o.index < p.operations.length → q.op o = { p.op o with operands := (q.op o).operands } := by
  induction h with
  | refl => exact ⟨le_refl _, fun _ _ => rfl⟩
  | tail _ hs ih =>
    have ⟨o, owner, hs⟩ := hs
    have ⟨s, hi⟩ := hs.interposes
    refine ⟨ih.left.trans (hi.length ▸ Nat.le_succ _), fun u hu => ?_⟩
    rw [hi.kept u (ne_nextOp (Nat.lt_of_lt_of_le hu ih.left)), ih.right u hu]

theorem Attaches.attachments (h : Attaches p q) (hp : p.WellFormed) (hr : Attachments q r) : Attaches p r := by
  induction hr with
  | refl => exact h
  | tail _ hs ih =>
    have ⟨o, owner, hs⟩ := hs
    have ⟨s, hi⟩ := hs.interposes
    -- The structural operations are those that were there at first.
    have hl : o.index < p.operations.length := by
      by_contra hl
      have ⟨s, hk, _⟩ := ih.fresh o hs.mem (Nat.le_of_not_lt hl)
      have hstructural := hs.structural
      simp [Operation.isStructural, OpKind.isGeneric, hk] at hstructural
    have hv := hs.owned
    rw [ih.results o hl] at hv
    exact ih.interpose hi hs.unmarked hs.sound (hp.result_lt hv)

theorem Sound.attachment {targets : List ValueId} (hq : q.Sound) (ho : o ∈ q.walk) (hs : (q.op o).isStructural)
    (ha : q.Attaching o b before edges after (owner :: owners)) (hl : after ≠ [])
    (hn : q.edgeOfOwner? owner = none) (h : q.attachEdge b (before ++ o :: edges).length owner targets = .ok r) :
    Attachment o owner q r := by
  have ⟨hflow, _, ha'⟩ := hq.attachEdge ha h
  have ⟨s, hi⟩ := hq.interposes ha hl h
  have hb : b ∈ q.nested := by
    have ⟨hb, _⟩ := hq.wellFormed.block_nested ho
    rwa [(hq.wellFormed.members b o (ha.mem_block List.mem_cons_self)).right] at hb
  exact {
    mem        := ho
    structural := hs
    owned      := ha.owned List.mem_cons_self
    unmarked   := hn
    interposes := ⟨s, hi⟩
    sound      := hflow.left
    placed     := mem_walk_iff.mpr ⟨b, hi.rewrites.nested ▸ hb, ha'.mem_block (by simp)⟩ }

theorem Sound.attachments {view : FlowView} {position : Nat} (changed : Bool) (hq : q.Sound) (ho : o ∈ q.walk)
    (hs : (q.op o).isStructural) (ha : q.Attaching o b before edges after owners) (hl : after ≠ [])
    (hpos : position = (before ++ o :: edges).length) :
    let outcome := Program.attachEdges view b q position changed owners
    Attachments q outcome.program ∧
      ∀ c, outcome.result = .ok c → ∀ v ∈ owners, (outcome.program.edgeOfOwner? v).isSome := by
  induction owners generalizing q position changed edges with
  | nil => exact ⟨.refl, fun _ _ _ hv => absurd hv List.not_mem_nil⟩
  | cons owner owners ih =>
    rw [Program.attachEdges]
    split
    case isTrue hm =>
      obtain ⟨e, he⟩ := Option.isSome_iff_exists.mp hm
      obtain ⟨hr, hdone⟩ := ih changed hq ho hs ha.skip hpos
      exact ⟨hr, fun c hc => List.forall_mem_cons.mpr ⟨by rw [hr.edgeOfOwner?_eq he]; rfl, hdone c hc⟩⟩
    case isFalse hn =>
      have hn : q.edgeOfOwner? owner = none := by simpa using hn
      cases hr : q.attachEdge b position owner (view.targets q owner) with
      | error e => exact ⟨.refl, fun _ hc => by cases hc⟩
      | ok r =>
        subst hpos
        have hone := hq.attachment ho hs ha hl hn hr
        obtain ⟨_, hwalk, ha'⟩ := hq.attachEdge ha hr
        obtain ⟨s, hi⟩ := hone.interposes
        have hs' : (r.op o).isStructural := by
          rw [hi.kept o (ne_nextOp (hq.wellFormed.walk_lt ho))]
          exact hs
        have hpos : (before ++ o :: edges).length + 1 = (before ++ o :: (edges ++ [q.nextOp])).length := by
          simp
          omega
        obtain ⟨hrest, hdone⟩ := ih true hone.sound (hwalk ho) hs' ha' hpos
        have howner := hrest.edgeOfOwner?_eq (hi.edgeOfOwner?_owner hn)
        refine ⟨.head ⟨o, owner, hone⟩ hrest, fun c hc => List.forall_mem_cons.mpr ⟨?_, hdone c hc⟩⟩
        rw [howner]
        rfl

-- If this succeeds, all results of the operation have an edge operation.
theorem Standing.attachments (hq : q.Standing) (ho : o ∈ q.walk) :
    Attachments q (q.attachEdgesOf o).program ∧ ∀ c, (q.attachEdgesOf o).result = .ok c → (q.op o).isStructural →
      ∀ v ∈ (q.op o).results, ((q.attachEdgesOf o).program.edgeOfOwner? v).isSome := by
  have hwf := hq.sound.wellFormed
  rw [Program.attachEdgesOf]
  split
  case _ u transform hv =>
    obtain ⟨rfl, hstructural⟩ := flowView?_structural hv
    obtain ⟨before, after, hpos, ha⟩ := hwf.attaching ho
    have hl : after ≠ [] := by
      -- Nothing but terminators stands at the end of a block.
      rintro rfl
      obtain ⟨hb, hm⟩ := hwf.block_nested ho
      have hlast : (q.block (q.op u).block).operations.getLast? = some u := by simp [ha.place]
      have ht := (hq.terminators _ hb u hm).mpr hlast
      cases hk : (q.op u).kind <;> simp [hk, Operation.isStructural, OpKind.isGeneric, OpKind.isTerminator]
        at hstructural ht
    exact (hq.sound.attachments false ho hstructural ha hl hpos).imp_right fun hdone c hc _ => hdone c hc
  case _ hv =>
    refine ⟨.refl, fun c _ hs => ?_⟩
    exact absurd (flowView?_of_structural hs (hwf.not_erased ho)) (hv o _)

theorem Upright.attachments {os : List OpId} (hq : q.Upright) (ho : ∀ o ∈ os, o ∈ q.walk) (changed : Bool) :
    let outcome := Outcome.forEach Program.attachEdgesOf q changed os
    Attachments q outcome.program ∧ ∀ c, outcome.result = .ok c → ∀ o ∈ os, (q.op o).isStructural →
      ∀ v ∈ (q.op o).results, (outcome.program.edgeOfOwner? v).isSome := by
  induction os generalizing q changed with
  | nil => exact ⟨.refl, fun _ _ _ ho => absurd ho List.not_mem_nil⟩
  | cons o os ih =>
    have hw := ho o List.mem_cons_self
    obtain ⟨hr, hdone⟩ := hq.standing.attachments hw
    have ha := (Attaches.refl hq).attachments hq.wellFormed hr
    rw [Outcome.forEach, Outcome.andThen]
    cases hc : (q.attachEdgesOf o).result with
    | error _ => exact ⟨hr, fun _ hc => by cases hc⟩
    | ok c =>
      obtain ⟨hrest, hall⟩ := ih ha.upright (fun u hu => ha.stays (ho u (List.mem_cons_of_mem o hu))) (changed || c)
      refine ⟨hr.trans hrest, fun c' hc' => List.forall_mem_cons.mpr ⟨fun hs v hv => ?_, fun u hu => ?_⟩⟩
      case refine_1 =>
        obtain ⟨e, he⟩ := Option.isSome_iff_exists.mp (hdone c hc hs v hv)
        rw [hrest.edgeOfOwner?_eq he]
        rfl
      case refine_2 =>
        have hop := hr.kept.right u (hq.wellFormed.walk_lt (ho u (List.mem_cons_of_mem o hu)))
        have := hall c' hc' u hu
        rwa [hop] at this

end Attachments

theorem Upright.prepare (hp : p.Upright) : ∃ m, Moves p m ∧ Attaches m p.prepare.program := by
  rw [Program.prepare]
  split
  case _ => exact ⟨p, .refl hp, .refl hp⟩
  case _ =>
    have hm := hp.moves
    refine ⟨_, hm, ?_⟩
    rw [Outcome.andThen]
    split
    · have hr := hm.upright.attachments fun _ ho => ho
      exact (Attaches.refl hm.upright).attachments hm.upright.wellFormed (hr _).left
    · exact .refl hm.upright

section Accepted

theorem checkCollective_eq {w : ValueId} (hm : q.meshes = p.meshes) (ht : q.typeOf w = p.typeOf v)
    (hs : q.sharding w = p.sharding v) (collective : Collective) :
    q.checkCollective collective w = p.checkCollective collective v := by
  simp only [checkCollective, checkFits, operandSharding, hm, ht, hs]

theorem Formed.typeOf_eq (h : p.Formed o) (hk : (p.op o).kind.readsTypes = false) :
    p.typeOf (p.input o) = p.typeOf (p.output o) := by
  have hu : p.checkUnary (p.op o) = .ok (p.input o) := by
    simp only [Formed] at h
    cases hc : (p.op o).kind <;> simp [hc, OpKind.readsTypes] at hk <;> simp only [hc] at h
    case collective => exact h
    case edge       => exact h.left
  obtain ⟨_, _, hr, ht⟩ := checkUnary_eq_ok_iff.mp hu
  rw [ht, output, hr]
  rfl

-- Whether a value is read by itself or through the edge operation on it makes no difference to what is
-- read.
theorem Attaches.sharding_input (h : Attaches p q) (ho : o ∈ p.walk) :
    q.sharding (q.input o) = q.sharding (p.input o) := by
  have hwf := h.upright.wellFormed
  obtain hi | ⟨e, he, hi, hl⟩ := h.reads o ho
  case inl => rw [hi]
  case inr =>
    obtain ⟨s, hk⟩ := edgeOfOwner?_kind he
    have hnone : q.edgeOfOwner? (q.output e) = none := by
      refine edgeOfOwner?_eq_none_iff.mpr fun u => ?_
      by_contra hm
      exact absurd (h.marked _ u (by simpa using hm)) (Nat.not_lt.mpr hl)
    have hdef : q.definitionOf (q.output e) = .result e 0 := by
      refine ((hwf.results _ e 0).mp ?_).right
      rw [hwf.results_eq (by simp [hk, OpKind.isUnary])]
      rfl
    have hthrough : q.sharding (q.output e) = s := by
      simp [sharding, edgeForTarget?, hnone, hdef, shardingOfResult, hk]
    rw [hi, hthrough]
    simp [sharding, edgeForTarget?, he, hk]

theorem Attaches.typeOf_input (h : Attaches p q) (hp : p.Upright) (ho : o ∈ p.walk)
    (hk : (p.op o).kind.readsTypes = false) : q.typeOf (q.input o) = p.typeOf (p.input o) := by
  have hwf := hp.wellFormed
  have hl := hwf.walk_lt ho
  have hunary : (p.op o).kind.isUnary := by
    cases hc : (p.op o).kind <;> simp [hc, OpKind.readsTypes] at hk <;> rfl
  have hout : q.output o = p.output o := by rw [output, h.results o hl, ← output]
  rw [(h.upright.formed o (h.stays ho)).typeOf_eq (by rw [h.kind o hl, hk]), (hp.formed o ho).typeOf_eq hk, hout,
    h.types _ (hwf.output_lt hunary)]

theorem Moves.input (h : Moves p q) (o : OpId) : q.input o = p.input o := by
  rw [Program.input, h.operands, ← Program.input]

theorem Moves.collective_iff (h : Moves p q) {collective : Collective} :
    (q.op o).kind = .collective collective ↔ (p.op o).kind = .collective collective := by
  obtain hk | ⟨_, _, hk, hk'⟩ | ⟨_, _, hk, hk'⟩ := OpKind.bare_cases (h.kind o)
  · rw [hk]
  all_goals simp [hk, hk']

theorem Moves.isEdge (h : Moves p q) : (q.op o).kind.isEdge = (p.op o).kind.isEdge := by
  rw [← OpKind.bare_isEdge, h.kind, OpKind.bare_isEdge]

theorem Moves.readsTypes (h : Moves p q) : (q.op o).kind.readsTypes = (p.op o).kind.readsTypes := by
  obtain hk | ⟨_, _, hk, hk'⟩ | ⟨_, _, hk, hk'⟩ := OpKind.bare_cases (h.kind o)
  · rw [hk]
  all_goals simp [hk, hk', OpKind.readsTypes]

-- Nothing but constraints goes.
theorem Moves.mem_walk_iff (h : Moves p q) (hk : (p.op o).kind.readsTypes = false) :
    o ∈ q.walk ↔ o ∈ p.walk := by
  refine ⟨fun ho => h.within ho, fun ho => (h.moved o ho).resolve_right ?_⟩
  rintro ⟨_, s, hs⟩
  simp [hs, OpKind.readsTypes] at hk

section Both

variable {collective : Collective} (hm : Moves p m) (ha : Attaches m q)
include hm ha

theorem Moves.typeOf (hv : v.index < p.values.length) : q.typeOf v = p.typeOf v := by
  rw [ha.types v (hm.count ▸ hv), hm.frame.types]

-- What an operation reads at last has the type of what it read at first.
theorem Moves.typeOf_input (ho : o ∈ m.walk) (hk : (p.op o).kind.readsTypes = false) :
    q.typeOf (q.input o) = p.typeOf (p.input o) := by
  rw [ha.typeOf_input hm.upright ho (hm.readsTypes.trans hk), hm.input, hm.frame.types]

theorem Moves.checkFits_input (he : e ∈ m.walk) (hk : (p.op e).kind.isEdge) (s : Sharding) :
    q.checkFits s (q.input e) = p.checkFits s (p.input e) :=
  checkFits_congr (ha.meshes.trans hm.frame.meshes)
    (hm.typeOf_input ha he (OpKind.readsTypes_of_isEdge hk)) s

theorem Moves.checkCollective_input (hp : p.WellFormed) (ho : o ∈ m.walk)
    (hk : (p.op o).kind = .collective collective) :
    q.checkCollective collective (q.input o) = q.checkCollective collective (p.input o) := by
  have hl := hp.input_lt (o := o) (by simp [hk, OpKind.isUnary])
  refine checkCollective_eq rfl ?_ (by rw [ha.sharding_input ho, hm.input]) collective
  rw [hm.typeOf_input ha ho (by simp [hk, OpKind.readsTypes]), hm.typeOf ha hl]

theorem Moves.isEdge_of_kind {s : Option Sharding} (hl : e.index < m.operations.length)
    (hs : (q.op e).kind = .edge s) : (p.op e).kind.isEdge := by
  rw [← hm.isEdge, ← ha.kind e hl, hs]
  rfl

end Both

-- A program that is accepted before is accepted afterwards as well if and only if each collective whose
-- operand has got another sharding is satisfied with this, and each edge operation that has taken over a
-- sharding stands on a value that this fits.
theorem verify_prepare_iff (hp : p.Reachable) (h : p.verify = .ok ()) :
    p.prepare.program.verify = .ok () ↔
      (∀ o ∈ p.walk, ∀ collective, (p.op o).kind = .collective collective →
        p.prepare.program.sharding (p.input o) ≠ p.sharding (p.input o) →
        p.prepare.program.checkCollective collective (p.input o) = .ok ()) ∧
      ∀ e ∈ p.walk, ∀ s, (p.prepare.program.op e).kind = .edge (some s) →
        (p.prepare.program.op e).kind ≠ (p.op e).kind → p.checkFits s (p.input e) = .ok () := by
  obtain ⟨hup, hc⟩ := Upright.of_verify hp.wellFormed h
  obtain ⟨m, hm, ha⟩ := hup.prepare
  have hh : p.prepare.program.Housed := (hp.run .prepare).housed
  generalize p.prepare.program = q at *
  rw [ha.upright.verify_iff hh]
  constructor
  · intro hq
    refine ⟨fun o ho collective hk _ => ?_, fun e he s hs _ => ?_⟩
    · have hmo := (hm.mem_walk_iff (by simp [hk, OpKind.readsTypes])).mpr ho
      rw [← hm.checkCollective_input ha hp.wellFormed hmo hk]
      refine (hq o (ha.stays hmo)).left collective ?_
      rw [ha.kind o (hm.upright.wellFormed.walk_lt hmo), hm.collective_iff.mpr hk]
    · have hk := hm.isEdge_of_kind ha (hm.frame.length ▸ hp.wellFormed.walk_lt he) hs
      have hme := (hm.mem_walk_iff (OpKind.readsTypes_of_isEdge hk)).mpr he
      rw [← hm.checkFits_input ha hme hk]
      exact (hq e (ha.stays hme)).right s hs
  · rintro ⟨hcollectives, hedges⟩ o ho
    by_cases hl : o.index < m.operations.length
    case pos =>
      have hmo := ha.within o ho hl
      have hpo := hm.within hmo
      obtain ⟨_, hpc, hpe⟩ := checkOp_iff_formed.mp (hc o hpo)
      refine ⟨fun collective hk => ?_, fun s hs => ?_⟩
      · have hk := hm.collective_iff.mp (ha.kind o hl ▸ hk)
        rw [hm.checkCollective_input ha hp.wellFormed hmo hk]
        by_cases hs : q.sharding (p.input o) = p.sharding (p.input o)
        case pos =>
          have hv := hp.wellFormed.input_lt (o := o) (by simp [hk, OpKind.isUnary])
          rw [checkCollective_eq (ha.meshes.trans hm.frame.meshes) (hm.typeOf ha hv) hs]
          exact hpc collective hk
        case neg => exact hcollectives o hpo collective hk hs
      · rw [hm.checkFits_input ha hmo (hm.isEdge_of_kind ha hl hs)]
        by_cases hk : (q.op o).kind = (p.op o).kind
        case pos => exact hpe s (hk ▸ hs)
        case neg => exact hedges o hpo s hs hk
    case neg =>
      -- What is new obeys all rules.
      obtain ⟨t, hk, hf⟩ := ha.fresh o ho (Nat.le_of_not_lt hl)
      exact ⟨fun collective hc => by simp [hk] at hc, fun s hs => hf s (by simpa [hk] using hs)⟩

-- A collective on an argument without a sharding, and a loop behind it. Constraints that nothing uses
-- shard the argument and the result of the loop.
def seededLoop? : Option Program :=
  let type : TensorType := ⟨[8], .f32⟩
  let whole : Sharding := ⟨.symbol "mesh", [{}], []⟩
  let split : Sharding := ⟨.symbol "mesh", [{ axes := [⟨"a", none⟩] }], []⟩
  build "main" [
    .mesh "mesh" { axes := [⟨"a", 2⟩] },
    .argument type none,
    .region [type],
    .append ⟨1⟩ (.terminator [⟨1⟩]),
    .append entry (.collective ⟨0⟩ ⟨.allSlice [[⟨"a", none⟩]], split⟩),
    .append entry (.generic { name := "while" } [⟨2⟩] [type] [⟨1⟩]),
    .append entry (.constraint ⟨0⟩ whole),
    .append entry (.constraint ⟨3⟩ split),
    .append entry (.terminator [⟨3⟩])]

def seededLoop : Program :=
  seededLoop?.get (by rfl)

theorem verify_prepare_iff_seededLoop :
    let p := seededLoop
    let q := p.prepare.program
    p.Reachable ∧ p.verify = .ok () ∧ q.verify = .ok () ∧ q.sharding (p.input ⟨1⟩) ≠ p.sharding (p.input ⟨1⟩) ∧
      ∀ collective, (p.op ⟨1⟩).kind = .collective collective →
        q.checkCollective collective (p.input ⟨1⟩) = .ok () := by
  have hp : seededLoop.Reachable := build_reachable (Option.some_get _).symm
  have hv : seededLoop.verify = .ok () := by rfl
  have hq : seededLoop.prepare.program.verify = .ok () := by rfl
  have ho : ⟨1⟩ ∈ seededLoop.walk := by decide +kernel
  have hs : seededLoop.prepare.program.sharding (seededLoop.input ⟨1⟩) ≠
      seededLoop.sharding (seededLoop.input ⟨1⟩) := by decide +kernel
  have hcollectives := ((verify_prepare_iff hp hv).mp hq).left
  exact ⟨hp, hv, hq, hs, fun collective hk => hcollectives ⟨1⟩ ho collective hk hs⟩

-- A collective that removes an axis, and a constraint that nothing uses and that has removed it already.
def seededGather? : Option Program :=
  let whole : Sharding := ⟨.symbol "mesh", [{}], []⟩
  build "main" [
    .mesh "mesh" { axes := [⟨"a", 2⟩] },
    .argument ⟨[8], .f32⟩ (some ⟨.symbol "mesh", [{ axes := [⟨"a", none⟩] }], []⟩),
    .append entry (.collective ⟨0⟩ ⟨.allGather [[⟨"a", none⟩]], whole⟩),
    .append entry (.constraint ⟨0⟩ whole),
    .append entry (.terminator [⟨1⟩])]

theorem verify_prepare_not_seededGather :
    let p := seededGather?.get (by rfl)
    p.Reachable ∧ p.verify = .ok () ∧ p.prepare.result = .ok true ∧
      p.prepare.program.verify =
        .error ⟨.operation ⟨0⟩ "sdy.all_gather", .axesNotSuffix [⟨"a", none⟩] [] 0⟩ :=
  ⟨build_reachable (Option.some_get _).symm, by rfl, by rfl, by rfl⟩

-- An edge operation that takes over what was said of an argument of another shape.
example : (build "main" [
    .mesh "mesh" { axes := [⟨"a", 2⟩] },
    .argument ⟨[8], .f32⟩ none,
    .region [⟨[8, 8], .f32⟩],
    .append ⟨1⟩ (.constraint ⟨1⟩ ⟨.symbol "mesh", [{}, {}], []⟩),
    .append ⟨1⟩ (.terminator [⟨0⟩]),
    .append entry (.generic { name := "while" } [⟨0⟩] [⟨[8], .f32⟩] [⟨1⟩]),
    .append entry (.edge ⟨3⟩ none),
    .append entry (.terminator [⟨4⟩])]).map (fun p => (p.verify, p.prepare.program.verify)) =
      some (.ok (), .error ⟨.operation ⟨3⟩ "sdy.data_flow_edge", .rankMismatch 2 1⟩) := by
  rfl

end Accepted

end MeshSharding.Program
