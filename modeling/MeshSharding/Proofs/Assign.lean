import MeshSharding.Proofs.Entries
import MeshSharding.Proofs.Verify.Sink

namespace MeshSharding.Program

-- Another argument, or result, of the named computation that has an entry for the value, with the list of these
-- entries.
inductive ListedWith (p : Program) (v w : ValueId) : Option (List Sharding) → Prop
  | argument {b i j computation} : p.place? v = some (.argument b i) → p.parentKind? b = some (.named computation) →
      p.definitionOf w = .argument b j → j ≠ i → p.ListedWith v w computation.inShardings
  | result {o i j computation} : p.place? v = some (.result o i) → (p.op o).kind = .named computation →
      p.definitionOf w = .result o j → j ≠ i → p.ListedWith v w computation.outShardings

-- What all values read once one of them has been given a sharding.
structure Assigns (p : Program) (v : ValueId) (s : Sharding) (q : Program) : Prop where
  value  : q.sharding v = some s
  target : ∀ e w, p.place? v = some (.edge e) → p.edgeForTarget? w = some e → q.sharding w = some s
  output : ∀ e, p.place? v = some (.edge e) → p.edgeForTarget? (p.output e) = none → q.sharding (p.output e) = some s
  beside : ∀ w shardings, w.index < p.values.length → p.ListedWith v w shardings → p.edgeForTarget? w = none →
    q.sharding w = if shardings.isSome then p.sharding w else some (.fullyOpen s.mesh (p.typeOf w).rank)
  other  : ∀ w, w.index < p.values.length → w ≠ v →
    (∀ e, p.place? v = some (.edge e) → p.edgeForTarget? w ≠ some e ∧ (w = p.output e → p.edgeForTarget? w ≠ none)) →
    (∀ shardings, p.ListedWith v w shardings → p.edgeForTarget? w ≠ none) → q.sharding w = p.sharding w

variable {p q : Program} {e o u : OpId} {v w : ValueId} {s : Sharding} {b : BlockId} {i : Nat}
  {shardings : Option (List Sharding)} {place : Place}

section Places

theorem WellFormed.place?_output (hp : p.WellFormed) (hk : (p.op e).kind.isEdge)
    (h : p.edgeForTarget? (p.output e) = none) : p.place? (p.output e) = some (.edge e) := by
  have hd := hp.definitionOf_output (OpKind.isUnary_of_isEdge hk)
  obtain ⟨_, hkind⟩ := OpKind.exists_edge hk
  simp [place?, h, hd, hkind]

theorem isEdge_of_place? (h : p.place? w = some (.edge e)) : (p.op e).kind.isEdge := by
  simp only [place?] at h
  cases ht : p.edgeForTarget? w with
  | some u =>
    simp only [ht, Option.some.injEq, Place.edge.injEq] at h
    obtain ⟨_, hk⟩ := edgeForTarget?_kind (h ▸ ht)
    rw [hk]
    rfl
  | none =>
    simp only [ht] at h
    split at h <;> split at h <;> simp_all [OpKind.isEdge]

-- The edge operation that a value is kept on is one that it is a target of, or the one that it is the result of.
theorem WellFormed.edge_of_place? (hp : p.WellFormed) (hw : w.index < p.values.length)
    (h : p.place? w = some (.edge e)) :
    p.edgeForTarget? w = some e ∨ p.edgeForTarget? w = none ∧ w = p.output e := by
  have hk := isEdge_of_place? h
  simp only [place?] at h
  cases ht : p.edgeForTarget? w with
  | some u => simpa [ht] using h
  | none =>
    simp only [ht] at h
    cases hd : p.definitionOf w with
    | argument _ _ =>
      simp only [hd] at h
      split at h <;> simp at h
    | result o index =>
      have ho : o = e := by
        simp only [hd] at h
        split at h <;> simp_all
      have hr := (hp.results w o index).mpr ⟨hw, hd⟩
      rw [ho, hp.results_eq (OpKind.isUnary_of_isEdge hk)] at hr
      exact .inr ⟨rfl, (List.mem_singleton.mp (List.mem_of_getElem? hr))⟩

theorem place?_eq_of_setSharding (h : p.setSharding v s = .ok q) (w : ValueId) : q.place? w = p.place? w :=
  read_of_bare_eq (·.place? w) (fun r => r.bare_place?) (setSharding_bare h)

-- What is kept at one place is read by all that read there.
theorem sharding_eq_of_place?_eq (h : p.setSharding v s = .ok q) (hv : v.index < p.values.length)
    (hw : p.place? w = p.place? v) : q.sharding w = some s := by
  have ⟨place, hplace, _⟩ := setSharding_written h
  have hqv := (place?_eq_of_setSharding h v).trans hplace
  have hqw := (place?_eq_of_setSharding h w).trans (hw.trans hplace)
  rw [sharding_eq_shardingAt hqw, ← sharding_eq_shardingAt hqv, setSharding_sharding_eq h hv]

end Places

section Hidden

-- Edge operations of the program count for values of structural operations only.
theorem Valid.notMem_walk_of_output (hp : p.Valid) (hk : (p.op u).kind.isEdge)
    (h : p.edgeForTarget? (p.output u) = some e) : e ∉ p.walk := by
  intro he
  have hwf := hp.sound.wellFormed
  have hunary := OpKind.isUnary_of_isEdge hk
  have hw := hp.ownerOf?_of_edgeForTarget? he (hwf.output_lt hunary) h
  rw [ownerOf?_of_result (hwf.definitionOf_output hunary)] at hw
  obtain ⟨_, hkind⟩ := OpKind.exists_edge hk
  obtain ⟨_, hgeneric⟩ := exists_generic_of_structuralResult? hw
  cases hkind.symm.trans hgeneric

theorem Valid.notMem_walk_of_listedWith (hp : p.Valid) (hw : w.index < p.values.length)
    (hb : p.ListedWith v w shardings) (h : p.edgeForTarget? w = some e) : e ∉ p.walk := by
  intro he
  have howner := hp.ownerOf?_of_edgeForTarget? he hw h
  cases hb with
  | result _ hk hd _ =>
    rw [ownerOf?_of_result hd] at howner
    obtain ⟨_, hgeneric⟩ := exists_generic_of_structuralResult? howner
    cases hk.symm.trans hgeneric
  | argument _ hk hd _ =>
    obtain ⟨parent, hparent, -, howner⟩ := exists_parent_of_ownerOf? hd howner
    obtain ⟨_, hgeneric⟩ := exists_generic_of_structuralResult? howner
    simp [parentKind?, hparent, hgeneric] at hk

end Hidden

section Assigns

theorem setSharding_listedWith (hp : p.WellFormed) (h : p.setSharding v s = .ok q) (hw : w.index < p.values.length)
    (hb : p.ListedWith v w shardings) (ht : p.edgeForTarget? w = none) :
    q.sharding w = if shardings.isSome then p.sharding w else some (.fullyOpen s.mesh (p.typeOf w).rank) := by
  obtain ⟨place, hplace, hwritten⟩ := setSharding_written h
  cases hb with
  | @argument b i j computation hv hk hd hne =>
    have hpw : p.place? w = some (.argument b j) := by simp [place?, ht, hd, hk]
    have hmw := (hp.arguments w b j).mpr ⟨hw, hd⟩
    obtain rfl := Option.some.inj (hplace.symm.trans hv)
    rw [sharding_eq_shardingAt ((place?_eq_of_setSharding h w).trans hpw), sharding_eq_shardingAt hpw]
    cases hwritten with
    | argument hparent hk' hr =>
      obtain rfl : computation = _ := by simpa [parentKind?, hparent, hk', eq_comm] using hk
      simpa [shardingAt, parentKind?, hparent, op_setKind_of_ne, hk'] using replaceIn_getElem?_of_ne hr hne hmw
  | @result o i j computation hv hk hd hne =>
    have hpw : p.place? w = some (.result o j) := by simp [place?, ht, hd, hk]
    have hmw := (hp.results w o j).mpr ⟨hw, hd⟩
    obtain rfl := Option.some.inj (hplace.symm.trans hv)
    rw [sharding_eq_shardingAt ((place?_eq_of_setSharding h w).trans hpw), sharding_eq_shardingAt hpw]
    cases hwritten with
    | result hk' hr =>
      obtain rfl := OpKind.named.inj (hk.symm.trans hk')
      simpa [shardingAt, op_setKind_of_ne, hk] using replaceIn_getElem?_of_ne hr hne hmw

theorem edgeForTarget?_eq_none_of_place? (h : p.place? w = some place) (hne : ∀ e, place ≠ .edge e) :
    p.edgeForTarget? w = none := by
  by_contra ht
  obtain ⟨e, he⟩ := Option.ne_none_iff_exists'.mp ht
  exact hne e (Option.some.inj (h.symm.trans (place?_of_edgeForTarget? he)))

-- A value that reads elsewhere, and not beside, reads what it did.
theorem setSharding_other (hp : p.WellFormed) (h : p.setSharding v s = .ok q) (hne : p.place? w ≠ p.place? v)
    (hb : ∀ shardings, p.ListedWith v w shardings → p.edgeForTarget? w ≠ none) : q.sharding w = p.sharding w := by
  obtain he | ⟨place, other, hplace, hother, ht⟩ := setSharding_eq_or_touches h w
  case inl => exact he
  case inr =>
    rw [hplace, hother] at hne
    exfalso
    cases ht with
    | same => contradiction
    | @argument b c o i j computation hbo hco hk _ =>
      obtain rfl := hp.region_unique (by simp [hk, OpKind.isIsolated]) hbo hco
      have hparent : p.parentKind? b = some (.named computation) := by simp [parentKind?, hbo, hk]
      have hd := definitionOf_of_place?_argument hother
      exact hb _ (.argument hplace hparent hd (by simpa using hne))
        (edgeForTarget?_eq_none_of_place? hother (by simp))
    | @result o i j computation hk _ =>
      have hd := definitionOf_of_place?_result hother
      exact hb _ (.result hplace hk hd (by simpa using hne)) (edgeForTarget?_eq_none_of_place? hother (by simp))

-- Other values than those on the same edge operation have places of their own.
theorem WellFormed.place?_ne (hp : p.WellFormed) (hv : v.index < p.values.length) (hw : w.index < p.values.length)
    (hne : w ≠ v) (hplace : p.place? v = some place) (he : ∀ e, place = .edge e →
      p.edgeForTarget? w ≠ some e ∧ (w = p.output e → p.edgeForTarget? w ≠ none)) : p.place? w ≠ some place := by
  intro h
  cases place with
  | edge e =>
    obtain ⟨htarget, houtput⟩ := he e rfl
    obtain ht | ⟨ht, ho⟩ := hp.edge_of_place? hw h
    · exact htarget ht
    · exact houtput ho ht
  | value u      => exact hne ((place?_eq_value h).symm.trans (place?_eq_value hplace))
  | argument b i =>
    have hd := (definitionOf_of_place?_argument h).trans (definitionOf_of_place?_argument hplace).symm
    exact hne (hp.eq_of_definitionOf hw hv hd)
  | result o i   =>
    have hd := (definitionOf_of_place?_result h).trans (definitionOf_of_place?_result hplace).symm
    exact hne (hp.eq_of_definitionOf hw hv hd)

theorem WellFormed.assigns (hp : p.WellFormed) (hv : v.index < p.values.length) (h : p.setSharding v s = .ok q) :
    p.Assigns v s q where
  value := setSharding_sharding_eq h hv
  target e w hplace ht := sharding_eq_of_place?_eq h hv ((place?_of_edgeForTarget? ht).trans hplace.symm)
  output e hplace ht :=
    sharding_eq_of_place?_eq h hv ((hp.place?_output (isEdge_of_place? hplace) ht).trans hplace.symm)
  beside w _ hw hb ht := setSharding_listedWith hp h hw hb ht
  other w hw hne he hb := by
    obtain ⟨place, hplace, _⟩ := setSharding_written h
    have hpw := hp.place?_ne hv hw hne hplace fun e hpe => he e (hpe ▸ hplace)
    exact setSharding_other hp h (hplace ▸ hpw) hb

end Assigns

-- Every value that takes a sharding gets it, the arguments apart for which a named computation has no entry. All
-- values that are to read it do, unless an edge operation that is not part of the program overrules it.
theorem setSharding_assigns (hp : p.Reachable) (hv : p.verify = .ok ()) (hl : v.index < p.values.length)
    (hs : p.checkFits s v = .ok ()) :
    ((∃ q, p.setSharding v s = .ok q) ↔ p.isSettable v ∧ ¬ p.Overruns v) ∧
      (p.Overruns v → ∃ o, (p.block entry).parent = some o ∧ o ∉ p.walk) ∧
      (∀ q, p.setSharding v s = .ok q → p.Assigns v s q) ∧
      (∀ u e, p.place? v = some (.edge u) → p.edgeForTarget? (p.output u) = some e → e ∉ p.walk) ∧
      ∀ w shardings e, w.index < p.values.length → p.ListedWith v w shardings → p.edgeForTarget? w = some e →
        e ∉ p.walk := by
  have hw := hp.wellFormed
  have hvalid := ((verify_iff hw).mp hv).left
  refine ⟨?_, fun h => h.detached hvalid, fun q => hw.assigns hl, fun u e hplace => ?_, fun w _ e hl hb => ?_⟩
  · rw [hp.exists_setSharding_iff hl]
    simp [hs]
  · exact hvalid.notMem_walk_of_output (isEdge_of_place? hplace)
  · exact hvalid.notMem_walk_of_listedWith hl hb

-- A loop with an edge operation, and a named computation that states no shardings.
def loopAndCall? : Option Program :=
  let type : TensorType := ⟨[8], .f32⟩
  build "main" [
    .mesh "mesh" { axes := [⟨"a", 2⟩] },
    .argument type none,
    .region [type],
    .append ⟨1⟩ (.terminator [⟨1⟩]),
    .append entry (.generic { name := "while" } [⟨0⟩] [type] [⟨1⟩]),
    .append entry (.edge ⟨2⟩ none),
    .region [type, type],
    .append ⟨2⟩ (.terminator [⟨4⟩]),
    .append entry (.named ⟨"f", none, none⟩ [⟨3⟩, ⟨0⟩] ⟨2⟩),
    .append entry (.terminator [⟨6⟩])]

def loopAndCall : Program :=
  loopAndCall?.get (by rfl)

-- The sharding of the argument of the loop is that of the edge; the first one that an argument of the named
-- computation gets comes with an open one for the other argument.
theorem setSharding_assigns_loopAndCall :
    let p := loopAndCall
    let split : Sharding := ⟨.symbol "mesh", [{ axes := [.whole "a"] }], []⟩
    p.Reachable ∧ p.verify = .ok () ∧
      ((1 < p.values.length ∧ p.checkFits split ⟨1⟩ = .ok () ∧ p.edgeForTarget? ⟨1⟩ = some ⟨2⟩) ∧
        ∃ q, p.setSharding ⟨1⟩ split = .ok q ∧ q.sharding ⟨2⟩ = some split ∧ q.sharding ⟨3⟩ = some split) ∧
      (4 < p.values.length ∧ p.checkFits split ⟨4⟩ = .ok () ∧ p.sharding ⟨5⟩ = none) ∧
        ∃ q, p.setSharding ⟨4⟩ split = .ok q ∧ q.sharding ⟨5⟩ = some (.fullyOpen (.symbol "mesh") 1) := by
  intro p split
  have hp : p.Reachable := build_reachable (Option.some_get _).symm
  have hv : p.verify = .ok () := by rfl
  have hloop : 1 < p.values.length ∧ p.checkFits split ⟨1⟩ = .ok () ∧ p.edgeForTarget? ⟨1⟩ = some ⟨2⟩ :=
    ⟨by decide, by rfl, by rfl⟩
  have hcall : 4 < p.values.length ∧ p.checkFits split ⟨4⟩ = .ok () ∧ p.sharding ⟨5⟩ = none :=
    ⟨by decide, by rfl, by rfl⟩
  have hno (v : ValueId) : ¬ p.Overruns v := by
    have hparent : (p.block entry).parent = none := by rfl
    rintro ⟨-, _, _, -, h, -⟩
    simp [entries?, parentKind?, hparent] at h
  have hplace : p.place? ⟨4⟩ = some (.argument ⟨2⟩ 0) := by rfl
  have hcomputation : p.parentKind? ⟨2⟩ = some (.named ⟨"f", none, none⟩) := by rfl
  have hother : p.definitionOf ⟨5⟩ = .argument ⟨2⟩ 1 := by rfl
  obtain ⟨hset, -, hassigns, -⟩ := setSharding_assigns hp hv hloop.left hloop.right.left
  obtain ⟨q, hq⟩ := hset.mpr ⟨by rfl, hno _⟩
  obtain ⟨hset', -, hassigns', -⟩ := setSharding_assigns hp hv hcall.left hcall.right.left
  obtain ⟨r, hr⟩ := hset'.mpr ⟨by rfl, hno _⟩
  refine ⟨hp, hv, ⟨hloop, q, hq, ?_, ?_⟩, hcall, r, hr, ?_⟩
  · exact (hassigns q hq).target ⟨2⟩ ⟨2⟩ (by rfl) (by rfl)
  · exact (hassigns q hq).output ⟨2⟩ (by rfl) (by rfl)
  · exact (hassigns' r hr).beside ⟨5⟩ none (by decide) (.argument hplace hcomputation hother (by decide)) (by rfl)

-- An edge operation outside of the program, which has been moved onto the result of one in the program.
def strayOnEdge? : Option Program :=
  let type : TensorType := ⟨[8], .f32⟩
  build "main" [
    .mesh "mesh" { axes := [⟨"a", 2⟩] },
    .argument type none,
    .region [type],
    .append ⟨1⟩ (.terminator [⟨1⟩]),
    .append entry (.generic { name := "while" } [⟨0⟩] [type] [⟨1⟩]),
    .region [],
    .append ⟨2⟩ (.edge ⟨2⟩ none),
    .append entry (.edge ⟨2⟩ none),
    .append entry (.terminator [⟨4⟩])]

def strayOnEdge : Program :=
  (strayOnEdge?.get (by rfl)).setOperand ⟨2⟩ 0 ⟨4⟩

-- The result of the edge operation that keeps the sharding does not read it.
theorem setSharding_not_assigns_strayOnEdge :
    let p := strayOnEdge
    let split : Sharding := ⟨.symbol "mesh", [{ axes := [.whole "a"] }], []⟩
    p.Reachable ∧ p.verify = .ok () ∧ p.checkFits split ⟨2⟩ = .ok () ∧ p.edgeForTarget? ⟨2⟩ = some ⟨3⟩ ∧
      p.output ⟨3⟩ = ⟨4⟩ ∧ ∃ q, p.setSharding ⟨2⟩ split = .ok q ∧ q.sharding ⟨2⟩ = some split ∧
        q.sharding ⟨4⟩ = none := by
  have hp : (strayOnEdge?.get (by rfl)).Reachable := build_reachable (Option.some_get _).symm
  exact ⟨hp.setOperand (by decide) (by decide), by rfl, by rfl, by rfl, by rfl, _, by rfl, by rfl, by rfl⟩

end MeshSharding.Program
