import MeshSharding.Proofs.Verify.Fits

namespace MeshSharding.Program

-- The block lies in a region of the operation, at any depth.
def Encloses (p : Program) (m : OpId) (b : BlockId) : Prop :=
  ∃ c ∈ (p.op m).regions, ∃ n, p.Below c n b

def bodyBlocks (p : Program) (m : OpId) : List BlockId :=
  (p.op m).regions ++ (p.nestedIn m).flatMap fun o => (p.op o).regions

def bodyValues (p : Program) (m : OpId) : List ValueId :=
  (p.bodyBlocks m).flatMap (fun b => (p.block b).arguments) ++
    (p.nestedIn m).flatMap fun o => (p.op o).results

variable {p q : Program} {m o u e : OpId} {b c : BlockId} {v w : ValueId} {i : Nat}

section Blocks

theorem Encloses.of_region (hb : b ∈ (p.op m).regions) : p.Encloses m b :=
  ⟨b, hb, 0, .here⟩

theorem Encloses.region (h : p.Encloses m b) (ho : o ∈ (p.block b).operations)
    (hc : c ∈ (p.op o).regions) : p.Encloses m c := by
  obtain ⟨d, hd, n, hn⟩ := h
  exact ⟨d, hd, n + 1, .step hn ho hc⟩

namespace WellFormed

variable (hp : p.WellFormed)
include hp

-- A region lies on the side of the block around it, that of the operation itself apart.
theorem encloses_region_iff (ho : o ∈ (p.block b).operations) (hc : c ∈ (p.op o).regions) (hne : o ≠ m) :
    p.Encloses m c ↔ p.Encloses m b := by
  constructor
  · rintro ⟨d, hd, n, hn⟩
    cases hn with
    | here => exact absurd (hp.parent_unique hc hd) hne
    | step hn hu hcu =>
      have he := hp.parent_unique hc hcu
      subst he
      rw [hp.member_unique ho hu]
      exact ⟨d, hd, _, hn⟩
  · exact fun h => h.region ho hc

theorem mem_nestedIn_iff : o ∈ p.nestedIn m ↔ ∃ b, p.Encloses m b ∧ o ∈ (p.block b).operations := by
  simp only [nestedIn, List.mem_flatMap, mem_walkBlock_iff, mem_blocksWithin_iff]
  constructor
  · rintro ⟨c, hc, b, ⟨n, _, hn⟩, ho⟩
    exact ⟨b, ⟨c, hc, n, hn⟩, ho⟩
  · rintro ⟨b, ⟨c, hc, n, hn⟩, ho⟩
    exact ⟨c, hc, b, hn.short hp.region_lt (hp.region_lt m c hc), ho⟩

theorem mem_bodyBlocks_iff : b ∈ p.bodyBlocks m ↔ p.Encloses m b := by
  simp only [bodyBlocks, List.mem_append, List.mem_flatMap]
  constructor
  · rintro (hb | ⟨o, ho, hb⟩)
    · exact .of_region hb
    · obtain ⟨c, hc, ho⟩ := hp.mem_nestedIn_iff.mp ho
      exact hc.region ho hb
  · rintro ⟨c, hc, n, hn⟩
    cases hn with
    | here           => exact .inl hc
    | step hn ho hb => exact .inr ⟨_, hp.mem_nestedIn_iff.mpr ⟨_, ⟨c, hc, _, hn⟩, ho⟩, hb⟩

theorem mem_operations_of_inScope (h : p.InScope o v) : o ∈ (p.block (p.op o).block).operations := by
  have hmem {b : BlockId} (hm : o ∈ (p.block b).operations) : o ∈ (p.block (p.op o).block).operations := by
    rwa [(hp.members b o hm).right]
  cases h with
  | argument hm _      => exact hmem hm
  | result hs _        => exact hmem (hs.subset (by simp))
  | outer hm _ _ _ _   => exact hmem hm

-- What an operation sees lies on its side.
theorem encloses_of_inScope (hm : (p.op m).kind.isIsolated) (h : p.InScope o v) :
    p.Encloses m (p.definingBlock v) ↔ p.Encloses m (p.op o).block := by
  induction h with
  | argument ho ha => rw [hp.definingBlock_of_argument ha, (hp.members _ _ ho).right]
  | result hs hr => rw [hp.definingBlock_of_before hs hr]
  | @outer b u o v ho _ hr hi hs ih =>
    have hne : u ≠ m := by
      rintro rfl
      simp [hm] at hi
    rw [ih, (hp.members b o ho).right, hp.encloses_region_iff (hp.mem_operations_of_inScope hs) hr hne]

end WellFormed

end Blocks

section Live

theorem Valid.nested_of_encloses (hv : p.Valid) (hm : m ∈ p.walk) (h : p.Encloses m b) : b ∈ p.nested := by
  obtain ⟨n, c, hc, hmc⟩ := hv.sound.wellFormed.mem_walk_iff_below.mp hm
  obtain ⟨d, hd, k, hk⟩ := h
  exact (below_mem_nested hv.shallow).mp ⟨_, (Below.step hc hmc hd).trans hk⟩

-- No operation of the program lies in its own body.
theorem Valid.not_encloses_block (hv : p.Valid) (hm : m ∈ p.walk) : ¬ p.Encloses m (p.op m).block := by
  rintro ⟨d, hd, k, hk⟩
  have hp := hv.sound.wellFormed
  obtain ⟨n, c, hc, hmc⟩ := hp.mem_walk_iff_below.mp hm
  rw [(hp.members c m hmc).right] at hk
  have hround := (Below.step hc hmc hd).trans hk
  have := hp.level_unique hv.sound.rooted (hv.shallow _ _ hc) (hv.shallow _ _ hround) hc hround
  omega

theorem Valid.mem_walk_of_nestedIn (hv : p.Valid) (hm : m ∈ p.walk) (ho : o ∈ p.nestedIn m) : o ∈ p.walk := by
  obtain ⟨b, hb, ho⟩ := hv.sound.wellFormed.mem_nestedIn_iff.mp ho
  exact mem_walk_iff.mpr ⟨b, hv.nested_of_encloses hm hb, ho⟩

-- What an operation sees is part of the program.
theorem Valid.holds_of_inScope (hv : p.Valid) (ho : o ∈ p.walk) (h : p.InScope o v) : p.Holds v := by
  have hp := hv.sound.wellFormed
  induction h with
  | argument hm ha         => exact .inl ⟨_, (hp.members _ _ hm).right ▸ (hp.block_nested ho).left, ha⟩
  | result hs hr           =>
    have hu := hp.definer_mem_walk (.result hs hr) ho hr
    exact .inr ⟨_, hp.isLive_of_mem_walk hv.sound.rooted hu, hr⟩
  | outer hm hb hr _ _ ih  => exact ih ((hp.around_before ho hm hb hr).subset List.mem_cons_self)

theorem Valid.holds_operand (hv : p.Valid) (ho : o ∈ p.walk) (h : v ∈ (p.op o).operands) : p.Holds v :=
  hv.holds_of_inScope ho (hv.sound.scope o ho v h)

-- The values of a body are those of the program that are defined in it.
theorem Reachable.mem_bodyValues_iff (hr : p.Reachable) (hv : p.Valid) (hm : m ∈ p.walk) :
    v ∈ p.bodyValues m ↔ p.Holds v ∧ p.Encloses m (p.definingBlock v) := by
  have hp := hr.wellFormed
  have hlive (o : OpId) : o ∈ p.walk ↔ p.isLive o := hr.mem_walk_iff hv.sound.rooted
  simp only [bodyValues, List.mem_append, List.mem_flatMap, hp.mem_bodyBlocks_iff]
  constructor
  · rintro (⟨b, hb, ha⟩ | ⟨o, ho, hres⟩)
    · exact ⟨.inl ⟨b, hv.nested_of_encloses hm hb, ha⟩, hp.definingBlock_of_argument ha ▸ hb⟩
    · have hwalk := hv.mem_walk_of_nestedIn hm ho
      obtain ⟨b, hb, ho⟩ := hp.mem_nestedIn_iff.mp ho
      rw [hp.definingBlock_of_result hres, (hp.members b o ho).right]
      exact ⟨.inr ⟨o, (hlive o).mp hwalk, hres⟩, hb⟩
  · rintro ⟨⟨b, _, ha⟩ | ⟨o, ho, hres⟩, hb⟩
    · exact .inl ⟨b, hp.definingBlock_of_argument ha ▸ hb, ha⟩
    · rw [hp.definingBlock_of_result hres] at hb
      exact .inr ⟨o, hp.mem_nestedIn_iff.mpr ⟨_, hb, (hp.block_nested ((hlive o).mpr ho)).right⟩, hres⟩

end Live

section Manual

variable (hp : p.WellFormed)
include hp

theorem WellFormed.enclosingManual?_of_encloses (hm : (p.op m).kind.isManual) (h : p.Encloses m b) :
    ∃ u, p.enclosingManual? b = some u ∧ (u = m ∨ u ∈ p.nestedIn m) := by
  obtain ⟨c, hc, n, hn⟩ := h
  induction hn with
  | here =>
    refine ⟨m, ?_, .inl rfl⟩
    rw [hp.enclosingManual?_eq, (hp.regions _ _).mp hc, Option.bind_some, if_pos hm]
  | @step n d b o hn ho hb ih =>
    rw [hp.enclosingManual?_eq, (hp.regions _ _).mp hb, Option.bind_some, (hp.members _ _ ho).right]
    split
    case isTrue  => exact ⟨o, rfl, .inr (hp.mem_nestedIn_iff.mpr ⟨d, ⟨c, hc, n, hn⟩, ho⟩)⟩
    case isFalse => exact ih

-- The way up from a block of the program does not come into the body from elsewhere, unless the body of
-- the program leads there.
theorem WellFormed.encloses_of_enclosingManual? {n : Nat}
    (hentry : ∀ u, p.enclosingManual? entry = some u → u ≠ m ∧ u ∉ p.nestedIn m)
    (hb : p.Below entry n b) (h : p.enclosingManual? b = some u) (hu : u = m ∨ u ∈ p.nestedIn m) :
    p.Encloses m b := by
  induction hb with
  | here =>
    obtain ⟨hne, hn⟩ := hentry u h
    exact absurd hu (by simp [hne, hn])
  | @step n d b o hn ho hb ih =>
    rw [hp.enclosingManual?_eq, (hp.regions _ _).mp hb, Option.bind_some, (hp.members _ _ ho).right] at h
    split at h
    case isTrue =>
      cases h
      obtain rfl | ho := hu
      · exact .of_region hb
      · obtain ⟨d, hd, ho⟩ := hp.mem_nestedIn_iff.mp ho
        exact hd.region ho hb
    case isFalse => exact (ih h).region ho hb

end Manual

section Places

-- The block that a place belongs to: for an edge operation, that of the owner of the edge.
def placeBlock (p : Program) : Place → BlockId
  | .edge e       => p.definingBlock (p.input e)
  | .value v      => p.definingBlock v
  | .argument b _ => b
  | .result o _   => (p.op o).block

-- A target of an edge is its owner, or stands for it in a region.
theorem WellFormed.target_cases (hp : p.WellFormed) (h : p.edgeForTarget? v = some e) :
    v = p.input e ∨ ∃ b i u, p.definitionOf v = .argument b i ∧ b ∈ (p.op u).regions ∧
      (p.op u).isStructural ∧ (p.op u).erased = false ∧ p.input e ∈ (p.op u).results := by
  have howner {w : ValueId} (hw : p.edgeOfOwner? w = some e) : p.input e = w :=
    (hp.marks_iff.mp (edgeOfOwner?_eq_some_iff.mp hw).left).right.right
  simp only [edgeForTarget?] at h
  split at h
  case _ _ he =>
    cases h
    exact .inl (howner he).symm
  case _ =>
    split at h
    case _ => contradiction
    case _ b i hd =>
      simp only [Option.bind_eq_bind, Option.bind_eq_some_iff] at h
      obtain ⟨u, hu, _, _, owner, hr, he⟩ := h
      simp only [structuralResult?, Option.ite_none_right_eq_some, Bool.and_eq_true, Bool.not_eq_true'] at hr
      obtain ⟨⟨hs, hl⟩, hr⟩ := hr
      exact .inr ⟨b, i, u, hd, (hp.regions b u).mpr hu, hs, hl, howner he ▸ List.mem_of_getElem? hr⟩

theorem Holds.isLive (hp : p.WellFormed) (h : p.Holds v) (hd : p.definitionOf v = .result o i) : p.isLive o := by
  obtain ⟨b, _, ha⟩ | ⟨u, hu, hres⟩ := h
  · obtain ⟨j, hj⟩ := List.mem_iff_getElem?.mp ha
    cases hd.symm.trans ((hp.arguments v b j).mp hj).right
  · obtain ⟨j, hj⟩ := List.mem_iff_getElem?.mp hres
    cases hd.symm.trans ((hp.results v u j).mp hj).right
    exact hu

-- The operand of an operation of the program lies on the side of the operation.
theorem Valid.encloses_input_iff (hv : p.Valid) (hm : (p.op m).kind.isManual) (ho : o ∈ p.walk)
    (hk : (p.op o).kind.isUnary) : p.Encloses m (p.definingBlock (p.input o)) ↔ p.Encloses m (p.op o).block := by
  have hp := hv.sound.wellFormed
  have hop : p.input o ∈ (p.op o).operands := by simp [hp.operands_eq hk]
  exact hp.encloses_of_inScope (OpKind.isIsolated_of_isManual hm) (hv.sound.scope o ho _ hop)

-- A value of the program lies on the side of the place that keeps its sharding.
theorem Reachable.encloses_place_iff (hr : p.Reachable) (hv : p.Valid) (hm : (p.op m).kind.isManual)
    {place : Place} (hheld : p.Holds v) (h : p.place? v = some place) :
    p.Encloses m (p.placeBlock place) ↔ p.Encloses m (p.definingBlock v) := by
  have hp := hr.wellFormed
  rw [place?] at h
  cases he : p.edgeForTarget? v with
  | some e =>
    simp only [he, Option.some.injEq] at h
    subst h
    obtain rfl | ⟨b, i, u, hd, hb, hs, hl, hres⟩ := hp.target_cases he
    · rfl
    · have hne : u ≠ m := by
        rintro rfl
        cases hk : (p.op u).kind <;> simp_all [OpKind.isManual, Operation.isStructural, OpKind.isGeneric]
      rw [placeBlock, hp.definingBlock_of_result hres, definingBlock, hd]
      exact (hp.encloses_region_iff (hr.housed u hl) hb hne).symm
  | none =>
    simp only [he] at h
    cases hd : p.definitionOf v with
    | result o i =>
      have hb : p.definingBlock v = (p.op o).block := by rw [definingBlock, hd]
      rw [hb]
      cases hk : (p.op o).kind <;> simp only [hd, hk, Option.some.injEq, reduceCtorEq] at h
      case edge =>
        have ho := (hr.mem_walk_iff hv.sound.rooted).mpr (hheld.isLive hp hd)
        subst h
        exact hv.encloses_input_iff hm ho (by simp [hk, OpKind.isUnary])
      all_goals simp [← h, placeBlock, hb]
    | argument b i =>
      have hb : p.definingBlock v = b := by rw [definingBlock, hd]
      simp only [hd] at h
      split at h <;> cases h <;> simp [placeBlock, hb]

-- Places that are written together lie on one side.
theorem WellFormed.encloses_touched_iff (hp : p.WellFormed) {place other : Place} (h : p.Touches place other) :
    p.Encloses m (p.placeBlock other) ↔ p.Encloses m (p.placeBlock place) := by
  cases h with
  | same => rfl
  | @argument b c o i j computation hb hc hk _ =>
    rw [placeBlock, placeBlock, hp.region_unique (by simp [hk, OpKind.isIsolated]) hb hc]
  | result => rfl

-- An operation of the body is written to at places in the body only.
theorem Valid.encloses_of_written (hv : p.Valid) (hm : (p.op m).kind.isManual) (hwalk : m ∈ p.walk)
    {r : Program} {place : Place} {sharding : Sharding} (hb : r.bare = p.bare)
    (h : r.Written sharding place q) (ho : o ∈ p.nestedIn m) (hne : (q.op o).kind ≠ (r.op o).kind) :
    p.Encloses m (p.placeBlock place) := by
  have hp := hv.sound.wellFormed
  obtain ⟨b, hbo, hob⟩ := hp.mem_nestedIn_iff.mp ho
  have hside : p.Encloses m (p.op o).block := (hp.members b o hob).right ▸ hbo
  have hself {u : OpId} {kind : OpKind} (hu : (r.op u).kind ≠ .terminator)
      (hk : ((r.setKind u kind).op o).kind ≠ (r.op o).kind) : o = u := by
    by_contra hc
    simp [op_setKind_of_ne hu, hc] at hk
  cases h with
  | value => contradiction
  | edge hk =>
    obtain rfl := hself (by simp [hk]) hne
    have hunary := read_of_bare_eq (fun r => (r.op o).kind.isUnary) (by simp) hb
    simp only [hk, OpKind.isUnary] at hunary
    exact (hv.encloses_input_iff hm (hv.mem_walk_of_nestedIn hwalk ho) hunary.symm).mpr hside
  | argument hparent hk _ =>
    obtain rfl := hself (by simp [hk]) hne
    rw [read_of_bare_eq (fun r => r.block _) (by simp) hb] at hparent
    exact hbo.region hob ((hp.regions _ _).mpr hparent)
  | result hk _ =>
    obtain rfl := hself (by simp [hk]) hne
    exact hside

end Places

section Sides

-- The value is part of the program, and lies in the body if the block does.
def OnSide (p : Program) (m : OpId) (b : BlockId) (v : ValueId) : Prop :=
  p.Holds v ∧ (p.Encloses m (p.definingBlock v) ↔ p.Encloses m b)

theorem OnSide.congr (h : p.OnSide m b v) (hb : p.Encloses m b ↔ p.Encloses m c) : p.OnSide m c v :=
  ⟨h.left, h.right.trans hb⟩

namespace Valid

variable (hv : p.Valid)
include hv

theorem onSide_operand (hm : (p.op m).kind.isManual) (ho : o ∈ p.walk) (h : v ∈ (p.op o).operands) :
    p.OnSide m (p.op o).block v :=
  ⟨hv.holds_operand ho h,
    hv.sound.wellFormed.encloses_of_inScope (OpKind.isIsolated_of_isManual hm) (hv.sound.scope o ho v h)⟩

theorem onSide_result (ho : o ∈ p.walk) (h : v ∈ (p.op o).results) : p.OnSide m (p.op o).block v := by
  have hp := hv.sound.wellFormed
  exact ⟨.inr ⟨o, hp.isLive_of_mem_walk hv.sound.rooted ho, h⟩, by rw [hp.definingBlock_of_result h]⟩

theorem region_mem_nested (ho : o ∈ p.walk) (hb : b ∈ (p.op o).regions) : b ∈ p.nested := by
  obtain ⟨n, c, hc, hoc⟩ := hv.sound.wellFormed.mem_walk_iff_below.mp ho
  exact (below_mem_nested hv.shallow).mp ⟨n + 1, .step hc hoc hb⟩

theorem onSide_argument (ho : o ∈ p.walk) (hb : b ∈ (p.op o).regions) (h : v ∈ (p.block b).arguments) :
    p.OnSide m b v :=
  ⟨.inl ⟨b, hv.region_mem_nested ho hb, h⟩, by rw [hv.sound.wellFormed.definingBlock_of_argument h]⟩

theorem onSide_returned (hm : (p.op m).kind.isManual) (ho : o ∈ p.walk) (hb : b ∈ (p.op o).regions)
    {values : List ValueId} (hr : p.returned? b = some values) (h : v ∈ values) : p.OnSide m b v := by
  obtain ⟨u, hu, rfl⟩ := Option.map_eq_some_iff.mp hr
  have hub := (exists_of_terminator? hu).left
  have hwalk := mem_walk_iff.mpr ⟨b, hv.region_mem_nested ho hb, hub⟩
  exact (hv.sound.wellFormed.members b u hub).right ▸ hv.onSide_operand hm hwalk h

-- The values of a region lie where the operation does, that of `m` apart.
theorem encloses_region_iff (ho : o ∈ p.walk) (hb : b ∈ (p.op o).regions) (hne : o ≠ m) :
    p.Encloses m b ↔ p.Encloses m (p.op o).block :=
  hv.sound.wellFormed.encloses_region_iff (hv.sound.wellFormed.block_nested ho).right hb hne

-- So do values that are put into one group.
theorem encloses_iff_of_manualAround? (hm : (p.op m).kind.isManual)
    (hentry : ∀ u, p.enclosingManual? entry = some u → u ≠ m ∧ u ∉ p.nestedIn m)
    (hb : p.definingBlock v ∈ p.nested) (hc : p.definingBlock w ∈ p.nested)
    (h : p.manualAround? v = p.manualAround? w) :
    p.Encloses m (p.definingBlock v) ↔ p.Encloses m (p.definingBlock w) := by
  have hp := hv.sound.wellFormed
  have hside {x y : ValueId} (hy : p.definingBlock y ∈ p.nested) (he : p.manualAround? x = p.manualAround? y)
      (hx : p.Encloses m (p.definingBlock x)) : p.Encloses m (p.definingBlock y) := by
    obtain ⟨u, hu, hum⟩ := hp.enclosingManual?_of_encloses hm hx
    obtain ⟨n, hn⟩ := (below_mem_nested hv.shallow).mpr hy
    exact hp.encloses_of_enclosingManual? hentry hn (he.symm.trans hu) hum
  exact ⟨hside hc h, hside hb h.symm⟩

end Valid

end Sides

end MeshSharding.Program
