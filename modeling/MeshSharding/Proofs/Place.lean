import MeshSharding.Proofs.Bare

namespace MeshSharding

-- The entry of a named computation for an argument or a result is a place of its own, although one
-- list holds the entries of all arguments, and one those of all results.
inductive Place
  | edge (op : OpId)
  | value (v : ValueId)
  | argument (b : BlockId) (index : Nat)
  | result (op : OpId) (index : Nat)
  deriving DecidableEq

namespace Program

def place? (p : Program) (v : ValueId) : Option Place :=
  match p.edgeForTarget? v with
  | some edge => some (.edge edge)
  | none =>
    match p.definitionOf v with
    | .result o index =>
      match (p.op o).kind with
      | .generic _ | .constant _ | .barrier _ => some (.value v)
      | .edge _                               => some (.edge o)
      | .named _                              => some (.result o index)
      | _                                     => none
    | .argument b index =>
      match p.parentKind? b with
      | some (.manual _) => none
      | some (.named _)  => some (.argument b index)
      | _                => some (.value v)

def shardingAt (p : Program) : Place → Option Sharding
  | .edge o =>
    match (p.op o).kind with
    | .edge sharding => sharding
    | _              => none
  | .value v => p.storedSharding v
  | .argument b index =>
    match p.parentKind? b with
    | some (.named computation) => computation.inShardings.bind (·[index]?)
    | _                         => none
  | .result o index =>
    match (p.op o).kind with
    | .named computation => computation.outShardings.bind (·[index]?)
    | _                  => none

-- The operation of which the kind keeps the sharding of a place.
def keeper? (p : Program) : Place → Option OpId
  | .edge o | .result o _ => some o
  | .value _              => none
  | .argument b _         => (p.block b).parent

-- What a write to a place can do.
inductive Written (p : Program) (sharding : Sharding) : Place → Program → Prop
  | edge {o previous} : (p.op o).kind = .edge previous →
      Written p sharding (.edge o) (p.setKind o (.edge (some sharding)))
  | value {v} : Written p sharding (.value v) (p.storeSharding v (some sharding))
  | argument {b o index computation shardings} : (p.block b).parent = some o →
      (p.op o).kind = .named computation →
      p.replaceIn computation.inShardings (p.block b).arguments index sharding = some shardings →
      Written p sharding (.argument b index)
        (p.setKind o (.named { computation with inShardings := some shardings }))
  | result {o index computation shardings} : (p.op o).kind = .named computation →
      p.replaceIn computation.outShardings (p.op o).results index sharding = some shardings →
      Written p sharding (.result o index)
        (p.setKind o (.named { computation with outShardings := some shardings }))

-- The places that a write to a place may change: itself, and all entries beside it on a boundary
-- without shardings.
inductive Touches (p : Program) : Place → Place → Prop
  | same (place) : Touches p place place
  | argument {b c o i j computation} : (p.block b).parent = some o → (p.block c).parent = some o →
      (p.op o).kind = .named computation → (j = i ∨ computation.inShardings = none) →
      Touches p (.argument b i) (.argument c j)
  | result {o i j computation} : (p.op o).kind = .named computation →
      (j = i ∨ computation.outShardings = none) → Touches p (.result o i) (.result o j)

variable {p q : Program} {v w : ValueId} {o u : OpId} {sharding : Sharding} {place : Place}

theorem op_setKind_of_ne {kind : OpKind} (h : (p.op o).kind ≠ .terminator) :
    (p.setKind o kind).op u = if u = o then { p.op u with kind } else p.op u := by
  simp [setKind, op_modifyOp, index_lt_of_kind_ne h]

theorem kind_setKind_self {kind : OpKind} (h : (p.op o).kind ≠ .terminator) :
    ((p.setKind o kind).op o).kind = kind := by
  simp [op_setKind_of_ne h]

@[simp]
theorem value_setKind (kind : OpKind) : (p.setKind o kind).value v = p.value v :=
  rfl

@[simp]
theorem block_setKind (kind : OpKind) (b : BlockId) : (p.setKind o kind).block b = p.block b :=
  rfl

-- Only the places that an operation keeps depend on its kind.
theorem shardingAt_setKind_of_keeper? {kind : OpKind} (hk : (p.op o).kind ≠ .terminator)
    (h : p.keeper? place ≠ some o) : (p.setKind o kind).shardingAt place = p.shardingAt place := by
  have hop {u : OpId} (hu : u ≠ o) : (p.setKind o kind).op u = p.op u := by
    rw [op_setKind_of_ne hk, if_neg hu]
  cases place with
  | value _      => rfl
  | edge u       => simp only [shardingAt, hop fun hu => h (congrArg some hu)]
  | result u i   => simp only [shardingAt, hop fun hu => h (congrArg some hu)]
  | argument b i =>
    simp only [shardingAt, parentKind?, block_setKind]
    cases hb : (p.block b).parent with
    | none   => rfl
    | some u => rw [Option.map_some, Option.map_some, hop fun hu => h (by rw [keeper?, hb, hu])]

@[simp]
theorem op_storeSharding (sharding : Option Sharding) : (p.storeSharding v sharding).op o = p.op o :=
  rfl

@[simp]
theorem block_storeSharding (sharding : Option Sharding) (b : BlockId) :
    (p.storeSharding v sharding).block b = p.block b :=
  rfl

theorem storedSharding_storeSharding {s : Option Sharding} : (p.storeSharding v s).storedSharding w =
    if w = v ∧ v.index < p.values.length then s else p.storedSharding w := by
  simp only [storedSharding, Program.storeSharding, value_modifyValue]
  split <;> rfl

theorem edgeOfOwner?_kind {owner : ValueId} (h : p.edgeOfOwner? owner = some o) :
    ∃ previous, (p.op o).kind = .edge previous := by
  simp only [edgeOfOwner?, Option.map_eq_some_iff] at h
  obtain ⟨i, hi, rfl⟩ := h
  obtain ⟨hl, hi, _⟩ := List.findIdx?_eq_some_iff_getElem.mp hi
  simp only [Bool.and_eq_true] at hi
  have hk := hi.left.right
  simp only [op, List.getElem?_eq_getElem hl, Option.getD_some]
  cases hc : p.operations[i].kind <;> simp [OpKind.isEdge, hc] at hk
  exact ⟨_, rfl⟩

theorem edgeForTarget?_kind (h : p.edgeForTarget? v = some o) :
    ∃ previous, (p.op o).kind = .edge previous := by
  simp only [edgeForTarget?] at h
  split at h
  case _ edge he =>
    cases h
    exact edgeOfOwner?_kind he
  case _ =>
    split at h
    case _ => contradiction
    case _ =>
      simp only [Option.bind_eq_bind, Option.bind_eq_some_iff] at h
      obtain ⟨_, _, _, _, _, _, he⟩ := h
      exact edgeOfOwner?_kind he

theorem writeSharding?_written (h : p.writeSharding? v sharding = some q) :
    ∃ place, p.place? v = some place ∧ p.Written sharding place q := by
  simp only [writeSharding?] at h
  cases he : p.edgeForTarget? v with
  | some edge =>
    have ⟨_, hk⟩ := edgeForTarget?_kind he
    simp only [he, Option.some.injEq] at h
    exact ⟨.edge edge, by simp [place?, he], h ▸ .edge hk⟩
  | none =>
    cases hd : p.definitionOf v with
    | result o index =>
      cases hk : (p.op o).kind <;> simp [he, hd, hk] at h
      case edge  => exact ⟨.edge o, by simp [place?, he, hd, hk], h ▸ .edge hk⟩
      case named =>
        obtain ⟨shardings, hs, rfl⟩ := h
        exact ⟨.result o index, by simp [place?, he, hd, hk], .result hk hs⟩
      all_goals exact ⟨.value v, by simp [place?, he, hd, hk], h ▸ .value⟩
    | argument b index =>
      cases hp : (p.block b).parent with
      | none =>
        simp only [he, hd, hp, Option.some.injEq] at h
        exact ⟨.value v, by simp [place?, he, hd, hp, parentKind?], h ▸ .value⟩
      | some o =>
        cases hk : (p.op o).kind <;> simp [he, hd, hp, hk] at h
        case named =>
          obtain ⟨shardings, hs, rfl⟩ := h
          exact ⟨.argument b index, by simp [place?, he, hd, hp, hk, parentKind?], .argument hp hk hs⟩
        all_goals exact ⟨.value v, by simp [place?, he, hd, hp, hk, parentKind?], h ▸ .value⟩

theorem sharding_eq_shardingAt (h : p.place? v = some place) : p.sharding v = p.shardingAt place := by
  simp only [place?] at h
  cases he : p.edgeForTarget? v with
  | some edge =>
    have ⟨_, hk⟩ := edgeForTarget?_kind he
    simp only [he, Option.some.injEq] at h
    simp [sharding, he, hk, ← h, shardingAt]
  | none =>
    cases hd : p.definitionOf v with
    | result o index =>
      cases hk : (p.op o).kind <;> simp [he, hd, hk] at h <;>
        simp [sharding, shardingOfResult, he, hd, hk, ← h, shardingAt]
    | argument b index =>
      simp only [he, hd] at h
      simp only [sharding, he, hd, shardingOfArgument, Option.map_none]
      split at h <;> cases h <;> simp_all [shardingAt]

theorem place?_eq_value (h : p.place? v = some (.value w)) : w = v := by
  simp only [place?] at h
  repeat' split at h
  all_goals simp_all

theorem definitionOf_of_place?_argument {b : BlockId} {i : Nat}
    (h : p.place? v = some (.argument b i)) : p.definitionOf v = .argument b i := by
  simp only [place?] at h
  repeat' split at h
  all_goals simp_all

theorem definitionOf_of_place?_result {o : OpId} {i : Nat} (h : p.place? v = some (.result o i)) :
    p.definitionOf v = .result o i := by
  simp only [place?] at h
  repeat' split at h
  all_goals simp_all

theorem place?_of_edgeForTarget? (h : p.edgeForTarget? v = some o) : p.place? v = some (.edge o) := by
  simp [place?, h]

theorem isSettable_iff : p.isSettable v ↔ ∃ place, p.place? v = some place := by
  simp only [isSettable, place?]
  cases he : p.edgeForTarget? v with
  | some edge => simp
  | none =>
    cases hd : p.definitionOf v with
    | result o index   => cases hk : (p.op o).kind <;> simp [hk, OpKind.storesResultShardings]
    | argument b index =>
      cases hp : p.parentKind? b with
      | none      => simp [hp]
      | some kind => cases kind <;> simp [hp, OpKind.isManual]

@[simp]
theorem bare_place? : p.bare.place? v = p.place? v := by
  simp only [place?, bare_edgeForTarget?, bare_definitionOf, bare_op, parentKind?, bare_block]
  cases p.edgeForTarget? v with
  | some edge => rfl
  | none =>
    cases p.definitionOf v with
    | result o index => cases h : (p.op o).kind <;> simp [OpKind.bare, h]
    | argument b index =>
      cases hp : (p.block b).parent with
      | none   => simp [hp]
      | some o => cases h : (p.op o).kind <;> simp [OpKind.bare, h, hp]

theorem bare_setKind {kind : OpKind} (h : kind.bare = (p.op o).kind.bare) :
    (p.setKind o kind).bare = p.bare := by
  simp only [setKind, modifyOp, bare]
  congr 1
  apply List.ext_getElem? fun i => ?_
  simp only [List.getElem?_modify, List.getElem?_map, op] at h ⊢
  split
  case isFalse => simp
  case isTrue hi =>
    cases hg : p.operations[i]? <;> simp_all [Operation.bare]

theorem bare_storeSharding (sharding : Option Sharding) :
    (p.storeSharding v sharding).bare = p.bare := by
  simp only [storeSharding, modifyValue, bare]
  congr 1
  apply List.ext_getElem? fun i => ?_
  simp only [List.getElem?_modify, List.getElem?_map]
  cases p.values[i]? <;> split <;> rfl

-- The entries beside the one that is replaced stay, or are open if there was no list.
theorem replaceIn_getElem?_of_ne {shardings : Option (List Sharding)} {values : List ValueId} {i j : Nat}
    {replaced : List Sharding} (h : p.replaceIn shardings values i sharding = some replaced) (hne : j ≠ i)
    (hw : values[j]? = some w) : replaced[j]? =
      if shardings.isSome then shardings.bind (·[j]?) else some (.fullyOpen sharding.mesh (p.typeOf w).rank) := by
  simp only [replaceIn, Option.ite_none_right_eq_some, Option.some.injEq] at h
  obtain ⟨_, rfl⟩ := h
  cases shardings <;> simp [Ne.symm hne, hw]

namespace Written

-- Only shardings that the bare program does not have are written.
theorem bare_eq : p.Written sharding place q → q.bare = p.bare
  | .edge h       => bare_setKind (h ▸ rfl)
  | .value        => bare_storeSharding _
  | .argument _ h _ | .result h _ => bare_setKind (h ▸ rfl)

theorem replaceIn_getElem? {shardings : Option (List Sharding)} {values : List ValueId} {index : Nat}
    {replaced : List Sharding} (h : p.replaceIn shardings values index sharding = some replaced) :
    replaced[index]? = some sharding := by
  simp only [replaceIn] at h
  split at h <;> cases h
  simp [*]

-- What is read from a list of entries after one of them has been replaced.
theorem replaceIn_cases {shardings : Option (List Sharding)} {values : List ValueId} {index : Nat}
    {replaced : List Sharding} (h : p.replaceIn shardings values index sharding = some replaced)
    (i : Nat) : i = index ∨ (shardings.bind (·[i]?) = replaced[i]?) ∨
      (shardings = none ∧
        ∀ t, replaced[i]? = some t → ∃ u, t = Sharding.fullyOpen sharding.mesh (p.typeOf u).rank) := by
  simp only [replaceIn] at h
  split at h <;> cases h
  by_cases hi : i = index
  case pos => exact .inl hi
  case neg =>
    right
    cases shardings with
    | some l => simp [Ne.symm hi]
    | none =>
      refine .inr ⟨rfl, fun t ht => ?_⟩
      simp only [Option.getD_none, List.getElem?_set_ne (Ne.symm hi), List.getElem?_map,
        Option.map_eq_some_iff] at ht
      have ⟨u, _, hu⟩ := ht
      exact ⟨u, hu.symm⟩

theorem shardingAt_eq (h : p.Written sharding place q)
    (hv : ∀ v, place = .value v → v.index < p.values.length) :
    q.shardingAt place = some sharding := by
  cases h with
  | edge hk  => simp [shardingAt, op_setKind_of_ne, hk]
  | value    => simp [shardingAt, storedSharding, storeSharding, value_modifyValue, hv]
  | argument hp hk hr =>
    simp [shardingAt, parentKind?, hp, op_setKind_of_ne, hk, replaceIn_getElem? hr]
  | result hk hr => simp [shardingAt, op_setKind_of_ne, hk, replaceIn_getElem? hr]

-- A write changes no other places than those it touches.
theorem shardingAt_eq_or_touches (h : p.Written sharding place q) (other : Place) :
    q.shardingAt other = p.shardingAt other ∨ p.Touches place other := by
  cases h with
  | @value v =>
    cases other with
    | edge _ | argument _ _ | result _ _ => exact .inl rfl
    | value w =>
      by_cases hw : w = v
      case pos => exact .inr (hw ▸ .same _)
      case neg => simp [shardingAt, storedSharding, storeSharding, value_modifyValue, hw]
  | @edge o _ hk =>
    by_cases ho : p.keeper? other = some o
    case neg => exact .inl (shardingAt_setKind_of_keeper? (by simp [hk]) ho)
    case pos =>
      cases other with
      | value _      => contradiction
      | edge _       => exact .inr (Option.some.inj ho ▸ .same _)
      | argument c i => simp_all [keeper?, shardingAt, parentKind?, op_setKind_of_ne]
      | result u i   => simp_all [keeper?, shardingAt, op_setKind_of_ne]
  | @argument b o index computation _ hp hk hr =>
    by_cases ho : p.keeper? other = some o
    case neg => exact .inl (shardingAt_setKind_of_keeper? (by simp [hk]) ho)
    case pos =>
      cases other with
      | value _    => contradiction
      | edge u     => simp_all [keeper?, shardingAt, op_setKind_of_ne]
      | result u i => simp_all [keeper?, shardingAt, op_setKind_of_ne]
      | argument c i =>
        have hc : (p.block c).parent = some o := ho
        obtain hi | hi | ⟨hn, _⟩ := replaceIn_cases hr i
        · exact .inr (.argument hp hc hk (.inl hi))
        · simp [shardingAt, parentKind?, hc, op_setKind_of_ne, hk, hi]
        · exact .inr (.argument hp hc hk (.inr hn))
  | @result o index computation _ hk hr =>
    by_cases ho : p.keeper? other = some o
    case neg => exact .inl (shardingAt_setKind_of_keeper? (by simp [hk]) ho)
    case pos =>
      cases other with
      | value _      => contradiction
      | edge u       => simp_all [keeper?, shardingAt, op_setKind_of_ne]
      | argument c i => simp_all [keeper?, shardingAt, parentKind?, op_setKind_of_ne]
      | result u i   =>
        obtain rfl := Option.some.inj ho
        obtain hi | hi | ⟨hn, _⟩ := replaceIn_cases hr i
        · exact .inr (.result hk (.inl hi))
        · simp [shardingAt, op_setKind_of_ne, hk, hi]
        · exact .inr (.result hk (.inr hn))

-- A place keeps its sharding, or has the one that is written and had that of the written place
-- before, or is an entry of a named computation that had no shardings there.
theorem shardingAt_cases (h : p.Written sharding place q) (other : Place) :
    q.shardingAt other = p.shardingAt other ∨
    (q.shardingAt other = some sharding ∧ p.shardingAt other = p.shardingAt place) ∨
    (p.shardingAt other = none ∧ p.shardingAt place = none ∧ ∀ t, q.shardingAt other = some t →
      t = sharding ∨ ∃ u, t = Sharding.fullyOpen sharding.mesh (p.typeOf u).rank) := by
  obtain he | ht := h.shardingAt_eq_or_touches other
  case inl => exact .inl he
  case inr =>
    cases ht with
    | same =>
      by_cases hv : ∃ v, place = .value v ∧ p.values.length ≤ v.index
      case neg =>
        simp only [not_exists, not_and, Nat.not_le] at hv
        exact .inr (.inl ⟨h.shardingAt_eq hv, rfl⟩)
      case pos =>
        obtain ⟨v, rfl, hl⟩ := hv
        cases h
        simp [shardingAt, storedSharding, storeSharding, value_modifyValue, Nat.not_lt.mpr hl]
    | @argument b c o i j computation hb hc hk _ =>
      cases h with
      | argument hb' hk' hr =>
        cases hb.symm.trans hb'
        cases hk.symm.trans hk'
        have hne : (p.op o).kind ≠ .terminator := by simp [hk]
        simp only [shardingAt, parentKind?, hb, hc, block_setKind, Option.map_some, hk,
          kind_setKind_self hne, Option.bind_some]
        obtain rfl | hi | ⟨hn, hi⟩ := replaceIn_cases hr j
        · exact .inr (.inl ⟨replaceIn_getElem? hr, rfl⟩)
        · exact .inl hi.symm
        · exact .inr (.inr ⟨by simp [hn], by simp [hn], fun t ht => .inr (hi t ht)⟩)
    | @result o i j computation hk _ =>
      cases h with
      | result hk' hr =>
        cases hk.symm.trans hk'
        have hne : (p.op o).kind ≠ .terminator := by simp [hk]
        simp only [shardingAt, hk, kind_setKind_self hne, Option.bind_some]
        obtain rfl | hi | ⟨hn, hi⟩ := replaceIn_cases hr j
        · exact .inr (.inl ⟨replaceIn_getElem? hr, rfl⟩)
        · exact .inl hi.symm
        · exact .inr (.inr ⟨by simp [hn], by simp [hn], fun t ht => .inr (hi t ht)⟩)

theorem storedSharding_eq (h : p.Written sharding place q) (hw : place ≠ .value w) :
    q.storedSharding w = p.storedSharding w := by
  cases h
  case value => simp_all [storedSharding, storeSharding, value_modifyValue, eq_comm]
  all_goals rfl

theorem kind_eq (h : p.Written sharding place q) (he : ∀ t, (p.op o).kind ≠ .edge t)
    (hn : ∀ computation, (p.op o).kind ≠ .named computation) : (q.op o).kind = (p.op o).kind := by
  have hb : (q.op o).kind.bare = (p.op o).kind.bare := by
    simpa using congrArg (fun r => (r.op o).kind) h.bare_eq
  obtain hk | ⟨t, _, hk, _⟩ | ⟨computation, _, hk, _⟩ := OpKind.bare_cases hb
  · exact hk
  · exact absurd hk (he t)
  · exact absurd hk (hn computation)

-- A value without a place keeps the sharding that its definition fixes.
theorem sharding_eq (h : p.Written sharding place q) (hv : p.place? v = some place)
    (hw : p.place? w = none) : q.sharding w = p.sharding w := by
  have hs : q.storedSharding w = p.storedSharding w := by
    refine h.storedSharding_eq fun hc => ?_
    have := place?_eq_value (hc ▸ hv)
    simp_all
  have he : q.edgeForTarget? w = p.edgeForTarget? w := by
    rw [← bare_edgeForTarget?, h.bare_eq, bare_edgeForTarget?]
  have hd : q.definitionOf w = p.definitionOf w := by
    rw [← bare_definitionOf, h.bare_eq, bare_definitionOf]
  have hb : ∀ b, (q.block b).parent = (p.block b).parent := fun b => by
    rw [← bare_block, h.bare_eq, bare_block]
  simp only [place?] at hw
  cases hc : p.edgeForTarget? w with
  | some edge => simp [hc] at hw
  | none =>
    simp only [Program.sharding, he, hd, hc]
    cases hf : p.definitionOf w with
    | result o i =>
      simp only [hc, hf] at hw
      have hk := h.kind_eq (o := o) (fun t ht => by simp [ht] at hw) (fun t ht => by simp [ht] at hw)
      simp [shardingOfResult, hk, hs]
    | argument b i =>
      simp only [hc, hf, parentKind?] at hw
      cases hp : (p.block b).parent with
      | none => simp [shardingOfArgument, parentKind?, hb, hp, hs]
      | some o =>
        simp only [hp, Option.map_some] at hw
        have hk := h.kind_eq (o := o) (fun t ht => by simp [ht] at hw) (fun t ht => by simp [ht] at hw)
        simp [shardingOfArgument, parentKind?, hb, hp, hk, hs]

end Written

theorem setSharding_eq_ok_iff : p.setSharding v sharding = .ok q ↔
    sharding.check p.meshes (p.typeOf v).shape = .ok () ∧ p.writeSharding? v sharding = some q := by
  simp only [setSharding, Location.attach]
  cases sharding.check p.meshes (p.typeOf v).shape with
  | error e => simp [Except.mapError, bind, Except.bind]
  | ok _ =>
    cases p.writeSharding? v sharding <;>
      simp [Except.mapError, bind, Except.bind, pure, Except.pure, throw, throwThe, MonadExceptOf.throw]

theorem setSharding_written (h : p.setSharding v sharding = .ok q) :
    ∃ place, p.place? v = some place ∧ p.Written sharding place q :=
  writeSharding?_written (setSharding_eq_ok_iff.mp h).right

-- A write changes the sharding of no other values than those that shared the one of the written
-- value, and those beside it at a boundary that had none.
theorem setSharding_cases (h : p.setSharding v sharding = .ok q) (w : ValueId) :
    q.sharding w = p.sharding w ∨
    (q.sharding w = some sharding ∧ p.sharding w = p.sharding v) ∨
    (p.sharding w = none ∧ p.sharding v = none ∧ ∀ t, q.sharding w = some t →
      t = sharding ∨ ∃ u, t = Sharding.fullyOpen sharding.mesh (p.typeOf u).rank) := by
  have ⟨place, hv, hw⟩ := setSharding_written h
  cases hp : p.place? w with
  | none => exact .inl (hw.sharding_eq hv hp)
  | some other =>
    have hq : q.place? w = some other := by rw [← bare_place?, hw.bare_eq, bare_place?, hp]
    rw [sharding_eq_shardingAt hp, sharding_eq_shardingAt hv, sharding_eq_shardingAt hq]
    exact hw.shardingAt_cases other

theorem setSharding_eq_or_touches (h : p.setSharding v sharding = .ok q) (w : ValueId) :
    q.sharding w = p.sharding w ∨
      ∃ place other, p.place? v = some place ∧ p.place? w = some other ∧ p.Touches place other := by
  have ⟨place, hv, hw⟩ := setSharding_written h
  cases hp : p.place? w with
  | none => exact .inl (hw.sharding_eq hv hp)
  | some other =>
    have hq : q.place? w = some other := by rw [← bare_place?, hw.bare_eq, bare_place?, hp]
    obtain he | ht := hw.shardingAt_eq_or_touches other
    · left
      rw [sharding_eq_shardingAt hp, sharding_eq_shardingAt hq, he]
    · exact .inr ⟨place, other, hv, rfl, ht⟩

theorem setSharding_sharding_eq (h : p.setSharding v sharding = .ok q)
    (hv : v.index < p.values.length) : q.sharding v = some sharding := by
  have ⟨place, hp, hw⟩ := setSharding_written h
  have hq : q.place? v = some place := by rw [← bare_place?, hw.bare_eq, bare_place?, hp]
  rw [sharding_eq_shardingAt hq]
  exact hw.shardingAt_eq fun u hu => (place?_eq_value (hu ▸ hp)) ▸ hv

theorem setSharding_bare (h : p.setSharding v sharding = .ok q) : q.bare = p.bare :=
  have ⟨_, _, hw⟩ := setSharding_written h
  hw.bare_eq

end Program

end MeshSharding
