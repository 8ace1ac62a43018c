import MeshSharding.Proofs.Grouping.Filling
import MeshSharding.Proofs.Nesting.Climb

namespace MeshSharding

-- Without duplicates, values come in the order in which they are met first.
theorem eraseDups_map_pairwise {α β : Type} [DecidableEq β] (f : α → β) (l : List α) :
    (l.map f).eraseDups.Pairwise fun b c => ∃ x ∈ l, f x = b ∧ ∀ y ∈ l, f y = c → [x, y].Sublist l := by
  induction l using List.reverseRecOn with
  | nil => exact .nil
  | append_singleton l a ih =>
    have hpair {x : α} (hx : x ∈ l) : [x, a].Sublist (l ++ [a]) :=
      (List.singleton_sublist.mpr hx).append (List.Sublist.refl [a])
    have hl : (l.map f).eraseDups.Pairwise fun b c =>
        ∃ x ∈ l ++ [a], f x = b ∧ ∀ y ∈ l ++ [a], f y = c → [x, y].Sublist (l ++ [a]) := by
      refine ih.imp fun {b c} ⟨x, hx, hb, hc⟩ => ⟨x, List.mem_append_left _ hx, hb, fun y hy hyc => ?_⟩
      cases List.mem_append.mp hy with
      | inl hy => exact (hc y hy hyc).trans (List.sublist_append_left _ _)
      | inr hy => exact List.mem_singleton.mp hy ▸ hpair hx
    rw [List.map_append, List.map_singleton, eraseDups_concat]
    split
    case isTrue => exact hl
    case isFalse ha =>
      refine List.pairwise_append.mpr ⟨hl, List.pairwise_singleton _ _, fun b hb c hc => ?_⟩
      obtain ⟨x, hx, rfl⟩ := List.mem_map.mp (List.mem_eraseDups.mp hb)
      refine ⟨x, List.mem_append_left _ hx, rfl, fun y hy hyc => ?_⟩
      rw [List.mem_singleton.mp hc] at hyc
      cases List.mem_append.mp hy with
      | inl hy => exact absurd (List.mem_map.mpr ⟨y, hy, hyc⟩) ha
      | inr hy => exact List.mem_singleton.mp hy ▸ hpair hx

theorem map_filterMap_sublist {α β : Type} {f : α → Option β} {g : β → α} (h : ∀ a b, f a = some b → g b = a)
    (l : List α) : ((l.filterMap f).map g).Sublist l := by
  induction l with
  | nil => exact .slnil
  | cons a l ih =>
    rw [List.filterMap_cons]
    split
    case _       => exact ih.cons a
    case _ b hb  => exact h a b hb ▸ ih.cons_cons a

open GroupEntry

namespace Program

-- Each group operation joins its value to its id.
inductive Joins (p : Program) : ValueId ⊕ Int → ValueId ⊕ Int → Prop
  | of {o : OpId} {id : Int} : p.isLive o → (p.op o).kind = .group id → Joins p (.inl (p.input o)) (.inr id)

-- Two values or ids are in one component.
def Connected (p : Program) : ValueId ⊕ Int → ValueId ⊕ Int → Prop :=
  Relation.EqvGen p.Joins

-- The value is that of a group operation.
def Grouped (p : Program) (v : ValueId) : Prop :=
  ∃ id, p.Joins (.inl v) (.inr id)

-- The groups of a registry are the components of the values that are in one.
structure Components (p : Program) (registry : Registry) : Prop where
  connected (v w : ValueId) : (∃ group ∈ registry.groups, v ∈ group.members ∧ w ∈ group.members) ↔
    p.Grouped v ∧ p.Connected (.inl v) (.inl w)
  unique (v : ValueId) : p.Grouped v → ∃! group, group ∈ registry.groups ∧ v ∈ group.members
  found (v : ValueId) (group : ShardingGroup) :
    registry.ofValue? v = some group ↔ group ∈ registry.groups ∧ v ∈ group.members
  least : ∀ group ∈ registry.groups, ∀ v ∈ group.members, IsLeast {id | p.Connected (.inl v) (.inr id)} group.id
  operations : ∀ group ∈ registry.groups, ∀ o, o ∈ group.operations ↔
    p.isLive o ∧ (∃ id, (p.op o).kind = .group id) ∧ p.input o ∈ group.members
  walked : ∀ group ∈ registry.groups, group.operations.Nodup ∧ group.operations.Sublist p.walk
  members : ∀ group ∈ registry.groups, group.members ≠ [] ∧ group.members.Nodup ∧
    group.members.Pairwise fun v w => ∃ o ∈ group.operations, p.input o = v ∧
      ∀ u ∈ group.operations, p.input u = w → [o, u].Sublist p.walk
  ordered : registry.groups.Nodup ∧ registry.groups.Pairwise fun group other =>
    ∃ o ∈ group.operations, ∀ u ∈ other.operations, [o, u].Sublist p.walk

variable {p : Program} {v w : ValueId}

section Graph

variable {entry other : GroupEntry} {x y : ValueId ⊕ Int}

theorem groupEntries_sublist (p : Program) : (p.groupEntries.map (·.op)).Sublist p.walk := by
  refine map_filterMap_sublist (fun o entry he => ?_) p.walk
  split at he
  case _ => cases he; rfl
  case _ => contradiction

-- The name of the group of a value or of an id.
def label (p : Program) : ValueId ⊕ Int → Option Int
  | .inl v => (p.groupEntries.find? (·.value = v)).map fun entry => nameOf p.groupEntries entry.id
  | .inr n => some (nameOf p.groupEntries n)

theorem label_value (h : entry ∈ p.groupEntries) :
    p.label (.inl entry.value) = some (nameOf p.groupEntries entry.id) := by
  have ⟨first, hfirst, hf, hv, _⟩ := exists_first h
  rw [label, hf, Option.map_some, nameOf_eq_of_value hfirst h hv]

variable (hlive : ∀ o, o ∈ p.walk ↔ p.isLive o)
include hlive

theorem joins_iff : p.Joins x y ↔ ∃ entry ∈ p.groupEntries, x = .inl entry.value ∧ y = .inr entry.id := by
  constructor
  case mp  =>
    intro h
    cases h with
    | @of o id ho hk => exact ⟨⟨o, p.input o, id⟩, mem_groupEntries_iff.mpr ⟨(hlive o).mpr ho, hk, rfl⟩, rfl, rfl⟩
  case mpr =>
    rintro ⟨entry, he, rfl, rfl⟩
    have ⟨ho, hk, hv⟩ := mem_groupEntries_iff.mp he
    exact hv ▸ .of ((hlive _).mp ho) hk

theorem grouped_iff : p.Grouped v ↔ ∃ entry ∈ p.groupEntries, entry.value = v := by
  simp only [Grouped, joins_iff hlive, Sum.inl.injEq, Sum.inr.injEq]
  grind

theorem connected_of_mem (h : entry ∈ p.groupEntries) : p.Connected (.inl entry.value) (.inr entry.id) :=
  .rel _ _ ((joins_iff hlive).mpr ⟨entry, h, rfl, rfl⟩)

-- An id is connected to the name of its group.
theorem connected_nameOf (h : entry ∈ p.groupEntries) :
    p.Connected (.inr entry.id) (.inr (nameOf p.groupEntries entry.id)) := by
  have hc : Consistent (fun id => {x | p.Connected (.inr id) x}) (merge p.groupEntries) := by
    refine consistent_merge fun first hf entry he hv => Set.ext fun x => ?_
    have hj : p.Connected (.inr first.id) (.inr entry.id) :=
      .trans _ _ _ (.symm _ _ (connected_of_mem hlive hf)) (hv ▸ connected_of_mem hlive he)
    exact ⟨fun hx => .trans _ _ _ (.symm _ _ hj) hx, fun hx => .trans _ _ _ hj hx⟩
  have hread := hc.groupOf entry.id
  rw [groupOf_merge (List.mem_map_of_mem h)] at hread
  exact hread.subset (Relation.EqvGen.refl _)

theorem label_eq (h : p.Connected x y) : p.label x = p.label y := by
  induction h with
  | rel x y h =>
    obtain ⟨entry, he, rfl, rfl⟩ := (joins_iff hlive).mp h
    exact label_value he
  | refl x => rfl
  | symm x y _ ih => exact ih.symm
  | trans x y z _ _ ih ih' => exact ih.trans ih'

-- Two values of group operations are connected if their groups have the same name.
theorem connected_iff (h : entry ∈ p.groupEntries) (ho : other ∈ p.groupEntries) :
    p.Connected (.inl entry.value) (.inl other.value) ↔
      nameOf p.groupEntries entry.id = nameOf p.groupEntries other.id := by
  constructor
  case mp  =>
    intro hc
    have hl := label_eq hlive hc
    rwa [label_value h, label_value ho, Option.some.injEq] at hl
  case mpr =>
    intro he
    have hleft := Relation.EqvGen.trans _ _ _ (connected_of_mem hlive h) (connected_nameOf hlive h)
    have hright := Relation.EqvGen.trans _ _ _ (connected_of_mem hlive ho) (connected_nameOf hlive ho)
    exact .trans _ _ _ hleft (he ▸ .symm _ _ hright)

theorem isLeast_nameOf (h : entry ∈ p.groupEntries) :
    IsLeast {id | p.Connected (.inl entry.value) (.inr id)} (nameOf p.groupEntries entry.id) := by
  refine ⟨.trans _ _ _ (connected_of_mem hlive h) (connected_nameOf hlive h), fun id hid => ?_⟩
  have hl := label_eq hlive hid
  rw [label_value h, label, Option.some.injEq] at hl
  exact hl ▸ nameOf_le

theorem grouped_of_connected (h : p.Grouped v) (hc : p.Connected (.inl v) (.inl w)) : p.Grouped w := by
  have ⟨entry, he, hv⟩ := (grouped_iff hlive).mp h
  have hl := (label_eq hlive hc).symm.trans (hv ▸ label_value he)
  have ⟨other, hf, _⟩ := Option.map_eq_some_iff.mp hl
  exact (grouped_iff hlive).mpr ⟨other, List.mem_of_find?_eq_some hf, by simpa using List.find?_some hf⟩

end Graph

section Groups

variable {entry : GroupEntry} {id : Int}

theorem named_operations_sublist (p : Program) (name : Int → Int) (id : Int) :
    (named name p.groupEntries id).operations.Sublist p.walk :=
  (List.filter_sublist.map _).trans (groupEntries_sublist p)

theorem input_eq (h : entry ∈ p.groupEntries) : p.input entry.op = entry.value :=
  (mem_groupEntries_iff.mp h).right.right

theorem members_pairwise (p : Program) (name : Int → Int) (id : Int) :
    let group := named name p.groupEntries id
    group.members.Pairwise fun v w => ∃ o ∈ group.operations, p.input o = v ∧
      ∀ u ∈ group.operations, p.input u = w → [o, u].Sublist p.walk := by
  intro group
  refine (eraseDups_map_pairwise GroupEntry.value _).imp fun {v w} ⟨first, hf, hv, hw⟩ => ?_
  have hmem := (List.mem_filter.mp hf).left
  refine ⟨first.op, List.mem_map_of_mem hf, (input_eq hmem).trans hv, fun u hu huw => ?_⟩
  obtain ⟨entry, he, rfl⟩ := List.mem_map.mp hu
  rw [input_eq (List.mem_filter.mp he).left] at huw
  exact ((hw entry he huw).map _).trans (named_operations_sublist p name id)

theorem groupsNamed_pairwise (p : Program) (name : Int → Int) :
    (groupsNamed name p.groupEntries).Pairwise fun group other =>
      ∃ o ∈ group.operations, ∀ u ∈ other.operations, [o, u].Sublist p.walk := by
  refine List.pairwise_map.mpr ((eraseDups_map_pairwise (fun entry : GroupEntry => name entry.id) _).imp ?_)
  intro id id' ⟨first, hf, hid, hlater⟩
  refine ⟨first.op, mem_operations_named_iff.mpr ⟨first, hf, rfl, hid⟩, fun u hu => ?_⟩
  obtain ⟨entry, he, rfl, hid'⟩ := mem_operations_named_iff.mp hu
  exact ((hlater entry he hid').map _).trans (groupEntries_sublist p)

theorem groupsNamed_nodup (name : Int → Int) (entries : List GroupEntry) : (groupsNamed name entries).Nodup := by
  refine (eraseDups_nodup _).map fun id id' h => ?_
  exact congrArg (·.id) h

theorem exists_group_iff (hlive : ∀ o, o ∈ p.walk ↔ p.isLive o) :
    (∃ group ∈ (GroupEntry.registry p.groupEntries).groups, v ∈ group.members ∧ w ∈ group.members) ↔
      p.Grouped v ∧ p.Connected (.inl v) (.inl w) := by
  constructor
  case mp  =>
    rintro ⟨group, hg, hv, hw⟩
    obtain ⟨_, _, rfl⟩ := mem_registry_iff.mp hg
    obtain ⟨entry, he, rfl, hn⟩ := mem_members_named_iff.mp hv
    obtain ⟨other, ho, rfl, hn'⟩ := mem_members_named_iff.mp hw
    exact ⟨(grouped_iff hlive).mpr ⟨entry, he, rfl⟩, (connected_iff hlive he ho).mpr (hn.trans hn'.symm)⟩
  case mpr =>
    intro ⟨hv, hc⟩
    obtain ⟨other, ho, rfl⟩ := (grouped_iff hlive).mp (grouped_of_connected hlive hv hc)
    obtain ⟨entry, he, rfl⟩ := (grouped_iff hlive).mp hv
    have hn := (connected_iff hlive he ho).mp hc
    exact ⟨_, mem_registry_iff.mpr ⟨entry, he, rfl⟩, mem_members_named_iff.mpr ⟨entry, he, rfl, rfl⟩,
      mem_members_named_iff.mpr ⟨other, ho, rfl, hn.symm⟩⟩

theorem mem_named_operations_iff (hlive : ∀ o, o ∈ p.walk ↔ p.isLive o) {o : OpId} :
    let group := named (nameOf p.groupEntries) p.groupEntries id
    o ∈ group.operations ↔ p.isLive o ∧ (∃ id, (p.op o).kind = .group id) ∧ p.input o ∈ group.members := by
  intro group
  constructor
  case mp  =>
    intro h
    obtain ⟨entry, he, rfl, hid⟩ := mem_operations_named_iff.mp h
    have ⟨ho, hk, hv⟩ := mem_groupEntries_iff.mp he
    exact ⟨(hlive _).mp ho, ⟨_, hk⟩, mem_members_named_iff.mpr ⟨entry, he, hv.symm, hid⟩⟩
  case mpr =>
    intro ⟨ho, ⟨n, hk⟩, hm⟩
    have he : ⟨o, p.input o, n⟩ ∈ p.groupEntries := mem_groupEntries_iff.mpr ⟨(hlive o).mpr ho, hk, rfl⟩
    have ⟨other, ho, hv, hid⟩ := mem_members_named_iff.mp hm
    exact mem_operations_named_iff.mpr ⟨_, he, rfl, (nameOf_eq_of_value he ho hv.symm).trans hid⟩

theorem components (hlive : ∀ o, o ∈ p.walk ↔ p.isLive o) (hn : p.walk.Nodup) :
    Components p (GroupEntry.registry p.groupEntries) where
  connected v w := exists_group_iff hlive
  unique v hv := by
    have ⟨group, hg, hm, _⟩ := (exists_group_iff hlive).mpr ⟨hv, .refl _⟩
    refine ⟨group, ⟨hg, hm⟩, fun other ho => ?_⟩
    have hother := ofValue?_registry_iff.mpr ho
    rw [ofValue?_registry_iff.mpr ⟨hg, hm⟩] at hother
    exact (Option.some.inj hother).symm
  found v group := ofValue?_registry_iff
  least group hg v hv := by
    obtain ⟨_, _, rfl⟩ := mem_registry_iff.mp hg
    obtain ⟨entry, he, rfl, hid⟩ := mem_members_named_iff.mp hv
    exact hid ▸ isLeast_nameOf hlive he
  operations group hg o := by
    obtain ⟨_, _, rfl⟩ := mem_registry_iff.mp hg
    exact mem_named_operations_iff hlive
  walked group hg := by
    obtain ⟨_, _, rfl⟩ := mem_registry_iff.mp hg
    have hs := named_operations_sublist p (nameOf p.groupEntries)
    exact ⟨(hs _).nodup hn, hs _⟩
  members group hg := by
    obtain ⟨entry, he, rfl⟩ := mem_registry_iff.mp hg
    refine ⟨List.ne_nil_of_mem (a := entry.value) ?_, eraseDups_nodup _, members_pairwise p _ _⟩
    exact mem_members_named_iff.mpr ⟨entry, he, rfl, rfl⟩
  ordered := by
    rw [registry_groups]
    exact ⟨groupsNamed_nodup _ _, groupsNamed_pairwise p _⟩

-- The registry is refused if connected values lie in different manual computations.
theorem exists_error_iff (hlive : ∀ o, o ∈ p.walk ↔ p.isLive o) : (∃ e, p.registry = .error e) ↔
    ∃ v w, p.Grouped v ∧ p.Connected (.inl v) (.inl w) ∧ p.manualAround? v ≠ p.manualAround? w := by
  constructor
  case mp  =>
    intro ⟨e, he⟩
    by_contra hn
    have hcheck : ∀ group ∈ GroupEntry.groups p.groupEntries, p.checkNotCrossing group = .ok () := by
      intro group hg
      refine checkNotCrossing_eq_ok_iff.mpr fun v hv => ?_
      have hhead : group.members.headD default ∈ group.members := by
        cases hm : group.members with
        | nil       => simp [hm] at hv
        | cons w ws => exact List.mem_cons_self
      rw [← GroupEntry.groups_registry] at hg
      have ⟨hgv, hc⟩ := (exists_group_iff hlive).mp ⟨group, hg, hv, hhead⟩
      by_contra hne
      exact hn ⟨v, _, hgv, hc, hne⟩
    rw [registry_eq_ok_iff.mpr ⟨rfl, _, groups_eq_ok_iff.mpr ⟨rfl, hcheck⟩⟩] at he
    contradiction
  case mpr =>
    intro ⟨v, w, hv, hc, hne⟩
    cases h : p.registry with
    | error e     => exact ⟨e, rfl⟩
    | ok registry =>
      have ⟨_, _, hgroups⟩ := registry_eq_ok_iff.mp h
      obtain ⟨rfl, hcheck⟩ := groups_eq_ok_iff.mp hgroups
      have ⟨group, hg, hvm, hwm⟩ := (exists_group_iff hlive).mpr ⟨hv, hc⟩
      rw [GroupEntry.groups_registry] at hg
      have hsame := checkNotCrossing_eq_ok_iff.mp (hcheck group hg)
      exact absurd ((hsame v hvm).trans (hsame w hwm).symm) hne

end Groups

-- Two values share the id three, and one of them has the id one in the body of a loop as well.
def sharedId? : Option Program :=
  let type : TensorType := ⟨[8], .f32⟩
  build "main" [
    .argument type none,
    .argument type none,
    .argument type none,
    .append entry (.group ⟨0⟩ 3),
    .append entry (.group ⟨1⟩ 1),
    .region [type],
    .append ⟨1⟩ (.group ⟨0⟩ 1),
    .append ⟨1⟩ (.group ⟨3⟩ 7),
    .append ⟨1⟩ (.terminator [⟨3⟩]),
    .append entry (.generic { name := "while" } [⟨0⟩] [type] [⟨1⟩]),
    .append entry (.group ⟨2⟩ 3),
    .append entry (.terminator [⟨4⟩])]

def sharedId : Program :=
  sharedId?.get (by rfl)

end Program

end MeshSharding
