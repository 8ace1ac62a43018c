import MeshSharding.Proofs.Flow.Scope
import MeshSharding.Proofs.Verify.Operand

namespace MeshSharding

namespace GroupEntry

variable {α : Type} {entries : List GroupEntry} {merged : Merged} {id other : Int}

theorem groupOf_eq_or_mem (merged : Merged) (id : Int) :
    groupOf merged id = id ∨ (id, groupOf merged id) ∈ merged := by
  simp only [groupOf]
  cases h : merged.find? (·.1 = id) with
  | none      => exact .inl rfl
  | some pair =>
    have he : pair.1 = id := by simpa using List.find?_some h
    exact .inr (he ▸ List.mem_of_find?_eq_some h)

-- Ids keep to groups that a function does not tell from them.
def Consistent (read : Int → α) (merged : Merged) : Prop :=
  ∀ pair ∈ merged, read pair.2 = read pair.1

variable {read : Int → α}

theorem Consistent.groupOf (h : Consistent read merged) (id : Int) :
    read (groupOf merged id) = read id := by
  obtain he | hm := groupOf_eq_or_mem merged id
  · rw [he]
  · exact h _ hm

theorem Consistent.unite (h : Consistent read merged) (he : read id = read other) :
    Consistent read (unite merged id other) := by
  have hg : read (max (GroupEntry.groupOf merged id) (GroupEntry.groupOf merged other)) =
      read (min (GroupEntry.groupOf merged id) (GroupEntry.groupOf merged other)) := by
    have := (h.groupOf id).trans (he.trans (h.groupOf other).symm)
    rcases le_total (GroupEntry.groupOf merged id) (GroupEntry.groupOf merged other) with hle | hle
    · rw [max_eq_right hle, min_eq_left hle, this]
    · rw [max_eq_left hle, min_eq_right hle, this]
  intro pair hp
  obtain ⟨before, hb, rfl⟩ := List.mem_map.mp hp
  dsimp only
  split
  case isTrue hm  => rw [← hg, ← hm, h before hb]
  case isFalse    => exact h before hb

-- Groups are made one only if they share a value.
theorem consistent_merge (h : ∀ first ∈ entries, ∀ entry ∈ entries, first.value = entry.value →
    read first.id = read entry.id) : Consistent read (merge entries) := by
  refine List.foldlRecOn entries _ ?_ fun merged hm entry he => ?_
  · intro pair hp
    obtain ⟨_, _, rfl⟩ := List.mem_map.mp hp
    rfl
  · rw [merge.step]
    split
    case _ first hf =>
      have hv : first.value = entry.value := by simpa using List.find?_some hf
      exact hm.unite (h first (List.mem_of_find?_eq_some hf) entry he hv)
    case _ => exact hm

end GroupEntry

namespace Program

variable {p : Program} {o u m : OpId} {v : ValueId} {b : BlockId} {height : Nat}

section Crossing

theorem mem_groupEntries_iff {entry : GroupEntry} : entry ∈ p.groupEntries ↔
    entry.op ∈ p.walk ∧ (p.op entry.op).kind = .group entry.id ∧ p.input entry.op = entry.value := by
  rw [groupEntries, List.mem_filterMap]
  constructor
  case mp  =>
    rintro ⟨o, ho, he⟩
    split at he
    case _ id hk =>
      cases he
      exact ⟨ho, hk, rfl⟩
    case _ => contradiction
  case mpr =>
    rintro ⟨ho, hk, hv⟩
    exact ⟨entry.op, ho, by simp [hk, hv]⟩

theorem checkNotCrossing_eq_ok_iff {group : ShardingGroup} : p.checkNotCrossing group = .ok () ↔
    ∀ v ∈ group.members, p.manualAround? v = p.manualAround? (group.members.headD default) := by
  simp only [checkNotCrossing]
  split
  case _ v hv =>
    refine iff_of_false (by simp) fun h => ?_
    have hne := List.find?_some hv
    simp [h v (List.mem_of_find?_eq_some hv)] at hne
  case _ hn =>
    refine iff_of_true rfl fun v hv => ?_
    simpa using List.find?_eq_none.mp hn v hv

theorem checkNotCrossing_of_forall {group : ShardingGroup} (around : Option OpId)
    (h : ∀ v ∈ group.members, p.manualAround? v = around) : p.checkNotCrossing group = .ok () := by
  rw [checkNotCrossing_eq_ok_iff]
  intro v hv
  rw [h v hv]
  cases hm : group.members with
  | nil           => simp [hm] at hv
  | cons first vs => exact (h first (hm ▸ List.mem_cons_self)).symm

theorem groups_eq_ok_iff {groups : List ShardingGroup} : p.groups = .ok groups ↔
    groups = GroupEntry.groups p.groupEntries ∧ ∀ group ∈ groups, p.checkNotCrossing group = .ok () := by
  rw [Program.groups, check_bind_eq_ok_iff, forM_eq_ok_iff]
  constructor
  case mp  =>
    rintro ⟨h, he⟩
    cases he
    exact ⟨rfl, h⟩
  case mpr =>
    rintro ⟨rfl, h⟩
    exact ⟨h, rfl⟩

theorem checkAgreement_eq_ok_iff {groups : List ShardingGroup} : p.checkAgreement groups = .ok () ↔
    ∀ group ∈ groups, group.conflict? p = none := by
  simp only [checkAgreement, forM_eq_ok_iff]
  refine forall₂_congr fun group _ => ?_
  cases group.conflict? p <;> simp

-- The groups cross no boundary of a manual computation, and their members agree as far as they are sharded.
def GroupsAgree (p : Program) : Prop :=
  p.groups.bind p.checkAgreement = .ok ()

instance : Decidable p.GroupsAgree :=
  inferInstanceAs (Decidable (_ = _))

theorem groupsAgree_iff : p.GroupsAgree ↔ ∃ groups, p.groups = .ok groups ∧ p.checkAgreement groups = .ok () :=
  bind_eq_ok_iff

-- It is enough to compare the values that the group operations put into groups with the same id.
theorem groups_ok_iff : (∃ groups, p.groups = .ok groups) ↔
    ∀ first ∈ p.groupEntries, ∀ entry ∈ p.groupEntries, first.id = entry.id →
      p.manualAround? first.value = p.manualAround? entry.value := by
  have hok : (∃ groups, p.groups = .ok groups) ↔
      ∀ group ∈ GroupEntry.groups p.groupEntries, p.checkNotCrossing group = .ok () := by
    simp [groups_eq_ok_iff]
  rw [hok]
  constructor
  · intro h first hf entry he hid
    have hg := h _ (List.mem_map.mpr ⟨_, List.mem_eraseDups.mpr (List.mem_map_of_mem hf), rfl⟩)
    rw [checkNotCrossing_eq_ok_iff] at hg
    have hmem : ∀ other ∈ p.groupEntries, other.id = first.id → p.manualAround? other.value = _ :=
      fun other ho hoid => hg other.value (by
        simp only [List.mem_eraseDups, List.mem_map, List.mem_filter]
        exact ⟨other, ⟨ho, by simp [hoid]⟩, rfl⟩)
    rw [hmem first hf rfl, hmem entry he hid.symm]
  · -- The manual computation around its values depends on the id of a group operation only.
    intro h group hg
    let around (id : Int) := (p.groupEntries.find? (·.id = id)).bind fun entry =>
      p.manualAround? entry.value
    have haround : ∀ entry ∈ p.groupEntries, around entry.id = p.manualAround? entry.value := by
      intro entry he
      cases hf : p.groupEntries.find? (·.id = entry.id) with
      | none       => simpa using List.find?_eq_none.mp hf entry he
      | some first =>
        simp only [around, hf, Option.bind_some]
        exact h first (List.mem_of_find?_eq_some hf) entry he (by simpa using List.find?_some hf)
    have hc : GroupEntry.Consistent around (GroupEntry.merge p.groupEntries) := by
      refine GroupEntry.consistent_merge fun first hf entry he hv => ?_
      rw [haround first hf, haround entry he, hv]
    obtain ⟨id, _, rfl⟩ := List.mem_map.mp hg
    refine checkNotCrossing_of_forall (around id) fun v hv => ?_
    simp only [List.mem_eraseDups, List.mem_map, List.mem_filter, decide_eq_true_eq] at hv
    obtain ⟨entry, ⟨he, hid⟩, rfl⟩ := hv
    rw [← haround entry he, ← hid, hc.groupOf]

end Crossing

section Manual

-- The way up from a block to the innermost manual computation around it.
inductive WayUp (p : Program) (m : OpId) : List OpId → BlockId → Prop
  | found {b : BlockId} : (p.block b).parent = some m → (p.op m).kind.isManual → WayUp p m [m] b
  | up {b : BlockId} {u : OpId} {us : List OpId} : (p.block b).parent = some u → (p.op u).kind.isManual = false →
      WayUp p m us (p.op u).block → WayUp p m (u :: us) b

theorem WayUp.suffix {us : List OpId} {c : BlockId} (h : p.WayUp m us c) (hu : u ∈ us)
    (hb : (p.block b).parent = some u) : ∃ rest, rest.Sublist us ∧ p.WayUp m rest b := by
  induction h with
  | found _ hm =>
    rw [List.mem_singleton.mp hu] at hb
    exact ⟨[m], List.Sublist.refl _, .found hb hm⟩
  | @up c w us hc hk hw ih =>
    obtain rfl | hu := List.mem_cons.mp hu
    · exact ⟨u :: us, List.Sublist.refl _, .up hb hk hw⟩
    · obtain ⟨rest, hs, hr⟩ := ih hu
      exact ⟨rest, hs.cons _, hr⟩

-- There is no need to come through an operation twice.
theorem exists_wayUp (h : p.enclosingManualWithin height b = some m) :
    ∃ us : List OpId, us.Nodup ∧ p.WayUp m us b := by
  induction height generalizing b with
  | zero => simp [enclosingManualWithin] at h
  | succ height ih =>
    rw [enclosingManualWithin] at h
    split at h
    case _ => contradiction
    case _ u hu =>
      split at h
      case isTrue hk =>
        cases h
        exact ⟨[m], by simp, .found hu hk⟩
      case isFalse hk =>
        obtain ⟨us, hn, hw⟩ := ih h
        by_cases hm : u ∈ us
        case pos =>
          obtain ⟨rest, hs, hr⟩ := hw.suffix hm hu
          exact ⟨rest, hs.nodup hn, hr⟩
        case neg =>
          exact ⟨u :: us, List.nodup_cons.mpr ⟨hm, hn⟩, .up hu (by simpa using hk) hw⟩

theorem WayUp.enclosingManualWithin {us : List OpId} (h : p.WayUp m us b) (hl : us.length ≤ height) :
    p.enclosingManualWithin height b = some m := by
  induction h generalizing height with
  | found hb hm =>
    obtain ⟨k, rfl⟩ := Nat.exists_eq_add_of_le' hl
    simp [Program.enclosingManualWithin, hb, hm]
  | up hb hk _ ih =>
    obtain ⟨k, rfl⟩ := Nat.exists_eq_add_of_le' (Nat.one_le_of_lt hl)
    rw [Program.enclosingManualWithin, hb]
    simp only [hk, Bool.false_eq_true, if_false]
    exact ih (by simpa using hl)

namespace WellFormed

variable (hp : p.WellFormed)
include hp

theorem lt_of_wayUp {us : List OpId} (h : p.WayUp m us b) (hu : u ∈ us) :
    u.index < p.operations.length := by
  have hlt {c : BlockId} {w : OpId} (hw : (p.block c).parent = some w) : w.index < p.operations.length := by
    by_contra hc
    have hr := (hp.regions c w).mpr hw
    simp [op_of_length_le (Nat.le_of_not_lt hc)] at hr
  induction h with
  | found hb _ =>
    rw [List.mem_singleton.mp hu]
    exact hlt hb
  | up hb _ _ ih =>
    obtain rfl | hu := List.mem_cons.mp hu
    · exact hlt hb
    · exact ih hu

theorem enclosingManual?_eq_some_iff : p.enclosingManual? b = some m ↔ ∃ us, p.WayUp m us b := by
  constructor
  · intro h
    obtain ⟨us, _, hw⟩ := exists_wayUp h
    exact ⟨us, hw⟩
  · rintro ⟨_, h⟩
    obtain ⟨us, hn, hw⟩ := exists_wayUp (h.enclosingManualWithin (le_refl _))
    apply hw.enclosingManualWithin
    exact length_le_of_index_lt OpId.index_injective hn fun u hu => hp.lt_of_wayUp hw hu

theorem enclosingManual?_region (hb : b ∈ (p.op u).regions) (hk : (p.op u).kind.isManual = false) :
    p.enclosingManual? b = p.enclosingManual? (p.op u).block := by
  have hu := (hp.regions b u).mp hb
  ext m
  simp only [hp.enclosingManual?_eq_some_iff]
  constructor
  · rintro ⟨us, hw⟩
    cases hw with
    | found hb hm =>
      cases hu.symm.trans hb
      simp [hk] at hm
    | up hb _ hw =>
      cases hu.symm.trans hb
      exact ⟨_, hw⟩
  · rintro ⟨us, hw⟩
    exact ⟨_, .up hu hk hw⟩

-- What an operation sees is defined in the same manual computation.
theorem manualAround?_of_inScope (h : p.InScope o v) :
    p.manualAround? v = p.enclosingManual? (p.op o).block := by
  rw [manualAround?]
  induction h with
  | argument hm ha => rw [hp.definingBlock_of_argument ha, (hp.members _ _ hm).right]
  | result hs hr => rw [hp.definingBlock_of_before hs hr]
  | @outer b u o v hm _ hr hi _ ih =>
    have hk : (p.op u).kind.isManual = false := by
      cases hk : (p.op u).kind <;> simp [hk, OpKind.isIsolated] at hi <;> rfl
    rw [ih, (hp.members b o hm).right, hp.enclosingManual?_region hr hk]

end WellFormed

end Manual

end Program

end MeshSharding
