import MeshSharding.Proofs.Grouping.Union

namespace MeshSharding

theorem eraseDups_concat {α : Type} [DecidableEq α] {l : List α} {a : α} :
    (l ++ [a]).eraseDups = if a ∈ l then l.eraseDups else l.eraseDups ++ [a] := by
  rw [List.eraseDups_append]
  split <;> simp_all [List.removeAll, List.eraseDups_cons]

theorem eraseDups_nodup {α : Type} [DecidableEq α] (l : List α) : l.eraseDups.Nodup := by
  induction l using List.reverseRecOn with
  | nil => exact .nil
  | append_singleton l a ih =>
    rw [eraseDups_concat]
    split
    case isTrue    => exact ih
    case isFalse h =>
      refine List.nodup_append.mpr ⟨ih, by simp, fun b hb c hc he => h ?_⟩
      rw [← List.mem_singleton.mp hc, ← he]
      exact List.mem_eraseDups.mp hb

namespace GroupEntry

variable {entries done : List GroupEntry} {entry : GroupEntry} {name : Int → Int} {id : Int} {v : ValueId}
  {s t : Filling} {i j : Nat}

-- The names of the groups of some ids, in the order of the entries.
def rootsOf (name : Int → Int) (entries : List GroupEntry) : List Int :=
  (entries.map fun entry => name entry.id).eraseDups

-- The group with a name.
def named (name : Int → Int) (entries : List GroupEntry) (id : Int) : ShardingGroup :=
  let inGroup := entries.filter fun entry => name entry.id = id
  { id
    members    := (inGroup.map (·.value)).eraseDups
    operations := inGroup.map (·.op) }

def groupsNamed (name : Int → Int) (entries : List GroupEntry) : List ShardingGroup :=
  (rootsOf name entries).map (named name entries)

theorem groups_eq : groups entries = groupsNamed (nameOf entries) entries := by
  have hname : ∀ entry ∈ entries, groupOf (merge entries) entry.id = nameOf entries entry.id :=
    fun entry he => groupOf_merge (List.mem_map_of_mem he)
  have hids : rootsOf (groupOf (merge entries)) entries = rootsOf (nameOf entries) entries :=
    congrArg List.eraseDups (List.map_congr_left hname)
  have hnamed : named (groupOf (merge entries)) entries = named (nameOf entries) entries := by
    funext id
    simp only [named]
    rw [List.filter_congr fun entry he => by rw [hname entry he]]
  calc groups entries
    _ = groupsNamed (groupOf (merge entries)) entries := rfl
    _ = groupsNamed (nameOf entries) entries           := by rw [groupsNamed, hids, hnamed, groupsNamed]

theorem mem_namesOf_iff : id ∈ rootsOf name entries ↔ ∃ entry ∈ entries, name entry.id = id := by
  simp [rootsOf]

theorem mem_members_named_iff :
    v ∈ (named name entries id).members ↔ ∃ entry ∈ entries, entry.value = v ∧ name entry.id = id := by
  simp only [named, List.mem_eraseDups, List.mem_map, List.mem_filter, decide_eq_true_eq]
  grind

theorem mem_operations_named_iff {o : OpId} :
    o ∈ (named name entries id).operations ↔ ∃ entry ∈ entries, entry.op = o ∧ name entry.id = id := by
  simp only [named, List.mem_map, List.mem_filter, decide_eq_true_eq]
  grind

theorem rootsOf_concat : rootsOf name (done ++ [entry]) =
    if name entry.id ∈ rootsOf name done then rootsOf name done else rootsOf name done ++ [name entry.id] := by
  rw [rootsOf, List.map_append, List.map_singleton, eraseDups_concat]
  simp [rootsOf]

theorem named_concat : named name (done ++ [entry]) id =
    if name entry.id = id then (named name done id).put entry else named name done id := by
  simp only [named, List.filter_append, List.map_append]
  split
  case isTrue h  =>
    simp only [h, ShardingGroup.put, List.filter_singleton, decide_true, List.map_singleton, eraseDups_concat, cond_true]
    congr 2
    rw [List.mem_eraseDups]
  case isFalse h => simp [h]

-- What the tables and the groups hold after some of the entries.
structure Filled (name : Int → Int) (done : List GroupEntry) (s : Filling) : Prop where
  root   : s.forest.root = name
  groups : s.groups = groupsNamed name done
  roots (id : Int) (i : Nat) : s.roots.lookup id = some i ↔ (rootsOf name done)[i]? = some id
  places (v : ValueId) (i : Nat) : s.places.lookup v = some i ↔
    ∃ entry ∈ done, entry.value = v ∧ (rootsOf name done)[i]? = some (name entry.id)

theorem getElem?_concat_iff {α : Type} {l : List α} {a b : α} :
    (l ++ [a])[i]? = some b ↔ l[i]? = some b ∨ i = l.length ∧ a = b := by
  rw [List.getElem?_append]
  split
  case isTrue h => simp [h.ne]
  case isFalse h =>
    have hn : l[i]? = none := List.getElem?_eq_none (Nat.not_lt.mp h)
    simp [hn, List.getElem?_singleton]
    omega

theorem rootsOf_unique (h : (rootsOf name entries)[i]? = some id)
    (h' : (rootsOf name entries)[j]? = some id) : i = j := by
  have ⟨hi, _⟩ := List.getElem?_eq_some_iff.mp h
  exact (List.getElem?_inj hi (eraseDups_nodup _)).mp (h.trans h'.symm)

theorem named_of_not_mem (h : id ∉ rootsOf name entries) : named name entries id = ⟨id, [], []⟩ := by
  have hnil : entries.filter (fun entry => name entry.id = id) = [] := by
    refine List.filter_eq_nil_iff.mpr fun entry he hid => h ?_
    exact mem_namesOf_iff.mpr ⟨entry, he, by simpa using hid⟩
  simp [named, hnil]

-- The group of one more entry has been found or opened, and not been filled yet.
structure Placed (name : Int → Int) (done : List GroupEntry) (entry : GroupEntry) (s t : Filling) (i : Nat) : Prop where
  root   : t.forest.root = name
  places : t.places = s.places
  groups : t.groups = (rootsOf name (done ++ [entry])).map (named name done)
  roots (id : Int) (i : Nat) : t.roots.lookup id = some i ↔ (rootsOf name (done ++ [entry]))[i]? = some id
  found  : (rootsOf name (done ++ [entry]))[i]? = some (name entry.id)

theorem Filled.place (h : Filled name done s) (entry : GroupEntry) :
    Placed name done entry s (s.place (name entry.id)).1 (s.place (name entry.id)).2 := by
  rw [Filling.place]
  cases hl : s.roots.lookup (name entry.id) with
  | some i =>
    have hi := (h.roots _ _).mp hl
    have hn := rootsOf_concat.trans (if_pos (List.mem_of_getElem? hi))
    exact {
      root   := h.root
      places := rfl
      groups := hn ▸ h.groups
      roots  := hn ▸ h.roots
      found  := hn ▸ hi }
  | none =>
    have hm : name entry.id ∉ rootsOf name done := by
      intro hm
      have ⟨i, hi⟩ := List.mem_iff_getElem?.mp hm
      rw [(h.roots _ _).mpr hi] at hl
      contradiction
    have hn := rootsOf_concat.trans (if_neg hm)
    have hlen : s.groups.length = (rootsOf name done).length := by rw [h.groups, groupsNamed, List.length_map]
    exact {
      root   := h.root
      places := rfl
      groups := by rw [hn, List.map_append, List.map_singleton, named_of_not_mem hm, h.groups, groupsNamed]
      roots id i := by
        rw [hn, getElem?_concat_iff, lookup_cons_ite, hlen]
        split
        case isTrue hid =>
          subst hid
          have hnot : (rootsOf name done)[i]? ≠ some (name entry.id) := fun hi => hm (List.mem_of_getElem? hi)
          simp [hnot, eq_comm]
        case isFalse hid => simp [h.roots, Ne.symm hid]
      found  := by simp [hn, hlen] }

theorem getElem?_namesOf_concat {other : GroupEntry} (h : other ∈ done) :
    (rootsOf name (done ++ [entry]))[i]? = some (name other.id) ↔ (rootsOf name done)[i]? = some (name other.id) := by
  rw [rootsOf_concat]
  split
  case isTrue    => rfl
  case isFalse hn =>
    rw [getElem?_concat_iff, or_iff_left]
    rintro ⟨-, he⟩
    exact hn (he ▸ mem_namesOf_iff.mpr ⟨other, h, rfl⟩)

theorem Filled.exists_placed (h : Filled name done s) (entry : GroupEntry) : ∃ t i, Placed name done entry s t i ∧
    s.step entry = { t with
      groups := t.groups.modify i (·.put entry)
      places := if t.groups[i]?.any fun group => entry.value ∈ group.members then t.places
        else (entry.value, i) :: t.places } := by
  obtain rfl := h.root
  have hfound : Filled s.forest.root done { s with forest := (s.forest.find entry.id).1 } :=
    { h with root := Forest.root_find }
  have hp := hfound.place entry
  exact ⟨_, _, { hp with }, rfl⟩

theorem Placed.getElem?_iff (hp : Placed name done entry s t i) :
    (rootsOf name (done ++ [entry]))[j]? = some (name entry.id) ↔ i = j :=
  ⟨rootsOf_unique hp.found, fun h => h ▸ hp.found⟩

theorem Placed.modify_groups (hp : Placed name done entry s t i) :
    t.groups.modify i (·.put entry) = groupsNamed name (done ++ [entry]) := by
  rw [hp.groups, groupsNamed]
  apply List.ext_getElem?
  intro j
  rw [List.getElem?_modify, List.getElem?_map, List.getElem?_map]
  cases hj : (rootsOf name (done ++ [entry]))[j]? with
  | none    => rfl
  | some id =>
    have hij : i = j ↔ name entry.id = id := by rw [← hp.getElem?_iff, hj, Option.some.injEq, eq_comm]
    simp only [Option.map_some, Option.map_eq_map, named_concat, hij]

theorem Placed.lookup_places (hp : Placed name done entry s t i) (h : Filled name done s) :
    t.places.lookup v = some j ↔ ∃ other ∈ done, other.value = v ∧
      (rootsOf name (done ++ [entry]))[j]? = some (name other.id) := by
  rw [hp.places, h.places]
  exact exists_congr fun other => and_congr_right fun ho => by rw [getElem?_namesOf_concat ho]

theorem Placed.any_members_iff (hp : Placed name done entry s t i) :
    (t.groups[i]?.any fun group => entry.value ∈ group.members) ↔
      ∃ other ∈ done, other.value = entry.value ∧ name other.id = name entry.id := by
  rw [hp.groups, List.getElem?_map, hp.found]
  simp only [Option.map_some, Option.any_some, decide_eq_true_eq, mem_members_named_iff]

theorem Filled.step (h : Filled name done s)
    (hv : ∀ other ∈ done, other.value = entry.value → name other.id = name entry.id) :
    Filled name (done ++ [entry]) (s.step entry) := by
  have ⟨t, i, hp, hstep⟩ := h.exists_placed entry
  rw [hstep]
  exact {
    root   := hp.root
    roots  := hp.roots
    groups := hp.modify_groups
    places v j := by
      simp only [List.mem_append, List.mem_singleton, or_and_right, exists_or, exists_eq_left]
      split
      case isTrue ha =>
        have ⟨other, ho, hov, hname⟩ := hp.any_members_iff.mp ha
        rw [hp.lookup_places h, or_iff_left_of_imp]
        rintro ⟨rfl, hj⟩
        exact ⟨other, ho, hov, hname ▸ hj⟩
      case isFalse ha =>
        have hnew : ∀ other ∈ done, other.value ≠ entry.value :=
          fun other ho hov => ha (hp.any_members_iff.mpr ⟨other, ho, hov, hv other ho hov⟩)
        rw [lookup_cons_ite]
        split
        case isTrue hve =>
          rw [Option.some.injEq, hp.getElem?_iff, or_iff_right, and_iff_right hve.symm]
          rintro ⟨other, ho, hov, -⟩
          exact hnew other ho (hov.trans hve)
        case isFalse hve =>
          rw [hp.lookup_places h, or_iff_left]
          exact fun he => hve he.left.symm }

theorem filled (h : done <+: entries) : Filled (nameOf entries) done
    (done.foldl Filling.step ⟨⟨[], []⟩, (met entries).forest, []⟩) := by
  induction done using List.reverseRecOn with
  | nil =>
    exact {
      root   := (met_step (List.prefix_refl entries)).left
      groups := rfl
      roots  := by simp [rootsOf]
      places := by simp }
  | append_singleton done entry ih =>
    have hsub : ∀ other ∈ done ++ [entry], other ∈ entries := h.subset
    rw [List.foldl_concat]
    refine (ih ((List.prefix_append _ _).trans h)).step fun other ho hv => ?_
    exact nameOf_eq_of_value (hsub other (by simp [ho])) (hsub entry (by simp)) hv

theorem registry_groups : (registry entries).groups = groupsNamed (nameOf entries) entries :=
  (filled (List.prefix_refl entries)).groups

theorem mem_registry_iff {group : ShardingGroup} : group ∈ (registry entries).groups ↔
    ∃ entry ∈ entries, named (nameOf entries) entries (nameOf entries entry.id) = group := by
  simp only [registry_groups, groupsNamed, List.mem_map, mem_namesOf_iff]
  grind

-- The groups in place are the groups.
theorem groups_registry (entries : List GroupEntry) : (registry entries).groups = groups entries :=
  registry_groups.trans groups_eq.symm

-- The table finds the one group that a value belongs to.
theorem ofValue?_registry_iff {group : ShardingGroup} : (registry entries).ofValue? v = some group ↔
    group ∈ (registry entries).groups ∧ v ∈ group.members := by
  have h : Filled (nameOf entries) entries (filling entries) := filled (List.prefix_refl entries)
  rw [Registry.ofValue?, Option.bind_eq_some_iff, registry]
  constructor
  case mp  =>
    intro ⟨i, hi, hg⟩
    have ⟨entry, he, hv, hn⟩ := (h.places v i).mp hi
    have hgroup : named (nameOf entries) entries (nameOf entries entry.id) = group := by
      rwa [h.groups, groupsNamed, List.getElem?_map, hn, Option.map_some, Option.some.injEq] at hg
    refine ⟨List.mem_of_getElem? hg, ?_⟩
    rw [← hgroup]
    exact mem_members_named_iff.mpr ⟨entry, he, hv, rfl⟩
  case mpr =>
    intro ⟨hm, hv⟩
    have ⟨i, hi⟩ := List.mem_iff_getElem?.mp hm
    refine ⟨i, (h.places v i).mpr ?_, hi⟩
    rw [h.groups, groupsNamed, List.getElem?_map, Option.map_eq_some_iff] at hi
    obtain ⟨id, hid, rfl⟩ := hi
    have ⟨entry, he, hev, hname⟩ := mem_members_named_iff.mp hv
    exact ⟨entry, he, hev, hname ▸ hid⟩

theorem ofValue?_registry (entries : List GroupEntry) (v : ValueId) :
    (registry entries).ofValue? v = ShardingGroup.ofValue? (groups entries) v := by
  rw [ShardingGroup.ofValue?, ← groups_registry]
  cases hf : (registry entries).groups.find? (·.members.contains v) with
  | some group =>
    have hv : v ∈ group.members := by simpa using List.find?_some hf
    exact ofValue?_registry_iff.mpr ⟨List.mem_of_find?_eq_some hf, hv⟩
  | none       =>
    refine Option.eq_none_iff_forall_ne_some.mpr fun group hg => ?_
    have ⟨hm, hv⟩ := ofValue?_registry_iff.mp hg
    simpa [hv] using List.find?_eq_none.mp hf group hm

end GroupEntry

namespace Program

variable {p : Program}

theorem registry_eq_ok_iff {registry : Registry} : p.registry = .ok registry ↔
    registry = GroupEntry.registry p.groupEntries ∧ ∃ groups, p.groups = .ok groups := by
  simp only [Program.registry, Program.groups, GroupEntry.groups_registry, check_bind_eq_ok_iff, pure, Except.pure]
  grind

-- The registry holds the groups, or is refused for the same reason.
theorem registry_map (p : Program) : p.registry.map (·.groups) = p.groups := by
  simp only [Program.registry, Program.groups, GroupEntry.groups_registry]
  cases (GroupEntry.groups p.groupEntries).forM p.checkNotCrossing with
  | ok _    => exact congrArg Except.ok (GroupEntry.groups_registry _)
  | error _ => rfl

end Program

end MeshSharding
