import MeshSharding.Program.Group

namespace MeshSharding

-- The ids with those that they hang below, in trees, each of which is one group. Nothing hangs below a
-- larger id, and a root hangs below itself. To go up to the root of a tree hangs every id on the way
-- directly below the root. Two trees become one if a value has an id in each of them.
structure Forest where
  -- The last one comes first, and counts for its id.
  links : List (Int × Int)
  le    : ∀ link ∈ links, link.2 ≤ link.1

namespace Forest

def empty : Forest where
  links := []
  le    := by simp

def parent? (f : Forest) (id : Int) : Option Int :=
  f.links.lookup id

theorem mem_links_of_parent? {f : Forest} {id parent : Int} (h : f.parent? id = some parent) :
    (id, parent) ∈ f.links := by
  obtain ⟨_, _, hl, _⟩ := List.lookup_eq_some_iff.mp h
  simp [hl]

-- Fewer links are left on the way up.
theorem countP_parent?_lt {f : Forest} {id parent : Int} (h : f.parent? id = some parent) (hne : parent ≠ id) :
    f.links.countP (·.1 ≤ parent) < f.links.countP (·.1 ≤ id) := by
  have hm := mem_links_of_parent? h
  have hlt : parent < id := Int.lt_iff_le_and_ne.mpr ⟨f.le _ hm, hne⟩
  simp only [List.countP_eq_length_filter]
  have hs : ((f.links.filter (·.1 ≤ id)).filter (·.1 ≤ parent)) = f.links.filter (·.1 ≤ parent) := by
    rw [List.filter_filter]
    exact List.filter_congr fun link _ => by grind
  rw [← hs, List.length_filter_lt_length_iff_exists]
  exact ⟨(id, parent), by simp [hm], by simpa using hlt⟩

-- Hangs an id below another one.
def hang (f : Forest) (id parent : Int) (h : parent ≤ id) : Forest where
  links := (id, parent) :: f.links
  le    := by simpa [h] using f.le

-- The root above an id, and the forest in which all ids on the way to it hang below it.
def find (f : Forest) (id : Int) : Forest × { root : Int // root ≤ id } :=
  match h : f.parent? id with
  | none        => (f.hang id id (Int.le_refl id), ⟨id, Int.le_refl id⟩)
  | some parent =>
    if _ : parent = id then (f, ⟨id, Int.le_refl id⟩)
    else
      let (g, ⟨root, hroot⟩) := f.find parent
      have hle : root ≤ id := Int.le_trans hroot (f.le _ (mem_links_of_parent? h))
      (g.hang id root hle, ⟨root, hle⟩)
termination_by f.links.countP (·.1 ≤ id)
decreasing_by exact countP_parent?_lt h ‹_›

-- Makes the trees of two ids one.
def union (f : Forest) (id other : Int) : Forest :=
  let (f, root)      := f.find id
  let (f, otherRoot) := f.find other
  if h : root.val < otherRoot.val then f.hang otherRoot root (Int.le_of_lt h)
  else if h : otherRoot.val < root.val then f.hang root otherRoot (Int.le_of_lt h)
  else f

end Forest

namespace GroupEntry

-- The forest of the ids that were met, and the first id of each value that was met.
structure Met where
  forest : Forest
  firsts : List (ValueId × Int)

def Met.step (met : Met) (entry : GroupEntry) : Met :=
  let forest := (met.forest.find entry.id).1
  match met.firsts.lookup entry.value with
  | some first => { met with forest := forest.union first entry.id }
  | none       => { forest, firsts := (entry.value, entry.id) :: met.firsts }

def met (entries : List GroupEntry) : Met :=
  entries.foldl Met.step ⟨Forest.empty, []⟩

end GroupEntry

-- The groups, and for each value the index of its group.
structure Registry where
  groups : List ShardingGroup
  places : List (ValueId × Nat)

def Registry.ofValue? (registry : Registry) (v : ValueId) : Option ShardingGroup :=
  (registry.places.lookup v).bind (registry.groups[·]?)

def ShardingGroup.put (group : ShardingGroup) (entry : GroupEntry) : ShardingGroup :=
  { group with
    members    := if entry.value ∈ group.members then group.members else group.members ++ [entry.value]
    operations := group.operations ++ [entry.op] }

namespace GroupEntry

-- Groups that are being filled, and for each root the index of its group.
structure Filling extends Registry where
  forest : Forest
  roots  : List (Int × Nat)

namespace Filling

-- The index of the group with a root. An empty group is put at the end if there is none.
def place (filling : Filling) (root : Int) : Filling × Nat :=
  match filling.roots.lookup root with
  | some i => (filling, i)
  | none   =>
    let i := filling.groups.length
    ({ filling with
        groups := filling.groups ++ [⟨root, [], []⟩]
        roots  := (root, i) :: filling.roots }, i)

def step (filling : Filling) (entry : GroupEntry) : Filling :=
  let (forest, root) := filling.forest.find entry.id
  let (filling, i)   := { filling with forest }.place root
  let isMember       := filling.groups[i]?.any fun group => entry.value ∈ group.members
  { filling with
    groups := filling.groups.modify i (·.put entry)
    places := if isMember then filling.places else (entry.value, i) :: filling.places }

end Filling

def filling (entries : List GroupEntry) : Filling :=
  entries.foldl Filling.step ⟨⟨[], []⟩, (met entries).forest, []⟩

def registry (entries : List GroupEntry) : Registry :=
  (filling entries).toRegistry

end GroupEntry

namespace Program

-- The registry of the groups of the program. No group crosses the boundary of a manual computation.
def registry (p : Program) : Except Diagnostic Registry := do
  let registry := GroupEntry.registry p.groupEntries
  registry.groups.forM p.checkNotCrossing
  return registry

end Program

end MeshSharding
