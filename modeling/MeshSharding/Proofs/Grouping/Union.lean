import MeshSharding.Program.Registry
import MeshSharding.Proofs.Verify.Groups

namespace MeshSharding

theorem lookup_cons_ite {α β : Type} [DecidableEq α] {a b : α} {c : β} {l : List (α × β)} :
    ((b, c) :: l).lookup a = if a = b then some c else l.lookup a := by
  rw [List.lookup_cons]
  split <;> simp_all

-- Names for the groups of ids, after those of two ids have become one. The smaller name remains.
def join (name : Int → Int) (id other : Int) (x : Int) : Int :=
  if name x = max (name id) (name other) then min (name id) (name other) else name x

section Join

variable {name : Int → Int} {id other x y : Int}

theorem join_eq_self (h : name id = name other) : join name id other = name := by
  funext x
  simp +contextual [join, h]

theorem join_comm : join name id other = join name other id := by
  funext x
  rw [join, max_comm, min_comm, join]

theorem join_eq (h : name x = name y) : join name id other x = join name id other y := by
  simp [join, h]

theorem join_joins : join name id other id = join name id other other := by
  simp only [join]
  rcases le_total (name id) (name other) with h | h <;> simp [h]

theorem join_le (h : name x ≤ x) : join name id other x ≤ x := by
  simp only [join]
  split <;> omega

end Join

namespace Forest

variable {f : Forest} {id other parent x : Int}

-- The id right above an id, or the id itself if it is a root or none of the forest.
def above (f : Forest) (id : Int) : Int :=
  (f.parent? id).getD id

def root (f : Forest) (id : Int) : Int :=
  (f.find id).2

-- A way up goes on until it stands still.
def Ends (f : Forest) (name : Int → Int) : Prop :=
  ∀ id, name id = if f.above id = id then id else name (f.above id)

theorem above_hang {h : parent ≤ id} : (f.hang id parent h).above x = if x = id then parent else f.above x := by
  simp only [above, parent?, hang, lookup_cons_ite]
  split <;> rfl

theorem above_of_parent? (h : f.parent? id = some parent) : f.above id = parent := by
  rw [above, h, Option.getD_some]

-- Going up from an id, until that stands still.
theorem above_induction {P : Int → Prop} (ends : ∀ id, f.above id = id → P id)
    (up : ∀ id, f.above id ≠ id → P (f.above id) → P id) (id : Int) : P id := by
  fun_induction f.find id with
  | case1 id hn => exact ends id (by rw [above, hn, Option.getD_none])
  | case2 id hs => exact ends id (above_of_parent? hs)
  | case3 id parent hs hne _ _ _ _ _ ih =>
    have ha := above_of_parent? hs
    exact up id (ha ▸ hne) (ha ▸ ih)

theorem ends_root : f.Ends f.root := by
  intro id
  simp only [root]
  rw [find]
  split
  case _ h => simp [above, h]
  case _ parent h =>
    rw [above_of_parent? h]
    split <;> rfl

namespace Ends

variable {name other : Int → Int} (h : f.Ends name)
include h

theorem eq_self (ha : f.above id = id) : name id = id := by
  rw [h, if_pos ha]

theorem eq_above (ha : f.above id ≠ id) : name id = name (f.above id) := by
  rw [h, if_neg ha]

theorem unique (h' : f.Ends other) : name = other := by
  funext id
  induction id using f.above_induction with
  | ends id ha  => rw [h.eq_self ha, h'.eq_self ha]
  | up id ha ih => rw [h.eq_above ha, h'.eq_above ha, ih]

theorem idem (id : Int) : name (name id) = name id := by
  induction id using f.above_induction with
  | ends id ha  => rw [h.eq_self ha, h.eq_self ha]
  | up id ha ih => rw [h.eq_above ha, ih]

-- An id may as well hang directly below its root.
theorem hang_root (hp : name id = parent) (hle : parent ≤ id) : (f.hang id parent hle).Ends name := by
  intro x
  rw [above_hang]
  split
  case isFalse => exact h x
  case isTrue hx =>
    subst hx
    split
    case isTrue hx => rw [hp, hx]
    case isFalse   => rw [← hp, h.idem]

-- If a root is hung below another one, its tree goes with it.
theorem hang_of_lt {id other root otherRoot : Int} (hid : name id = root) (ho : name other = otherRoot)
    (hlt : otherRoot < root) : (f.hang root otherRoot hlt.le).Ends (join name id other) := by
  have hj (x : Int) : join name id other x = if name x = root then otherRoot else name x := by
    rw [join, hid, ho, max_eq_left hlt.le, min_eq_right hlt.le]
  have hroot : name root = root := by rw [← hid, h.idem]
  have hother : name otherRoot = otherRoot := by rw [← ho, h.idem]
  intro x
  rw [above_hang]
  split
  case isTrue hx => rw [hx, if_neg hlt.ne, hj, hj, hroot, hother, if_pos rfl, if_neg hlt.ne]
  case isFalse hx =>
    split
    case isTrue ha  => rw [hj, h.eq_self ha, if_neg hx]
    case isFalse ha => exact join_eq (h.eq_above ha)

end Ends

theorem ends_find : (f.find id).1.Ends f.root := by
  fun_induction f.find id with
  | case1 id hn =>
    have ha : f.above id = id := by rw [above, hn, Option.getD_none]
    exact ends_root.hang_root (ends_root.eq_self ha) (le_refl id)
  | case2 id hn => exact ends_root
  | case3 id parent hs hne g root _ hf hle ih =>
    have ha := above_of_parent? hs
    have hroot : f.root parent = root := congrArg (·.2.val) hf
    have hid : f.root id = root := by rw [ends_root.eq_above (ha ▸ hne), ha, hroot]
    rw [hf] at ih
    exact ih.hang_root hid hle

theorem root_find : (f.find id).1.root = f.root :=
  ends_root.unique ends_find

theorem root_union : (f.union id other).root = join f.root id other := by
  have hg : (f.find id).1.root = f.root := root_find
  have hr : ((f.find id).1.find other).2.val = f.root other := congrFun hg other
  have hends : ((f.find id).1.find other).1.Ends f.root := hg ▸ ends_find
  apply ends_root.unique
  simp only [union]
  split
  case isTrue hlt =>
    rw [join_comm]
    exact hends.hang_of_lt hr.symm rfl hlt
  case isFalse hle =>
    split
    case isTrue hlt => exact hends.hang_of_lt rfl hr.symm hlt
    case isFalse hle' =>
      have he : f.root id = f.root other := hr ▸ le_antisymm (Int.not_lt.mp hle') (Int.not_lt.mp hle)
      rwa [join_eq_self he]

end Forest

namespace GroupEntry

variable {entries done : List GroupEntry} {entry : GroupEntry} {merged : Merged} {id other x : Int}

-- The id that an entry unites its own one with.
def firstId (entries : List GroupEntry) (entry : GroupEntry) : Int :=
  ((entries.find? (·.value = entry.value)).map (·.id)).getD entry.id

-- The names of groups after some of the entries have united their ids.
def nameAfter (entries done : List GroupEntry) : Int → Int :=
  done.foldl (fun name entry => join name (firstId entries entry) entry.id) fun id => id

def nameOf (entries : List GroupEntry) : Int → Int :=
  nameAfter entries entries

theorem exists_first (h : entry ∈ entries) : ∃ first ∈ entries, entries.find? (·.value = entry.value) = some first ∧
    first.value = entry.value ∧ firstId entries entry = first.id := by
  cases hf : entries.find? (·.value = entry.value) with
  | none       => simpa using List.find?_eq_none.mp hf entry h
  | some first =>
    have hv : first.value = entry.value := by simpa using List.find?_some hf
    exact ⟨first, List.mem_of_find?_eq_some hf, rfl, hv, by simp [firstId, hf]⟩

theorem nameAfter_concat : nameAfter entries (done ++ [entry]) =
    join (nameAfter entries done) (firstId entries entry) entry.id := by
  simp [nameAfter]

theorem nameOf_le : nameOf entries x ≤ x :=
  List.foldlRecOn (motive := fun (name : Int → Int) => ∀ x, name x ≤ x) entries _ le_refl (fun _ h _ _ x => join_le (h x)) x

theorem nameAfter_unites (h : entry ∈ done) :
    nameAfter entries done (firstId entries entry) = nameAfter entries done entry.id := by
  induction done using List.reverseRecOn with
  | nil => contradiction
  | append_singleton done last ih =>
    rw [nameAfter_concat]
    cases List.mem_append.mp h with
    | inl hm => exact join_eq (ih hm)
    | inr hl => rw [List.mem_singleton.mp hl, join_joins]

theorem nameOf_eq_of_value (h : entry ∈ entries) {other : GroupEntry} (ho : other ∈ entries)
    (hv : entry.value = other.value) : nameOf entries entry.id = nameOf entries other.id := by
  have hfirst : firstId entries entry = firstId entries other := by
    have ⟨first, _, hf, _, hid⟩ := exists_first h
    rw [hid, firstId, ← hv, hf, Option.map_some, Option.getD_some]
  calc nameOf entries entry.id
    _ = nameOf entries (firstId entries entry) := (nameAfter_unites h).symm
    _ = nameOf entries (firstId entries other) := by rw [hfirst]
    _ = nameOf entries other.id                := nameAfter_unites ho

theorem groupOf_map (h : x ∈ merged.map (·.1)) (f : Int → Int) :
    groupOf (merged.map fun pair => (pair.1, f pair.2)) x = f (groupOf merged x) := by
  simp only [groupOf, List.find?_map, Function.comp_def, Option.map_map]
  cases hf : merged.find? (·.1 = x) with
  | some pair => rfl
  | none      =>
    obtain ⟨pair, hp, rfl⟩ := List.mem_map.mp h
    simpa using List.find?_eq_none.mp hf pair hp

theorem groupOf_unite (h : x ∈ merged.map (·.1)) :
    groupOf (unite merged id other) x = join (groupOf merged) id other x :=
  groupOf_map h fun g => if g = max (groupOf merged id) (groupOf merged other) then
    min (groupOf merged id) (groupOf merged other) else g

theorem groupOf_merge (h : x ∈ entries.map (·.id)) : groupOf (merge entries) x = nameOf entries x := by
  have hfold : (merge entries).map (·.1) = entries.map (·.id) ∧
      ∀ x ∈ entries.map (·.id), groupOf (merge entries) x = nameOf entries x := by
    refine List.foldl_rel (r := fun (merged : Merged) (name : Int → Int) => merged.map (·.1) = entries.map (·.id) ∧
      ∀ x ∈ entries.map (·.id), groupOf merged x = name x) ?_ ?_
    · refine ⟨by simp, fun x _ => ?_⟩
      cases groupOf_eq_or_mem (entries.map fun entry => (entry.id, entry.id)) x with
      | inl he => exact he
      | inr hm =>
        have ⟨_, _, he⟩ := List.mem_map.mp hm
        have ⟨hx, hg⟩ := Prod.mk.inj he
        exact hg.symm.trans hx
    · intro entry he merged name ⟨hkeys, hname⟩
      have ⟨first, hfirst, hf, _, hid⟩ := exists_first he
      rw [merge.step, hf, hid]
      refine ⟨by simpa [unite, Function.comp_def] using hkeys, fun x hx => ?_⟩
      rw [groupOf_unite (hkeys ▸ hx)]
      simp only [join, hname x hx, hname _ (List.mem_map_of_mem hfirst), hname _ (List.mem_map_of_mem he)]
  exact hfold.right x h

theorem root_empty : Forest.empty.root x = x :=
  Forest.ends_root.eq_self (by simp [Forest.above, Forest.parent?, Forest.empty])

-- The entry that the first id of a value is taken from is the first one of all.
theorem firstId_of_lookup {rest : List GroupEntry} :
    firstId (done ++ entry :: rest) entry = ((done.find? (·.value = entry.value)).map (·.id)).getD entry.id := by
  rw [firstId, List.find?_append, List.find?_cons_of_pos (by simp)]
  cases done.find? (·.value = entry.value) <;> rfl

theorem met_step (h : done <+: entries) :
    (met done).forest.root = nameAfter entries done ∧
      ∀ v, (met done).firsts.lookup v = (done.find? (·.value = v)).map (·.id) := by
  induction done using List.reverseRecOn with
  | nil => exact ⟨funext fun _ => root_empty, by simp [met]⟩
  | append_singleton done entry ih =>
    obtain ⟨rest, rfl⟩ := h
    have ⟨hroot, hfirsts⟩ := ih ⟨entry :: rest, by simp⟩
    have hmet : met (done ++ [entry]) = (met done).step entry := by simp [met]
    have hfirst : firstId (done ++ [entry] ++ rest) entry = ((met done).firsts.lookup entry.value).getD entry.id := by
      rw [hfirsts, List.append_assoc, List.singleton_append, firstId_of_lookup]
    rw [hmet, Met.step, nameAfter_concat, hfirst, ← hroot]
    cases hl : (met done).firsts.lookup entry.value with
    | some first =>
      refine ⟨by rw [Forest.root_union, Forest.root_find, Option.getD_some], fun v => ?_⟩
      simp only [List.find?_append, hfirsts]
      by_cases hv : entry.value = v
      case neg => simp [hv]
      case pos =>
        rw [hfirsts, hv] at hl
        have ⟨first, hf, _⟩ := Option.map_eq_some_iff.mp hl
        simp [hf]
    | none =>
      refine ⟨by rw [Forest.root_find, Option.getD_none, join_eq_self rfl], fun v => ?_⟩
      simp only [List.find?_append, lookup_cons_ite, hfirsts]
      by_cases hv : entry.value = v
      case neg => simp [hv, Ne.symm hv]
      case pos =>
        rw [hfirsts, hv, Option.map_eq_none_iff] at hl
        simp [hl, hv]

end GroupEntry

end MeshSharding
