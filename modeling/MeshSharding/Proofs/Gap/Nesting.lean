import MeshSharding.Proofs.Gap.Basic
import MeshSharding.Proofs.Verify.Groups

namespace MeshSharding.Program

variable {p : Program} {g : Gap} {o u : OpId} {v : ValueId} {b : BlockId} {n : Nat}

section Records

@[simp]
theorem past_typeOf : (p.past g).typeOf (v.past g) = p.typeOf v := by
  simp [typeOf]

@[simp]
theorem past_definitionOf : (p.past g).definitionOf (v.past g) = (p.definitionOf v).past g := by
  simp [definitionOf]

@[simp]
theorem past_storedSharding : (p.past g).storedSharding (v.past g) = p.storedSharding v := by
  simp [storedSharding]

@[simp]
theorem past_definer? : (p.past g).definer? (v.past g) = (p.definer? v).map (·.past g) := by
  cases h : p.definitionOf v <;> simp [definer?, h]

@[simp]
theorem past_definingBlock : (p.past g).definingBlock (v.past g) = p.definingBlock v := by
  cases h : p.definitionOf v <;> simp [definingBlock, h]

@[simp]
theorem past_input : (p.past g).input (o.past g) = (p.input o).past g := by
  cases h : (p.op o).operands <;> simp [input, h]

@[simp]
theorem past_output : (p.past g).output (o.past g) = (p.output o).past g := by
  cases h : (p.op o).results <;> simp [output, h]

@[simp]
theorem past_parentKind? : (p.past g).parentKind? b = p.parentKind? b := by
  simp [parentKind?, Function.comp_def]

@[simp]
theorem past_transformOf (name : String) : (p.past g).transformOf name = p.transformOf name :=
  rfl

end Records

section Nesting

@[simp]
theorem past_terminator? : (p.past g).terminator? b = (p.terminator? b).map (·.past g) := by
  cases h : (p.block b).operations.getLast? <;> simp [terminator?, h, Option.filter, apply_ite]

@[simp]
theorem past_returned? : (p.past g).returned? b = (p.returned? b).map (·.map (·.past g)) := by
  simp [returned?, Function.comp_def]

@[simp]
theorem past_walkBlock (depth : Nat) :
    (p.past g).walkBlock depth = fun b => (p.walkBlock depth b).map (·.past g) := by
  induction depth with
  | zero          => rfl
  | succ depth ih => funext b; simp [walkBlock, List.flatMap_map, List.map_flatMap, ih]

@[simp]
theorem past_walk : (p.past g).walk = p.walk.map (·.past g) := by
  simp [walk]

@[simp]
theorem past_nestedIn : (p.past g).nestedIn (o.past g) = (p.nestedIn o).map (·.past g) := by
  simp [nestedIn, List.map_flatMap]

-- The gap may lie beyond the end of the list.
theorem length_le_past_operations : p.operations.length ≤ (p.past g).operations.length := by
  simp only [past, List.length_insertIdx, List.length_map]
  split <;> omega

end Nesting

section Live

-- The way from an operation out to the body, through operations that are not erased.
inductive WayOut (p : Program) : List OpId → OpId → Prop
  | body {o : OpId} : (p.op o).erased = false → (p.op o).block = entry → WayOut p [o] o
  | out {o u : OpId} {us : List OpId} : (p.op o).erased = false →
      (p.block (p.op o).block).parent = some u → WayOut p us u → WayOut p (o :: us) o

variable {us : List OpId}

theorem WayOut.suffix (h : p.WayOut us o) (hu : u ∈ us) : ∃ rest, rest.Sublist us ∧ p.WayOut rest u := by
  induction h with
  | body he hb =>
    cases List.mem_singleton.mp hu
    exact ⟨_, List.Sublist.refl _, .body he hb⟩
  | out he hb h ih =>
    cases List.mem_cons.mp hu with
    | inl hu =>
      cases hu
      exact ⟨_, List.Sublist.refl _, .out he hb h⟩
    | inr hu =>
      have ⟨rest, hs, hr⟩ := ih hu
      exact ⟨rest, hs.cons _, hr⟩

theorem WayOut.lt (h : p.WayOut us o) : ∀ u ∈ us, u.index < p.operations.length := by
  induction h with
  | body he _      => exact List.forall_mem_singleton.mpr (index_lt_of_not_erased he)
  | out he _ _ ih  => exact List.forall_mem_cons.mpr ⟨index_lt_of_not_erased he, ih⟩

-- There is no need to come through an operation twice.
theorem exists_wayOut (h : p.isLiveWithin n o) : ∃ us : List OpId, us.Nodup ∧ p.WayOut us o := by
  induction n generalizing o with
  | zero => simp [isLiveWithin] at h
  | succ n ih =>
    simp only [isLiveWithin, Bool.and_eq_true, Bool.not_eq_true', Bool.or_eq_true, decide_eq_true_eq] at h
    cases h.right with
    | inl hb => exact ⟨[o], List.nodup_singleton o, .body h.left hb⟩
    | inr hu =>
      cases hb : (p.block (p.op o).block).parent with
      | none   => simp [hb] at hu
      | some u =>
        rw [hb] at hu
        obtain ⟨us, hn, hw⟩ := ih hu
        by_cases ho : o ∈ us
        case pos =>
          obtain ⟨rest, hs, hr⟩ := hw.suffix ho
          exact ⟨rest, hs.nodup hn, hr⟩
        case neg => exact ⟨o :: us, List.nodup_cons.mpr ⟨ho, hn⟩, .out h.left hb hw⟩

theorem WayOut.isLiveWithin (h : p.WayOut us o) (hl : us.length ≤ n) : p.isLiveWithin n o := by
  induction h generalizing n with
  | body he hb =>
    obtain ⟨k, hk⟩ := Nat.exists_eq_add_of_le' hl
    simp [hk, Program.isLiveWithin, he, hb]
  | @out o u us he hb _ ih =>
    obtain ⟨k, hk⟩ := Nat.exists_eq_add_of_le' (Nat.one_le_of_lt hl)
    have hl : us.length ≤ k := by simpa [hk] using hl
    simp [hk, Program.isLiveWithin, he, hb, ih hl]

-- Looking further out than there are operations finds nothing new.
theorem isLiveWithin_of_length_le (h : p.operations.length ≤ n) : p.isLiveWithin n o = p.isLive o := by
  have hw {m : Nat} (hm : p.operations.length ≤ m) : p.isLiveWithin m o ↔ ∃ us, p.WayOut us o := by
    constructor
    case mp =>
      intro ho
      have ⟨us, _, hw⟩ := exists_wayOut ho
      exact ⟨us, hw⟩
    case mpr =>
      intro ⟨_, hw⟩
      have ⟨us, hn, hw⟩ := exists_wayOut (hw.isLiveWithin le_rfl)
      exact hw.isLiveWithin ((length_le_of_index_lt OpId.index_injective hn hw.lt).trans hm)
  rw [Bool.eq_iff_iff, hw h, isLive, hw le_rfl]

theorem past_isLiveWithin : (p.past g).isLiveWithin n (o.past g) = p.isLiveWithin n o := by
  induction n generalizing o with
  | zero      => rfl
  | succ n ih => cases h : (p.block (p.op o).block).parent <;> simp [isLiveWithin, h, ih]

@[simp]
theorem past_isLive : (p.past g).isLive (o.past g) = p.isLive o := by
  rw [isLive, past_isLiveWithin, isLiveWithin_of_length_le length_le_past_operations]

@[simp]
theorem past_uses : (p.past g).uses (v.past g) = (p.uses v).map (·.past g) := by
  simp [uses, List.filter_map, Function.comp_def]

@[simp]
theorem past_hasUses : (p.past g).hasUses (v.past g) = p.hasUses v := by
  simp [hasUses, Function.comp_def]

end Live

section Manual

theorem WellFormed.enclosingManualWithin_of_length_le (hp : p.WellFormed) (h : p.operations.length ≤ n) :
    p.enclosingManualWithin n b = p.enclosingManual? b := by
  ext m
  constructor
  case mp =>
    intro hm
    have ⟨us, _, hw⟩ := exists_wayUp hm
    exact hp.enclosingManual?_eq_some_iff.mpr ⟨us, hw⟩
  case mpr =>
    intro hm
    have ⟨us, hn, hw⟩ := exists_wayUp hm
    have hl := length_le_of_index_lt OpId.index_injective hn fun u hu => hp.lt_of_wayUp hw hu
    exact hw.enclosingManualWithin (hl.trans h)

theorem past_enclosingManualWithin :
    (p.past g).enclosingManualWithin n b = (p.enclosingManualWithin n b).map (·.past g) := by
  induction n generalizing b with
  | zero      => rfl
  | succ n ih =>
    cases h : (p.block b).parent with
    | none   => simp [enclosingManualWithin, h]
    | some u => cases hm : (p.op u).kind.isManual <;> simp [enclosingManualWithin, h, hm, ih]

theorem WellFormed.past_enclosingManual? (hp : p.WellFormed) :
    (p.past g).enclosingManual? b = (p.enclosingManual? b).map (·.past g) := by
  rw [enclosingManual?, past_enclosingManualWithin,
    hp.enclosingManualWithin_of_length_le length_le_past_operations]

theorem WellFormed.past_manualAround? (hp : p.WellFormed) :
    (p.past g).manualAround? (v.past g) = (p.manualAround? v).map (·.past g) := by
  simp [manualAround?, hp.past_enclosingManual?]

end Manual

end MeshSharding.Program
