import MeshSharding.Proofs.WellFormed

namespace MeshSharding.Program

def redirect (p : Program) (source target : ValueId) (moved : List Use) : Program :=
  moved.foldl (moveUse target) (p.filterUses source (· ∉ moved))

-- The uses that are replaced when a value is.
def movable (p : Program) (source : ValueId) (except : Option OpId) : List Use :=
  (p.value source).uses.filter fun use => some use.user ≠ except && p.isLive use.user

variable {p : Program} {v source target : ValueId} {o u : OpId} {moved : List Use} {use : Use}

theorem modifyValue_congr {f g : Value → Value} (h : f (p.value v) = g (p.value v)) :
    p.modifyValue v f = p.modifyValue v g := by
  simp only [modifyValue]
  congr 1
  apply List.ext_getElem? fun i => ?_
  simp only [List.getElem?_modify]
  split
  case isFalse => rfl
  case isTrue hi =>
    cases hg : p.values[i]? with
    | none   => rfl
    | some w => simpa [value, hi, hg] using h

theorem replaceUsesExcept_eq (h : source ≠ target) (except : Option OpId) :
    p.replaceUsesExcept source target except =
      p.redirect source target (p.movable source except) := by
  simp only [replaceUsesExcept, h, if_false, redirect, movable, filterUses]
  congr 1
  apply modifyValue_congr
  congr 1
  apply List.filter_congr fun use hu => ?_
  simp [hu]

theorem setOperand_eq {index : Nat} (h : (p.op o).operands[index]? = some source) :
    p.setOperand o index target = p.redirect source target [⟨o, index⟩] := by
  simp [setOperand, h, redirect]

section MoveUse

theorem value_moveUse : (moveUse target p use).value v =
    if v = target ∧ target.index < p.values.length then
      { p.value v with uses := (p.value v).uses ++ [use] }
    else p.value v := by
  rw [moveUse, addUse, value_modifyValue]
  rfl

theorem op_moveUse : (moveUse target p use).op u =
    if u = use.user ∧ use.user.index < p.operations.length then
      { p.op u with operands := (p.op u).operands.set use.index target }
    else p.op u := by
  simp [moveUse, addUse, writeOperand, op_modifyOp]

@[simp]
theorem block_moveUse (b : BlockId) : (moveUse target p use).block b = p.block b :=
  rfl

@[simp]
theorem length_values_moveUse : (moveUse target p use).values.length = p.values.length := by
  simp [moveUse, addUse, writeOperand]

@[simp]
theorem length_operations_moveUse :
    (moveUse target p use).operations.length = p.operations.length := by
  simp [moveUse, addUse, writeOperand]

end MoveUse

section Redirect

-- The invariant of the moves: uses are moved one by one, after all of them have been taken from the
-- source.
theorem foldl_moveUse {motive : Program → Prop} (start : motive (p.filterUses source (· ∉ moved)))
    (step : ∀ q, ∀ use ∈ moved, motive q → motive (moveUse target q use)) :
    motive (p.redirect source target moved) := by
  exact List.foldlRecOn moved (moveUse target) start fun q hq use hu => step q use hu hq

@[simp]
theorem length_values_redirect : (p.redirect source target moved).values.length = p.values.length :=
  foldl_moveUse (motive := fun q => q.values.length = p.values.length) (by simp [filterUses])
    fun _ _ _ hq => by simp [hq]

@[simp]
theorem length_operations_redirect :
    (p.redirect source target moved).operations.length = p.operations.length :=
  foldl_moveUse (motive := fun q => q.operations.length = p.operations.length) (by simp [filterUses])
    fun _ _ _ hq => by simp [hq]

@[simp]
theorem blocks_redirect : (p.redirect source target moved).blocks = p.blocks :=
  foldl_moveUse (motive := fun q => q.blocks = p.blocks) (by simp [filterUses])
    fun _ _ _ hq => hq

@[simp]
theorem block_redirect (b : BlockId) : (p.redirect source target moved).block b = p.block b := by
  simp [block]

@[simp]
theorem typeOf_redirect : (p.redirect source target moved).typeOf v = p.typeOf v :=
  foldl_moveUse (motive := fun q => q.typeOf v = p.typeOf v)
    (by simp only [typeOf, filterUses, value_modifyValue]; split <;> rfl)
    fun q use _ hq => by
      rw [← hq]
      simp only [typeOf, value_moveUse]
      split <;> rfl

@[simp]
theorem definitionOf_redirect : (p.redirect source target moved).definitionOf v = p.definitionOf v :=
  foldl_moveUse (motive := fun q => q.definitionOf v = p.definitionOf v)
    (by simp only [definitionOf, filterUses, value_modifyValue]; split <;> rfl)
    fun q use _ hq => by
      rw [← hq]
      simp only [definitionOf, value_moveUse]
      split <;> rfl

@[simp]
theorem storedSharding_redirect :
    (p.redirect source target moved).storedSharding v = p.storedSharding v :=
  foldl_moveUse (motive := fun q => q.storedSharding v = p.storedSharding v)
    (by simp only [storedSharding, filterUses, value_modifyValue]; split <;> rfl)
    fun q use _ hq => by
      rw [← hq]
      simp only [storedSharding, value_moveUse]
      split <;> rfl

-- Everything but the operands of an operation stays.
theorem op_redirect : (p.redirect source target moved).op u =
    { p.op u with operands := ((p.redirect source target moved).op u).operands } :=
  foldl_moveUse (motive := fun q => q.op u = { p.op u with operands := (q.op u).operands }) rfl
    fun q use _ hq => by
      rw [op_moveUse]
      split
      · rw [hq]
      · exact hq

@[simp]
theorem kind_redirect : ((p.redirect source target moved).op u).kind = (p.op u).kind := by
  rw [op_redirect]

@[simp]
theorem results_redirect : ((p.redirect source target moved).op u).results = (p.op u).results := by
  rw [op_redirect]

@[simp]
theorem regions_redirect : ((p.redirect source target moved).op u).regions = (p.op u).regions := by
  rw [op_redirect]

@[simp]
theorem block_op_redirect : ((p.redirect source target moved).op u).block = (p.op u).block := by
  rw [op_redirect]

@[simp]
theorem erased_redirect : ((p.redirect source target moved).op u).erased = (p.op u).erased := by
  rw [op_redirect]

theorem length_operands_redirect :
    ((p.redirect source target moved).op u).operands.length = (p.op u).operands.length :=
  foldl_moveUse (motive := fun q => (q.op u).operands.length = (p.op u).operands.length) rfl
    fun q use _ hq => by
      rw [op_moveUse, ← hq]
      split <;> simp

theorem operands_redirect_of_lt (h : ∀ use ∈ moved, use.user.index < p.operations.length) (i : Nat) :
    ((p.redirect source target moved).op u).operands[i]? =
      if ⟨u, i⟩ ∈ moved then ((p.op u).operands[i]?).map fun _ => target
      else (p.op u).operands[i]? := by
  simp only [redirect]
  generalize hq : p.filterUses source _ = q
  have ho : q.op u = p.op u := by simp [← hq, filterUses]
  have hl : q.operations = p.operations := by simp [← hq, filterUses]
  rw [← ho]
  rw [← hl] at h
  clear ho hl hq
  induction moved generalizing q with
  | nil => simp
  | cons use moved ih =>
    have hu := h use List.mem_cons_self
    have hm : ∀ use' ∈ moved, use'.user.index < (moveUse target q use).operations.length := by
      intro use' hu'
      simpa using h use' (List.mem_cons_of_mem use hu')
    rw [List.foldl_cons, ih _ hm, op_moveUse]
    obtain ⟨user, index⟩ := use
    simp only [List.mem_cons, Use.mk.injEq]
    by_cases he : u = user
    case neg => simp [he]
    case pos =>
      subst he
      by_cases hi : i = index
      · subst hi
        cases hc : (q.op u).operands[i]? with
        | none   => simp [hu, List.getElem?_eq_none_iff.mp hc]
        | some w => simp [hu, (List.getElem?_eq_some_iff.mp hc).choose]
      · simp [hi, hu, List.getElem?_set_ne (Ne.symm hi)]

-- What is moved are uses of the source, and these read the target instead.
theorem operands_redirect (hm : ∀ use ∈ moved, (p.op use.user).operands[use.index]? = some source) (i : Nat) :
    ((p.redirect source target moved).op u).operands[i]? =
      if ⟨u, i⟩ ∈ moved then some target else (p.op u).operands[i]? := by
  rw [operands_redirect_of_lt fun use hu => index_lt_of_operand (hm use hu)]
  split
  case isTrue h  => rw [hm _ h, Option.map_some]
  case isFalse h => rfl

theorem uses_redirect (h : target.index < p.values.length) :
    ((p.redirect source target moved).value v).uses =
      (if v = source then (p.value v).uses.filter (· ∉ moved) else (p.value v).uses) ++
        (if v = target then moved else []) := by
  have hf : ((p.filterUses source (· ∉ moved)).value v).uses =
      if v = source then (p.value v).uses.filter (· ∉ moved) else (p.value v).uses := by
    simp only [filterUses, value_modifyValue]
    by_cases hv : v = source
    case neg => simp [hv]
    case pos =>
      subst hv
      by_cases hl : v.index < p.values.length
      · simp [hl]
      · simp [hl, value_of_length_le (Nat.le_of_not_lt hl)]
  rw [← hf]
  simp only [redirect]
  generalize hq : p.filterUses source _ = q
  have hl : target.index < q.values.length := by simpa [← hq, filterUses] using h
  clear hf hq h
  induction moved generalizing q with
  | nil => simp
  | cons use moved ih =>
    rw [List.foldl_cons, ih _ (by simpa using hl), value_moveUse]
    by_cases hv : v = target <;> simp [hv, hl]

-- A use that is moved was one of the source, and is one of the target only.
theorem WellFormed.count_uses_redirect (hp : p.WellFormed) (ht : target.index < p.values.length)
    (hm : ∀ use ∈ moved, (p.op use.user).operands[use.index]? = some source) (hn : moved.Nodup) {use : Use}
    (he : (p.op use.user).erased = false) :
    ((p.redirect source target moved).value v).uses.count use =
      if use ∈ moved then if v = target then 1 else 0 else (p.value v).uses.count use := by
  rw [uses_redirect ht, List.count_append]
  by_cases hmem : use ∈ moved
  case pos =>
    have hkept : (if v = source then (p.value v).uses.filter (· ∉ moved) else (p.value v).uses).count use = 0 := by
      split
      case isTrue     => simp [List.count_eq_zero, hmem]
      case isFalse hv => simp [hp.uses v use he, hm use hmem, Ne.symm hv]
    rw [hkept, if_pos hmem, Nat.zero_add]
    split
    · exact List.count_eq_one_of_mem hn hmem
    · rfl
  case neg =>
    have hkept : (if v = source then (p.value v).uses.filter (· ∉ moved) else (p.value v).uses).count use =
        (p.value v).uses.count use := by
      split
      case isTrue  => exact List.count_filter (by simpa using hmem)
      case isFalse => rfl
    have hnew : (if v = target then moved else []).count use = 0 := by
      split
      case isTrue  => exact List.count_eq_zero.mpr hmem
      case isFalse => rfl
    rw [hkept, hnew, if_neg hmem, Nat.add_zero]

theorem WellFormed.redirect (hp : p.WellFormed) (ht : target.index < p.values.length)
    (hm : ∀ use ∈ moved, (p.op use.user).operands[use.index]? = some source) (hn : moved.Nodup) :
    (p.redirect source target moved).WellFormed where
  body      := by simpa using hp.body
  arguments := by simpa using hp.arguments
  results   := by simpa using hp.results
  regions   := by simpa using hp.regions
  members   := by simpa using hp.members
  nodup     := by simpa using hp.nodup
  operands u v hv := by
    have ⟨i, hi⟩ := List.mem_iff_getElem?.mp hv
    rw [operands_redirect hm] at hi
    rw [length_values_redirect]
    split at hi
    case isTrue  => exact Option.some.inj hi ▸ ht
    case isFalse => exact hp.operands u v (List.mem_of_getElem? hi)
  shaped u := by
    rw [op_redirect]
    exact (hp.shaped u).withOperands length_operands_redirect
  uses v use he := by
    rw [erased_redirect] at he
    rw [hp.count_uses_redirect ht hm hn he, operands_redirect hm]
    split
    case isTrue  => simp [eq_comm]
    case isFalse => exact hp.uses v use he
  users v use hu := by
    rw [uses_redirect ht] at hu
    rw [length_operations_redirect]
    obtain hu | hu := List.mem_append.mp hu
    · split at hu
      · exact hp.users v use (List.mem_of_mem_filter hu)
      · exact hp.users v use hu
    · split at hu
      · exact index_lt_of_operand (hm use hu)
      · simp at hu

end Redirect

section Replace

theorem erased_of_isLive (h : p.isLive o) : (p.op o).erased = false := by
  simp only [isLive] at h
  cases hl : p.operations.length <;> simp [hl, isLiveWithin] at h
  exact h.left

theorem length_operations_replaceUsesExcept {except : Option OpId} :
    (p.replaceUsesExcept source target except).operations.length = p.operations.length := by
  by_cases h : source = target
  case pos => simp [replaceUsesExcept, h]
  case neg => simp [replaceUsesExcept_eq h]

theorem length_values_replaceUsesExcept {except : Option OpId} :
    (p.replaceUsesExcept source target except).values.length = p.values.length := by
  by_cases h : source = target
  case pos => simp [replaceUsesExcept, h]
  case neg => simp [replaceUsesExcept_eq h]

theorem mem_movable {except : Option OpId} : use ∈ p.movable source except ↔
    use ∈ (p.value source).uses ∧ some use.user ≠ except ∧ p.isLive use.user := by
  simp [movable]

namespace WellFormed

theorem operand_of_movable (hp : p.WellFormed) {except : Option OpId}
    (h : use ∈ p.movable source except) : (p.op use.user).operands[use.index]? = some source := by
  have ⟨hu, _, hl⟩ := mem_movable.mp h
  exact hp.operand_of_use hu (erased_of_isLive hl)

theorem movable_nodup (hp : p.WellFormed) (source : ValueId) (except : Option OpId) :
    (p.movable source except).Nodup := by
  rw [List.nodup_iff_count_le_one]
  intro use
  by_cases hu : use ∈ p.movable source except
  case neg => simp [List.count_eq_zero.mpr hu]
  case pos =>
    have ⟨_, _, hl⟩ := mem_movable.mp hu
    have hc := hp.uses source use (erased_of_isLive hl)
    have hle := (List.filter_sublist (p := fun use => some use.user ≠ except && p.isLive use.user)
      (l := (p.value source).uses)).count_le use
    simp only [movable] at hle ⊢
    split at hc <;> omega

theorem replaceUsesExcept (hp : p.WellFormed) (ht : target.index < p.values.length)
    (except : Option OpId) : (p.replaceUsesExcept source target except).WellFormed := by
  by_cases h : source = target
  case pos => simpa [Program.replaceUsesExcept, h] using hp
  case neg =>
    rw [replaceUsesExcept_eq h]
    exact hp.redirect ht (fun _ => hp.operand_of_movable) (hp.movable_nodup source except)

theorem replaceUses (hp : p.WellFormed) (ht : target.index < p.values.length) :
    (p.replaceUses source target).WellFormed :=
  hp.replaceUsesExcept ht none

theorem setOperand (hp : p.WellFormed) (hv : v.index < p.values.length) (index : Nat) :
    (p.setOperand o index v).WellFormed := by
  cases h : (p.op o).operands[index]? with
  | none          => simpa [Program.setOperand, h] using hp
  | some previous =>
    rw [setOperand_eq h]
    exact hp.redirect hv (by simpa using h) (by simp)

end WellFormed

end Replace

end MeshSharding.Program
