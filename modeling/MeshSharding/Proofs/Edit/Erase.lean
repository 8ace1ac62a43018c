import MeshSharding.Proofs.WellFormed

namespace MeshSharding.Program

variable {p : Program} {v w : ValueId} {o u : OpId} {b : BlockId} {os : List OpId} {use : Use}

section DropUses

theorem value_filterUses (keep : Use → Bool) : (p.filterUses v keep).value w =
    if w = v then { p.value w with uses := (p.value w).uses.filter keep } else p.value w := by
  simp only [filterUses, value_modifyValue]
  by_cases hw : w = v
  case neg => simp [hw]
  case pos =>
    subst hw
    by_cases hl : w.index < p.values.length
    · simp [hl]
    · simp [hl, value_of_length_le (Nat.le_of_not_lt hl)]

@[simp]
theorem op_filterUses (keep : Use → Bool) : (p.filterUses v keep).op o = p.op o :=
  rfl

theorem value_foldl_filterUses (keep : Use → Bool) (vs : List ValueId) :
    (vs.foldl (fun p v => p.filterUses v keep) p).value w =
      if w ∈ vs then { p.value w with uses := (p.value w).uses.filter keep } else p.value w := by
  induction vs generalizing p with
  | nil => simp
  | cons v vs ih =>
    rw [List.foldl_cons, ih, value_filterUses]
    by_cases hv : w = v <;> by_cases hw : w ∈ vs <;> simp [hv, hw]

@[simp]
theorem op_dropUsesBy : (p.dropUsesBy o).op u = p.op u := by
  apply foldl_keeps fun q => q.op u
  exact fun _ _ => rfl

@[simp]
theorem blocks_dropUsesBy : (p.dropUsesBy o).blocks = p.blocks := by
  apply foldl_keeps fun q => q.blocks
  exact fun _ _ => rfl

@[simp]
theorem operations_dropUsesBy : (p.dropUsesBy o).operations = p.operations := by
  apply foldl_keeps fun q => q.operations
  exact fun _ _ => rfl

@[simp]
theorem length_values_dropUsesBy : (p.dropUsesBy o).values.length = p.values.length := by
  apply foldl_keeps fun q => q.values.length
  simp [filterUses]

theorem value_dropUsesBy : (p.dropUsesBy o).value w =
    if w ∈ (p.op o).operands then
      { p.value w with uses := (p.value w).uses.filter (·.user ≠ o) }
    else p.value w :=
  value_foldl_filterUses _ _

end DropUses

section EraseAlone

theorem block_foldl_empty (bs : List BlockId) :
    (bs.foldl (fun p b => p.modifyBlock b fun block => { block with operations := [] }) p).block b =
      if b ∈ bs then { p.block b with operations := [] } else p.block b := by
  induction bs generalizing p with
  | nil => simp
  | cons c bs ih =>
    rw [List.foldl_cons, ih, block_modifyBlock]
    by_cases hc : b = c
    case neg => simp [hc]
    case pos =>
      subst hc
      by_cases hl : b.index < p.blocks.length
      · simp [hl]
      · simp [hl, block_of_length_le (Nat.le_of_not_lt hl)]

theorem values_foldl_empty (bs : List BlockId) :
    (bs.foldl (fun p b => p.modifyBlock b fun block => { block with operations := [] }) p).values =
      p.values := by
  apply foldl_keeps fun q => q.values
  exact fun _ _ => rfl

theorem operations_foldl_empty (bs : List BlockId) :
    (bs.foldl (fun p b => p.modifyBlock b fun block => { block with operations := [] }) p).operations =
      p.operations := by
  apply foldl_keeps fun q => q.operations
  exact fun _ _ => rfl

theorem length_blocks_foldl_empty (bs : List BlockId) :
    (bs.foldl (fun p b => p.modifyBlock b fun block => { block with operations := [] })
      p).blocks.length = p.blocks.length := by
  apply foldl_keeps fun q => q.blocks.length
  simp

theorem op_eraseAlone : (p.eraseAlone o).op u =
    { p.op u with erased := (p.op u).erased || u = o } := by
  have ho : (p.eraseAlone o).op u = (p.modifyOp o fun op => { op with erased := true }).op u := by
    simp only [eraseAlone, op, operations_foldl_empty, operations_dropUsesBy]
  rw [ho, op_modifyOp]
  by_cases hu : u = o
  case neg => simp [hu]
  case pos =>
    subst hu
    by_cases hl : u.index < p.operations.length
    · simp [hl]
    · simp [hl, op_of_length_le (Nat.le_of_not_lt hl)]

theorem block_eraseAlone : (p.eraseAlone o).block b =
    if b ∈ (p.op o).regions then { p.block b with operations := [] } else p.block b := by
  have hr : ((p.modifyOp o fun op => { op with erased := true }).op o).regions = (p.op o).regions := by
    rw [op_modifyOp]
    split <;> rfl
  simp only [eraseAlone, block_foldl_empty, op_dropUsesBy, hr]
  simp [block]

theorem value_eraseAlone : (p.eraseAlone o).value w =
    if w ∈ (p.op o).operands then
      { p.value w with uses := (p.value w).uses.filter (·.user ≠ o) }
    else p.value w := by
  have ho : ((p.modifyOp o fun op => { op with erased := true }).op o).operands = (p.op o).operands := by
    rw [op_modifyOp]
    split <;> rfl
  have hv : (p.eraseAlone o).value w =
      ((p.modifyOp o fun op => { op with erased := true }).dropUsesBy o).value w := by
    simp only [eraseAlone, value, values_foldl_empty]
  rw [hv, value_dropUsesBy, ho]
  rfl

@[simp]
theorem length_values_eraseAlone : (p.eraseAlone o).values.length = p.values.length := by
  simp [eraseAlone, values_foldl_empty]

@[simp]
theorem length_operations_eraseAlone : (p.eraseAlone o).operations.length = p.operations.length := by
  simp [eraseAlone, operations_foldl_empty]

@[simp]
theorem length_blocks_eraseAlone : (p.eraseAlone o).blocks.length = p.blocks.length := by
  simp [eraseAlone, length_blocks_foldl_empty]

@[simp]
theorem meshes_dropUsesBy : (p.dropUsesBy o).meshes = p.meshes := by
  apply foldl_keeps fun q => q.meshes
  exact fun _ _ => rfl

@[simp]
theorem meshes_eraseAlone : (p.eraseAlone o).meshes = p.meshes := by
  refine Eq.trans ?_ (meshes_dropUsesBy (p := p.modifyOp o fun op => { op with erased := true }) (o := o))
  apply foldl_keeps fun q => q.meshes
  exact fun _ _ => rfl

end EraseAlone

section EraseAll

theorem op_foldl_eraseAlone : (os.foldl eraseAlone p).op u =
    { p.op u with erased := (p.op u).erased || os.contains u } := by
  induction os generalizing p with
  | nil => simp
  | cons o os ih =>
    rw [List.foldl_cons, ih, op_eraseAlone]
    by_cases hu : u = o <;> simp [hu]

theorem block_foldl_eraseAlone : (os.foldl eraseAlone p).block b =
    if ∃ o ∈ os, b ∈ (p.op o).regions then { p.block b with operations := [] } else p.block b := by
  induction os generalizing p with
  | nil => simp
  | cons o os ih =>
    rw [List.foldl_cons, ih, block_eraseAlone]
    simp only [op_eraseAlone, List.exists_mem_cons_iff]
    by_cases h₁ : b ∈ (p.op o).regions <;> by_cases h₂ : ∃ u ∈ os, b ∈ (p.op u).regions <;>
      simp [h₁, h₂]

theorem value_foldl_eraseAlone (p : Program) (os : List OpId) : ∃ uses : List Use,
    (os.foldl eraseAlone p).value v = { p.value v with uses } ∧ uses ⊆ (p.value v).uses ∧
      ∀ use, use.user ∉ os → uses.count use = (p.value v).uses.count use := by
  induction os generalizing p with
  | nil => exact ⟨(p.value v).uses, rfl, by simp, by simp⟩
  | cons o os ih =>
    have ⟨uses, he, hs, hc⟩ := ih (p.eraseAlone o)
    rw [value_eraseAlone] at he hs hc
    split at he
    case isFalse h =>
      simp only [h, if_false] at hs hc
      refine ⟨uses, he, hs, fun use hu => hc use fun hm => ?_⟩
      exact hu (List.mem_cons_of_mem o hm)
    case isTrue h =>
      simp only [h, if_true] at hs hc
      refine ⟨uses, he, List.Subset.trans hs List.filter_sublist.subset, fun use hu => ?_⟩
      rw [List.mem_cons, not_or] at hu
      rw [hc use hu.right, List.count_filter (by simpa using hu.left)]

@[simp]
theorem length_values_foldl_eraseAlone : (os.foldl eraseAlone p).values.length = p.values.length := by
  apply foldl_keeps fun q => q.values.length
  simp

@[simp]
theorem length_operations_foldl_eraseAlone :
    (os.foldl eraseAlone p).operations.length = p.operations.length := by
  apply foldl_keeps fun q => q.operations.length
  simp

@[simp]
theorem length_blocks_foldl_eraseAlone : (os.foldl eraseAlone p).blocks.length = p.blocks.length := by
  apply foldl_keeps fun q => q.blocks.length
  simp

end EraseAll

section Erase

-- An operation found below a block lies in this block or in a region of another such operation.
theorem mem_walkBlock {depth : Nat} (h : u ∈ p.walkBlock depth b) :
    u ∈ (p.block b).operations ∨
      ∃ w ∈ p.walkBlock depth b, ∃ c ∈ (p.op w).regions, u ∈ (p.block c).operations := by
  induction depth generalizing b with
  | zero => simp [walkBlock] at h
  | succ depth ih =>
    simp only [walkBlock, List.mem_flatMap, List.mem_cons] at h ⊢
    obtain ⟨o, ho, rfl | ⟨c, hc, hu⟩⟩ := h
    · exact .inl ho
    · obtain hu | ⟨w, hw, d, hd, hu⟩ := ih hu
      · exact .inr ⟨o, ⟨o, ho, .inl rfl⟩, c, hc, hu⟩
      · exact .inr ⟨w, ⟨o, ho, .inr ⟨c, hc, hw⟩⟩, d, hd, hu⟩

def detach (p : Program) (o : OpId) : Program :=
  p.modifyBlock (p.op o).block fun block =>
    { block with operations := block.operations.filter (· ≠ o) }

theorem block_detach : (p.detach o).block b =
    if b = (p.op o).block then
      { p.block b with operations := (p.block b).operations.filter (· ≠ o) }
    else p.block b := by
  simp only [detach, block_modifyBlock]
  by_cases hb : b = (p.op o).block
  case neg => simp [hb]
  case pos =>
    subst hb
    by_cases hl : (p.op o).block.index < p.blocks.length
    · simp [hl]
    · simp [hl, block_of_length_le (Nat.le_of_not_lt hl)]

theorem mem_of_mem_detach (h : u ∈ ((p.detach o).block b).operations) :
    u ∈ (p.block b).operations := by
  rw [block_detach] at h
  split at h
  · exact List.mem_of_mem_filter h
  · exact h

theorem erase_eq : p.erase o = (o :: (p.detach o).nestedIn o).foldl eraseAlone (p.detach o) :=
  rfl

@[simp]
theorem length_values_erase : (p.erase o).values.length = p.values.length := by
  simp [erase_eq, detach]

@[simp]
theorem length_operations_erase : (p.erase o).operations.length = p.operations.length := by
  simp [erase_eq, detach]

@[simp]
theorem length_blocks_erase : (p.erase o).blocks.length = p.blocks.length := by
  simp [erase_eq, detach]

@[simp]
theorem meshes_erase : (p.erase o).meshes = p.meshes := by
  rw [erase_eq]
  exact foldl_keeps (fun q => q.meshes) (fun _ _ => meshes_eraseAlone) _

theorem op_erase : (p.erase o).op u =
    { p.op u with erased := (p.op u).erased || (o :: (p.detach o).nestedIn o).contains u } := by
  rw [erase_eq, op_foldl_eraseAlone]
  rfl

theorem value_erase : ∃ uses : List Use,
    (p.erase o).value v = { p.value v with uses } ∧ uses ⊆ (p.value v).uses ∧
      ∀ use, ((p.erase o).op use.user).erased = false →
        uses.count use = (p.value v).uses.count use := by
  have ⟨uses, he, hs, hc⟩ := value_foldl_eraseAlone (v := v) (p.detach o)
    (o :: (p.detach o).nestedIn o)
  refine ⟨uses, he, hs, fun use hu => hc use fun hm => ?_⟩
  simp [op_erase, hm] at hu

@[simp]
theorem typeOf_erase : (p.erase o).typeOf v = p.typeOf v := by
  have ⟨_, he, _⟩ := value_erase (p := p) (o := o) (v := v)
  simp [typeOf, he]

@[simp]
theorem definitionOf_erase : (p.erase o).definitionOf v = p.definitionOf v := by
  have ⟨_, he, _⟩ := value_erase (p := p) (o := o) (v := v)
  simp [definitionOf, he]

theorem storedSharding_erase : (p.erase o).storedSharding v = p.storedSharding v := by
  have ⟨_, he, _⟩ := value_erase (p := p) (o := o) (v := v)
  simp [storedSharding, he]

theorem input_erase : (p.erase o).input u = p.input u := by
  simp only [input, op_erase]

theorem block_erase : ∃ operations : List OpId,
    (p.erase o).block b = { p.block b with operations } ∧
      operations.Sublist ((p.detach o).block b).operations ∧
      ∀ u ∈ operations, u ∈ ((p.detach o).block b).operations ∧
        ∀ w ∈ o :: (p.detach o).nestedIn o, b ∉ (p.op w).regions := by
  have hd : (p.detach o).block b =
      { p.block b with operations := ((p.detach o).block b).operations } := by
    rw [block_detach]
    split <;> rfl
  rw [erase_eq, block_foldl_eraseAlone]
  split
  case isTrue h =>
    refine ⟨[], ?_, by simp, by simp⟩
    rw [hd]
  case isFalse h =>
    refine ⟨_, hd, List.Sublist.refl _, fun u hu => ⟨hu, fun w hw hb => h ⟨w, hw, hb⟩⟩⟩

theorem WellFormed.erase (hp : p.WellFormed) (o : OpId) : (p.erase o).WellFormed where
  body := by simpa using hp.body
  arguments v b i := by
    have ⟨_, hb, _⟩ := block_erase (p := p) (o := o) (b := b)
    simpa [hb] using hp.arguments v b i
  results v u i := by
    simpa [op_erase] using hp.results v u i
  operands u v hv := by
    rw [op_erase] at hv
    simpa using hp.operands u v hv
  regions b u := by
    have ⟨_, hb, _⟩ := block_erase (p := p) (o := o) (b := b)
    simpa [hb, op_erase] using hp.regions b u
  members b u hu := by
    have ⟨operations, hb, _, hm⟩ := block_erase (p := p) (o := o) (b := b)
    rw [hb] at hu
    have ⟨hd, hr⟩ := hm u hu
    have ⟨he, hub⟩ := hp.members b u (mem_of_mem_detach hd)
    -- The block of a nested operation is a region of an erased one, and is emptied with it.
    have hregion (w : OpId) (hw : w ∈ o :: (p.detach o).nestedIn o) (c : BlockId)
        (hc : c ∈ (p.op w).regions) (hn : u ∈ ((p.detach o).block c).operations) : False := by
      have ⟨_, huc⟩ := hp.members c u (mem_of_mem_detach hn)
      exact hr w hw (hub.symm.trans huc ▸ hc)
    have hne : u ∉ o :: (p.detach o).nestedIn o := by
      intro hn
      obtain rfl | hn := List.mem_cons.mp hn
      · simp [block_detach, hub] at hd
      · have ⟨c, hc, hn⟩ := List.mem_flatMap.mp hn
        obtain hn | ⟨w, hw, d, hd, hn⟩ := mem_walkBlock hn
        · exact hregion o List.mem_cons_self c hc hn
        · have hw := List.mem_flatMap.mpr ⟨c, hc, hw⟩
          exact hregion w (List.mem_cons_of_mem o hw) d hd hn
    rw [op_erase]
    exact ⟨by simp [he, hne], hub⟩
  nodup b := by
    have ⟨_, hb, hs, _⟩ := block_erase (p := p) (o := o) (b := b)
    rw [hb]
    refine hs.nodup ?_
    rw [block_detach]
    split
    · exact (hp.nodup b).filter _
    · exact hp.nodup b
  shaped u := by
    have hs := hp.shaped u
    rw [op_erase]
    exact ⟨hs.unary, hs.group, hs.leaf, hs.body⟩
  uses v use he := by
    have ⟨_, hv, _, hc⟩ := value_erase (p := p) (o := o) (v := v)
    have hu := hc use he
    rw [op_erase, Bool.or_eq_false_iff] at he
    rw [hv, hu, op_erase]
    exact hp.uses v use he.left
  users v use hu := by
    have ⟨_, hv, hs, _⟩ := value_erase (p := p) (o := o) (v := v)
    rw [hv] at hu
    simpa using hp.users v use (hs hu)

end Erase

end MeshSharding.Program
