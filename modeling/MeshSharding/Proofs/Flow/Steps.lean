import MeshSharding.Proofs.Flow.Edits

namespace MeshSharding.Program

variable {p q : Program} {o u : OpId} {v w : ValueId} {b : BlockId}

section Uses

theorem WellFormed.unused_of_hasUses (hp : p.WellFormed) (hr : p.Rooted) (h : p.hasUses v = false)
    (hu : u ∈ p.walk) : v ∉ (p.op u).operands := by
  intro hv
  have ⟨i, hi⟩ := List.mem_iff_getElem?.mp hv
  have hm := hp.use_of_operand hi (hp.not_erased hu)
  simp only [hasUses, List.any_eq_false] at h
  exact h _ hm (hp.isLive_of_mem_walk hr hu)

-- All uses by operations of the program are replaced, those by one of them excepted.
theorem WellFormed.unused_of_redirect (hp : p.WellFormed) (hr : p.Rooted) (hne : v ≠ w)
    {except : Option OpId} (he : some u ≠ except) (hu : u ∈ p.walk) :
    v ∉ ((p.redirect v w (p.movable v except)).op u).operands := by
  intro hv
  have ⟨i, hi⟩ := List.mem_iff_getElem?.mp hv
  rw [operands_redirect fun use => hp.operand_of_movable] at hi
  split at hi
  case isTrue     => exact hne (Option.some.inj hi).symm
  case isFalse hm =>
    have hl := hp.isLive_of_mem_walk hr hu
    exact hm (mem_movable.mpr ⟨hp.use_of_operand hi (hp.not_erased hu), he, hl⟩)

end Uses

section Bypass

variable (hp : p.Sound)
include hp

-- What uses a result of an operation comes after this, and sees what it sees.
theorem Sound.inScope_behind (ho : (p.op o).kind.isTransparent) (hu : u ∈ p.walk)
    (hv : p.output o ∈ (p.op u).operands) : o ∈ p.walk ∧ p.InScope u (p.input o) := by
  have hk := OpKind.isUnary_of_isTransparent ho
  have hr : p.output o ∈ (p.op o).results := by simp [hp.wellFormed.results_eq hk]
  have hs := hp.scope u hu _ hv
  have hw := hp.wellFormed.definer_mem_walk hs hu hr
  have hi := hp.scope o hw (p.input o) (by simp [hp.wellFormed.operands_eq hk])
  exact ⟨hw, hp.wellFormed.inScope_trans hs hr hi⟩

theorem Sound.replaceUses_behind (ho : (p.op o).kind.isTransparent) :
    let q := p.replaceUses (p.output o) (p.input o)
    q.Sound ∧ KeepsFlow p q ∧ Relinks p q ∧ ∀ u ∈ q.walk, p.output o ∉ (q.op u).operands := by
  intro q
  have hk := OpKind.isUnary_of_isTransparent ho
  by_cases he : p.output o = p.input o
  case pos =>
    -- An operation that is part of the program does not use its own result.
    have hq : q = p := by simp [q, replaceUses, replaceUsesExcept, he]
    rw [hq]
    refine ⟨hp, .refl p, hp.wellFormed.relinks_self, fun u hu hv => ?_⟩
    obtain ⟨hw, _⟩ := hp.inScope_behind ho hu hv
    have hi := hp.scope o hw (p.input o) (by simp [hp.wellFormed.operands_eq hk])
    refine hp.wellFormed.not_inScope_of_result hp.rooted hw ?_ hi
    simp [hp.wellFormed.results_eq hk, he]
  case neg =>
    have hm : ∀ use ∈ p.movable (p.output o) none,
        (p.op use.user).operands[use.index]? = some (p.output o) :=
      fun _ => hp.wellFormed.operand_of_movable
    have hn := hp.wellFormed.movable_nodup (p.output o) none
    have hs : ∀ use ∈ p.movable (p.output o) none, use.user ∈ p.walk →
        p.InScope use.user (p.input o) := by
      intro use hu hw
      exact (hp.inScope_behind ho hw (List.mem_of_getElem? (hm use hu))).right
    have hq : q = p.redirect (p.output o) (p.input o) (p.movable (p.output o) none) :=
      replaceUsesExcept_eq he none
    have hl := hp.wellFormed.relinks_redirect (hp.wellFormed.input_lt hk) hm hn
    obtain ⟨hsound, hflow⟩ := hp.redirect_behind ho hm hn hs
    rw [hq]
    refine ⟨hsound, hflow, hl, fun u hu => ?_⟩
    exact hp.wellFormed.unused_of_redirect hp.rooted he (by simp) (hl.mem_walk_iff.mp hu)

-- An operation with one operand that nothing uses can go.
theorem Sound.erase_unary (ho : (p.op o).kind.isTransparent)
    (hu : ∀ u ∈ p.walk, p.output o ∉ (p.op u).operands) :
    (p.erase o).Sound ∧ KeepsFlow p (p.erase o) := by
  have hk := OpKind.isUnary_of_isTransparent ho
  apply hp.erase
  case ho => exact hp.wellFormed.regions_eq_nil (OpKind.takesRegions_of_isUnary hk)
  case hk => simp [OpKind.isCore, ho]
  case hu =>
    intro u hw v hv hr
    rw [hp.wellFormed.results_eq hk, List.mem_singleton] at hr
    exact hu u hw (hr ▸ hv)

theorem Sound.bypass (ho : (p.op o).kind.isTransparent) :
    (p.bypass o).Sound ∧ KeepsFlow p (p.bypass o) := by
  obtain ⟨hq, hflow, hl, hu⟩ := hp.replaceUses_behind ho
  rw [Program.bypass]
  generalize p.replaceUses (p.output o) (p.input o) = q at hq hflow hl hu
  have ho' := (hl.alike o).transparent.trans ho
  have hout : q.output o = p.output o := by
    rw [output, (hl.alike o).results, ← output]
  rw [← hout] at hu
  obtain ⟨hr, hflow'⟩ := hq.erase_unary ho' hu
  exact ⟨hr, hflow.trans hp.wellFormed hflow'⟩

theorem Sound.erase_group (ho : (p.op o).kind.isGroup) :
    (p.erase o).Sound ∧ KeepsFlow p (p.erase o) := by
  apply hp.erase
  case ho =>
    apply hp.wellFormed.regions_eq_nil
    cases hk : (p.op o).kind <;> simp [hk, OpKind.isGroup] at ho
    rfl
  case hk => simp [OpKind.isCore, ho]
  case hu =>
    intro u _ v _ hr
    obtain ⟨_, _, he⟩ := (hp.wellFormed.shaped o).group ho
    simp [he] at hr

-- Reading from behind the operation that defines the operand.
theorem Sound.setOperand_behind (ho : (p.op o).kind.isTransparent)
    (hd : p.definer? (p.input o) = some u) (hu : (p.op u).kind.isTransparent) :
    (p.setOperand o 0 (p.input u)).Sound ∧ KeepsFlow p (p.setOperand o 0 (p.input u)) := by
  have hko := OpKind.isUnary_of_isTransparent ho
  have hku := OpKind.isUnary_of_isTransparent hu
  have hi := hp.wellFormed.eq_output_of_definer? (hp.wellFormed.input_lt hko) hd hku
  have hz : (p.op o).operands[0]? = some (p.output u) := by
    rw [hp.wellFormed.operands_eq hko, hi]
    rfl
  rw [setOperand_eq hz]
  apply hp.redirect_behind hu
  case hm => simpa using hz
  case hn => simp
  case hs =>
    intro use hm hw
    have he : use = ⟨o, 0⟩ := by simpa using hm
    subst he
    exact (hp.inScope_behind hu hw (List.mem_of_getElem? hz)).right

end Bypass

end MeshSharding.Program
