import MeshSharding.Proofs.Flow.Scope

namespace MeshSharding

namespace Collective

-- A collective without axes does nothing. All moves have axes.
def isTransparent (collective : Collective) : Bool :=
  match collective.action with
  | .allGather axes | .allSlice axes | .reduceScatter axes => axes.all (·.isEmpty)
  | .allToAll _        => false
  | .collectivePermute => true
  | .allReduce axes    => axes.isEmpty

theorem isTransparent_of_isIdentityOn {collective : Collective} {operand : Sharding}
    (h : collective.isIdentityOn operand) : collective.isTransparent := by
  simp only [isIdentityOn] at h
  simp only [isTransparent]
  cases ha : collective.action <;> simp only [ha] at h ⊢ <;> exact h

end Collective

namespace OpKind

def isTransparent : OpKind → Bool
  | constraint _ | reshard _ | edge _ | barrier _ => true
  | collective c                                  => c.isTransparent
  | _                                             => false

variable {kind : OpKind}

theorem isUnary_of_isTransparent (h : kind.isTransparent) : kind.isUnary := by
  cases kind <;> first | rfl | contradiction

theorem isTransparent_of_isEdge (h : kind.isEdge) : kind.isTransparent := by
  cases kind <;> first | rfl | contradiction

theorem exists_edge (h : kind.isEdge) : ∃ sharding, kind = .edge sharding := by
  cases kind <;> first | exact ⟨_, rfl⟩ | contradiction

@[simp]
theorem bare_isTransparent : kind.bare.isTransparent = kind.isTransparent := by
  cases kind <;> rfl

end OpKind

namespace Program

-- Some operations hand on their operand as it is, only sharded otherwise; they are transparent, and the
-- root of a value is what is found behind them.
inductive Root (p : Program) : ValueId → ValueId → Prop
  | here {v} : (∀ o, p.definer? v = some o → (p.op o).kind.isTransparent = false) → Root p v v
  | behind {v o root} : p.definer? v = some o → (p.op o).kind.isTransparent →
      Root p (p.input o) root → Root p v root

variable {p q : Program} {o u : OpId} {v r s : ValueId}

-- A value has at most one root. In a cycle of transparent operations there would be none.
theorem Root.unique (h : p.Root v r) (h' : p.Root v s) : r = s := by
  induction h with
  | here hn =>
    cases h' with
    | here _ => rfl
    | behind ho ht _ =>
      rw [hn _ ho] at ht
      contradiction
  | behind ho ht _ ih =>
    cases h' with
    | here hn =>
      rw [hn _ ho] at ht
      contradiction
    | behind ho' _ h' =>
      have he := Option.some.inj (ho.symm.trans ho')
      subst he
      exact ih h'

theorem root_iff_of_transparent (ho : p.definer? v = some o) (ht : (p.op o).kind.isTransparent) :
    p.Root v r ↔ p.Root (p.input o) r where
  mpr h := .behind ho ht h
  mp h  := by
    cases h with
    | here hn =>
      rw [hn _ ho] at ht
      contradiction
    | behind ho' _ h =>
      have he := Option.some.inj (ho.symm.trans ho')
      exact he ▸ h

namespace WellFormed

theorem result_of_definer? (hp : p.WellFormed) (hv : v.index < p.values.length)
    (h : p.definer? v = some o) : v ∈ (p.op o).results := by
  cases hd : p.definitionOf v with
  | argument b index => simp [definer?, hd] at h
  | result u index =>
    simp only [definer?, hd, Option.some.injEq] at h
    subst h
    exact List.mem_of_getElem? ((hp.results v u index).mpr ⟨hv, hd⟩)

theorem eq_output_of_definer? (hp : p.WellFormed) (hv : v.index < p.values.length)
    (h : p.definer? v = some o) (hk : (p.op o).kind.isUnary) : v = p.output o := by
  have hr := hp.result_of_definer? hv h
  rwa [hp.results_eq hk, List.mem_singleton] at hr

-- The operations behind a value come one before the other.
theorem exists_root (hp : p.WellFormed) (ht : p.IsTree) (hs : p.Scoped) (ho : o ∈ p.walk)
    (hv : v ∈ (p.op o).operands) : ∃ root, p.Root v root := by
  have hs := (hp.scoped_iff (ht.rooted hp)).mp hs
  have hn := hp.walk_nodup ht
  induction hi : p.walk.idxOf o using Nat.strongRecOn generalizing o v with
  | ind i ih =>
    by_cases h : ∀ u, p.definer? v = some u → (p.op u).kind.isTransparent = false
    case pos => exact ⟨v, .here h⟩
    case neg =>
      push Not at h
      have ⟨u, hu, hk⟩ := h
      have hk : (p.op u).kind.isTransparent := by simpa using hk
      have hr := hp.result_of_definer? (hp.operands o v hv) hu
      have hb := hp.before_of_inScope ht (hs o ho v hv) ho hr
      have ⟨hw, _, hlt⟩ := (pair_sublist_iff hn).mp hb
      have ⟨root, h⟩ := ih _ (hi ▸ hlt) hw
        (by simp [hp.operands_eq (OpKind.isUnary_of_isTransparent hk)] : p.input u ∈ _) rfl
      exact ⟨root, .behind hu hk h⟩

end WellFormed

-- What the values of one program come from, they come from in the other one.
structure KeepsRoots (p q : Program) : Prop where
  definer     : ∀ v, v.index < p.values.length → q.definer? v = p.definer? v
  transparent : ∀ o, o.index < p.operations.length →
    (q.op o).kind.isTransparent = (p.op o).kind.isTransparent
  input       : ∀ o, o.index < p.operations.length → (p.op o).kind.isTransparent →
    ∀ root, q.Root (p.input o) root → q.Root (q.input o) root

theorem KeepsRoots.root (h : KeepsRoots p q) (hp : p.WellFormed) (hv : v.index < p.values.length)
    (hr : p.Root v r) : q.Root v r := by
  have hl : ∀ w u, w.index < p.values.length → p.definer? w = some u →
      u.index < p.operations.length := by
    intro w u hw hu
    have hr := hp.result_of_definer? hw hu
    by_contra hc
    simp [op_of_length_le (Nat.le_of_not_lt hc)] at hr
  induction hr with
  | here hn =>
    refine .here fun u hu => ?_
    rw [h.definer _ hv] at hu
    exact (h.transparent u (hl _ u hv hu)).trans (hn u hu)
  | behind hu ht _ ih =>
    have hlt := hl _ _ hv hu
    have hi := ih (hp.input_lt (OpKind.isUnary_of_isTransparent ht))
    exact .behind ((h.definer _ hv).trans hu) ((h.transparent _ hlt).trans ht) (h.input _ hlt ht _ hi)

end Program

end MeshSharding
