import MeshSharding.Proofs.Flow.Keeps
import MeshSharding.Proofs.Reachable

namespace MeshSharding.Program

variable {p q r : Program} {o u : OpId} {v w source target : ValueId} {b : BlockId} {keep : OpId → Bool}

-- Nothing but operands and kinds changes.
structure Relinks (p q : Program) : Prop where
  wellFormed : q.WellFormed
  length     : q.operations.length = p.operations.length
  blocks     : q.blocks = p.blocks
  definer    : ∀ v, q.definer? v = p.definer? v
  alike      : ∀ o, (p.op o).Alike (q.op o)
  arity      : ∀ o, (q.op o).operands.length = (p.op o).operands.length

namespace Relinks

theorem block (h : Relinks p q) (b : BlockId) : q.block b = p.block b := by
  rw [Program.block, h.blocks, Program.block]

theorem rewrites (h : Relinks p q) : Rewrites (fun _ => true) p q where
  length         := by rw [h.blocks]
  arguments b    := by rw [h.block]
  operations b   := by rw [h.block]
  alike o _      := h.alike o
  left o ho      := by simp at ho
  right o ho     := by simp at ho

theorem mem_walk_iff (h : Relinks p q) : o ∈ q.walk ↔ o ∈ p.walk :=
  h.rewrites.mem_walk_iff rfl

theorem trans (h : Relinks p q) (h' : Relinks q r) : Relinks p r where
  wellFormed := h'.wellFormed
  length     := h'.length.trans h.length
  blocks     := h'.blocks.trans h.blocks
  definer v  := (h'.definer v).trans (h.definer v)
  alike o    := (h.alike o).trans (h'.alike o)
  arity o    := (h'.arity o).trans (h.arity o)

-- An operand that changes has the same root as before, and is in scope.
theorem keeps (h : Relinks p q) (hp : p.Sound)
    (ho : ∀ o (i : Nat) v w, (p.op o).operands[i]? = some v → (q.op o).operands[i]? = some w → v = w ∨
      (∀ root, q.Root v root → q.Root w root) ∧ (o ∈ p.walk → p.InScope o w)) :
    q.Sound ∧ KeepsFlow p q := by
  have hroot : ∀ o (i : Nat) v w, (p.op o).operands[i]? = some v → (q.op o).operands[i]? = some w →
      ∀ root, q.Root v root → q.Root w root := by
    intro o i v w hv hw root hr
    obtain rfl | ⟨hr', _⟩ := ho o i v w hv hw
    · exact hr
    · exact hr' root hr
  have hk : KeepsRoots p q := {
    definer v _     := h.definer v
    transparent o _ := (h.alike o).transparent
    input o _ ht root hr := by
      have hu := OpKind.isUnary_of_isTransparent ht
      have hu' := OpKind.isUnary_of_isTransparent ((h.alike o).transparent.trans ht)
      refine hroot o 0 (p.input o) (q.input o) ?_ ?_ root hr
      · rw [hp.wellFormed.operands_eq hu, List.getElem?_cons_zero]
      · rw [h.wellFormed.operands_eq hu', List.getElem?_cons_zero] }
  refine ⟨⟨h.wellFormed, h.rewrites.rooted hp.rooted, fun o hw w hm => ?_⟩, ?_⟩
  · have hw := h.mem_walk_iff.mp hw
    refine h.rewrites.inScope rfl (fun _ _ => rfl) ?_
    have ⟨i, hi⟩ := List.mem_iff_getElem?.mp hm
    have hl : i < (p.op o).operands.length := by
      rw [← h.arity]
      exact (List.getElem?_eq_some_iff.mp hi).choose
    have hv := List.getElem?_eq_getElem hl
    obtain he | ⟨_, hs⟩ := ho o i _ w hv hi
    · exact he ▸ hp.scope o hw _ (List.getElem_mem hl)
    · exact hs hw
  · exact {
      grows       := h.length.ge
      lived o hw _ := h.mem_walk_iff.mp hw
      core        := h.rewrites.core
      arity o _ _ := h.arity o
      roots o _ _ i v w hv hw root hr := by
        have hlt := hp.wellFormed.operands o v (List.mem_of_getElem? hv)
        exact hroot o i v w hv hw root (hk.root hp.wellFormed hlt hr) }

end Relinks

theorem Rewrites.relinks (h : Rewrites keep p q) (h' : Relinks q r) : Rewrites keep p r where
  length       := by rw [h'.blocks, h.length]
  arguments b  := by rw [h'.block, h.arguments]
  operations b := by rw [h'.block, h.operations]
  alike o ho   := (h.alike o ho).trans (h'.alike o)
  left         := h.left
  right o ho   := by
    refine ⟨(h'.alike o).regions.trans (h.right o ho).left, fun hw => ?_⟩
    exact (h'.alike o).core.trans ((h.right o ho).right (h'.mem_walk_iff.mp hw))

section Redirect

variable {moved : List Use}

theorem WellFormed.relinks_redirect (hp : p.WellFormed) (ht : target.index < p.values.length)
    (hm : ∀ use ∈ moved, (p.op use.user).operands[use.index]? = some source) (hn : moved.Nodup) :
    Relinks p (p.redirect source target moved) where
  wellFormed := hp.redirect ht hm hn
  length     := length_operations_redirect
  blocks     := blocks_redirect
  definer v  := by rw [definer?, definitionOf_redirect, definer?]
  arity o    := length_operands_redirect
  alike o    := .of_kind_eq kind_redirect results_redirect regions_redirect block_op_redirect

theorem Sound.redirect (hp : p.Sound) (ht : target.index < p.values.length)
    (hm : ∀ use ∈ moved, (p.op use.user).operands[use.index]? = some source) (hn : moved.Nodup)
    (hr : ∀ root, (p.redirect source target moved).Root source root →
      (p.redirect source target moved).Root target root)
    (hs : ∀ use ∈ moved, use.user ∈ p.walk → p.InScope use.user target) :
    (p.redirect source target moved).Sound ∧ KeepsFlow p (p.redirect source target moved) := by
  refine (hp.wellFormed.relinks_redirect ht hm hn).keeps hp fun o i v w hv hw => ?_
  rw [operands_redirect hm] at hw
  split at hw
  case isTrue hu =>
    have hv := Option.some.inj (hv.symm.trans (hm _ hu))
    obtain rfl := Option.some.inj hw
    subst hv
    exact .inr ⟨hr, hs ⟨o, i⟩ hu⟩
  case isFalse => exact .inl (Option.some.inj (hv.symm.trans hw))

-- A result of a transparent operation can be replaced by the operand where this is in scope.
theorem Sound.redirect_behind (hp : p.Sound) (ho : (p.op o).kind.isTransparent)
    (hm : ∀ use ∈ moved, (p.op use.user).operands[use.index]? = some (p.output o)) (hn : moved.Nodup)
    (hs : ∀ use ∈ moved, use.user ∈ p.walk → p.InScope use.user (p.input o)) :
    (p.redirect (p.output o) (p.input o) moved).Sound ∧
      KeepsFlow p (p.redirect (p.output o) (p.input o) moved) := by
  have hu := OpKind.isUnary_of_isTransparent ho
  refine hp.redirect (hp.wellFormed.input_lt hu) hm hn (fun root hr => ?_) hs
  -- The operand of the operation itself stays, or is replaced by itself.
  have hi : (p.redirect (p.output o) (p.input o) moved).input o = p.input o := by
    rw [input, operands_redirect hm, hp.wellFormed.operands_eq hu]
    split <;> rfl
  have hd : (p.redirect (p.output o) (p.input o) moved).definer? (p.output o) = some o := by
    rw [definer?, definitionOf_redirect, ← definer?]
    exact hp.wellFormed.definer?_of_result (by simp [hp.wellFormed.results_eq hu])
  rwa [root_iff_of_transparent hd (by rwa [kind_redirect]), hi] at hr

end Redirect

section Kinds

theorem WellFormed.relinks_self (hp : p.WellFormed) : Relinks p p where
  wellFormed := hp
  length     := rfl
  blocks     := rfl
  definer _  := rfl
  arity _    := rfl
  alike _    := .of_kind_eq rfl rfl rfl rfl

theorem WellFormed.relinks_of_bare_eq (hp : p.WellFormed) (h : q.bare = p.bare) : Relinks p q where
  wellFormed := hp.of_bare_eq h
  length     := read_of_bare_eq (fun r => r.operations.length) bare_length_operations h
  blocks     := read_of_bare_eq (fun r => r.blocks) bare_blocks h
  definer v  := read_of_bare_eq (fun r => r.definer? v) (fun r => r.bare_definer? v) h
  arity o    := read_of_bare_eq (fun r => (r.op o).operands.length) (by simp) h
  alike o    := {
    results     := read_of_bare_eq (fun r => (r.op o).results) (by simp) h
    regions     := read_of_bare_eq (fun r => (r.op o).regions) (by simp) h
    block       := read_of_bare_eq (fun r => (r.op o).block) (by simp) h
    isolated    := read_of_bare_eq (fun r => (r.op o).kind.isIsolated) (by simp) h
    transparent := read_of_bare_eq (fun r => (r.op o).kind.isTransparent) (by simp) h
    group       := read_of_bare_eq (fun r => (r.op o).kind.isGroup) (by simp) h
    mnemonic _  := read_of_bare_eq (fun r => (r.op o).mnemonic) (by simp [Operation.mnemonic]) h }

theorem Sound.of_bare_eq (hp : p.Sound) (h : q.bare = p.bare) : q.Sound ∧ KeepsFlow p q := by
  refine (hp.wellFormed.relinks_of_bare_eq h).keeps hp fun o i v w hv hw => .inl ?_
  rw [read_of_bare_eq (fun r => (r.op o).operands) (by simp) h] at hw
  exact Option.some.inj (hv.symm.trans hw)

theorem WellFormed.relinks_setKind {kind : OpKind} (hp : p.WellFormed)
    (ho : (p.op o).kind.isTransparent) (hk : kind.isTransparent) : Relinks p (p.setKind o kind) := by
  have hu := OpKind.isUnary_of_isTransparent ho
  have hu' := OpKind.isUnary_of_isTransparent hk
  have ha (u : OpId) : (p.op u).Alike ((p.setKind o kind).op u) := by
    rw [op_setKind]
    split
    case isFalse => exact .of_kind_eq rfl rfl rfl rfl
    case isTrue he =>
      have he := he.left
      subst he
      exact {
        results     := rfl
        regions     := rfl
        block       := rfl
        isolated    := by simp [OpKind.isIsolated_of_isUnary hu, OpKind.isIsolated_of_isUnary hu']
        transparent := by simp [ho, hk]
        group       := by simp [OpKind.isGroup_of_isUnary hu, OpKind.isGroup_of_isUnary hu']
        mnemonic hc := by simp [OpKind.isCore, ho] at hc }
  exact {
    wellFormed := hp.setKind hu hu'
    length     := by simp [Program.setKind]
    blocks     := rfl
    definer _  := rfl
    arity u    := by rw [op_setKind]
    alike      := ha }

theorem Sound.setKind {kind : OpKind} (hp : p.Sound) (ho : (p.op o).kind.isTransparent)
    (hk : kind.isTransparent) : (p.setKind o kind).Sound ∧ KeepsFlow p (p.setKind o kind) := by
  refine (hp.wellFormed.relinks_setKind ho hk).keeps hp fun u i v w hv hw => .inl ?_
  rw [op_setKind] at hw
  exact Option.some.inj (hv.symm.trans hw)

end Kinds

section EraseLeaf

theorem op_erase_leaf (h : (p.op o).regions = []) :
    (p.erase o).op u = { p.op u with erased := (p.op u).erased || u = o } := by
  have hn : (p.detach o).nestedIn o = [] := by
    rw [nestedIn, detach, op_modifyBlock, h, List.flatMap_nil]
  rw [op_erase, hn]
  simp

theorem WellFormed.block_erase_leaf (hp : p.WellFormed) (h : (p.op o).regions = []) :
    (p.erase o).block b =
      { p.block b with operations := (p.block b).operations.filter (· ≠ o) } := by
  have hn : (p.detach o).nestedIn o = [] := by
    rw [nestedIn, detach, op_modifyBlock, h, List.flatMap_nil]
  have hr : ((p.detach o).op o).regions = [] := h
  rw [erase_eq, hn, block_foldl_eraseAlone, if_neg (by simp [hr]), block_detach]
  split
  case isTrue => rfl
  case isFalse hb =>
    have hf : (p.block b).operations.filter (· ≠ o) = (p.block b).operations := by
      refine List.filter_eq_self.mpr fun u hu => ?_
      refine decide_eq_true fun he => hb ?_
      exact (hp.members b o (he ▸ hu)).right.symm
    rw [hf]

theorem WellFormed.erase_rewrites (hp : p.WellFormed) (ho : (p.op o).regions = [])
    (hk : (p.op o).kind.isCore = false) : Rewrites (· ≠ o) p (p.erase o) where
  length       := length_blocks_erase
  arguments b  := by rw [hp.block_erase_leaf ho]
  operations b := by
    rw [hp.block_erase_leaf ho, List.filter_filter]
    simp
  alike u _    := by
    rw [op_erase_leaf ho]
    exact .of_kind_eq rfl rfl rfl rfl
  left u he    := by
    have he : u = o := by simpa using he
    exact he ▸ ⟨ho, fun _ => hk⟩
  right u he   := by
    have he : u = o := by simpa using he
    rw [op_erase_leaf ho, he]
    exact ⟨ho, fun _ => hk⟩

theorem WellFormed.ne_of_mem_walk_erase (hp : p.WellFormed) (ho : (p.op o).regions = [])
    (hu : u ∈ (p.erase o).walk) : u ≠ o := by
  have he := (hp.erase o).not_erased hu
  intro h
  simp [op_erase_leaf ho, h] at he

-- An operation that nothing uses.
theorem Sound.erase (hp : p.Sound) (ho : (p.op o).regions = []) (hk : (p.op o).kind.isCore = false)
    (hu : ∀ u ∈ p.walk, ∀ v ∈ (p.op u).operands, v ∉ (p.op o).results) :
    (p.erase o).Sound ∧ KeepsFlow p (p.erase o) := by
  have hop (u : OpId) := op_erase_leaf (u := u) ho
  have hr := hp.wellFormed.erase_rewrites ho hk
  have hw : ∀ u ∈ (p.erase o).walk, u ≠ o ∧ u ∈ p.walk := by
    intro u hu
    have hne := hp.wellFormed.ne_of_mem_walk_erase ho hu
    exact ⟨hne, (hr.mem_walk_iff (by simpa using hne)).mp hu⟩
  have hk : KeepsRoots p (p.erase o) := {
    definer v _       := by rw [definer?, definitionOf_erase, definer?]
    transparent u _   := by rw [hop]
    input u _ _ _ h   := by rwa [input, hop] }
  refine ⟨⟨hp.wellFormed.erase o, hr.rooted hp.rooted, fun u h v hv => ?_⟩, ?_⟩
  · obtain ⟨hne, h⟩ := hw u h
    rw [hop] at hv
    refine hr.inScope (by simpa using hne) (fun w hw => ?_) (hp.scope u h v hv)
    exact decide_eq_true fun he => hu u h v hv (he ▸ hw)
  · apply hr.keepsFlow hp.wellFormed hk length_operations_erase.ge
    case hn => exact fun u h _ => by simpa using (hw u h).left
    case ho => exact fun u _ => by rw [hop]

end EraseLeaf

section PlaceEdge

variable {before after : List OpId}

theorem insertIdx_append (before after : List OpId) (e : OpId) :
    (before ++ after).insertIdx before.length e = before ++ e :: after := by
  induction before with
  | nil => exact List.insertIdx_zero
  | cons o before ih =>
    rw [List.cons_append, List.length_cons, List.insertIdx_succ_cons, ih, List.cons_append]

theorem block_placeEdge (ho : o ∈ before) (hb : (p.block b).operations = before ++ after)
    (v : ValueId) (sharding : Option Sharding) :
    ((p.place b before.length (.edge v sharding)).block b).operations =
      before ++ p.nextOp :: after := by
  have hl : b.index < p.blocks.length := by
    by_contra hc
    have he : before = [] ∧ after = [] := by
      simpa [block_of_length_le (Nat.le_of_not_lt hc)] using hb
    simp [he.left] at ho
  rw [block_place]
  simp only [hl, and_self, if_true, hb]
  exact insertIdx_append before after p.nextOp

theorem filter_insertIdx {α : Type} {keep : α → Bool} {a : α} (ha : keep a = false) (l : List α) (n : Nat) :
    (l.insertIdx n a).filter keep = l.filter keep := by
  induction l generalizing n with
  | nil         => cases n <;> simp [ha]
  | cons b l ih => cases n <;> simp [List.filter_cons, ha, ih]

theorem WellFormed.place_rewrites {new : NewOp} (hp : p.WellFormed) (hr : new.regions = [])
    (hk : new.kind.isCore = false) (b : BlockId) (position : Nat) :
    Rewrites (· ≠ p.nextOp) p (p.place b position new) where
  length       := length_blocks_place
  arguments c  := by rw [block_place]
  operations c := by
    rw [block_place]
    dsimp only
    split
    case isTrue  => exact filter_insertIdx (by simp) _ _
    case isFalse => rfl
  alike u hu   := by
    rw [op_place_of_ne (by simpa using hu)]
    exact .of_kind_eq rfl rfl rfl rfl
  left u he    := by
    have he : u = p.nextOp := by simpa using he
    rw [he, op_nextOp]
    exact ⟨rfl, fun h => absurd rfl (ne_nextOp (hp.walk_lt h))⟩
  right u he   := by
    have he : u = p.nextOp := by simpa using he
    rw [he, op_place_nextOp]
    exact ⟨hr, fun _ => hk⟩

theorem keepsRoots_place (b : BlockId) (position : Nat) (new : NewOp) :
    KeepsRoots p (p.place b position new) where
  definer v hv       := by
    have hd : (p.place b position new).definitionOf v = p.definitionOf v :=
      ((definitionOf_place_iff _).mpr (.inl ⟨hv, rfl⟩)).right
    rw [definer?, hd, definer?]
  transparent u hu   := by rw [op_place_of_ne (ne_nextOp hu)]
  input u hu _ _ h   := by rwa [input, op_place_of_ne (ne_nextOp hu)]

-- An edge operation on a result, somewhere after the operation of this.
theorem Sound.placeEdge (hp : p.Sound) (ho : o ∈ before) (hv : v ∈ (p.op o).results)
    (hb : (p.block b).operations = before ++ after) (sharding : Option Sharding) :
    let q := p.place b before.length (.edge v sharding)
    q.Sound ∧ KeepsFlow p q := by
  intro q
  have hq : q.WellFormed := by
    refine hp.wellFormed.place ⟨?_, by simp [NewOp.regions]⟩ b before.length
    simpa [NewOp.operands] using hp.wellFormed.result_lt hv
  have hr : Rewrites (· ≠ p.nextOp) p q := hp.wellFormed.place_rewrites rfl rfl b before.length
  have hw : ∀ u ∈ q.walk, u ≠ p.nextOp → u ∈ p.walk := by
    intro u hu hn
    exact (hr.mem_walk_iff (by simpa using hn)).mp hu
  have hedge : q.InScope p.nextOp v := by
    have hob : o ∈ (p.block b).operations := hb ▸ List.mem_append_left after ho
    have hno := ne_nextOp (hp.wellFormed.member_lt hob)
    have hqb : (q.block b).operations = before ++ p.nextOp :: after := block_placeEdge ho hb v sharding
    have hn := hqb ▸ hq.nodup b
    refine .result (b := b) (u := o) ?_ (by rwa [op_place_of_ne hno])
    rw [hqb]
    exact (pair_sublist_append_iff hn).mpr ho
  refine ⟨⟨hq, hr.rooted hp.rooted, fun u hu w hm => ?_⟩, ?_⟩
  · by_cases hn : u = p.nextOp
    case pos =>
      rw [hn, op_place_nextOp] at hm
      rw [hn, List.mem_singleton.mp hm]
      exact hedge
    case neg =>
      rw [op_place_of_ne hn] at hm
      refine hr.inScope (by simpa using hn) (fun o' ho' => ?_) (hp.scope u (hw u hu hn) w hm)
      refine decide_eq_true fun he => ?_
      simp [he, op_nextOp] at ho'
  · apply hr.keepsFlow hp.wellFormed (keepsRoots_place b _ _) (by simp [q])
    case hn => exact fun u _ hl => by simpa using ne_nextOp hl
    case ho => exact fun u hn => by rw [op_place_of_ne (by simpa using hn)]

end PlaceEdge

end MeshSharding.Program
