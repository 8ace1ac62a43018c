import MeshSharding.Proofs.Seeding.Move

namespace MeshSharding.Program

-- The program once an operation has been gone over, where the one operation stands for seeding a value.
def visit? (c : OpId) (x : ValueId) (s : Sharding) (p : Program) (o : OpId) : Option Program :=
  if o = c then p.seed? x s else p.move? o

variable {p q : Program} {o c : OpId} {x : ValueId} {s : Sharding} {os : List OpId}

section Seeds

-- A constraint that will be moved onto the value, and that no other constraint reads from.
structure Seeds (p : Program) (c : OpId) (x : ValueId) (s : Sharding) : Prop where
  wellFormed : p.WellFormed
  kind       : (p.op c).kind = .constraint s
  input      : p.input c = x
  unused     : p.hasUses (p.output c) = false
  settable   : p.isSettable x
  apart      : ∀ o t, (p.op o).kind = .constraint t → p.output o ≠ x

theorem Follows.seeds (h : Follows p q) (hc : p.Seeds c x s) : q.Seeds c x s where
  wellFormed := h.wellFormed
  kind       := h.constraint.mpr hc.kind
  input      := h.input.trans hc.input
  settable   := h.isSettable.trans hc.settable
  unused     := by
    by_contra hu
    have hp := h.used _ (by simpa using hu)
    rw [h.output, hc.unused] at hp
    contradiction
  apart o t hk := by
    rw [h.output]
    exact hc.apart o t (h.constraint.mp hk)

namespace Seeds

theorem move?_eq (h : p.Seeds c x s) : p.move? c = (p.seed? x s).map (·.erase c) := by
  rw [move?_of_eq_some (dangling?_eq_some_iff.mpr ⟨h.kind, h.unused, h.input ▸ h.settable⟩), h.input]

theorem erase_erase (h : p.Seeds c x s) : (p.erase c).erase c = p.erase c :=
  have ⟨ho, hr⟩ := h.wellFormed.constraint_leaf h.kind
  erase_idem ho hr

theorem move?_erase (h : p.Seeds c x s) : (p.erase c).move? o = (p.move? o).map (·.erase c) := by
  refine Program.move?_erase h.wellFormed h.kind fun t hk => ?_
  rw [h.input]
  exact h.apart o t hk

-- Without the constraint, its turn is that of the value.
theorem foldlM_erase (h : p.Seeds c x s) (os : List OpId) :
    os.foldlM (visit? c x s) (p.erase c) = (os.foldlM move? p).map (·.erase c) := by
  induction os generalizing p with
  | nil          => rfl
  | cons o os ih =>
    rw [List.foldlM_cons, List.foldlM_cons, visit?]
    split
    case isTrue ho =>
      subst ho
      rw [seed?_erase h.wellFormed h.kind, h.move?_eq]
      cases hq : p.seed? x s with
      | none   => rfl
      | some q =>
        have hf := h.wellFormed.follows_seed? hq
        have he := hf.wellFormed.follows_erase (hf.seeds h).kind ((hf.seeds h).input ▸ (hf.seeds h).settable)
        have hi := ih ((hf.trans he).seeds h)
        rwa [(hf.seeds h).erase_erase] at hi
    case isFalse =>
      rw [h.move?_erase]
      cases hq : p.move? o with
      | none   => rfl
      | some q => exact ih ((h.wellFormed.follows_move? hq).seeds h)

-- Once it is erased, it stays so.
theorem foldlM_of_erased (h : p.Seeds c x s) (he : p.erase c = p) (os : List OpId) :
    (os.foldlM move? p).map (·.erase c) = os.foldlM move? p := by
  induction os generalizing p with
  | nil          => exact congrArg some he
  | cons o os ih =>
    have hm := h.move?_erase (o := o)
    rw [he] at hm
    rw [List.foldlM_cons]
    cases hq : p.move? o with
    | none   => rfl
    | some q =>
      rw [hq, Option.map_some, Option.some.injEq] at hm
      exact ih ((h.wellFormed.follows_move? hq).seeds h) hm.symm

theorem foldlM_of_mem (h : p.Seeds c x s) (hc : c ∈ os) :
    (os.foldlM move? p).map (·.erase c) = os.foldlM move? p := by
  induction os generalizing p with
  | nil          => contradiction
  | cons o os ih =>
    rw [List.foldlM_cons]
    cases hq : p.move? o with
    | none   => rfl
    | some q =>
      have hf := (h.wellFormed.follows_move? hq).seeds h
      obtain rfl | hc := List.mem_cons.mp hc
      case inl =>
        rw [h.move?_eq, Option.map_eq_some_iff] at hq
        obtain ⟨r, hr, rfl⟩ := hq
        exact hf.foldlM_of_erased ((h.wellFormed.follows_seed? hr).seeds h).erase_erase os
      case inr => exact ih hf hc

end Seeds

end Seeds

section Seed

-- The constraint is moved onto its operand, or may be once others have been: an edge operation that is not
-- part of the program can stand on its result.
def MayMove (p : Program) (o : OpId) : Prop :=
  p.isSettable (p.input o) ∧ (p.hasUses (p.output o) = false ∨ p.isSettable (p.output o))

theorem Follows.mayMove (h : Follows p q) (hd : q.dangling? o = some s) : p.MayMove o := by
  obtain ⟨_, hu, hi⟩ := dangling?_eq_some_iff.mp hd
  rw [h.output] at hu
  rw [h.input, h.isSettable] at hi
  exact ⟨hi, h.unused _ hu⟩

-- Seeding a value before the operations are gone over is the same as seeding it afterwards, and so is seeding
-- it in between.
theorem Follows.foldlM_visit? (hf : Follows p q) (h : ∀ o ∈ os, o ≠ c → p.MayMove o → p.Clear x s o) :
    (q.seed? x s).bind (os.foldlM (visit? c x s) ·) =
        ((os.filter (· ≠ c)).foldlM move? q).bind (·.seed? x s) ∧
      (c ∈ os → os.foldlM (visit? c x s) q = ((os.filter (· ≠ c)).foldlM move? q).bind (·.seed? x s)) := by
  induction os generalizing q with
  | nil          => simp
  | cons o os ih =>
    have hos : ∀ u ∈ os, u ≠ c → p.MayMove u → p.Clear x s u := fun u hu => h u (List.mem_cons_of_mem o hu)
    by_cases ho : o = c
    case pos =>
      subst ho
      have hv (r : Program) : (o :: os).foldlM (visit? o x s) r = (r.seed? x s).bind (os.foldlM (visit? o x s) ·) := by
        rw [List.foldlM_cons, visit?, if_pos rfl]
        rfl
      rw [List.filter_cons_of_neg (by simp), funext hv, ← Option.bind_assoc, seed?_idem]
      exact ⟨(ih hf hos).left, fun _ => (hv q).trans (ih hf hos).left⟩
    case neg =>
      have hv (r : Program) : (o :: os).foldlM (visit? c x s) r = (r.move? o).bind (os.foldlM (visit? c x s) ·) := by
        rw [List.foldlM_cons, visit?, if_neg ho]
        rfl
      have hm : (q.move? o).bind (·.seed? x s) = (q.seed? x s).bind (·.move? o) :=
        seed?_move? hf.wellFormed fun t hd => hf.clear (h o List.mem_cons_self ho (hf.mayMove hd))
      rw [List.filter_cons_of_pos (by simpa using ho), funext hv, ← Option.bind_assoc, ← hm, Option.bind_assoc,
        List.foldlM_cons]
      rw [hv q]
      cases hq : q.move? o with
      | none   => exact ⟨rfl, fun _ => rfl⟩
      | some r =>
        obtain ⟨hs, hi⟩ := ih (hf.trans (hf.wellFormed.follows_move? hq)) hos
        exact ⟨hs, fun hc => hi ((List.mem_cons.mp hc).resolve_left (Ne.symm ho))⟩

theorem foldlM_visit?_of_not_mem (h : c ∉ os) : os.foldlM (visit? c x s) p = os.foldlM move? p := by
  induction os generalizing p with
  | nil          => rfl
  | cons o os ih =>
    have ⟨ho, hos⟩ := List.ne_and_not_mem_of_not_mem_cons h
    rw [List.foldlM_cons, List.foldlM_cons, visit?, if_neg (Ne.symm ho)]
    exact congrArg _ (funext fun _ => ih hos)

-- No constraint that may be moved gets in the way of seeding the value.
def Undisturbed (p : Program) (x : ValueId) (s : Sharding) : Prop :=
  ∀ o ∈ p.walk, p.MayMove o → p.Clear x s o

theorem Undisturbed.foldlM_seed? (h : p.Undisturbed x s) (hp : p.WellFormed) :
    ((p.seed? x s).bind fun r => r.walk.foldlM move? r) = (p.walk.foldlM move? p).bind (·.seed? x s) := by
  have hc : p.nextOp ∉ p.walk := fun ho => ne_nextOp (hp.walk_lt ho) rfl
  have hf : p.walk.filter (· ≠ p.nextOp) = p.walk :=
    List.filter_eq_self.mpr fun o ho => by simpa using ne_nextOp (hp.walk_lt ho)
  have hv := ((Follows.refl hp).foldlM_visit? (c := p.nextOp) fun o ho _ => h o ho).left
  rw [hf] at hv
  rw [← hv]
  refine Option.bind_congr fun r hr => ?_
  have hw : r.walk = p.walk := read_of_bare_eq walk bare_walk (bare_of_seed? hr)
  rw [hw, foldlM_visit?_of_not_mem hc]

end Seed

end MeshSharding.Program
