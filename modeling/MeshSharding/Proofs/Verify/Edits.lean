import MeshSharding.Proofs.Flow.Steps
import MeshSharding.Proofs.Verify.Frame
import MeshSharding.Proofs.Verify.Standing

namespace MeshSharding

-- The mesh, and how the dimensions are split.
def Sharding.layout (s : Sharding) : MeshRef × List (List AxisRef) :=
  (s.mesh, s.dimAxes)

namespace Program

-- An edit that keeps the types of operands and the ends of blocks.
structure Reworks (keep : OpId → Bool) (p q : Program) : Prop where
  rewrites   : Rewrites keep p q
  frame      : Frame p q
  sound      : q.Sound
  kept       : ∀ o ∈ q.walk, keep o
  last       : ∀ b, (q.block b).operations.getLast? = (p.block b).operations.getLast?
  terminator : ∀ o, (q.op o).kind.isTerminator = (p.op o).kind.isTerminator
  group      : ∀ o id, (q.op o).kind = .group id → (p.op o).kind = .group id
  operands   : ∀ o ∈ q.walk, (q.op o).operands.map p.typeOf = (p.op o).operands.map p.typeOf

variable {p q r : Program} {o u e : OpId} {v w source target : ValueId} {b : BlockId}
  {keep : OpId → Bool} {collective : Collective}

theorem Checked.checkUnary (h : p.Checked o) (hk : (p.op o).kind.isUnary) :
    p.checkUnary (p.op o) = .ok (p.input o) := by
  have hu {f : ValueId → Except Error Unit} (h : p.checkUnary (p.op o) >>= f = .ok ()) :
      p.checkUnary (p.op o) = .ok (p.input o) := by
    obtain ⟨v, hv, _⟩ := bind_eq_ok_iff.mp h
    rw [hv, input_eq_of_checkUnary hv]
  simp only [Checked] at h
  cases hc : (p.op o).kind <;> simp only [hc, OpKind.isUnary, Bool.false_eq_true] at h hk
  case collective _ => exact h.left
  all_goals
    simp only [checkOp, hc] at h
    exact hu h

theorem Checked.typeOf_eq (h : p.Checked o) (hk : (p.op o).kind.isUnary) :
    p.typeOf (p.input o) = p.typeOf (p.output o) := by
  obtain ⟨r, _, hr, ht⟩ := checkUnary_eq_ok_iff.mp (h.checkUnary hk)
  rw [ht, output, hr]
  rfl

-- Nothing but shardings changes.
theorem Sound.reworks_of_bare_eq (hp : p.Sound) (h : q.bare = p.bare) : Reworks (fun _ => true) p q where
  rewrites      := (hp.wellFormed.relinks_of_bare_eq h).rewrites
  frame         := .of_bare_eq h
  sound         := (hp.of_bare_eq h).left
  kept _ _      := rfl
  last b        := read_of_bare_eq (fun r => (r.block b).operations.getLast?) (by simp) h
  terminator o  := read_of_bare_eq (fun r => (r.op o).kind.isTerminator) (by simp) h
  group o id hk := by
    obtain he | ⟨_, _, _, he⟩ | ⟨_, _, _, he⟩ := OpKind.bare_cases (read_of_bare_eq (fun r => (r.op o).kind.bare)
      (by simp) h)
    · exact he ▸ hk
    all_goals simp [he] at hk
  operands o _  := by rw [read_of_bare_eq (fun r => (r.op o).operands) (by simp) h]

namespace Reworks

variable (h : Reworks keep p q)
include h

theorem recasts : Recasts keep p q where
  rewrites         := h.rewrites
  sound            := h.sound
  meshes           := h.frame.meshes
  types v _        := congrFun h.frame.types v
  enclosing        := h.frame.enclosingManual?
  last             := h.last
  terminator o _   := h.terminator o
  group o ho id hk := ⟨h.kept o ho, h.group o id hk⟩
  operands o ho _  := by rw [h.frame.types, h.operands o ho]

theorem mem_walk (ho : o ∈ q.walk) : o ∈ p.walk :=
  h.recasts.mem_walk ho (h.kept o ho)

theorem retyped (hp : p.Standing) (ho : o ∈ q.walk) : Retyped p q o :=
  h.recasts.retyped hp ho (h.kept o ho)

theorem valid (hp : p.Valid) (hc : ∀ o ∈ q.walk, q.Checked o) (hs : q.StoredFit) : q.Valid :=
  have hq := h.recasts.standing hp.standing
  ⟨hq.sound, hq.shallow, hq.body, hq.terminators, hc, hq.groups, hs⟩

-- Stored shardings that stay still fit.
theorem stored (hp : p.StoredFit) (he : ∀ o, (p.op o).erased → (q.op o).erased)
    (hs : q.storedSharding v = p.storedSharding v) (s : Sharding) (hv : q.storedSharding v = some s)
    (hd : ∀ o, q.definer? v = some o → (q.op o).erased = false) : q.checkFits s v = .ok () := by
  rw [checkFits_congr h.frame.meshes (congrFun h.frame.types v)]
  refine hp v s (hs ▸ hv) fun o ho => ?_
  rw [← h.frame.definer?] at ho
  have hq := hd o ho
  by_contra hc
  simp [he o (by simpa using hc)] at hq

end Reworks

section Settles

-- Of the sharding of its operand, a collective looks at the mesh and at how the dimensions are split.
theorem Settles.congr (h : p.Settles collective v) (hm : q.meshes = p.meshes)
    (ht : q.typeOf w = p.typeOf v) {operand operand' : Sharding}
    (ho : p.operandSharding collective v = .ok operand)
    (ho' : q.operandSharding collective w = .ok operand')
    (hr : p.meshes.resolve operand'.mesh = p.meshes.resolve operand.mesh)
    (hd : operand'.dimAxes = operand.dimAxes) : q.Settles collective w := by
  obtain ⟨hf, _, mesh, outMesh, hop, hmesh, hout, hsame, hc⟩ := h
  cases ho.symm.trans hop
  refine ⟨(checkFits_congr hm ht _).trans hf, operand', mesh, outMesh, ho', ?_, ?_, hsame, ?_⟩
  · rw [hm, hr, hmesh]
  · rw [hm, hout]
  · have hd' : (operand'.withReplicated []).dimAxes = (operand.withReplicated []).dimAxes := hd
    exact Collective.check_congr hd' (by simp [Sharding.withReplicated, AxisRef.anyOverlaps]) hc

theorem Settles.of_layout_eq (h : p.Settles collective v) (hf : Frame p q)
    (ht : p.typeOf w = p.typeOf v)
    (hl : (q.sharding w).map Sharding.layout = (p.sharding v).map Sharding.layout) :
    q.Settles collective w := by
  have ht' : q.typeOf w = p.typeOf v := by rw [hf.types, ht]
  obtain ⟨_, operand, _, _, ho, _⟩ := id h
  cases hp : p.sharding v with
  | none =>
    cases hq : q.sharding w with
    | some s' => simp [hp, hq] at hl
    | none    =>
      have ho' : q.operandSharding collective w = .ok operand := by
        simpa [operandSharding, hp, hq, ht'] using ho
      exact h.congr hf.meshes ht' ho ho' rfl rfl
  | some s =>
    cases hq : q.sharding w with
    | none    => simp [hp, hq] at hl
    | some s' =>
      simp only [hp, hq, Option.map_some, Option.some.injEq, Sharding.layout, Prod.mk.injEq] at hl
      exact h.congr hf.meshes ht' (operandSharding_of_some hp) (operandSharding_of_some hq)
        (by rw [hl.left]) hl.right

end Settles

section Redirect

variable {moved : List Use}

-- A result of an operation that hands on its operand is replaced by this.
theorem Valid.redirect_reworks (hp : p.Valid) (ho : o ∈ p.walk) (ht : (p.op o).kind.isTransparent)
    (hm : ∀ use ∈ moved, (p.op use.user).operands[use.index]? = some (p.output o)) (hn : moved.Nodup) :
    Reworks (fun _ => true) p (p.redirect (p.output o) (p.input o) moved) where
  rewrites     := (hp.sound.wellFormed.relinks_redirect
    (hp.sound.wellFormed.input_lt (OpKind.isUnary_of_isTransparent ht)) hm hn).rewrites
  frame        := .redirect
  sound        := (hp.sound.redirect_behind ht hm hn fun use hu hw =>
    (hp.sound.inScope_behind ht hw (List.mem_of_getElem? (hm use hu))).right).left
  kept _ _     := rfl
  last b       := by rw [block_redirect]
  terminator u := by rw [kind_redirect]
  group u id h := by rwa [kind_redirect] at h
  operands u _ := by
    apply List.ext_getElem? fun i => ?_
    rw [List.getElem?_map, List.getElem?_map, operands_redirect hm]
    split
    case isFalse => rfl
    case isTrue hu =>
      have he := (hp.checks o ho).typeOf_eq (OpKind.isUnary_of_isTransparent ht)
      rw [hm _ hu, Option.map_some, Option.map_some, he]

variable (hp : p.Valid) (howned : p.EdgesOwned) (ho : o ∈ p.walk) (ht : (p.op o).kind.isTransparent)
  (hm : ∀ use ∈ moved, (p.op use.user).operands[use.index]? = some (p.output o))
include hp howned ht hm

omit hp howned ht in
theorem input_redirect (u : OpId) : (⟨u, 0⟩ ∈ moved ∧ p.input u = p.output o ∧
    (p.redirect (p.output o) (p.input o) moved).input u = p.input o) ∨
      (⟨u, 0⟩ ∉ moved ∧ (p.redirect (p.output o) (p.input o) moved).input u = p.input u) := by
  by_cases hu : ⟨u, 0⟩ ∈ moved
  · have hh := hm _ hu
    dsimp only at hh
    exact .inl ⟨hu, by simp [input, hh], by simp [input, operands_redirect hm, hu]⟩
  · exact .inr ⟨hu, by simp [input, operands_redirect hm, hu]⟩

-- No edge operation is moved, so nothing happens to the shardings.
theorem Valid.marks_redirect (v : ValueId) (e : OpId) :
    (p.redirect (p.output o) (p.input o) moved).marks v e = p.marks v e := by
  have hn := howned.not_marks hp.sound.wellFormed ht e
  simp only [marks, erased_redirect, kind_redirect, List.head?_eq_getElem?, operands_redirect hm] at hn ⊢
  split
  case isFalse => rfl
  case isTrue hu =>
    have hh := hm _ hu
    dsimp only at hh
    simp only [hh, decide_true, Bool.and_true] at hn
    simp [hn]

omit howned in
theorem Valid.input_redirect_of_owner (he : p.checkEdgeOwner (p.input e) = .ok ()) :
    (p.redirect (p.output o) (p.input o) moved).input e = p.input e := by
  obtain ⟨_, hi, _⟩ | ⟨_, hi⟩ := input_redirect hm e
  · exact absurd (hi ▸ he) (hp.sound.wellFormed.not_checkEdgeOwner ht)
  · exact hi

theorem Valid.sharding_redirect (v : ValueId) :
    (p.redirect (p.output o) (p.input o) moved).sharding v = p.sharding v := by
  refine Frame.redirect.sharding ?_ (fun _ => kind_redirect) storedSharding_redirect
  rw [Frame.redirect.edgeForTarget? (hp.marks_redirect howned ht hm) fun _ _ => erased_redirect]

include ho in
theorem Valid.redirect (hn : moved.Nodup) (hs : ∀ u ∈ p.walk, ⟨u, 0⟩ ∈ moved →
      ∀ collective, (p.op u).kind = .collective collective →
        p.Settles collective (p.output o) → p.Settles collective (p.input o)) :
    (p.redirect (p.output o) (p.input o) moved).Valid := by
  have hr := hp.redirect_reworks ho ht hm hn
  refine hr.valid hp (fun u hu => ?_) fun v s => hr.stored hp.stored (fun _ h => by rwa [erased_redirect])
    storedSharding_redirect s
  have hu := hr.mem_walk hu
  refine (hr.retyped hp.standing ‹_›).checked kind_redirect (hp.sound.wellFormed.shaped u) (hp.checks u hu) ?_ ?_
  · intro collective hk hc
    have hc' : p.Settles collective ((p.redirect (p.output o) (p.input o) moved).input u) := by
      obtain ⟨hu', hi, hi'⟩ | ⟨_, hi'⟩ := input_redirect hm u
      · rw [hi']
        exact hs u hu hu' collective hk (hi ▸ hc)
      · rwa [hi']
    exact hc'.of_layout_eq hr.frame rfl (by rw [hp.sharding_redirect howned ht hm])
  · intro _ he
    rw [hp.input_redirect_of_owner ht hm he]
    exact hr.frame.checkEdgeOwner he

end Redirect

section Erase

theorem getLast?_filter_ne {os : List OpId} (h : os.getLast? ≠ some o) :
    (os.filter (· ≠ o)).getLast? = os.getLast? := by
  obtain rfl | ⟨init, last, rfl⟩ := List.eq_nil_or_concat' os
  · rfl
  · rw [List.getLast?_concat] at h ⊢
    have hl : last ≠ o := by simpa using h
    simp [List.filter_append, hl]

theorem Standing.erase_reworks (hp : p.Standing) (ho : ∀ b, (p.block b).operations.getLast? ≠ some o)
    (hr : (p.op o).regions = []) (hk : (p.op o).kind.isCore = false)
    (hu : ∀ u ∈ p.walk, ∀ v ∈ (p.op u).operands, v ∉ (p.op o).results) :
    Reworks (· ≠ o) p (p.erase o) where
  rewrites     := hp.sound.wellFormed.erase_rewrites hr hk
  frame        := .erase
  sound        := (hp.sound.erase hr hk hu).left
  kept u h     := by simpa using hp.sound.wellFormed.ne_of_mem_walk_erase hr h
  last b       := by
    rw [hp.sound.wellFormed.block_erase_leaf hr]
    exact getLast?_filter_ne (ho b)
  terminator u := by rw [op_erase]
  group u id h := by rwa [op_erase] at h
  operands u _ := by rw [op_erase]

theorem Valid.erase (hp : p.Valid) (ho : o ∈ p.walk) (hr : (p.op o).regions = [])
    (hk : (p.op o).kind.isCore = false)
    (hu : ∀ u ∈ p.walk, ∀ v ∈ (p.op u).operands, v ∉ (p.op o).results)
    (hs : ∀ u ∈ p.walk, u ≠ o → ∀ collective, (p.op u).kind = .collective collective →
      p.Settles collective (p.input u) → (p.erase o).Settles collective (p.input u)) :
    (p.erase o).Valid := by
  have h := hp.standing.erase_reworks (hp.standing.not_last ho hk) hr hk hu
  refine h.valid hp (fun u hu => ?_) fun v s => h.stored hp.stored (fun u hu => ?_) ?_ s
  · have hw := h.mem_walk hu
    refine (h.retyped hp.standing hu).checked (by rw [op_erase]) (hp.sound.wellFormed.shaped u)
      (hp.checks u hw) ?_ ?_
    · rw [input_erase]
      exact hs u hw (by simpa using h.kept u hu)
    · rw [input_erase]
      exact fun _ he => h.frame.checkEdgeOwner he
  · rw [op_erase, hu, Bool.true_or]
  · exact storedSharding_erase

-- Taking out an operation that is no edge operation changes no sharding.
theorem sharding_erase (hr : (p.op o).regions = [])
    (hk : (p.op o).kind.isEdge = false) : (p.erase o).sharding v = p.sharding v := by
  have hm (v : ValueId) (e : OpId) : (p.erase o).marks v e = p.marks v e := by
    simp only [marks, op_erase_leaf hr]
    by_cases he : e = o <;> simp [he, hk]
  refine Frame.erase.sharding ?_ (fun _ => by rw [op_erase]) ?_
  · rw [Frame.erase.edgeForTarget? hm]
    intro u hu
    rw [op_erase_leaf hr]
    by_cases he : u = o
    · simp [he, Operation.isStructural, hr] at hu
    · simp [he]
  · exact storedSharding_erase

end Erase

end Program

end MeshSharding
