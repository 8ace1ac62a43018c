import MeshSharding.Proofs.Nesting.Climb
import MeshSharding.Proofs.Verify.Causes

namespace MeshSharding.Program

-- A value is in scope at a position of a block if it is an argument of the block, a result of an
-- operation before the position, or in scope at the position of the operation that the block is a region
-- of, unless that is isolated.
inductive InScopeAt (p : Program) : BlockId → Nat → ValueId → Prop
  | argument {b i v} : v ∈ (p.block b).arguments → InScopeAt p b i v
  | result {b i j u v} : j < i → (p.block b).operations[j]? = some u → v ∈ (p.op u).results →
      InScopeAt p b i v
  | outer {b c i j u v} : b ∈ (p.op u).regions → (p.op u).kind.isIsolated = false →
      (p.block c).operations[j]? = some u → InScopeAt p c j v → InScopeAt p b i v

-- The value is in scope at the position of the operation.
def Sees (p : Program) (o : OpId) (v : ValueId) : Prop :=
  ∃ b i, (p.block b).operations[i]? = some o ∧ p.InScopeAt b i v

-- An operand of the operation is a result of the other one.
def ReadsFrom (p : Program) (o u : OpId) : Prop :=
  ∃ v ∈ (p.op o).operands, p.definer? v = some u

-- Blocks are nested like a tree with the body as its root: none is met twice on the way down, and the
-- body is no region.
structure IsRootedTree (p : Program) : Prop where
  tree : p.IsTree
  root : ∀ o, (p.op o).erased = false → entry ∉ (p.op o).regions

variable {p : Program} {o u : OpId} {v : ValueId} {b : BlockId} {i : Nat} {depth : Nat}

section Scope

theorem InScope.exists_mem (h : p.InScope o v) : ∃ b, o ∈ (p.block b).operations := by
  cases h with
  | argument ho _ | outer ho _ _ _ _ => exact ⟨_, ho⟩
  | result hs _                      => exact ⟨_, hs.subset (List.mem_cons_of_mem _ List.mem_cons_self)⟩

theorem pair_sublist_of_getElem? {α : Type} {l : List α} {a b : α} {i j : Nat} (hij : j < i)
    (ha : l[j]? = some a) (hb : l[i]? = some b) : [a, b].Sublist l := by
  obtain ⟨hj, rfl⟩ := List.getElem?_eq_some_iff.mp ha
  obtain ⟨hi, rfl⟩ := List.getElem?_eq_some_iff.mp hb
  refine List.cons_sublist_iff.mpr ⟨l.take i, l.drop i, (List.take_append_drop i l).symm, ?_, ?_⟩
  · exact List.mem_take_iff_getElem.mpr ⟨j, by omega, rfl⟩
  · exact List.singleton_sublist.mpr (List.mem_drop_iff_getElem.mpr ⟨0, by omega, by simp⟩)

namespace WellFormed

theorem inScopeAt (hp : p.WellFormed) (h : p.InScope o v) (ho : (p.block b).operations[i]? = some o) :
    p.InScopeAt b i v := by
  have hm := List.mem_of_getElem? ho
  have hblock {c : BlockId} (hc : o ∈ (p.block c).operations) : c = b :=
    hp.member_unique hc hm
  induction h generalizing b i with
  | argument hc ha =>
    obtain rfl := hblock hc
    exact .argument ha
  | @result c u o v hs hr =>
    obtain rfl := hblock (hs.subset (List.mem_cons_of_mem _ List.mem_cons_self))
    obtain ⟨hu, -, hlt⟩ := (pair_sublist_iff (hp.nodup c)).mp hs
    obtain ⟨hi, rfl⟩ := List.getElem?_eq_some_iff.mp ho
    rw [(hp.nodup c).idxOf_getElem] at hlt
    exact .result hlt (List.getElem?_idxOf hu) hr
  | @outer c u o v hc _ hr hk hs ih =>
    obtain rfl := hblock hc
    obtain ⟨d, hd⟩ := hs.exists_mem
    have hj := List.getElem?_idxOf hd
    refine .outer hr hk hj (ih hj hd fun he => ?_)
    exact hp.member_unique he hd

theorem inScope (hp : p.WellFormed) (hroot : ∀ o, (p.op o).erased = false → entry ∉ (p.op o).regions)
    (h : p.InScopeAt b i v) (ho : (p.block b).operations[i]? = some o) : p.InScope o v := by
  induction h generalizing o with
  | argument ha => exact .argument (List.mem_of_getElem? ho) ha
  | result hij hu hr => exact .result (pair_sublist_of_getElem? hij hu ho) hr
  | @outer b c i j u v hr hk hu _ ih =>
    have he := (hp.members c u (List.mem_of_getElem? hu)).left
    refine .outer (List.mem_of_getElem? ho) (fun hb => ?_) hr hk (ih hu)
    exact hroot u he (hb ▸ hr)

theorem sees_of_inScope (hp : p.WellFormed) (h : p.InScope o v) : p.Sees o v := by
  obtain ⟨b, hb⟩ := h.exists_mem
  exact ⟨b, _, List.getElem?_idxOf hb, hp.inScopeAt h (List.getElem?_idxOf hb)⟩

theorem sees_iff (hp : p.WellFormed) (hroot : ∀ o, (p.op o).erased = false → entry ∉ (p.op o).regions) :
    p.Sees o v ↔ p.InScope o v := by
  refine ⟨?_, hp.sees_of_inScope⟩
  rintro ⟨b, i, ho, h⟩
  exact hp.inScope hroot h ho

end WellFormed

end Scope

section Order

-- An operation reads from those that come before it in a walk.
theorem Sound.before_of_readsFrom (hp : p.Sound) (ht : p.IsTree) (ho : o ∈ p.walk) (h : p.ReadsFrom o u) :
    [u, o].Sublist p.walk := by
  obtain ⟨v, hv, hu⟩ := h
  have hr := hp.wellFormed.result_of_definer? (hp.wellFormed.operands o v hv) hu
  exact hp.wellFormed.before_of_inScope ht (hp.scope o ho v hv) ho hr

theorem Sound.not_readsFrom_self (hp : p.Sound) (ht : p.IsTree) (ho : o ∈ p.walk) :
    ¬ Relation.TransGen p.ReadsFrom o o := by
  have hn := hp.wellFormed.walk_nodup ht
  have hbefore {w : OpId} (h : Relation.TransGen p.ReadsFrom o w) : [w, o].Sublist p.walk := by
    induction h with
    | single h => exact hp.before_of_readsFrom ht ho h
    | tail _ h ih =>
      have hw := ih.subset List.mem_cons_self
      exact pair_sublist_trans hn (hp.before_of_readsFrom ht hw h) ih
  intro h
  exact Nat.lt_irrefl _ ((pair_sublist_iff hn).mp (hbefore h)).right.right

end Order

section Complete

variable {outer visible : List ValueId} {os : List OpId}

abbrev LocalVerify {α : Type} (check : Except Diagnostic α) : Prop :=
  FailsWith (fun d : Diagnostic => d.cause.Local) check

theorem local_attach {α : Type} {location : Location} {check : Except Error α} (h : LocalCheck check) :
    LocalVerify (location.attach check) := by
  cases check with
  | error e => exact FailsWith.error_iff.mpr (FailsWith.error_iff.mp h)
  | ok a    => exact .ok

theorem local_verifyOp {last : Bool} (h : (p.op o).operands ⊆ visible) :
    LocalVerify (p.verifyOp visible last o) := by
  have hf : (p.op o).operands.find? (fun v => !visible.contains v) = none :=
    List.find?_eq_none.mpr fun v hv => by simpa using h hv
  simp only [verifyOp, hf]
  exact local_attach (local_require_bind trivial fun _ => local_checkOp)

theorem local_verifyOps {region : List ValueId → BlockId → Except Diagnostic Unit}
    {rule : List ValueId → BlockId → Prop} (hr : ∀ outer b, rule outer b → LocalVerify (region outer b))
    (h : p.scopedOps rule visible os) : LocalVerify (p.verifyOps region visible os) := by
  induction os generalizing visible with
  | nil => exact .ok
  | cons o os ih =>
    obtain ⟨hv, hb, h⟩ := h
    have hregions := FailsWith.forM_mem fun b hm => hr _ b (hb b hm)
    exact (local_verifyOp hv).bind fun _ => hregions.bind fun _ => ih h

theorem local_verifyBlock (h : p.scopedBlock depth outer b) : LocalVerify (p.verifyBlock depth outer b) := by
  induction depth generalizing outer b with
  | zero          => exact FailsWith.error_iff.mpr trivial
  | succ depth ih => exact local_verifyOps (fun _ _ => ih) h

theorem local_verifyEdge : LocalVerify (p.verifyEdge o) :=
  local_attach (local_require trivial)

theorem local_groups : LocalVerify p.groups := by
  refine FailsWith.bind (.forM fun group => ?_) fun _ => .pure
  rw [checkNotCrossing]
  split
  · exact FailsWith.error_iff.mpr trivial
  · exact .ok

theorem local_verifyStored : LocalVerify (p.verifyStored v) := by
  rw [verifyStored]
  split
  · exact .ok
  · split
    · exact .ok
    · exact local_attach local_checkFits

-- Where all operands are in scope, verification has no other complaint about scopes.
theorem local_verify (h : p.Scoped) : LocalVerify p.verify :=
  FailsWith.bind (local_attach (local_require trivial)) fun _ => (local_verifyBlock h).bind fun _ =>
    (FailsWith.forM fun _ => local_verifyEdge).bind fun _ => local_groups.bind fun _ =>
    .forM fun _ => local_verifyStored

end Complete

section Verify

-- Verification accepts a program only if all operands are in scope, so that no operation reads from
-- itself, however far around; and it complains about scopes only if some operand is not.
theorem verify_dominance (hp : p.Reachable) (h : p.IsRootedTree) :
    (p.verify = .ok () → (∀ o, p.isLive o → ∀ v ∈ (p.op o).operands, p.Sees o v) ∧
      ∀ o, p.isLive o → ¬ Relation.TransGen p.ReadsFrom o o) ∧
    ((∀ o, p.isLive o → ∀ v ∈ (p.op o).operands, p.Sees o v) →
      ∀ location v, p.verify ≠ .error ⟨location, .valueNotInScope v⟩) := by
  have hw := hp.wellFormed
  have hr := h.tree.rooted hw
  have hlive (o : OpId) : o ∈ p.walk ↔ p.isLive o := hp.housed.mem_walk_iff_isLive hw hr
  constructor
  · intro hv
    have hs := ((verify_iff hw).mp hv).left.sound
    constructor
    · exact fun o ho v hm => hw.sees_of_inScope (hs.scope o ((hlive o).mpr ho) v hm)
    · exact fun o ho => hs.not_readsFrom_self h.tree ((hlive o).mpr ho)
  · intro hsees location v he
    have hscoped : p.Scoped := (hw.scoped_iff hr).mpr fun o ho w hm =>
      (hw.sees_iff h.root).mp (hsees o ((hlive o).mp ho) w hm)
    exact local_verify hscoped _ he

-- A region that reads a value from outside, and a value of its own.
def readingRegion? : Option Program :=
  build "main" [
    .append entry (.constant "1" ⟨[], .i32⟩),
    .region [],
    .append ⟨1⟩ (.generic ⟨"arith.addi", true⟩ [⟨0⟩, ⟨0⟩] [⟨[], .i32⟩] []),
    .append ⟨1⟩ (.terminator [⟨1⟩]),
    .append entry (.generic ⟨"scf.execute_region", false⟩ [] [⟨[], .i32⟩] [⟨1⟩]),
    .append entry (.terminator [⟨2⟩])]

theorem verify_dominance_readingRegion :
    let p := readingRegion?.get (by rfl)
    p.Reachable ∧ p.IsRootedTree ∧ p.verify = .ok () ∧ p.Sees ⟨1⟩ ⟨0⟩ ∧
      ¬ Relation.TransGen p.ReadsFrom ⟨2⟩ ⟨2⟩ ∧
      ∀ location v, p.verify ≠ .error ⟨location, .valueNotInScope v⟩ := by
  intro p
  have hp : p.Reachable := build_reachable (Option.some_get _).symm
  have hnodup : p.nested.Nodup := by decide
  have hparent : (p.block entry).parent = none := by rfl
  have htree : p.IsRootedTree := {
    tree      := hnodup
    root o _ hb := by simp [(hp.wellFormed.regions entry o).mp hb] at hparent }
  have hv : p.verify = .ok () := by rfl
  obtain ⟨hsound, hcomplete⟩ := verify_dominance hp htree
  obtain ⟨hsees, hacyclic⟩ := hsound hv
  exact ⟨hp, htree, hv, hsees ⟨1⟩ (by rfl) ⟨0⟩ (by decide), hacyclic ⟨2⟩ (by rfl), hcomplete hsees⟩

end Verify

end MeshSharding.Program
