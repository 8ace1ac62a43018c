import MeshSharding.Program.Verify
import MeshSharding.Proofs.Flow.Nesting

namespace MeshSharding.Program

-- An operation sees the arguments of its block, the results that come before it there, and what the operation
-- around its block sees, unless that is isolated. The body of the program sees nothing around it.
inductive InScope (p : Program) : OpId → ValueId → Prop
  | argument {b o v} : o ∈ (p.block b).operations → v ∈ (p.block b).arguments → InScope p o v
  | result {b u o v} : [u, o].Sublist (p.block b).operations → v ∈ (p.op u).results → InScope p o v
  | outer {b u o v} : o ∈ (p.block b).operations → b ≠ entry → b ∈ (p.op u).regions →
      (p.op u).kind.isIsolated = false → InScope p u v → InScope p o v

-- What a block sees around it.
def Around (p : Program) (b : BlockId) (v : ValueId) : Prop :=
  b ≠ entry ∧ ∃ u, b ∈ (p.op u).regions ∧ (p.op u).kind.isIsolated = false ∧ p.InScope u v

-- The rule of verification that operands are visible, for the operations of a block in turn.
def scopedOps (p : Program) (region : List ValueId → BlockId → Prop) (visible : List ValueId) :
    List OpId → Prop
  | [] => True
  | o :: rest =>
    (p.op o).operands ⊆ visible ∧
    (∀ b ∈ (p.op o).regions, region (if (p.op o).kind.isIsolated then [] else visible) b) ∧
    scopedOps p region (visible ++ (p.op o).results) rest

def scopedBlock (p : Program) : (depth : Nat) → (outer : List ValueId) → BlockId → Prop
  | 0,         _,     _ => True
  | depth + 1, outer, b =>
    p.scopedOps (scopedBlock p depth) (outer ++ (p.block b).arguments) (p.block b).operations

-- All operands in the program are visible where they are used.
def Scoped (p : Program) : Prop :=
  p.scopedBlock p.blocks.length [] entry

variable {p q : Program} {o u w : OpId} {v x a : ValueId} {b c : BlockId} {depth : Nat}

section Verify

theorem bind_eq_ok {ε α β : Type} {step : Except ε α} {next : α → Except ε β} {r : β}
    (h : step >>= next = .ok r) : ∃ a, step = .ok a ∧ next a = .ok r := by
  cases step with
  | error e => contradiction
  | ok a    => exact ⟨a, rfl, h⟩

theorem forM_ok {ε α : Type} {check : α → Except ε Unit} {items : List α}
    (h : items.forM check = .ok ()) : ∀ a ∈ items, check a = .ok () := by
  induction items with
  | nil => simp
  | cons a items ih =>
    have ⟨_, ha, h⟩ := bind_eq_ok h
    exact List.forall_mem_cons.mpr ⟨ha, ih h⟩

theorem operands_visible_of_verifyOp {visible : List ValueId} {last : Bool}
    (h : p.verifyOp visible last o = .ok ()) : (p.op o).operands ⊆ visible := by
  cases hf : (p.op o).operands.find? fun v => !visible.contains v with
  | none   => exact fun v hv => by simpa using List.find?_eq_none.mp hf v hv
  | some v =>
    simp only [verifyOp, hf, Location.attach, require] at h
    split at h <;> contradiction

theorem scopedOps_of_verifyOps {region : List ValueId → BlockId → Except Diagnostic Unit}
    {rule : List ValueId → BlockId → Prop} (hr : ∀ outer b, region outer b = .ok () → rule outer b)
    {visible : List ValueId} {os : List OpId} (h : p.verifyOps region visible os = .ok ()) :
    p.scopedOps rule visible os := by
  induction os generalizing visible with
  | nil => trivial
  | cons o os ih =>
    have ⟨_, ho, h⟩ := bind_eq_ok h
    have ⟨_, hb, h⟩ := bind_eq_ok h
    exact ⟨operands_visible_of_verifyOp ho, fun b hm => hr _ b (forM_ok hb b hm), ih h⟩

theorem scopedBlock_of_verifyBlock {outer : List ValueId} (h : p.verifyBlock depth outer b = .ok ()) :
    p.scopedBlock depth outer b := by
  induction depth generalizing outer b with
  | zero => trivial
  | succ depth ih => exact scopedOps_of_verifyOps (fun _ _ => ih) h

theorem scoped_of_verify (h : p.verify = .ok ()) : p.Scoped := by
  have ⟨_, _, h⟩ := bind_eq_ok h
  have ⟨_, hb, _⟩ := bind_eq_ok h
  exact scopedBlock_of_verifyBlock hb

end Verify

section Visible

theorem scopedOps_iff {region : List ValueId → BlockId → Prop} {visible : List ValueId}
    {os : List OpId} : p.scopedOps region visible os ↔ ∀ before o after, os = before ++ o :: after →
      let seen := visible ++ before.flatMap fun u => (p.op u).results
      (p.op o).operands ⊆ seen ∧
        ∀ b ∈ (p.op o).regions, region (if (p.op o).kind.isIsolated then [] else seen) b := by
  induction os generalizing visible with
  | nil => simp [scopedOps]
  | cons u os ih =>
    simp only [scopedOps, ih]
    constructor
    · intro ⟨hu, hb, h⟩ before o after he
      cases before with
      | nil =>
        cases he
        simpa using ⟨hu, hb⟩
      | cons w before =>
        cases he
        simpa using h before o after rfl
    · intro h
      have hu := h [] u os rfl
      simp only [List.flatMap_nil, List.append_nil] at hu
      refine ⟨hu.left, hu.right, fun before o after he => ?_⟩
      simpa [he] using h (u :: before) o after (by rw [he, List.cons_append])

-- What an operation can see, by its place in its block.
theorem WellFormed.inScope_iff (hp : p.WellFormed) {before after : List OpId}
    (h : (p.block b).operations = before ++ o :: after) : p.InScope o v ↔
      v ∈ (p.block b).arguments ∨ (∃ u ∈ before, v ∈ (p.op u).results) ∨ p.Around b v := by
  have ho : o ∈ (p.block b).operations := by simp [h]
  have hn := h ▸ hp.nodup b
  constructor
  · intro hv
    cases hv with
    | argument hc ha =>
      have hb := hp.member_unique hc ho
      exact .inl (hb ▸ ha)
    | result hs hr =>
      have hc := hs.subset (List.mem_cons_of_mem _ List.mem_cons_self)
      have hb := hp.member_unique hc ho
      rw [hb, h] at hs
      exact .inr (.inl ⟨_, (pair_sublist_append_iff hn).mp hs, hr⟩)
    | outer hc hb hr hi hv =>
      have he := hp.member_unique hc ho
      exact .inr (.inr (he ▸ ⟨hb, _, hr, hi, hv⟩))
  · rintro (ha | ⟨u, hu, hr⟩ | ⟨hb, u, hr, hi, hv⟩)
    · exact .argument ho ha
    · exact .result (h ▸ (pair_sublist_append_iff hn).mpr hu) hr
    · exact .outer ho hb hr hi hv

-- A region sees what its operation sees, unless this is isolated.
theorem WellFormed.mem_region_iff (hp : p.WellFormed) (hc : c ∈ (p.op u).regions) (hce : c ≠ entry)
    {seen : List ValueId} (hs : ∀ v, v ∈ seen ↔ p.InScope u v) (v : ValueId) :
    v ∈ (if (p.op u).kind.isIsolated then [] else seen) ↔ p.Around c v := by
  split
  case isTrue hi =>
    refine iff_of_false List.not_mem_nil fun ⟨_, w, hw, hn, _⟩ => ?_
    rw [hp.parent_unique hw hc, hi] at hn
    contradiction
  case isFalse hi =>
    rw [hs]
    constructor
    · exact fun hv => ⟨hce, u, hc, by simpa using hi, hv⟩
    · intro ⟨_, w, hw, _, hv⟩
      exact hp.parent_unique hw hc ▸ hv

-- The rule for a block and what is nested in it says that all operands there are in scope.
theorem WellFormed.scopedBlock_iff (hp : p.WellFormed) {outer : List ValueId}
    (ho : ∀ v, v ∈ outer ↔ p.Around b v) (he : entry ∉ (p.blocksWithin depth b).tail) :
    p.scopedBlock depth outer b ↔
      ∀ o ∈ p.walkBlock depth b, ∀ v ∈ (p.op o).operands, p.InScope o v := by
  induction depth generalizing outer b with
  | zero => simp [scopedBlock, walkBlock]
  | succ depth ih =>
    have hseen : ∀ before u after, (p.block b).operations = before ++ u :: after → ∀ v,
        v ∈ outer ++ (p.block b).arguments ++ before.flatMap (fun w => (p.op w).results) ↔
          p.InScope u v := by
      intro before u after h v
      rw [hp.inScope_iff h, ← ho]
      simp only [List.mem_append, List.mem_flatMap]
      rw [or_assoc, or_comm, or_assoc]
    have hregion : ∀ u ∈ (p.block b).operations, ∀ c ∈ (p.op u).regions, ∀ seen : List ValueId,
        (∀ v, v ∈ seen ↔ p.InScope u v) →
        (p.scopedBlock depth (if (p.op u).kind.isIsolated then [] else seen) c ↔
          ∀ o ∈ p.walkBlock depth c, ∀ v ∈ (p.op o).operands, p.InScope o v) := by
      intro u hu c hc seen hs
      cases depth with
      | zero => simp [scopedBlock, walkBlock]
      | succ depth =>
        have hsub : ∀ d ∈ p.blocksWithin (depth + 1) c, d ∈ (p.blocksWithin (depth + 2) b).tail := by
          intro d hd
          simp only [blocksWithin, List.tail_cons, List.mem_flatMap]
          exact ⟨u, hu, c, hc, hd⟩
        have hce : c ≠ entry := fun h => he (h ▸ hsub c List.mem_cons_self)
        exact ih (hp.mem_region_iff hc hce hs) fun h => he (hsub entry (List.mem_of_mem_tail h))
    rw [scopedBlock, scopedOps_iff]
    constructor
    · intro h o hw
      simp only [walkBlock, List.mem_flatMap, List.mem_cons] at hw
      obtain ⟨u, hu, hw⟩ := hw
      obtain ⟨before, after, hs⟩ := List.append_of_mem hu
      obtain ⟨hv, hr⟩ := h before u after hs
      obtain rfl | ⟨c, hc, ho⟩ := hw
      · exact fun v hm => (hseen before o after hs v).mp (hv hm)
      · exact (hregion u hu c hc _ (hseen before u after hs)).mp (hr c hc) o ho
    · intro h before u after hs
      have hu : u ∈ (p.block b).operations := by simp [hs]
      have hwalk : ∀ o, (o = u ∨ ∃ c ∈ (p.op u).regions, o ∈ p.walkBlock depth c) →
          o ∈ p.walkBlock (depth + 1) b := by
        intro o ho
        simp only [walkBlock, List.mem_flatMap, List.mem_cons]
        exact ⟨u, hu, ho⟩
      constructor
      · exact fun v hv => (hseen before u after hs v).mpr (h u (hwalk u (.inl rfl)) v hv)
      · intro c hc
        refine (hregion u hu c hc _ (hseen before u after hs)).mpr fun o ho => ?_
        exact h o (hwalk o (.inr ⟨c, hc, ho⟩))

theorem WellFormed.scoped_iff (hp : p.WellFormed) (hr : p.Rooted) :
    p.Scoped ↔ ∀ o ∈ p.walk, ∀ v ∈ (p.op o).operands, p.InScope o v :=
  hp.scopedBlock_iff (fun _ => iff_of_false List.not_mem_nil fun h => h.left rfl) hr

end Visible

section Order

namespace WellFormed

theorem definer_unique (hp : p.WellFormed) (ho : v ∈ (p.op o).results) (hu : v ∈ (p.op u).results) :
    o = u := by
  have ho := hp.definer?_of_result ho
  have hu := hp.definer?_of_result hu
  exact Option.some.inj (ho.symm.trans hu)

theorem not_argument_of_result (hp : p.WellFormed) (ho : v ∈ (p.op o).results) :
    v ∉ (p.block b).arguments := by
  intro hb
  have ho := hp.definer?_of_result ho
  have hb := hp.definer?_of_argument hb
  exact Option.some_ne_none o (ho.symm.trans hb)

-- An operation sees only the results of those before it.
theorem before_of_inScope (hp : p.WellFormed) (ht : p.IsTree) (h : p.InScope o v) (ho : o ∈ p.walk)
    (hv : v ∈ (p.op u).results) : [u, o].Sublist p.walk := by
  have hn := hp.walk_nodup ht
  induction h with
  | argument _ ha => exact absurd ha (hp.not_argument_of_result hv)
  | result hs hr =>
    have hm := hs.subset (List.mem_cons_of_mem _ List.mem_cons_self)
    have hb := (hp.block_nested ho).left
    rw [(hp.members _ _ hm).right] at hb
    rw [hp.definer_unique hv hr]
    exact hs.trans (operations_sublist hb)
  | outer hm hb hr _ _ ih =>
    have hs := hp.around_before ho hm hb hr
    exact pair_sublist_trans hn (ih (hs.subset List.mem_cons_self) hv) hs

-- What an operation sees of the program is part of the program.
theorem definer_mem_walk (hp : p.WellFormed) (h : p.InScope o v) (ho : o ∈ p.walk)
    (hv : v ∈ (p.op u).results) : u ∈ p.walk := by
  induction h with
  | argument _ ha => exact absurd ha (hp.not_argument_of_result hv)
  | result hs hr =>
    have hm := hs.subset (List.mem_cons_of_mem _ List.mem_cons_self)
    have hb := (hp.block_nested ho).left
    rw [(hp.members _ _ hm).right] at hb
    rw [hp.definer_unique hv hr]
    exact mem_walk_iff.mpr ⟨_, hb, hs.subset List.mem_cons_self⟩
  | outer hm hb hr _ _ ih => exact ih ((hp.around_before ho hm hb hr).subset List.mem_cons_self) hv

-- The result of an operation before another one is defined in the block of both.
theorem definingBlock_of_before (hp : p.WellFormed) (hs : [u, o].Sublist (p.block b).operations)
    (hr : v ∈ (p.op u).results) : p.definingBlock v = (p.op o).block := by
  have hu := (hp.members _ _ (hs.subset List.mem_cons_self)).right
  have ho := (hp.members _ _ (hs.subset (List.mem_cons_of_mem _ List.mem_cons_self))).right
  rw [hp.definingBlock_of_result hr, hu, ho]

theorem definingBlock_mem_nested (hp : p.WellFormed) (h : p.InScope o v) (ho : o ∈ p.walk) :
    p.definingBlock v ∈ p.nested := by
  induction h with
  | argument hm ha =>
    rw [hp.definingBlock_of_argument ha, ← (hp.members _ _ hm).right]
    exact (hp.block_nested ho).left
  | result hs hr =>
    rw [hp.definingBlock_of_before hs hr]
    exact (hp.block_nested ho).left
  | outer hm hb hr _ _ ih => exact ih ((hp.around_before ho hm hb hr).subset List.mem_cons_self)

-- The results that an operation sees are made on its own level or further up.
theorem level_of_inScope {n : Nat} (hp : p.WellFormed) (h : p.InScope o v) (hn : p.Below entry n b)
    (ho : o ∈ (p.block b).operations) (hv : v ∈ (p.op u).results) :
    ∃ m ≤ n, ∃ c, p.Below entry m c ∧ u ∈ (p.block c).operations := by
  induction h generalizing n b with
  | argument _ ha => exact absurd ha (hp.not_argument_of_result hv)
  | result hs hr =>
    have hm := hs.subset (List.mem_cons_of_mem _ List.mem_cons_self)
    have hb := hp.member_unique hm ho
    rw [hp.definer_unique hv hr]
    exact ⟨n, le_refl _, b, hn, hb ▸ hs.subset List.mem_cons_self⟩
  | outer hm hb hr _ _ ih =>
    have hc := hp.member_unique hm ho
    subst hc
    cases hn with
    | here => exact absurd rfl hb
    | step hn hw hd =>
      have he := hp.parent_unique hd hr
      subst he
      obtain ⟨m, hm, c, hc⟩ := ih hn hw hv
      exact ⟨m, Nat.le_succ_of_le hm, c, hc⟩

theorem not_inScope_of_result (hp : p.WellFormed) (hr : p.Rooted) (ho : o ∈ p.walk)
    (hv : v ∈ (p.op o).results) : ¬ p.InScope o v := by
  intro h
  cases h with
  | argument _ ha => exact hp.not_argument_of_result hv ha
  | result hs hu =>
    rw [← hp.definer_unique hv hu] at hs
    exact Nat.lt_irrefl _ ((pair_sublist_iff (hp.nodup _)).mp hs).right.right
  | @outer b w _ _ hm hb hw _ hs =>
    -- It would lie on a level above its own.
    obtain ⟨c, hc, hoc⟩ := mem_walk_iff.mp ho
    have hcb := hp.member_unique hoc hm
    subst hcb
    obtain ⟨n, hn, hc⟩ := mem_nested_iff.mp hc
    cases hc with
    | here => exact hb rfl
    | step hc hx hd =>
      have he := hp.parent_unique hd hw
      subst he
      obtain ⟨m, hm', d, hd', hod⟩ := hp.level_of_inScope hs hc hx hv
      have hbd := hp.member_unique hod hm
      have := hp.level_unique hr (by omega) hn (hbd ▸ hd') (.step hc hx hd)
      omega

-- Whoever sees a result of an operation sees what this operation sees.
theorem inScope_trans (hp : p.WellFormed) (h : p.InScope u x) (hx : x ∈ (p.op o).results)
    (ho : p.InScope o v) : p.InScope u v := by
  induction h with
  | argument _ ha => exact absurd ha (hp.not_argument_of_result hx)
  | @result b _ _ _ hs hr =>
    have he := hp.definer_unique hx hr
    subst he
    have hu := hs.subset (List.mem_cons_of_mem _ List.mem_cons_self)
    have hob : (p.op o).block = b := (hp.members b o (hs.subset List.mem_cons_self)).right
    cases ho with
    | argument hc ha =>
      have hb := (hp.members _ o hc).right.symm.trans hob
      exact .argument hu (hb ▸ ha)
    | result hs' hr' =>
      have hc := hs'.subset (List.mem_cons_of_mem _ List.mem_cons_self)
      have hb := (hp.members _ o hc).right.symm.trans hob
      exact .result (pair_sublist_trans (hp.nodup b) (hb ▸ hs') hs) hr'
    | outer hc hb' hr' hi hv =>
      have hb := (hp.members _ o hc).right.symm.trans hob
      exact .outer hu (hb ▸ hb') (hb ▸ hr') hi hv
  | outer hm hb hr hi _ ih => exact .outer hm hb hr hi (ih hx)

end WellFormed

end Order

section Precedes

-- Whenever a list comes to `o`, it has been at `u`. Operations may come up in it several times.
def Precedes (l : List OpId) (u o : OpId) : Prop :=
  ∀ before after, l = before ++ o :: after → u ∈ before

variable {l m : List OpId}

namespace Precedes

theorem trans (h : Precedes l u o) (h' : Precedes l o w) : Precedes l u w := by
  intro before after he
  obtain ⟨front, rest, rfl⟩ := List.append_of_mem (h' before after he)
  exact List.mem_append_left _ (h front (rest ++ w :: after) (by simp [he]))

theorem nil : Precedes [] u o := by
  intro before after he
  simp at he

theorem cons {x : OpId} (hx : x ≠ o) (h : Precedes l u o) : Precedes (x :: l) u o := by
  intro before after he
  cases before with
  | nil               => exact absurd (List.cons.inj he).left hx
  | cons y before => exact List.mem_cons_of_mem y (h before after (List.cons.inj he).right)

theorem cons_self (hu : u ≠ o) : Precedes (u :: l) u o := by
  intro before after he
  cases before with
  | nil               => exact absurd (List.cons.inj he).left hu
  | cons y before => exact (List.cons.inj he).left ▸ List.mem_cons_self

theorem append (h : Precedes l u o) (h' : u ∈ l ∨ Precedes m u o) : Precedes (l ++ m) u o := by
  intro before after he
  obtain ⟨front, rfl, hm⟩ | ⟨rest, hl, hr⟩ := List.append_eq_append_iff.mp he
  · exact List.mem_append.mpr (h'.imp_right fun h' => h' front after hm)
  · cases rest with
    | nil =>
      rw [List.append_nil] at hl
      refine hl ▸ h'.elim id fun h' => ?_
      exact absurd (h' [] after hr.symm) List.not_mem_nil
    | cons y rest =>
      obtain rfl := (List.cons.inj hr).left
      exact h before rest hl

theorem flatMap {α : Type} {f : α → List OpId} {items : List α} (h : ∀ a ∈ items, Precedes (f a) u o) :
    Precedes (items.flatMap f) u o := by
  induction items with
  | nil             => exact nil
  | cons a items ih =>
    rw [List.flatMap_cons]
    exact (h a List.mem_cons_self).append (.inr (ih fun b hb => h b (List.mem_cons_of_mem a hb)))

end Precedes

namespace WellFormed

variable {c : BlockId} {depth : Nat}

theorem precedes_of_sublist (hp : p.WellFormed) (h : [u, o].Sublist (p.block b).operations) :
    Precedes (p.walkBlock depth c) u o := by
  have ho : o ∈ (p.block b).operations := h.subset (by simp)
  induction depth generalizing c with
  | zero          => exact .nil
  | succ depth ih =>
    have hin (x : OpId) (hx : x ≠ o) : Precedes (x :: (p.op x).regions.flatMap (p.walkBlock depth)) u o :=
      .cons hx (.flatMap fun _ _ => ih)
    rw [walkBlock]
    by_cases hc : c = b
    case pos =>
      subst hc
      have hn := hp.nodup c
      obtain ⟨before, after, he⟩ := List.append_of_mem ho
      rw [he] at hn h ⊢
      have hu := (pair_sublist_append_iff hn).mp h
      rw [List.flatMap_append]
      refine .append (.flatMap fun x hx => hin x ?_) (.inl (List.mem_flatMap.mpr ⟨u, hu, List.mem_cons_self⟩))
      rintro rfl
      exact (List.nodup_append.mp hn).right.right x hx x List.mem_cons_self rfl
    case neg =>
      refine .flatMap fun x hx => hin x ?_
      rintro rfl
      exact hc (hp.member_unique hx ho)

theorem precedes_of_region (hp : p.WellFormed) (ho : o ∈ (p.block b).operations) (hb : b ∈ (p.op u).regions)
    (hc : c ≠ b) : Precedes (p.walkBlock depth c) u o := by
  induction depth generalizing c with
  | zero          => exact .nil
  | succ depth ih =>
    rw [walkBlock]
    refine .flatMap fun x hx => ?_
    have hne : x ≠ o := by
      rintro rfl
      exact hc (hp.member_unique hx ho)
    by_cases hxu : x = u
    case pos => exact hxu ▸ .cons_self hne
    case neg => exact .cons hne (.flatMap fun d hd => ih fun he => hxu (hp.parent_unique (he ▸ hd) hb))

-- Whenever a walk comes to an operation, it has been at those whose results this sees.
theorem precedes_of_inScope (hp : p.WellFormed) (h : p.InScope o v) (hv : v ∈ (p.op u).results) :
    Precedes p.walk u o := by
  induction h with
  | argument _ ha            => exact absurd ha (hp.not_argument_of_result hv)
  | result hs hr             => exact hp.definer_unique hv hr ▸ hp.precedes_of_sublist hs
  | outer hm hb hr _ _ ih => exact (ih hv).trans (hp.precedes_of_region hm hr hb.symm)

end WellFormed

end Precedes

end MeshSharding.Program
