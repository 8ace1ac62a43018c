import MeshSharding.Proofs.Reachable
import MeshSharding.Proofs.Spread.Links
import MeshSharding.Proofs.Spread.Writes

namespace MeshSharding

-- The number of axes that can be added within a bound.
def DimSharding.room (bound : Nat) (dim : DimSharding) : Nat :=
  bound - dim.axes.length

def Sharding.room (bound : Nat) (sharding : Sharding) : Nat :=
  (sharding.dims.map (·.room bound)).sum

-- There are at most so many dimensions, and in each of them at most so many axes.
structure Sharding.Within (bound : Nat) (sharding : Sharding) : Prop where
  rank : sharding.rank ≤ bound
  axes : ∀ axes ∈ sharding.dimAxes, axes.length ≤ bound

variable {bound : Nat}

namespace DimSharding

variable {dim refined : DimSharding} {dims refinedDims : List DimSharding}

theorem Refines.room_le (h : dim.Refines refined) : refined.room bound ≤ dim.room bound := by
  have := h.axes.length_le
  simp only [room]
  omega

theorem Refines.room_lt (h : dim.Refines refined) (hb : refined.axes.length ≤ bound)
    (hne : refined ≠ dim) : refined.room bound < dim.room bound := by
  have hl : dim.axes.length ≠ refined.axes.length := by
    intro hl
    exact hne (h.eq_of_axes_eq (h.axes.eq_of_length hl).symm)
  have := h.axes.length_le
  simp only [room]
  omega

theorem sum_room_le (h : List.Forall₂ Refines dims refinedDims) :
    (refinedDims.map (·.room bound)).sum ≤ (dims.map (·.room bound)).sum := by
  induction h with
  | nil => exact le_refl _
  | cons h _ ih =>
    simp only [List.map_cons, List.sum_cons]
    exact Nat.add_le_add h.room_le ih

theorem sum_room_lt (h : List.Forall₂ Refines dims refinedDims)
    (hb : ∀ dim ∈ refinedDims, dim.axes.length ≤ bound) (hne : refinedDims ≠ dims) :
    (refinedDims.map (·.room bound)).sum < (dims.map (·.room bound)).sum := by
  induction h with
  | nil => exact absurd rfl hne
  | @cons dim refined dims refinedDims h t ih =>
    rw [List.forall_mem_cons] at hb
    simp only [List.map_cons, List.sum_cons]
    by_cases hd : refined = dim
    case neg => exact Nat.add_lt_add_of_lt_of_le (h.room_lt hb.left hd) (sum_room_le t)
    case pos =>
      have ht : refinedDims ≠ dims := fun ht => hne (by rw [hd, ht])
      exact Nat.add_lt_add_of_le_of_lt h.room_le (ih hb.right ht)

end DimSharding

-- A finite number of bounds has a common one.
theorem exists_bound {α : Type} {P : Nat → α → Prop} (mono : ∀ m n a, m ≤ n → P m a → P n a)
    (h : ∀ a, ∃ n, P n a) (items : List α) : ∃ n, ∀ a ∈ items, P n a := by
  induction items with
  | nil => exact ⟨0, by simp⟩
  | cons a items ih =>
    have ⟨m, hm⟩ := h a
    have ⟨n, hn⟩ := ih
    refine ⟨max m n, List.forall_mem_cons.mpr ⟨mono m _ a (le_max_left m n) hm, fun b hb => ?_⟩⟩
    exact mono n _ b (le_max_right m n) (hn b hb)

namespace Sharding

variable {sharding refined : Sharding}

theorem Within.mono {m n : Nat} (h : sharding.Within m) (hmn : m ≤ n) : sharding.Within n where
  rank         := h.rank.trans hmn
  axes axes ha := (h.axes axes ha).trans hmn

theorem exists_within (sharding : Sharding) : ∃ bound, sharding.Within bound := by
  have ⟨n, hn⟩ := exists_bound (P := fun n axes => List.length axes ≤ n)
    (fun m n axes hmn h => h.trans hmn) (fun axes => ⟨axes.length, le_refl _⟩) sharding.dimAxes
  refine ⟨max sharding.rank n, le_max_left .., fun axes ha => ?_⟩
  exact (hn axes ha).trans (le_max_right ..)

theorem Within.room_le (h : sharding.Within bound) : sharding.room bound ≤ bound * bound := by
  have hd : ∀ room ∈ sharding.dims.map (·.room bound), room ≤ bound := by
    intro room hr
    obtain ⟨dim, _, rfl⟩ := List.mem_map.mp hr
    exact Nat.sub_le ..
  have hs := List.sum_le_card_nsmul _ bound hd
  rw [List.length_map, smul_eq_mul] at hs
  exact hs.trans (Nat.mul_le_mul_right bound h.rank)

theorem Refines.room_le (h : sharding.Refines refined) : refined.room bound ≤ sharding.room bound :=
  DimSharding.sum_room_le h.dims

theorem Refines.room_lt (h : sharding.Refines refined) (hb : refined.Within bound)
    (hne : refined ≠ sharding) : refined.room bound < sharding.room bound := by
  refine DimSharding.sum_room_lt h.dims (fun dim hd => hb.axes _ (List.mem_map_of_mem hd)) ?_
  intro hd
  have hm := h.mesh
  have hr := h.replicated
  cases sharding
  cases refined
  simp_all

theorem Refines.antisymm (h : sharding.Refines refined) (h' : refined.Refines sharding) : refined = sharding := by
  obtain ⟨bound, hb⟩ := refined.exists_within
  by_contra hne
  exact absurd (h.room_lt hb hne) (Nat.not_lt.mpr h'.room_le)

theorem fullyOpen_within (mesh : MeshRef) {rank : Nat} (h : rank ≤ bound) :
    (fullyOpen mesh rank).Within bound where
  rank          := by simpa [fullyOpen, Sharding.rank] using h
  axes axes ha  := by
    have : axes = [] := by simp [fullyOpen, dimAxes] at ha; exact ha.right
    simp [this]

end Sharding

-- The room of a value. One without a sharding has more than any sharding.
def roomOf (bound : Nat) : Option Sharding → Nat
  | some sharding => sharding.room bound
  | none          => bound * bound + 1

namespace Program

structure Bounded (bound : Nat) (p : Program) : Prop where
  types     : ∀ v, (p.typeOf v).rank ≤ bound
  shardings : ∀ v s, v.index < p.values.length → p.sharding v = some s → s.Within bound

-- Each sharding has room for so many refinements, and each change of a value uses some of the room of all
-- values up.
def room (bound : Nat) (p : Program) : Nat :=
  ∑ i ∈ Finset.range p.values.length, roomOf bound (p.sharding ⟨i⟩)

variable {p q : Program} {v w : ValueId}

theorem Refines.roomOf_le (h : p.Refines q) (hq : q.Bounded bound) (hw : w.index < q.values.length) :
    roomOf bound (q.sharding w) ≤ roomOf bound (p.sharding w) := by
  cases hp : p.sharding w with
  | some s =>
    have ⟨t, ht, hr⟩ := h.sharding w s hp
    rw [ht]
    exact hr.room_le
  | none =>
    cases ht : q.sharding w with
    | none   => exact le_refl _
    | some t => exact Nat.le_succ_of_le (hq.shardings w t hw ht).room_le

-- The room shrinks if the sharding of one value changes.
theorem Refines.room_lt (h : p.Refines q) (hq : q.Bounded bound) (hv : v.index < q.values.length)
    (hne : q.sharding v ≠ p.sharding v) : q.room bound < p.room bound := by
  have hl : q.values.length = p.values.length := by
    rw [← bare_length_values, h.bare_eq, bare_length_values]
  simp only [room, ← hl]
  apply Finset.sum_lt_sum
  · intro i hi
    exact h.roomOf_le hq (Finset.mem_range.mp hi)
  · refine ⟨v.index, Finset.mem_range.mpr hv, ?_⟩
    cases hp : p.sharding v with
    | some s =>
      have ⟨t, ht, hr⟩ := h.sharding v s hp
      rw [ht]
      exact hr.room_lt (hq.shardings v t hv ht) fun he => hne (by rw [ht, hp, he])
    | none =>
      cases ht : q.sharding v with
      | none   => exact absurd (ht.trans hp.symm) hne
      | some t => exact Nat.lt_succ_of_le (hq.shardings v t hv ht).room_le

theorem Bounded.mono {m n : Nat} (h : p.Bounded m) (hmn : m ≤ n) : p.Bounded n where
  types v            := (h.types v).trans hmn
  shardings v s hv hs := (h.shardings v s hv hs).mono hmn

theorem exists_bounded (p : Program) : ∃ bound, p.Bounded bound := by
  have ⟨m, hm⟩ := exists_bound
    (P := fun n v => (p.typeOf v).rank ≤ n ∧ ∀ s, p.sharding v = some s → s.Within n)
    (fun m n v hmn h => ⟨h.left.trans hmn, fun s hs => (h.right s hs).mono hmn⟩)
    (fun v => by
      cases hs : p.sharding v with
      | none   => exact ⟨_, le_refl _, by simp⟩
      | some s =>
        have ⟨n, hn⟩ := s.exists_within
        refine ⟨max (p.typeOf v).rank n, le_max_left .., fun t ht => ?_⟩
        exact Option.some.inj ht ▸ hn.mono (le_max_right ..))
    ((List.range p.values.length).map ValueId.mk)
  have hv (v : ValueId) (hv : v.index < p.values.length) :
      v ∈ (List.range p.values.length).map ValueId.mk :=
    List.mem_map.mpr ⟨v.index, List.mem_range.mpr hv, rfl⟩
  refine ⟨m, fun v => ?_, fun v s hl hs => (hm v (hv v hl)).right s hs⟩
  by_cases hl : v.index < p.values.length
  case pos => exact (hm v (hv v hl)).left
  case neg => simp [typeOf, value_of_length_le (Nat.le_of_not_lt hl), TensorType.rank]

end Program

namespace SpreadPlan

variable {plan : SpreadPlan} {p q : Program} {v : ValueId} {vs : List ValueId} {link : Link}
  {proposal refined : Sharding}

theorem Changes.within (h : plan.Changes p proposal v refined) (hp : p.Bounded bound)
    (hv : v.index < p.values.length) (hb : proposal.Within bound) : refined.Within bound := by
  cases hc : p.sharding v with
  | none         => exact (h.first hc).right ▸ hb
  | some current =>
    have hcur := hp.shardings v current hv hc
    have ⟨hr, ha⟩ := h.refines current hc
    constructor
    case rank => exact hr.rank_eq ▸ hcur.rank
    case axes =>
      intro axes hx
      obtain ⟨dim, hd, rfl⟩ := List.mem_map.mp hx
      obtain hx | hx := List.mem_append.mp (ha dim hd)
      · exact hcur.axes _ hx
      · exact hb.axes _ hx

theorem Changes.bounded (h : plan.Changes p proposal v refined) (hq : p.setSharding v refined = .ok q)
    (hp : p.Bounded bound) (hv : v.index < p.values.length) (hb : proposal.Within bound) :
    q.Bounded bound where
  types w := by
    rw [← Program.bare_typeOf, Program.setSharding_bare hq, Program.bare_typeOf]
    exact hp.types w
  shardings w s hw hs := by
    have hr := h.within hp hv hb
    rw [← Program.bare_length_values, Program.setSharding_bare hq, Program.bare_length_values] at hw
    obtain he | ⟨he, _⟩ | ⟨_, _, he⟩ := Program.setSharding_cases hq w
    · exact hp.shardings w s hw (he ▸ hs)
    · exact Option.some.inj (he.symm.trans hs) ▸ hr
    · obtain rfl | ⟨u, rfl⟩ := he s hs
      · exact hr
      · exact Sharding.fullyOpen_within _ (hp.types u)

-- Each change leaves less room.
theorem Adopts.room_le (h : plan.Adopts proposal p vs q) (hp : p.Bounded bound)
    (hv : ∀ v ∈ vs, v.index < p.values.length) (hb : proposal.Within bound) :
    q.Bounded bound ∧ q.room bound + vs.length ≤ p.room bound := by
  induction h with
  | nil p => exact ⟨hp, le_refl _⟩
  | @cons p q r v vs refined hc hq _ ih =>
    rw [List.forall_mem_cons] at hv
    have hl : q.values.length = p.values.length := by
      rw [← Program.bare_length_values, Program.setSharding_bare hq, Program.bare_length_values]
    have hqb := hc.bounded hq hp hv.left hb
    have ⟨hr, hle⟩ := ih hqb (hl ▸ hv.right)
    have hlt : q.room bound < p.room bound := by
      refine (hc.refines_program hq).room_lt (v := v) hqb (hl ▸ hv.left) ?_
      rw [Program.setSharding_sharding_eq hq hv.left]
      exact hc.ne.symm
    refine ⟨hr, ?_⟩
    rw [List.length_cons]
    omega

theorem Evaluates.room_le (h : plan.Evaluates p link vs q) (hp : p.Bounded bound)
    (hl : link.Within p) (hf : ∀ s ∈ link.fixed, s.Within bound) :
    q.Bounded bound ∧ q.room bound + vs.length ≤ p.room bound := by
  cases h with
  | nothing => exact ⟨hp, le_refl _⟩
  | @adopt proposal _ _ hc hs ha =>
    refine ha.room_le hp (fun v hv => hl.members v (hs hv)) ?_
    obtain hc | hc := List.mem_append.mp hc
    · have ⟨w, hw, hs⟩ := List.mem_filterMap.mp hc
      obtain hw | hw := List.mem_append.mp hw
      · exact hp.shardings w proposal (hl.members w hw) hs
      · exact hp.shardings w proposal (hl.inputs w hw) hs
    · exact hf proposal hc

theorem length_enqueue_le (queue : List Nat) (v : ValueId) :
    (plan.enqueue queue v).length ≤ queue.length + plan.links.length := by
  simp only [enqueue, List.length_append]
  refine Nat.add_le_add_left (le_trans (List.length_filter_le ..) ?_) _
  rw [List.length_map]
  refine le_trans (List.length_filter_le ..) ?_
  rw [List.length_zipIdx]

theorem length_foldl_enqueue_le (queue : List Nat) (vs : List ValueId) :
    (vs.foldl plan.enqueue queue).length ≤ queue.length + vs.length * plan.links.length := by
  induction vs generalizing queue with
  | nil => simp
  | cons v vs ih =>
    have := ih (plan.enqueue queue v)
    have := plan.length_enqueue_le queue v
    rw [List.foldl_cons, List.length_cons, Nat.succ_mul]
    omega

-- Every change of a value pays for the evaluation of all links. So the run ends with an empty queue, unless one of
-- its writes fails.
theorem run_converges (hl : ∀ link ∈ plan.links, link.Within p)
    (hf : ∀ link ∈ plan.links, ∀ s ∈ link.fixed, s.Within bound) (hp : p.Bounded bound)
    {budget : Nat} (queue : List Nat) (changed : Bool)
    (hb : p.room bound * (plan.links.length + 1) + queue.length ≤ budget) :
    (∃ changed', (plan.run budget queue changed p).result = .ok changed') ∨
      ∃ write ∈ plan.runWrites budget queue p, ∃ e, write.outcome = .error e ∧
        (plan.run budget queue changed p).result = .error e := by
  induction budget generalizing queue changed p with
  | zero =>
    have hq : queue = [] := List.eq_nil_of_length_eq_zero (by omega)
    exact .inl ⟨changed, by simp [hq, run]⟩
  | succ budget ih =>
    cases queue with
    | nil => exact .inl ⟨changed, by simp [run]⟩
    | cons index queue =>
      have hlink := forall_links hl ⟨by simp, by simp⟩ index
      have hfixed := forall_links hf (by simp) index
      have hperforms := evaluate_performs plan p ((plan.links[index]?).getD default)
      obtain ⟨vs, he, hu⟩ := evaluate_evaluates plan p ((plan.links[index]?).getD default)
      obtain ⟨hq, hr⟩ := he.room_le hp hlink hfixed
      rw [run, runWrites, Outcome.andThen]
      cases hres : (plan.evaluate p ((plan.links[index]?).getD default)).result with
      | error e =>
        rw [hres] at hperforms
        obtain ⟨write, hw, hwe⟩ := hperforms.exists_error
        exact .inr ⟨write, List.mem_append_left _ hw, e, hwe, rfl⟩
      | ok updated =>
        obtain rfl := hu updated hres
        have hlen : (plan.evaluate p ((plan.links[index]?).getD default)).program.values.length =
            p.values.length := by
          rw [← Program.bare_length_values, he.bare_eq, Program.bare_length_values]
        have hwithin : ∀ link ∈ plan.links,
            link.Within (plan.evaluate p ((plan.links[index]?).getD default)).program :=
          fun link hm => ⟨hlen ▸ (hl link hm).members, hlen ▸ (hl link hm).inputs⟩
        have hbudget : (plan.evaluate p ((plan.links[index]?).getD default)).program.room bound *
            (plan.links.length + 1) + (updated.foldl plan.enqueue queue).length ≤ budget := by
          have hqueue := plan.length_foldl_enqueue_le queue updated
          have hroom := Nat.mul_le_mul_right (plan.links.length + 1) hr
          rw [Nat.add_mul, Nat.mul_succ updated.length] at hroom
          rw [List.length_cons] at hb
          omega
        refine (ih hwithin hq _ (changed || !updated.isEmpty) hbudget).imp_right ?_
        rintro ⟨write, hw, h⟩
        exact ⟨write, List.mem_append_right _ hw, h⟩

end SpreadPlan

namespace Program

variable {p : Program}

theorem exists_of_forM_error {α : Type} {check : α → Except Diagnostic Unit} {items : List α}
    {e : Diagnostic} (h : items.forM check = .error e) : ∃ a ∈ items, check a = .error e := by
  induction items with
  | nil => cases h
  | cons a items ih =>
    simp only [List.forM, bind, Except.bind] at h
    cases ha : check a with
    | error e' =>
      rw [ha] at h
      exact ⟨a, List.mem_cons_self, ha.trans h⟩
    | ok _ =>
      rw [ha] at h
      have ⟨b, hb, he⟩ := ih h
      exact ⟨b, List.mem_cons_of_mem a hb, he⟩

theorem groups_error {e : Diagnostic} (h : p.groups = .error e) :
    ∃ id, e.cause = .groupCrossesManual id := by
  simp only [groups, bind, Except.bind, pure, Except.pure] at h
  split at h
  case _ e' hc =>
    cases h
    obtain ⟨group, _, hc⟩ := exists_of_forM_error hc
    simp only [checkNotCrossing] at hc
    split at hc <;> cases hc
    exact ⟨_, rfl⟩
  case _ => contradiction

theorem links_error {e : Diagnostic} (h : p.links = .error e) :
    ∃ id, e.cause = .groupCrossesManual id := by
  simp only [links, bind, Except.bind, pure, Except.pure] at h
  split at h
  case _ hg =>
    cases h
    exact groups_error hg
  case _ => contradiction

theorem checkAgreement_error {groups : List ShardingGroup} {e : Diagnostic}
    (h : p.checkAgreement groups = .error e) :
    ∃ id sharding other, e.cause = .groupConflict id sharding other := by
  have ⟨group, _, hc⟩ := exists_of_forM_error h
  dsimp only at hc
  split at hc <;> cases hc
  exact ⟨_, _, _, rfl⟩

theorem spreadPlan_eq (options : SpreadOptions) {all : List Link} (h : p.links = .ok all) :
    p.spreadPlan options =
      .ok { options, links := all, storage := p.storageOf, pinned := p.pinned } := by
  simp [spreadPlan, h, bind, Except.bind, pure, Except.pure]

-- If enough links may be evaluated, a run ends with an empty queue, unless one of its writes fails. It does not stop
-- for lack of evaluations then, and neither does spreading.
theorem spread_converges (h : p.Reachable) (options : SpreadOptions) :
    ∃ N, ∀ n ≥ N,
      (∀ e, (p.spread { options with maxIterations := n }).result = .error e →
        ∀ limit, e.cause ≠ .notConverged limit) ∧
      ∀ plan, p.spreadPlan { options with maxIterations := n } = .ok plan →
        let queue := List.range plan.links.length
        (∃ changed, (plan.run n queue false p).result = .ok changed) ∨
          ∃ write ∈ plan.runWrites n queue p, ∃ e, write.outcome = .error e ∧
            (plan.run n queue false p).result = .error e := by
  have hp := h.wellFormed
  cases hl : p.links with
  | error e =>
    obtain ⟨id, hid⟩ := links_error hl
    have hplan (n : Nat) : p.spreadPlan { options with maxIterations := n } = .error e := by
      simp [spreadPlan, hl, bind, Except.bind]
    refine ⟨0, fun n _ => ⟨fun e' he limit => ?_, fun plan h => ?_⟩⟩
    · have : e' = e := by simpa [spread, hplan, eq_comm] using he
      simp [this, hid]
    · simp [hplan] at h
  | ok all =>
    obtain ⟨m, hm⟩ := p.exists_bounded
    obtain ⟨k, hk⟩ := exists_bound (P := Sharding.Within) (fun m n s hmn hs => hs.mono hmn)
      Sharding.exists_within (all.flatMap (·.fixed))
    have hf (link : Link) (hlink : link ∈ all) (s : Sharding) (hs : s ∈ link.fixed) :
        s.Within (max m k) :=
      (hk s (List.mem_flatMap.mpr ⟨link, hlink, hs⟩)).mono (le_max_right m k)
    refine ⟨p.room (max m k) * (all.length + 1) + all.length, fun n hn => ?_⟩
    obtain ⟨plan, hplan, rfl⟩ : ∃ plan,
        p.spreadPlan { options with maxIterations := n } = .ok plan ∧ plan.links = all :=
      ⟨_, spreadPlan_eq _ hl, rfl⟩
    have hrun := SpreadPlan.run_converges (fun link => hp.links_within hl) hf (hm.mono (le_max_left m k))
      (List.range plan.links.length) false (by simpa using hn)
    refine ⟨fun e he limit => ?_, fun plan h => Except.ok.inj (hplan.symm.trans h) ▸ hrun⟩
    obtain ⟨changed, hr⟩ | ⟨write, hw, e', hwe, hr⟩ := hrun
    · -- The queue has been emptied, so that the groups alone can be at fault.
      simp only [spread, hplan, Outcome.andThen, hr, bind, Except.bind, pure, Except.pure] at he
      split at he
      case _ hg =>
        obtain ⟨id, hid⟩ := groups_error hg
        cases he
        simp [hid]
      case _ =>
        split at he
        case _ hc =>
          obtain ⟨_, _, _, hid⟩ := checkAgreement_error hc
          cases he
          simp [hid]
        case _ => contradiction
    · obtain ⟨_, hchanges⟩ := (SpreadPlan.mem_runWrites hw).changes
      obtain ⟨-, rfl⟩ := (setSharding_eq_error_iff hchanges.fits).mp hwe
      simp only [spread, hplan, Outcome.andThen, hr, Except.error.injEq] at he
      subst he
      obtain hfault | ⟨_, _, hfault⟩ := write.program.writeFault_cases write.value <;> simp [hfault]

-- The sum of two values, of which one is sharded.
def sum? : Option Program :=
  let type : TensorType := ⟨[8], .f32⟩
  let sharding : Sharding := ⟨.symbol "mesh", [{ axes := [⟨"a", none⟩], closed := false }], []⟩
  build "main" [
    .mesh "mesh" { axes := [⟨"a", 2⟩] },
    .argument type none,
    .argument type (some sharding),
    .append entry (.generic { name := "add", elementwise := true } [⟨0⟩, ⟨1⟩] [type] []),
    .append entry (.terminator [⟨2⟩])]

theorem spread_converges_sum :
    let p := sum?.get (by rfl)
    p.Reachable ∧ ∃ N, ∀ n ≥ N,
      (∀ e, (p.spread { maxIterations := n }).result = .error e → ∀ limit, e.cause ≠ .notConverged limit) ∧
      ∀ plan, p.spreadPlan { maxIterations := n } = .ok plan →
        let queue := List.range plan.links.length
        (∃ changed, (plan.run n queue false p).result = .ok changed) ∨
          ∃ write ∈ plan.runWrites n queue p, ∃ e, write.outcome = .error e ∧
            (plan.run n queue false p).result = .error e := by
  have hr : (sum?.get (by rfl)).Reachable := build_reachable (Option.some_get _).symm
  exact ⟨hr, spread_converges hr {}⟩

end Program

end MeshSharding
