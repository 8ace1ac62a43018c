import MeshSharding.Proofs.Flow.Nesting
import MeshSharding.Proofs.Reachable

namespace MeshSharding.Program

-- A way down from a block to another one, with the blocks on it.
inductive WayDown (p : Program) (c : BlockId) : List BlockId → BlockId → Prop
  | here : WayDown p c [c] c
  | down {b d : BlockId} {o : OpId} {bs : List BlockId} : o ∈ (p.block b).operations →
      d ∈ (p.op o).regions → WayDown p c bs d → WayDown p c (b :: bs) b

variable {p q r : Program} {b c d : BlockId} {o u : OpId} {v source target : ValueId} {n : Nat}
  {new : NewOp} {position : Nat}

section Short

namespace WayDown

variable {bs : List BlockId}

theorem suffix (h : p.WayDown c bs b) (hd : d ∈ bs) : ∃ rest, rest.Sublist bs ∧ p.WayDown c rest d := by
  induction h with
  | here => exact ⟨[c], List.Sublist.refl _, List.mem_singleton.mp hd ▸ .here⟩
  | @down b e o bs ho he h ih =>
    obtain rfl | hd := List.mem_cons.mp hd
    · exact ⟨d :: bs, List.Sublist.refl _, .down ho he h⟩
    · obtain ⟨rest, hs, hr⟩ := ih hd
      exact ⟨rest, hs.cons _, hr⟩

theorem exists_below (h : p.WayDown c bs b) : ∃ n, bs.length = n + 1 ∧ p.Below b n c := by
  induction h with
  | here => exact ⟨0, rfl, .here⟩
  | down ho hd _ ih =>
    obtain ⟨n, hl, h⟩ := ih
    exact ⟨n + 1, by rw [List.length_cons, hl], h.head ho hd⟩

theorem lt (h : p.WayDown c bs b) (hr : ∀ o, ∀ d ∈ (p.op o).regions, d.index < p.blocks.length)
    (hb : b.index < p.blocks.length) : ∀ d ∈ bs, d.index < p.blocks.length := by
  induction h with
  | here           => exact List.forall_mem_singleton.mpr hb
  | down _ hd _ ih => exact List.forall_mem_cons.mpr ⟨hb, ih (hr _ _ hd)⟩

end WayDown

-- There is no need to come through a block twice.
theorem Below.exists_wayDown (h : p.Below b n c) : ∃ bs : List BlockId, bs.Nodup ∧ p.WayDown c bs b := by
  induction n generalizing b with
  | zero =>
    cases h
    exact ⟨[c], List.nodup_singleton c, .here⟩
  | succ n ih =>
    obtain ⟨o, ho, d, hd, h⟩ := h.exists_head
    obtain ⟨bs, hn, hw⟩ := ih h
    by_cases hb : b ∈ bs
    case pos =>
      obtain ⟨rest, hs, hr⟩ := hw.suffix hb
      exact ⟨rest, hs.nodup hn, hr⟩
    case neg => exact ⟨b :: bs, List.nodup_cons.mpr ⟨hb, hn⟩, .down ho hd hw⟩

theorem Below.short (h : p.Below b n c) (hr : ∀ o, ∀ d ∈ (p.op o).regions, d.index < p.blocks.length)
    (hb : b.index < p.blocks.length) : ∃ m < p.blocks.length, p.Below b m c := by
  obtain ⟨bs, hn, hw⟩ := h.exists_wayDown
  obtain ⟨m, hl, hm⟩ := hw.exists_below
  have hle := length_le_of_index_lt BlockId.index_injective hn (hw.lt hr hb)
  exact ⟨m, by omega, hm⟩

theorem WellFormed.region_lt (hp : p.WellFormed) (o : OpId) :
    ∀ d ∈ (p.op o).regions, d.index < p.blocks.length := by
  intro d hd
  by_contra hl
  have hd := (hp.regions d o).mp hd
  simp [block_of_length_le (Nat.le_of_not_lt hl)] at hd

end Short

-- Operations that are not erased stand in their blocks.
def Housed (p : Program) : Prop :=
  ∀ o, (p.op o).erased = false → o ∈ (p.block (p.op o).block).operations

theorem Housed.lt (hp : p.Housed) (ho : (p.op o).erased = false) :
    (p.op o).block.index < p.blocks.length := by
  by_contra hl
  have hm := hp o ho
  simp [block_of_length_le (Nat.le_of_not_lt hl)] at hm

-- Edits that leave all blocks where they are. Operations that are new have no regions.
structure Reshapes (p q : Program) : Prop where
  length  : p.operations.length ≤ q.operations.length
  parents : ∀ b, (q.block b).parent = (p.block b).parent
  regions : ∀ o, (q.op o).regions = (p.op o).regions
  blocks  : ∀ o, o.index < p.operations.length → (q.op o).block = (p.op o).block
  erased  : ∀ o, o.index < p.operations.length → (p.op o).erased → (q.op o).erased
  housed  : p.Housed → q.Housed

namespace Reshapes

theorem refl (p : Program) : Reshapes p p where
  length       := le_refl _
  parents _    := rfl
  regions _    := rfl
  blocks _ _   := rfl
  erased _ _ h := h
  housed h     := h

theorem trans (h : Reshapes p q) (h' : Reshapes q r) : Reshapes p r where
  length        := h.length.trans h'.length
  parents b     := (h'.parents b).trans (h.parents b)
  regions o     := (h'.regions o).trans (h.regions o)
  blocks o ho   := (h'.blocks o (ho.trans_le h.length)).trans (h.blocks o ho)
  erased o ho e := h'.erased o (ho.trans_le h.length) (h.erased o ho e)
  housed hp     := h'.housed (h.housed hp)

-- Edits that write to operations but leave their places, and leave the blocks.
theorem of_op (hl : q.operations.length = p.operations.length)
    (hr : ∀ o, (q.op o).regions = (p.op o).regions) (hb : ∀ o, (q.op o).block = (p.op o).block)
    (he : ∀ o, (q.op o).erased = (p.op o).erased) (hp : ∀ b, (q.block b).parent = (p.block b).parent)
    (hm : ∀ b, (q.block b).operations = (p.block b).operations) : Reshapes p q where
  length       := hl.ge
  parents      := hp
  regions      := hr
  blocks o _   := hb o
  erased o _ h := by rwa [he]
  housed h o   := by
    rw [he, hb, hm]
    exact h o

theorem of_bare_eq (h : q.bare = p.bare) : Reshapes p q where
  length       := (read_of_bare_eq (·.operations.length) (by simp) h).ge
  parents b    := read_of_bare_eq (fun r => (r.block b).parent) (by simp) h
  regions o    := read_of_bare_eq (fun r => (r.op o).regions) (by simp) h
  blocks o _   := read_of_bare_eq (fun r => (r.op o).block) (by simp) h
  erased o _ e := (read_of_bare_eq (fun r => (r.op o).erased) (by simp) h).trans e
  housed hp o  := by
    have hb := read_of_bare_eq (fun r => (r.block (r.op o).block).operations) (by simp) h
    have he := read_of_bare_eq (fun r => (r.op o).erased) (by simp) h
    rw [hb, he]
    exact hp o

theorem setKind (kind : OpKind) : Reshapes p (p.setKind o kind) := by
  refine of_op (by simp [Program.setKind]) ?_ ?_ ?_ (fun _ => rfl) fun _ => rfl
  all_goals exact fun u => by rw [op_setKind]

theorem redirect (moved : List Use) : Reshapes p (p.redirect source target moved) := by
  apply of_op <;> simp

theorem replaceUsesExcept (except : Option OpId) : Reshapes p (p.replaceUsesExcept source target except) := by
  by_cases h : source = target
  case pos =>
    rw [Program.replaceUsesExcept, if_pos h]
    exact refl p
  case neg =>
    rw [replaceUsesExcept_eq h]
    exact redirect _

theorem setOperand (index : Nat) : Reshapes p (p.setOperand o index v) := by
  cases h : (p.op o).operands[index]? with
  | none =>
    simp only [Program.setOperand, h]
    exact refl p
  | some previous =>
    rw [setOperand_eq h]
    exact redirect _

end Reshapes

section Erase

-- What stays is not in a region of what is erased, because the search for that goes through all blocks.
theorem WellFormed.erase_housed (hp : p.WellFormed) (hh : p.Housed) (o : OpId) : (p.erase o).Housed := by
  intro u hu
  simp only [op_erase, Bool.or_eq_false_iff, List.contains_eq_mem, decide_eq_false_iff_not,
    List.mem_cons, not_or] at hu ⊢
  obtain ⟨he, hne, hn⟩ := hu
  have hr : ∀ w, ∀ d ∈ ((p.detach o).op w).regions, d.index < (p.detach o).blocks.length := by
    simpa [detach] using hp.region_lt
  have hm : u ∈ ((p.detach o).block (p.op u).block).operations := by
    rw [block_detach]
    split
    · exact List.mem_filter.mpr ⟨hh u he, by simpa using hne⟩
    · exact hh u he
  have hout : ¬ ∃ w ∈ o :: (p.detach o).nestedIn o, (p.op u).block ∈ ((p.detach o).op w).regions := by
    rintro ⟨w, hw, hb⟩
    refine hn ?_
    have hfound {c : BlockId} {n : Nat} (hc : c ∈ ((p.detach o).op o).regions)
        (h : (p.detach o).Below c n (p.op u).block) : u ∈ (p.detach o).nestedIn o := by
      obtain ⟨m, hm', h⟩ := h.short hr (hr o c hc)
      exact List.mem_flatMap.mpr
        ⟨c, hc, mem_walkBlock_iff.mpr ⟨_, mem_blocksWithin_iff.mpr ⟨m, hm', h⟩, hm⟩⟩
    obtain rfl | hw := List.mem_cons.mp hw
    · exact hfound hb .here
    · obtain ⟨c, hc, hw⟩ := List.mem_flatMap.mp hw
      obtain ⟨d, hd, hwd⟩ := mem_walkBlock_iff.mp hw
      obtain ⟨n, _, h⟩ := mem_blocksWithin_iff.mp hd
      exact hfound hc (.step h hwd hb)
  rw [erase_eq, block_foldl_eraseAlone, if_neg hout]
  exact hm

theorem WellFormed.reshapes_erase (hp : p.WellFormed) (o : OpId) : Reshapes p (p.erase o) where
  length        := (length_operations_erase).ge
  parents b     := by
    obtain ⟨_, hb, _⟩ := block_erase (p := p) (o := o) (b := b)
    rw [hb]
  regions u     := by rw [op_erase]
  blocks u _    := by rw [op_erase]
  erased u _ he := by simp [op_erase, he]
  housed hh     := hp.erase_housed hh o

end Erase

section Place

theorem Housed.place (hp : p.Housed) (hb : b.index < p.blocks.length)
    (hi : position ≤ (p.block b).operations.length) : (p.place b position new).Housed := by
  intro u hu
  rw [op_place] at hu ⊢
  rw [block_place]
  by_cases hn : u = p.nextOp
  case pos => simp [hn, placed, hb, List.mem_insertIdx hi]
  case neg =>
    rw [if_neg hn] at hu ⊢
    dsimp only
    split
    · exact (List.mem_insertIdx (‹_ ∧ _›.left ▸ hi)).mpr (.inr (hp u hu))
    · exact hp u hu

theorem reshapes_place (hn : new.regions = []) (hb : b.index < p.blocks.length)
    (hi : position ≤ (p.block b).operations.length) : Reshapes p (p.place b position new) where
  length        := by simp
  parents c     := by simp [block_place, hn]
  regions u     := by
    rw [op_place]
    split
    case isTrue hu  => simp [hu, placed, hn]
    case isFalse hu => rfl
  blocks u hu   := by rw [op_place_of_ne (ne_nextOp hu)]
  erased u hu e := by rwa [op_place_of_ne (ne_nextOp hu)]
  housed hp     := hp.place hb hi

end Place

section Passes

-- The edits that passes are made of. Operations that come and go have no regions and end no block.
inductive PassEdit (p : Program) : Program → Prop
  | write {q : Program} {v : ValueId} {s : Sharding} : p.setSharding v s = .ok q → PassEdit p q
  | store (v : ValueId) (s : Option Sharding) : PassEdit p (p.storeSharding v s)
  | recast {o : OpId} {kind : OpKind} : (p.op o).kind.isUnary → kind.isUnary → PassEdit p (p.setKind o kind)
  | replace {source target : ValueId} (except : Option OpId) : target.index < p.values.length →
      PassEdit p (p.replaceUsesExcept source target except)
  | setOperand {o : OpId} {v : ValueId} (index : Nat) : v.index < p.values.length →
      PassEdit p (p.setOperand o index v)
  | erase {o : OpId} : (p.op o).kind.isUnary ∨ (p.op o).kind.isGroup → PassEdit p (p.erase o)
  | attach {q : Program} {b : BlockId} {position : Nat} {owner : ValueId} {s : Option Sharding} {o : OpId} :
      b.index < p.blocks.length → position ≤ (p.block b).operations.length →
      p.insert b position (.edge owner s) = .ok (q, o) → PassEdit p q

-- The edits that make one program of another.
abbrev PassEdits : Program → Program → Prop :=
  Relation.ReflTransGen PassEdit

theorem PassEdit.wellFormed (h : PassEdit p q) (hp : p.WellFormed) : q.WellFormed := by
  cases h with
  | write h       => exact hp.setSharding h
  | store v s     => exact hp.of_bare_eq (bare_storeSharding s)
  | recast h hk   => exact hp.setKind h hk
  | replace _ ht  => exact hp.replaceUsesExcept ht _
  | setOperand _ hv => exact hp.setOperand hv _
  | erase _       => exact hp.erase _
  | attach _ _ h  => exact hp.insert h

theorem PassEdit.reshapes (h : PassEdit p q) (hp : p.WellFormed) : Reshapes p q := by
  cases h with
  | write h        => exact .of_bare_eq (setSharding_bare h)
  | store v s      => exact .of_bare_eq (bare_storeSharding s)
  | recast _ _     => exact .setKind _
  | replace _ _    => exact .replaceUsesExcept _
  | setOperand _ _ => exact .setOperand _
  | erase _        => exact hp.reshapes_erase _
  | attach hb hi h => exact (insert_eq_ok h).left ▸ reshapes_place rfl hb hi

-- What each edit keeps of a program is kept by any number of them.
theorem PassEdits.keep {P : Program → Prop} (h : PassEdits p q) (hp : p.WellFormed)
    (hs : ∀ {q r : Program}, PassEdit q r → q.WellFormed → P q → P r) (hP : P p) : q.WellFormed ∧ P q := by
  induction h with
  | refl         => exact ⟨hp, hP⟩
  | tail _ he ih => exact ⟨he.wellFormed ih.left, hs he ih.left ih.right⟩

theorem PassEdits.reshapes (h : PassEdits p q) (hp : p.WellFormed) : q.WellFormed ∧ Reshapes p q :=
  h.keep hp (fun he hq hpq => hpq.trans (he.reshapes hq)) (.refl p)

theorem kind_replaceUsesExcept (except : Option OpId) :
    ((p.replaceUsesExcept source target except).op o).kind = (p.op o).kind := by
  by_cases h : source = target
  case pos => rw [Program.replaceUsesExcept, if_pos h]
  case neg => rw [replaceUsesExcept_eq h, kind_redirect]

theorem blocks_replaceUsesExcept (except : Option OpId) :
    (p.replaceUsesExcept source target except).blocks = p.blocks := by
  by_cases h : source = target
  case pos => rw [Program.replaceUsesExcept, if_pos h]
  case neg => rw [replaceUsesExcept_eq h, blocks_redirect]

theorem edits_foldl_store (s : ValueId → Option Sharding) (vs : List ValueId) :
    PassEdits p (vs.foldl (fun p v => p.storeSharding v (s v)) p) := by
  induction vs generalizing p with
  | nil         => exact .refl
  | cons v vs ih => exact .head (.store v (s v)) ih

theorem edits_applyWhere {step : Program → OpId → Option Program} {os : List OpId}
    (hs : ∀ q r, ∀ o ∈ os, step q o = some r → q.WellFormed → PassEdits q r) (hp : p.WellFormed)
    (changed : Bool) : PassEdits p (applyWhere step p changed os).1 := by
  refine applyWhere_keeps (P := fun q => PassEdits p q) ?_ .refl changed
  exact fun q r o ho h hq => hq.trans (hs q r o ho h (hq.reshapes hp).left)

theorem edits_spread (options : SpreadOptions) : PassEdits p (p.spread options).program := by
  have hadopts {plan : SpreadPlan} {proposal : Sharding} {q r : Program} {vs : List ValueId}
      (h : plan.Adopts proposal q vs r) : PassEdits q r := by
    induction h with
    | nil            => exact .refl
    | cons _ hs _ ih => exact .head (.write hs) ih
  cases h : p.spreadPlan options with
  | error e =>
    have he : (p.spread options).program = p := by simp [spread, h]
    rw [he]
  | ok plan =>
    rw [spread_program p options h]
    refine SpreadPlan.run_of_evaluates (fun _ => .refl) (fun h h' => h.trans h') ?_ _ _ _ p
    rintro q r vs i he
    cases he with
    | nothing      => exact .refl
    | adopt _ _ ha => exact hadopts ha

theorem erased_of_flowView? {view : FlowView} (h : p.flowView? o = some view) : (p.op o).erased = false := by
  by_contra he
  simp only [flowView?] at h
  cases hk : (p.op o).kind <;> simp_all

namespace WellFormed

variable (hp : p.WellFormed)
include hp

theorem edits_bypass (h : (p.op o).kind.isUnary) : PassEdits p (p.bypass o) :=
  .tail (.single (.replace none (hp.input_lt h))) (.erase (.inl ((kind_replaceUsesExcept none).symm ▸ h)))

theorem edits_sinkOp (h : p.sinkOp o = some q) : PassEdits p q := by
  simp only [sinkOp, Option.ite_none_right_eq_some, Option.some.injEq] at h
  obtain ⟨hk, rfl⟩ := h
  obtain ⟨r, hr, he⟩ : ∃ r, PassEdits p r ∧ r.bare = p.bare ∧ p.sinkEdge o = r.bypass o := by
    simp only [Program.sinkEdge]
    split
    case _ sharding view _ _ =>
      have hq := bare_foldl_storeSharding (p := p) (fun v => some (view.targetSharding p v sharding))
        (p.input o :: view.targets p (p.input o))
      have hi := read_of_bare_eq (fun r => r.input o) (fun r => r.bare_input o) hq
      have hedits := edits_foldl_store (p := p) (fun v => some (view.targetSharding p v sharding))
        (p.input o :: view.targets p (p.input o))
      exact ⟨_, hedits, hq, by rw [Program.bypass, hi]⟩
    case _ => exact ⟨p, .refl, rfl, rfl⟩
  have hu := read_of_bare_eq (fun r => (r.op o).kind.isUnary) (by simp) he.left
  exact he.right ▸ hr.trans ((hp.of_bare_eq he.left).edits_bypass (hu.trans (OpKind.isUnary_of_isEdge hk)))

theorem edits_finishOp (h : p.finishOp o = some q) : PassEdits p q := by
  simp only [Program.finishOp] at h
  cases hk : (p.op o).kind <;> simp only [hk] at h
  case constraint sharding =>
    have hu : (p.op o).kind.isUnary := by simp [hk, OpKind.isUnary]
    split at h <;> cases h
    · exact hp.edits_bypass hu
    · exact .single (.recast hu rfl)
  case group =>
    cases h
    exact .single (.erase (.inr (by simp [hk, OpKind.isGroup])))
  case barrier =>
    have hu : (p.op o).kind.isUnary := by simp [hk, OpKind.isUnary]
    split at h
    · cases h
      exact hp.edits_bypass hu
    · split at h <;> cases h
      · exact hp.edits_bypass hu
      · exact .single (.recast hu rfl)
  all_goals cases h

theorem edits_simplifyOp (h : p.simplifyOp o = some q) : PassEdits p q := by
  simp only [Program.simplifyOp, Option.map_eq_some_iff] at h
  obtain ⟨simplification, hs, rfl⟩ := h
  cases simplification?_simplifies hs with
  | identity hk _ _    => exact hp.edits_bypass (by simp [hk, OpKind.isUnary])
  | missing hk _ _ _ _ => exact hp.edits_bypass (by simp [hk, OpKind.isUnary])
  | satisfied hk _     => exact hp.edits_bypass (by simp [hk, OpKind.isUnary])
  | unused hk _        => exact .single (.erase (.inl (by simp [hk, OpKind.isUnary])))
  | chain _ _ hu       => exact .single (.setOperand 0 (hp.input_lt (by simp [hu, OpKind.isUnary])))

theorem edits_finish : PassEdits p p.finish.1 := by
  have hsink : PassEdits p (applyWhere sinkOp p false p.walk).1 :=
    edits_applyWhere (fun _ _ _ _ h hq => hq.edits_sinkOp h) hp false
  exact hsink.trans (edits_applyWhere (fun _ _ _ _ h hq => hq.edits_finishOp h) (hsink.reshapes hp).left _)

theorem edits_simplify : PassEdits p p.simplify.1 := by
  refine simplifyRounds_keeps (P := fun q => PassEdits p q) (fun q hq => ?_) .refl _ _
  exact hq.trans (edits_applyWhere (fun _ _ _ _ h hq => hq.edits_simplifyOp h) (hq.reshapes hp).left false)

omit hp in
theorem edits_moveConstraint (o : OpId) : PassEdits p (p.moveConstraint o).program := by
  rw [Program.moveConstraint]
  split
  case _ sharding hk =>
    split
    case isTrue => exact .refl
    case isFalse =>
      cases h : p.setSharding (p.input o) sharding with
      | ok q    =>
        have hu := read_of_bare_eq (fun r => (r.op o).kind.isUnary) (by simp) (setSharding_bare h)
        exact .tail (.single (.write h)) (.erase (.inl (hu.trans (by simp [hk, OpKind.isUnary]))))
      | error e => exact .refl
  case _ => exact .refl

-- An edge operation makes its block longer by one.
theorem edits_attachEdge {owner : ValueId} {targets : List ValueId}
    (h : p.attachEdge b position owner targets = .ok q) (hb : b.index < p.blocks.length)
    (hi : position ≤ (p.block b).operations.length) : PassEdits p q ∧ b.index < q.blocks.length ∧
      (q.block b).operations.length = (p.block b).operations.length + 1 := by
  obtain ⟨r, edge, hr, hq⟩ := attachEdge_eq_ok_iff.mp h
  have hw := hp.insert hr
  obtain ⟨hplace, rfl, -⟩ := insert_eq_ok hr
  have hu : (r.op p.nextOp).kind.isUnary := by
    rw [hplace, op_place_nextOp]
    rfl
  have hblocks : q.blocks = r.blocks := by
    rw [hq, read_of_bare_eq (·.blocks) bare_blocks (bare_foldl_storeSharding (fun _ => none) _),
      blocks_replaceUsesExcept]
  refine ⟨?_, ?_, ?_⟩
  · have hmoved : PassEdits p (r.replaceUsesExcept owner (r.output p.nextOp) (some p.nextOp)) :=
      .tail (.single (.attach hb hi hr)) (.replace _ (hw.output_lt hu))
    exact hq ▸ hmoved.trans (edits_foldl_store (fun _ => none) _)
  · simpa [hblocks, hplace] using hb
  · rw [block, hblocks, ← block, hplace, block_place]
    simp [hb, List.length_insertIdx_of_le_length hi]

theorem edits_attachEdges {view : FlowView} {owners : List ValueId} (changed : Bool)
    (hb : b.index < p.blocks.length) (hi : position ≤ (p.block b).operations.length) :
    PassEdits p (Program.attachEdges view b p position changed owners).program := by
  induction owners generalizing p position changed with
  | nil => exact .refl
  | cons owner owners ih =>
    rw [Program.attachEdges]
    split
    case isTrue => exact ih hp changed hb hi
    case isFalse =>
      cases h : p.attachEdge b position owner (view.targets p owner) with
      | error e => exact .refl
      | ok q    =>
        obtain ⟨hq, hb, hl⟩ := hp.edits_attachEdge h hb hi
        exact hq.trans (ih (hq.reshapes hp).left true hb (by omega))

omit hp in
theorem positionAfter_le (p : Program) (o : OpId) :
    p.positionAfter o ≤ (p.block (p.op o).block).operations.length := by
  rw [positionAfter]
  split
  case _ i hi =>
    obtain ⟨hl, _⟩ := List.findIdx?_eq_some_iff_getElem.mp hi
    exact hl
  case _ => exact le_refl _

theorem edits_attachEdgesOf (hh : p.Housed) (o : OpId) : PassEdits p (p.attachEdgesOf o).program := by
  rw [Program.attachEdgesOf]
  split
  case _ hv => exact hp.edits_attachEdges false (hh.lt (erased_of_flowView? hv)) (positionAfter_le p o)
  case _ => exact .refl

theorem edits_prepare (hh : p.Housed) : PassEdits p p.prepare.program := by
  have hm : PassEdits p (Outcome.forEach Program.moveConstraint p false p.walk).program :=
    Outcome.forEach_keeps (P := fun q => PassEdits p q) (fun _ o _ hq => hq.trans (edits_moveConstraint o))
      .refl false
  rw [Program.prepare]
  split
  case _ => exact .refl
  case _ =>
    rw [Outcome.andThen]
    split
    case _ =>
      refine Outcome.forEach_keeps (P := fun q => PassEdits p q) (fun q o _ hq => ?_) hm _
      obtain ⟨hw, hr⟩ := hq.reshapes hp
      exact hq.trans (hw.edits_attachEdgesOf (hr.housed hh) o)
    case _ => exact hm

theorem edits_run (hh : p.Housed) (pass : Pass) : PassEdits p (pass.run p).program := by
  cases pass with
  | prepare        => exact hp.edits_prepare hh
  | spread options => exact edits_spread options
  | finish         => exact hp.edits_finish
  | simplify       => exact hp.edits_simplify

theorem reshapes_run (hh : p.Housed) (pass : Pass) : Reshapes p (pass.run p).program :=
  ((hp.edits_run hh pass).reshapes hp).right

end WellFormed

end Passes

section Build

theorem reshapes_declareMesh {name : String} {mesh : Mesh} (h : p.declareMesh name mesh = .ok q) :
    Reshapes p q := by
  simp only [declareMesh, bind, Except.bind, pure, Except.pure] at h
  split at h
  case _ => contradiction
  case _ =>
    cases h
    exact .of_op rfl (fun _ => rfl) (fun _ => rfl) (fun _ => rfl) (fun _ => rfl) fun _ => rfl

theorem reshapes_registerTransform (name : String) (transform : TargetTransform) :
    Reshapes p (p.registerTransform name transform) :=
  .of_op rfl (fun _ => rfl) (fun _ => rfl) (fun _ => rfl) (fun _ => rfl) fun _ => rfl

theorem reshapes_addArgument {type : TensorType} {sharding : Option Sharding}
    (h : p.addArgument type sharding = .ok (q, v)) : Reshapes p q := by
  simp only [addArgument, bind, Except.bind, pure, Except.pure] at h
  split at h
  case _ => contradiction
  case _ =>
    simp only [Except.ok.injEq, Prod.mk.injEq] at h
    obtain ⟨rfl, -⟩ := h
    refine .of_op rfl (fun _ => rfl) (fun _ => rfl) (fun _ => rfl) ?_ ?_
    all_goals
      intro b
      rw [block_modifyBlock]
      split <;> rfl

-- A new block has no parent, like a block that the program does not have.
theorem reshapes_addRegion (types : List TensorType) : Reshapes p (p.addRegion types).1 := by
  have hb (b : BlockId) : ((p.addRegion types).1.block b).parent = (p.block b).parent ∧
      ((p.addRegion types).1.block b).operations = (p.block b).operations := by
    obtain ⟨i⟩ := b
    simp only [addRegion, block, blocks_pushValues, getD_concat]
    split
    case isTrue hi  => simp [hi]
    case isFalse hi => exact ⟨rfl, rfl⟩
  exact .of_op rfl (fun _ => rfl) (fun _ => rfl) (fun _ => rfl) (fun b => (hb b).left) fun b => (hb b).right

theorem Reachable.housed (h : p.Reachable) : p.Housed := by
  induction h with
  | empty name                      => exact fun o ho => by simp [Program.empty, op] at ho
  | declareMesh _ h hp              => exact (reshapes_declareMesh h).housed hp
  | registerTransform name t _ hp   => exact (reshapes_registerTransform name t).housed hp
  | addArgument _ h hp              => exact (reshapes_addArgument h).housed hp
  | addRegion types _ hp            => exact (reshapes_addRegion types).housed hp
  | insert _ hb hi h hp             => exact (insert_eq_ok h).left ▸ hp.place hb hi
  | setSharding _ h hp              => exact (Reshapes.of_bare_eq (setSharding_bare h)).housed hp
  | replaceUses _ _ _ hp            => exact (Reshapes.replaceUsesExcept none).housed hp
  | setOperand _ _ _ hp             => exact (Reshapes.setOperand _).housed hp
  | erase hr _ hp                   => exact hr.wellFormed.erase_housed hp _
  | run pass hr hp                  => exact (hr.wellFormed.reshapes_run hp pass).housed hp

end Build

end MeshSharding.Program
