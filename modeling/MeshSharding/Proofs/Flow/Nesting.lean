import MeshSharding.Proofs.WellFormed

namespace MeshSharding

section Sublist

variable {α : Type} [BEq α] [LawfulBEq α] {l : List α} {a b c : α}

-- In a list without repetitions, `a` stands before `b`.
theorem pair_sublist_iff (hl : l.Nodup) :
    [a, b].Sublist l ↔ a ∈ l ∧ b ∈ l ∧ l.idxOf a < l.idxOf b := by
  constructor
  · intro h
    have ha := h.subset (List.mem_cons_self : a ∈ [a, b])
    have hb := h.subset (List.mem_cons_of_mem a List.mem_cons_self : b ∈ [a, b])
    refine ⟨ha, hb, ?_⟩
    obtain ⟨l₁, l₂, rfl, ha, hb⟩ := List.cons_sublist_iff.mp h
    rw [List.singleton_sublist] at hb
    have hn : b ∉ l₁ := fun hn => (List.nodup_append.mp hl).right.right b hn b hb rfl
    rw [List.idxOf_append_of_mem ha, List.idxOf_append_of_notMem hn]
    exact Nat.lt_of_lt_of_le (List.idxOf_lt_length_of_mem ha) (Nat.le_add_right ..)
  · intro ⟨ha, hb, h⟩
    refine List.cons_sublist_iff.mpr ⟨l.take (l.idxOf b), l.drop (l.idxOf b), ?_, ?_, ?_⟩
    · rw [List.take_append_drop]
    · have ha' := List.idxOf_lt_length_of_mem ha
      exact List.mem_take_iff_getElem.mpr ⟨l.idxOf a, by omega, List.getElem_idxOf ha'⟩
    · have hb' := List.idxOf_lt_length_of_mem hb
      rw [List.singleton_sublist]
      exact List.mem_drop_iff_getElem.mpr ⟨0, by omega, List.getElem_idxOf hb'⟩

theorem pair_sublist_trans (hl : l.Nodup) (hab : [a, b].Sublist l) (hbc : [b, c].Sublist l) :
    [a, c].Sublist l := by
  have ⟨ha, _, hab⟩ := (pair_sublist_iff hl).mp hab
  have ⟨_, hc, hbc⟩ := (pair_sublist_iff hl).mp hbc
  exact (pair_sublist_iff hl).mpr ⟨ha, hc, hab.trans hbc⟩

theorem pair_sublist_append_iff {before after : List α} (h : (before ++ b :: after).Nodup) :
    [a, b].Sublist (before ++ b :: after) ↔ a ∈ before := by
  constructor
  · intro hs
    by_contra ha
    have hb : b ∉ before := fun hb =>
      (List.nodup_append.mp h).right.right b hb b List.mem_cons_self rfl
    have ⟨_, _, hi⟩ := (pair_sublist_iff h).mp hs
    rw [List.idxOf_append_of_notMem ha, List.idxOf_append_of_notMem hb, List.idxOf_cons_self] at hi
    omega
  · intro ha
    exact (List.singleton_sublist.mpr ha).append (List.singleton_sublist.mpr List.mem_cons_self)

theorem pair_sublist_cons_iff {before after : List α} (h : (before ++ a :: after).Nodup) :
    [a, b].Sublist (before ++ a :: after) ↔ b ∈ after := by
  constructor
  · intro hs
    have ⟨_, hb, hi⟩ := (pair_sublist_iff h).mp hs
    have ha : a ∉ before := fun ha =>
      (List.nodup_append.mp h).right.right a ha a List.mem_cons_self rfl
    rw [List.idxOf_append_of_notMem ha, List.idxOf_cons_self] at hi
    obtain hb | hb := List.mem_append.mp hb
    · rw [List.idxOf_append_of_mem hb] at hi
      have := List.idxOf_lt_length_of_mem hb
      omega
    · obtain rfl | hb := List.mem_cons.mp hb
      · rw [List.idxOf_append_of_notMem ha, List.idxOf_cons_self] at hi
        omega
      · exact hb
  · intro hb
    exact ((List.singleton_sublist.mpr hb).cons_cons a).trans (List.sublist_append_right ..)

omit [BEq α] [LawfulBEq α] in
theorem sublist_flatMap {β : Type} (f : α → List β) (h : a ∈ l) : (f a).Sublist (l.flatMap f) :=
  List.sublist_flatten_of_mem (List.mem_map_of_mem h)

omit [BEq α] [LawfulBEq α] in
theorem sublist_flatMap_cons (f : α → List α) : l.Sublist (l.flatMap fun a => a :: f a) := by
  induction l with
  | nil         => exact .slnil
  | cons a l ih =>
    rw [List.flatMap_cons, List.cons_append]
    exact (ih.trans (List.sublist_append_right ..)).cons_cons a

omit [BEq α] [LawfulBEq α] in
theorem flatMap_eq_filter {β : Type} {keep : α → Bool} {f g : α → List β}
    (hf : ∀ a, keep a = false → f a = []) (hg : ∀ a, keep a → f a = g a) (l : List α) :
    l.flatMap f = (l.filter keep).flatMap g := by
  induction l with
  | nil => rfl
  | cons a l ih =>
    rw [List.flatMap_cons, ih]
    cases ha : keep a with
    | true  => rw [List.filter_cons_of_pos ha, List.flatMap_cons, hg a ha]
    | false => rw [List.filter_cons_of_neg (by simp [ha]), hf a ha, List.nil_append]

end Sublist

namespace Program

-- The blocks below a block, which comes first, through a number of levels.
def blocksWithin (p : Program) : (depth : Nat) → BlockId → List BlockId
  | 0,         _ => []
  | depth + 1, b =>
    b :: (p.block b).operations.flatMap fun o => (p.op o).regions.flatMap (blocksWithin p depth)

-- The blocks of which a walk goes through the operations.
def nested (p : Program) : List BlockId :=
  p.blocksWithin p.blocks.length entry

-- No block is met twice on the way down.
def IsTree (p : Program) : Prop :=
  p.nested.Nodup

-- The body is not nested in itself. A block may still be met twice on the way down, if it is a region
-- of an operation twice.
def Rooted (p : Program) : Prop :=
  entry ∉ p.nested.tail

-- A block that is nested in another one, through a number of levels.
inductive Below (p : Program) (b : BlockId) : Nat → BlockId → Prop
  | here : Below p b 0 b
  | step {n : Nat} {c d : BlockId} {o : OpId} : Below p b n c → o ∈ (p.block c).operations →
      d ∈ (p.op o).regions → Below p b (n + 1) d

variable {p q : Program} {o u : OpId} {b c : BlockId} {depth : Nat}

section Walk

theorem mem_walkBlock_iff :
    o ∈ p.walkBlock depth b ↔ ∃ c ∈ p.blocksWithin depth b, o ∈ (p.block c).operations := by
  induction depth generalizing b with
  | zero => simp [walkBlock, blocksWithin]
  | succ depth ih =>
    simp only [walkBlock, blocksWithin, List.mem_flatMap, List.mem_cons, ih, exists_eq_or_imp]
    constructor
    · rintro ⟨w, hw, rfl | ⟨d, hd, c, hc, ho⟩⟩
      · exact .inl hw
      · exact .inr ⟨c, ⟨w, hw, d, hd, hc⟩, ho⟩
    · rintro (ho | ⟨c, ⟨w, hw, d, hd, hc⟩, ho⟩)
      · exact ⟨o, ho, .inl rfl⟩
      · exact ⟨w, hw, .inr ⟨d, hd, c, hc, ho⟩⟩

theorem exists_of_terminator? (h : p.terminator? b = some o) :
    o ∈ (p.block b).operations ∧ (p.op o).kind.isTerminator := by
  obtain ⟨hl, hk⟩ := Option.filter_eq_some_iff.mp h
  exact ⟨List.mem_of_getLast? hl, hk⟩

theorem mem_walk_iff : o ∈ p.walk ↔ ∃ b ∈ p.nested, o ∈ (p.block b).operations :=
  mem_walkBlock_iff

theorem walkBlock_perm :
    (p.walkBlock depth b).Perm ((p.blocksWithin depth b).flatMap fun c => (p.block c).operations) := by
  induction depth generalizing b with
  | zero => exact .nil
  | succ depth ih =>
    have hop (o : OpId) : ((p.op o).regions.flatMap (p.walkBlock depth)).Perm
        (((p.op o).regions.flatMap (p.blocksWithin depth)).flatMap fun c => (p.block c).operations) := by
      rw [List.flatMap_assoc]
      exact List.Perm.flatMap_left _ fun c _ => ih
    have hcons := (List.map_append_flatMap_perm (p.block b).operations id
      fun o => (p.op o).regions.flatMap (p.walkBlock depth)).symm
    rw [List.map_id] at hcons
    rw [walkBlock, blocksWithin, List.flatMap_cons, List.flatMap_assoc]
    exact hcons.trans ((List.Perm.flatMap_left _ fun o _ => hop o).append_left _)

theorem WellFormed.walk_nodup (hp : p.WellFormed) (ht : p.IsTree) : p.walk.Nodup := by
  refine walkBlock_perm.nodup_iff.mpr (List.nodup_flatMap.mpr ⟨fun b _ => hp.nodup b, ?_⟩)
  refine ht.imp fun {b c} hbc o hb hc => hbc ?_
  exact hp.member_unique hb hc

theorem walkBlock_sublist {d : BlockId} (ho : o ∈ (p.block b).operations) (hd : d ∈ (p.op o).regions) :
    (o :: p.walkBlock depth d).Sublist (p.walkBlock (depth + 1) b) := by
  rw [walkBlock]
  refine List.Sublist.trans ?_ (sublist_flatMap _ ho)
  exact (sublist_flatMap _ hd).cons_cons o

-- The operations of a block keep their order.
theorem operations_sublist (h : c ∈ p.blocksWithin depth b) :
    (p.block c).operations.Sublist (p.walkBlock depth b) := by
  induction depth generalizing b with
  | zero => simp [blocksWithin] at h
  | succ depth ih =>
    simp only [blocksWithin, List.mem_cons, List.mem_flatMap] at h
    obtain rfl | ⟨o, ho, d, hd, hc⟩ := h
    · exact sublist_flatMap_cons _
    · exact (ih hc).trans ((List.sublist_cons_self o _).trans (walkBlock_sublist ho hd))

-- An operation comes before those in its regions.
theorem parent_sublist (h : c ∈ p.blocksWithin depth b) : c = b ∨
    ∃ u, c ∈ (p.op u).regions ∧ ∀ o ∈ (p.block c).operations, [u, o].Sublist (p.walkBlock depth b) := by
  induction depth generalizing b with
  | zero => simp [blocksWithin] at h
  | succ depth ih =>
    simp only [blocksWithin, List.mem_cons, List.mem_flatMap] at h
    obtain rfl | ⟨u, hu, d, hd, hc⟩ := h
    · exact .inl rfl
    · right
      obtain rfl | ⟨w, hw, hs⟩ := ih hc
      · refine ⟨u, hd, fun o ho => ?_⟩
        have ho := List.singleton_sublist.mpr ((operations_sublist hc).subset ho)
        exact (ho.cons_cons u).trans (walkBlock_sublist hu hd)
      · refine ⟨w, hw, fun o ho => (hs o ho).trans ?_⟩
        exact (List.sublist_cons_self u _).trans (walkBlock_sublist hu hd)

end Walk

section Live

theorem WellFormed.block_nested (hp : p.WellFormed) (h : o ∈ p.walk) :
    (p.op o).block ∈ p.nested ∧ o ∈ (p.block (p.op o).block).operations := by
  have ⟨b, hb, ho⟩ := mem_walk_iff.mp h
  have hbo := (hp.members b o ho).right
  exact hbo ▸ ⟨hb, ho⟩

theorem WellFormed.not_erased (hp : p.WellFormed) (h : o ∈ p.walk) : (p.op o).erased = false :=
  have ⟨_, _, ho⟩ := mem_walk_iff.mp h
  (hp.members _ o ho).left

theorem WellFormed.walk_lt (hp : p.WellFormed) (h : o ∈ p.walk) : o.index < p.operations.length :=
  index_lt_of_not_erased (hp.not_erased h)

-- An operation of a walk lies in the body, or its parent comes before it.
theorem WellFormed.parent_before (hp : p.WellFormed) (h : o ∈ p.walk) : (p.op o).block = entry ∨
    ∃ u, (p.block (p.op o).block).parent = some u ∧ [u, o].Sublist p.walk := by
  have ⟨hb, ho⟩ := hp.block_nested h
  obtain he | ⟨u, hu, hs⟩ := parent_sublist hb
  · exact .inl he
  · exact .inr ⟨u, (hp.regions _ u).mp hu, hs o ho⟩

theorem WellFormed.around_before (hp : p.WellFormed) (ho : o ∈ p.walk) (hm : o ∈ (p.block b).operations)
    (hb : b ≠ entry) (hr : b ∈ (p.op u).regions) : [u, o].Sublist p.walk := by
  have hm := (hp.members b o hm).right
  obtain he | ⟨w, hw, hs⟩ := hp.parent_before ho
  · exact absurd (hm.symm.trans he) hb
  · rw [hm] at hw
    exact hp.parent_unique ((hp.regions b w).mpr hw) hr ▸ hs

end Live

section Levels

variable {n m : Nat} {d : BlockId}

theorem Below.head (ho : o ∈ (p.block b).operations) (hd : d ∈ (p.op o).regions) (h : p.Below d n c) :
    p.Below b (n + 1) c := by
  induction h with
  | here            => exact .step .here ho hd
  | step _ hu hc ih => exact .step ih hu hc

theorem Below.exists_head (h : p.Below b (n + 1) c) :
    ∃ o ∈ (p.block b).operations, ∃ d ∈ (p.op o).regions, p.Below d n c := by
  induction n generalizing c with
  | zero =>
    cases h with
    | step h ho hd =>
      cases h
      exact ⟨_, ho, c, hd, .here⟩
  | succ n ih =>
    cases h with
    | step h ho hd =>
      obtain ⟨u, hu, e, he, h⟩ := ih h
      exact ⟨u, hu, e, he, .step h ho hd⟩

theorem Below.trans (h : p.Below b n c) (h' : p.Below c m d) : p.Below b (n + m) d := by
  induction h' with
  | here            => exact h
  | step _ ho hd ih => exact .step ih ho hd

theorem mem_blocksWithin_iff : c ∈ p.blocksWithin depth b ↔ ∃ n < depth, p.Below b n c := by
  induction depth generalizing b with
  | zero => simp [blocksWithin]
  | succ depth ih =>
    simp only [blocksWithin, List.mem_cons, List.mem_flatMap, ih]
    constructor
    · rintro (rfl | ⟨o, ho, d, hd, n, hn, h⟩)
      · exact ⟨0, Nat.succ_pos depth, .here⟩
      · exact ⟨n + 1, Nat.succ_lt_succ hn, h.head ho hd⟩
    · rintro ⟨n, hn, h⟩
      cases n with
      | zero =>
        cases h
        exact .inl rfl
      | succ n =>
        obtain ⟨o, ho, d, hd, h⟩ := h.exists_head
        exact .inr ⟨o, ho, d, hd, n, Nat.lt_of_succ_lt_succ hn, h⟩

theorem mem_nested_iff : b ∈ p.nested ↔ ∃ n < p.blocks.length, p.Below entry n b :=
  mem_blocksWithin_iff

theorem WellFormed.nested_eq_cons (hp : p.WellFormed) : p.nested = entry :: p.nested.tail := by
  have ⟨n, hn⟩ := Nat.exists_eq_add_of_lt hp.body
  simp [nested, hn, blocksWithin]

theorem IsTree.rooted (h : p.IsTree) (hp : p.WellFormed) : p.Rooted := by
  have h : (entry :: p.nested.tail).Nodup := hp.nested_eq_cons ▸ h
  exact (List.nodup_cons.mp h).left

theorem Rooted.not_below (h : p.Rooted) (hn : n + 1 < p.blocks.length) : ¬ p.Below entry (n + 1) entry := by
  intro hb
  obtain ⟨o, ho, d, hd, hb⟩ := hb.exists_head
  obtain ⟨k, hk⟩ := Nat.exists_eq_add_of_lt (Nat.zero_lt_of_lt hn)
  rw [Nat.zero_add] at hk
  refine h ?_
  rw [nested, hk, blocksWithin, List.tail_cons]
  simp only [List.mem_flatMap]
  exact ⟨o, ho, d, hd, mem_blocksWithin_iff.mpr ⟨n, by omega, hb⟩⟩

theorem WellFormed.rooted_of_not_below (hp : p.WellFormed) (h : ∀ n, ¬ p.Below entry (n + 1) entry) :
    p.Rooted := by
  intro he
  obtain ⟨k, hk⟩ := Nat.exists_eq_add_of_lt (Nat.zero_lt_of_lt hp.body)
  rw [Nat.zero_add] at hk
  rw [nested, hk, blocksWithin, List.tail_cons] at he
  simp only [List.mem_flatMap, mem_blocksWithin_iff] at he
  obtain ⟨o, ho, d, hd, n, _, hb⟩ := he
  exact h n (hb.head ho hd)

namespace WellFormed

-- There is one way up from each block, and it ends at the body.
theorem level_unique (hp : p.WellFormed) (hr : p.Rooted) (hn : n < p.blocks.length)
    (hm : m < p.blocks.length) (h : p.Below entry n b) (h' : p.Below entry m b) : n = m := by
  induction n generalizing m b with
  | zero =>
    cases h
    cases m with
    | zero   => rfl
    | succ m => exact absurd h' (hr.not_below hm)
  | succ n ih =>
    cases m with
    | zero =>
      cases h'
      exact absurd h (hr.not_below hn)
    | succ m =>
      cases h with
      | step h ho hb =>
        cases h' with
        | step h' hu hb' =>
          obtain rfl := hp.around_unique ho hb hu hb'
          exact congrArg _ (ih (Nat.lt_of_succ_lt hn) (Nat.lt_of_succ_lt hm) h h')

-- The operations around one, itself among them.
theorem exists_around (hp : p.WellFormed) (hr : p.Rooted) (hn : n < p.blocks.length)
    (h : p.Below entry n b) (ho : o ∈ (p.block b).operations) :
    ∃ os : List OpId, os.length = n + 1 ∧ os.Nodup ∧
      ∀ u ∈ os, ∃ m ≤ n, ∃ c, p.Below entry m c ∧ u ∈ (p.block c).operations := by
  induction h generalizing o with
  | here => exact ⟨[o], rfl, by simp, by simpa using ⟨entry, .here, ho⟩⟩
  | @step n c d u h hu hd ih =>
    obtain ⟨os, hl, hos, hin⟩ := ih (Nat.lt_of_succ_lt hn) hu
    refine ⟨o :: os, by simp [hl], List.nodup_cons.mpr ⟨fun hm => ?_, hos⟩, ?_⟩
    · -- Its own block is one level below all of theirs.
      obtain ⟨m, hm, e, he, hoe⟩ := hin o hm
      have hed := hp.member_unique hoe ho
      have := hp.level_unique hr (by omega) hn (hed ▸ he) (.step h hu hd)
      omega
    · refine List.forall_mem_cons.mpr ⟨⟨n + 1, le_refl _, d, .step h hu hd, ho⟩, fun w hw => ?_⟩
      obtain ⟨m, hm, e, he⟩ := hin w hw
      exact ⟨m, Nat.le_succ_of_le hm, e, he⟩

theorem level_lt (hp : p.WellFormed) (hr : p.Rooted) (hn : n < p.blocks.length) (h : p.Below entry n b)
    (ho : o ∈ (p.block b).operations) : n < p.operations.length := by
  obtain ⟨os, hl, hos, hin⟩ := hp.exists_around hr hn h ho
  have hle := length_le_of_index_lt OpId.index_injective hos fun u hu => by
    obtain ⟨_, _, c, _, hc⟩ := hin u hu
    exact hp.member_lt hc
  omega

theorem isLive_of_mem_walk (hp : p.WellFormed) (hr : p.Rooted) (h : o ∈ p.walk) : p.isLive o := by
  have hlive {n : Nat} {b : BlockId} (hb : p.Below entry n b) :
      ∀ u ∈ (p.block b).operations, ∀ height > n, p.isLiveWithin height u := by
    induction hb with
    | here =>
      intro u hu height hh
      obtain ⟨k, rfl⟩ := Nat.exists_eq_add_of_lt hh
      have ⟨he, hb⟩ := hp.members _ u hu
      simp [isLiveWithin, he, hb]
    | @step n c d w hb hw hd ih =>
      intro u hu height hh
      obtain ⟨k, rfl⟩ := Nat.exists_eq_add_of_lt hh
      have ⟨he, hud⟩ := hp.members _ u hu
      have hw := ih w hw (n + 1 + k) (by omega)
      simp [isLiveWithin, he, hud, (hp.regions d w).mp hd, hw]
  have ⟨b, hb, ho⟩ := mem_walk_iff.mp h
  obtain ⟨n, hn, hb⟩ := mem_nested_iff.mp hb
  exact hlive hb o ho _ (hp.level_lt hr hn hb ho)

end WellFormed

end Levels

section Edits

-- Two programs that differ in operations without regions only.
structure LeavesDiffer (keep : OpId → Bool) (p q : Program) : Prop where
  operations : ∀ b, (q.block b).operations.filter keep = (p.block b).operations.filter keep
  regions    : ∀ o, keep o → (q.op o).regions = (p.op o).regions
  left       : ∀ o, keep o = false → (p.op o).regions = []
  right      : ∀ o, keep o = false → (q.op o).regions = []

variable {keep : OpId → Bool}

theorem filter_walkBlock (h : ∀ o, keep o = false → (p.op o).regions = []) :
    (p.walkBlock (depth + 1) b).filter keep = ((p.block b).operations.filter keep).flatMap fun o =>
      o :: (p.op o).regions.flatMap fun c => (p.walkBlock depth c).filter keep := by
  rw [walkBlock, List.filter_flatMap]
  apply flatMap_eq_filter
  case hf =>
    intro o ho
    simp [h o ho, ho]
  case hg =>
    intro o ho
    rw [List.filter_cons_of_pos ho, List.filter_flatMap]

theorem blocksWithin_filter (h : ∀ o, keep o = false → (p.op o).regions = []) :
    p.blocksWithin (depth + 1) b = b :: ((p.block b).operations.filter keep).flatMap fun o =>
      (p.op o).regions.flatMap (p.blocksWithin depth) := by
  rw [blocksWithin]
  congr 1
  apply flatMap_eq_filter
  case hf =>
    intro o ho
    rw [h o ho, List.flatMap_nil]
  case hg => exact fun _ _ => rfl

namespace LeavesDiffer

theorem walkBlock (h : LeavesDiffer keep p q) :
    (q.walkBlock depth b).filter keep = (p.walkBlock depth b).filter keep := by
  induction depth generalizing b with
  | zero => rfl
  | succ depth ih =>
    rw [filter_walkBlock h.left, filter_walkBlock h.right, h.operations]
    apply List.flatMap_congr fun o ho => ?_
    rw [h.regions o (List.mem_filter.mp ho).right]
    congr 1
    exact List.flatMap_congr fun c _ => ih

theorem blocksWithin (h : LeavesDiffer keep p q) : q.blocksWithin depth b = p.blocksWithin depth b := by
  induction depth generalizing b with
  | zero => rfl
  | succ depth ih =>
    rw [blocksWithin_filter h.left, blocksWithin_filter h.right, h.operations]
    congr 1
    apply List.flatMap_congr fun o ho => ?_
    rw [h.regions o (List.mem_filter.mp ho).right]
    exact List.flatMap_congr fun c _ => ih

end LeavesDiffer

end Edits

end Program

end MeshSharding
