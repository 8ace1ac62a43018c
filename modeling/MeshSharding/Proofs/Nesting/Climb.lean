import MeshSharding.Proofs.Nesting.Reshape
import MeshSharding.Proofs.Verify.Rules

namespace MeshSharding.Program

-- The block around a block: the one with the operation that it is a region of.
def around? (p : Program) (b : BlockId) : Option BlockId :=
  (p.block b).parent.map fun o => (p.op o).block

-- The block that is reached from a block by a number of steps outwards.
def outer? (p : Program) : Nat → BlockId → Option BlockId
  | 0,     b => some b
  | n + 1, b => (p.around? b).bind (p.outer? n)

-- No block is nested in itself, not even by operations that are erased.
def Acyclic (p : Program) : Prop :=
  ∀ b n, p.outer? (n + 1) b ≠ some b

variable {p q : Program} {b c d e : BlockId} {o u : OpId} {n m depth height : Nat}

section Outer

theorem outer?_add (n m : Nat) (b : BlockId) : p.outer? (n + m) b = (p.outer? n b).bind (p.outer? m) := by
  induction n generalizing b with
  | zero => rw [Nat.zero_add, outer?, Option.bind_some]
  | succ n ih =>
    rw [Nat.succ_add, outer?, outer?]
    cases p.around? b with
    | none   => rfl
    | some c => exact ih c

theorem outer?_congr (h : ∀ b, q.around? b = p.around? b) (n : Nat) (b : BlockId) :
    q.outer? n b = p.outer? n b := by
  induction n generalizing b with
  | zero => rfl
  | succ n ih =>
    rw [outer?, outer?, h]
    exact congrArg _ (funext ih)

theorem lt_of_around? (h : p.around? b = some c) : b.index < p.blocks.length := by
  by_contra hl
  simp [around?, block_of_length_le (Nat.le_of_not_lt hl)] at h

theorem WellFormed.around?_of_region (hp : p.WellFormed) (h : b ∈ (p.op o).regions) :
    p.around? b = some (p.op o).block := by
  rw [around?, (hp.regions b o).mp h, Option.map_some]

theorem WellFormed.outer?_of_below (hp : p.WellFormed) (h : p.Below b n c) : p.outer? n c = some b := by
  induction h with
  | here => rfl
  | step _ ho hd ih => rw [outer?, hp.around?_of_region hd, (hp.members _ _ ho).right, Option.bind_some, ih]

namespace Acyclic

variable (h : p.Acyclic)
include h

theorem congr (hq : ∀ b, q.around? b = p.around? b) : q.Acyclic :=
  fun b n => outer?_congr hq (n + 1) b ▸ h b n

-- The way up goes through blocks of the program, and through each of them once.
theorem exists_outer?_eq_none (b : BlockId) : ∃ n, p.outer? n b = none := by
  by_contra hn
  have hsome (n : Nat) : ∃ c, p.outer? n b = some c :=
    Option.ne_none_iff_exists'.mp fun he => hn ⟨n, he⟩
  choose f hf using hsome
  have hstep (i k : Nat) : p.outer? k (f i) = some (f (i + k)) := by
    have hs := hf (i + k)
    rwa [outer?_add, hf i, Option.bind_some] at hs
  have hlt (i : Nat) : (f i).index < p.blocks.length := by
    have hs := hstep i 1
    simp only [outer?, Option.bind_eq_some_iff] at hs
    obtain ⟨_, ha, _⟩ := hs
    exact lt_of_around? ha
  have hinj : Function.Injective fun i => (⟨(f i).index, hlt i⟩ : Fin p.blocks.length) := by
    refine .of_lt_imp_ne fun i j hij he => ?_
    have he : f i = f j := congrArg BlockId.mk (Fin.mk.inj he)
    obtain ⟨k, rfl⟩ := Nat.exists_eq_add_of_lt hij
    exact h (f i) k ((hstep i (k + 1)).trans (congrArg some he.symm))
  exact not_injective_infinite_finite _ hinj

theorem outer?_unique (hn : p.outer? n c = some b) (hm : p.outer? m c = some b) : n = m := by
  have hlt {i j : Nat} (hi : p.outer? i c = some b) (hj : p.outer? j c = some b) : ¬ i < j := by
    intro hij
    obtain ⟨k, rfl⟩ := Nat.exists_eq_add_of_lt hij
    rw [Nat.add_assoc, outer?_add, hi, Option.bind_some] at hj
    exact h b k hj
  have := hlt hn hm
  have := hlt hm hn
  omega

theorem not_below (hp : p.WellFormed) : ¬ p.Below b (n + 1) b :=
  fun hb => h b n (hp.outer?_of_below hb)

theorem below_lt (hp : p.WellFormed) (hb : p.Below b n c) : n < p.blocks.length := by
  cases n with
  | zero => exact Nat.zero_lt_of_lt hp.body
  | succ n =>
    obtain ⟨o, ho, _⟩ := hb.exists_head
    have hl : b.index < p.blocks.length := by
      by_contra hl
      simp [block_of_length_le (Nat.le_of_not_lt hl)] at ho
    obtain ⟨m, hm, hc⟩ := hb.short hp.region_lt hl
    rwa [h.outer?_unique (hp.outer?_of_below hb) (hp.outer?_of_below hc)]

theorem rooted (hp : p.WellFormed) : p.Rooted :=
  hp.rooted_of_not_below fun _ => h.not_below hp

end Acyclic

end Outer

section Walk

-- A walk that may go deep enough goes through everything.
theorem walkBlock_succ (h : ∀ n c, p.Below b n c → n < depth) :
    p.walkBlock (depth + 1) b = p.walkBlock depth b := by
  induction depth generalizing b with
  | zero => exact absurd (h 0 b .here) (Nat.lt_irrefl 0)
  | succ depth ih =>
    rw [walkBlock, walkBlock]
    refine List.flatMap_congr fun o ho => congrArg _ (List.flatMap_congr fun c hc => ?_)
    exact ih fun n d hd => Nat.lt_of_succ_lt_succ (h (n + 1) d (hd.head ho hc))

theorem WellFormed.children_nodup (hp : p.WellFormed)
    (hr : ∀ o, (p.op o).erased = false → (p.op o).regions.Nodup) (b : BlockId) :
    ((p.block b).operations.flatMap fun o => (p.op o).regions).Nodup := by
  refine List.nodup_flatMap.mpr ⟨fun o ho => hr o (hp.members b o ho).left, ?_⟩
  refine (hp.nodup b).imp fun {o u} hne c hc hc' => ?_
  exact hne (hp.parent_unique hc hc')

theorem Acyclic.blocksWithin_nodup (h : p.Acyclic) (hp : p.WellFormed)
    (hr : ∀ o, (p.op o).erased = false → (p.op o).regions.Nodup) : (p.blocksWithin depth b).Nodup := by
  induction depth generalizing b with
  | zero => exact List.nodup_nil
  | succ depth ih =>
    rw [blocksWithin, ← List.flatMap_assoc]
    refine List.nodup_cons.mpr ⟨fun hb => ?_, List.nodup_flatMap.mpr ⟨fun c _ => ih, ?_⟩⟩
    · obtain ⟨c, hc, hb⟩ := List.mem_flatMap.mp hb
      obtain ⟨o, ho, hc⟩ := List.mem_flatMap.mp hc
      obtain ⟨n, _, hb⟩ := mem_blocksWithin_iff.mp hb
      exact h.not_below hp (hb.head ho hc)
    · refine (hp.children_nodup hr b).imp_of_mem fun {c d} hc hd hne e he he' => hne ?_
      obtain ⟨o, ho, hc⟩ := List.mem_flatMap.mp hc
      obtain ⟨u, hu, hd⟩ := List.mem_flatMap.mp hd
      obtain ⟨n, _, he⟩ := mem_blocksWithin_iff.mp he
      obtain ⟨m, _, he'⟩ := mem_blocksWithin_iff.mp he'
      -- Both blocks are one level below `b` on the only way up from `e`.
      have hnm := h.outer?_unique (hp.outer?_of_below (he.head ho hc)) (hp.outer?_of_below (he'.head hu hd))
      obtain rfl := Nat.succ.inj hnm
      exact Option.some.inj ((hp.outer?_of_below he).symm.trans (hp.outer?_of_below he'))

theorem WellFormed.mem_walk_iff_below (hp : p.WellFormed) :
    o ∈ p.walk ↔ ∃ n b, p.Below entry n b ∧ o ∈ (p.block b).operations := by
  rw [mem_walk_iff]
  constructor
  · rintro ⟨b, hb, ho⟩
    obtain ⟨n, _, hb⟩ := mem_nested_iff.mp hb
    exact ⟨n, b, hb, ho⟩
  · rintro ⟨n, b, hb, ho⟩
    exact ⟨b, mem_nested_iff.mpr (hb.short hp.region_lt hp.body), ho⟩

end Walk

section Live

theorem Housed.below_of_isLiveWithin (hh : p.Housed) (hp : p.WellFormed) (h : p.isLiveWithin height o) :
    (p.op o).erased = false ∧ ∃ n, p.Below entry n (p.op o).block := by
  induction height generalizing o with
  | zero => simp [isLiveWithin] at h
  | succ height ih =>
    simp only [isLiveWithin, Bool.and_eq_true, Bool.not_eq_true', Bool.or_eq_true, decide_eq_true_eq] at h
    obtain ⟨he, hb | hu⟩ := h
    · exact ⟨he, 0, hb ▸ .here⟩
    · cases hparent : (p.block (p.op o).block).parent with
      | none   => simp [hparent] at hu
      | some u =>
        rw [hparent] at hu
        obtain ⟨hue, n, hn⟩ := ih hu
        exact ⟨he, n + 1, .step hn (hh u hue) ((hp.regions _ u).mpr hparent)⟩

theorem Housed.mem_walk_iff_isLive (hh : p.Housed) (hp : p.WellFormed) (hr : p.Rooted) :
    o ∈ p.walk ↔ p.isLive o := by
  refine ⟨hp.isLive_of_mem_walk hr, fun h => ?_⟩
  obtain ⟨he, n, hn⟩ := hh.below_of_isLiveWithin hp h
  exact hp.mem_walk_iff_below.mpr ⟨n, _, hn, hh o he⟩

theorem Reachable.mem_walk_iff (h : p.Reachable) (hr : p.Rooted) : o ∈ p.walk ↔ p.isLive o :=
  h.housed.mem_walk_iff_isLive h.wellFormed hr

-- An operation is live if it is not erased and lies in the body, or in a region of a live one.
theorem Housed.isLive_iff (hh : p.Housed) (hp : p.WellFormed) (hr : p.Rooted) :
    p.isLive o ↔ (p.op o).erased = false ∧
      ((p.op o).block = entry ∨ ∃ u, (p.block (p.op o).block).parent = some u ∧ p.isLive u) := by
  simp only [← hh.mem_walk_iff_isLive hp hr, hp.mem_walk_iff_below]
  constructor
  · rintro ⟨n, b, hb, ho⟩
    obtain ⟨he, hbo⟩ := hp.members b o ho
    rw [hbo]
    cases hb with
    | here                   => exact ⟨he, .inl rfl⟩
    | @step n c _ u hc hu hd => exact ⟨he, .inr ⟨u, (hp.regions b u).mp hd, n, c, hc, hu⟩⟩
  · rintro ⟨he, hb | ⟨u, hu, n, c, hc, hm⟩⟩
    · exact ⟨0, entry, .here, hb ▸ hh o he⟩
    · exact ⟨n + 1, _, .step hc hm ((hp.regions _ u).mpr hu), hh o he⟩

theorem WellFormed.enclosingManual?_eq (hp : p.WellFormed) (b : BlockId) :
    p.enclosingManual? b = (p.block b).parent.bind fun u =>
      if (p.op u).kind.isManual then some u else p.enclosingManual? (p.op u).block := by
  ext m
  rw [hp.enclosingManual?_eq_some_iff, Option.bind_eq_some_iff]
  constructor
  · rintro ⟨us, hw⟩
    cases hw with
    | found hb hm   => exact ⟨m, hb, by rw [if_pos hm]⟩
    | up hb hk hw   => exact ⟨_, hb, by rw [if_neg (by simp [hk])]; exact hp.enclosingManual?_eq_some_iff.mpr ⟨_, hw⟩⟩
  · rintro ⟨u, hb, hm⟩
    split at hm
    case isTrue hk =>
      cases hm
      exact ⟨_, .found hb hk⟩
    case isFalse hk =>
      obtain ⟨us, hw⟩ := hp.enclosingManual?_eq_some_iff.mp hm
      exact ⟨_, .up hb (by simpa using hk) hw⟩

end Live

end MeshSharding.Program
