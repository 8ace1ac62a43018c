import MeshSharding.Proofs.Reachable
import MeshSharding.Proofs.Spread.Links

namespace MeshSharding

namespace Program

-- A value gets a sharding without being written to: on a boundary of a named computation that has no shardings, the
-- first one that is written, to another value, comes with open ones for all values beside it.
inductive FilledBeside (p q : Program) (v : ValueId) : Prop
  | argument {o b w before after} : (p.op o).kind = .named before → before.inShardings = none →
      (q.op o).kind = .named after → after.inShardings ≠ none → b ∈ (p.op o).regions →
      v ∈ (p.block b).arguments → w ∈ (p.block b).arguments → w ≠ v → FilledBeside p q v
  | result {o w before after} : (p.op o).kind = .named before → before.outShardings = none →
      (q.op o).kind = .named after → after.outShardings ≠ none →
      v ∈ (p.op o).results → w ∈ (p.op o).results → w ≠ v → FilledBeside p q v

-- Boundaries keep having shardings.
def KeepsBoundaries (p q : Program) : Prop :=
  ∀ o before, (p.op o).kind = .named before → ∃ after, (q.op o).kind = .named after ∧
    (before.inShardings ≠ none → after.inShardings ≠ none) ∧
    (before.outShardings ≠ none → after.outShardings ≠ none)

namespace KeepsBoundaries

variable {p q r : Program}

protected theorem refl (p : Program) : p.KeepsBoundaries p :=
  fun _ before h => ⟨before, h, id, id⟩

protected theorem trans (h₁ : p.KeepsBoundaries q) (h₂ : q.KeepsBoundaries r) :
    p.KeepsBoundaries r := by
  intro o before h
  have ⟨between, hb, hin, hout⟩ := h₁ o before h
  have ⟨after, ha, hin', hout'⟩ := h₂ o between hb
  exact ⟨after, ha, hin' ∘ hin, hout' ∘ hout⟩

end KeepsBoundaries

variable {p q r start : Program} {v w : ValueId} {sharding : Sharding} {place other : Place}

theorem Written.keepsBoundaries (h : p.Written sharding place q) : p.KeepsBoundaries q := by
  intro u before hu
  cases h with
  | value => exact ⟨before, hu, id, id⟩
  | @edge o _ hk =>
    have hne : u ≠ o := by rintro rfl; simp [hk] at hu
    exact ⟨before, by simp [op_setKind_of_ne, hk, hne, hu], id, id⟩
  | @argument _ o _ computation shardings _ hk _ =>
    by_cases hne : u = o
    case neg => exact ⟨before, by simp [op_setKind_of_ne, hk, hne, hu], id, id⟩
    case pos =>
      subst hne
      cases hk.symm.trans hu
      exact ⟨_, kind_setKind_self (by simp [hk]), by simp, id⟩
  | @result o _ computation shardings hk _ =>
    by_cases hne : u = o
    case neg => exact ⟨before, by simp [op_setKind_of_ne, hk, hne, hu], id, id⟩
    case pos =>
      subst hne
      cases hk.symm.trans hu
      exact ⟨_, kind_setKind_self (by simp [hk]), id, by simp⟩

theorem FilledBeside.later (h : p.FilledBeside q v) (hk : q.KeepsBoundaries r) : p.FilledBeside r v := by
  cases h with
  | argument hb hn ha hs hr hv hw hne =>
    have ⟨_, hl, hin, _⟩ := hk _ _ ha
    exact .argument hb hn hl (hin hs) hr hv hw hne
  | result hb hn ha hs hv hw hne =>
    have ⟨_, hl, _, hout⟩ := hk _ _ ha
    exact .result hb hn hl (hout hs) hv hw hne

theorem Written.argument_filled {b : BlockId} {i : Nat} {o : OpId}
    (h : p.Written sharding (.argument b i) q) (hb : (p.block b).parent = some o) :
    ∃ after, (q.op o).kind = .named after ∧ after.inShardings ≠ none := by
  cases h with
  | argument hp hk _ =>
    cases hb.symm.trans hp
    exact ⟨_, kind_setKind_self (by simp [hk]), by simp⟩

theorem Written.result_filled {i : Nat} {o : OpId} (h : p.Written sharding (.result o i) q) :
    ∃ after, (q.op o).kind = .named after ∧ after.outShardings ≠ none := by
  cases h with
  | result hk _ => exact ⟨_, kind_setKind_self (by simp [hk]), by simp⟩

theorem storageOf_of_place?_edge {o : OpId} (h : p.place? v = some (.edge o)) :
    p.storageOf v = .edge o := by
  simp only [place?] at h
  simp only [storageOf, definer?]
  repeat' split at h
  all_goals simp_all [OpKind.isEdge]

namespace WellFormed

-- Values that share a place share a storage.
theorem storageOf_eq (hp : p.WellFormed) (hv : v.index < p.values.length)
    (hw : w.index < p.values.length) (h : p.place? v = some place) (h' : p.place? w = some place) :
    p.storageOf w = p.storageOf v := by
  cases place with
  | edge o       => rw [storageOf_of_place?_edge h, storageOf_of_place?_edge h']
  | value u      => rw [← place?_eq_value h, ← place?_eq_value h']
  | argument b i =>
    have hd := definitionOf_of_place?_argument h
    rw [hp.eq_of_definitionOf hv hw (hd.trans (definitionOf_of_place?_argument h').symm)]
  | result o i   =>
    have hd := definitionOf_of_place?_result h
    rw [hp.eq_of_definitionOf hv hw (hd.trans (definitionOf_of_place?_result h').symm)]

end WellFormed

-- A boundary without shardings has been without them from the start.
theorem unsharded_before {o : OpId} {computation : NamedComputation}
    (hb : p.bare = start.bare) (hk : start.KeepsBoundaries p) (h : (p.op o).kind = .named computation) :
    ∃ before, (start.op o).kind = .named before ∧
      (computation.inShardings = none → before.inShardings = none) ∧
      (computation.outShardings = none → before.outShardings = none) := by
  have hbare := read_of_bare_eq (fun r => (r.op o).kind.bare) (by simp) hb.symm
  have ⟨before, hbefore⟩ := OpKind.eq_named_of_bare (hbare.trans (congrArg OpKind.bare h))
  have ⟨_, ha, hin, hout⟩ := hk o before hbefore
  cases h.symm.trans ha
  refine ⟨before, hbefore, fun hn => ?_, fun hn => ?_⟩
  · by_contra hc
    exact hin hc hn
  · by_contra hc
    exact hout hc hn

-- A write that changes the sharding of another value.
theorem setSharding_changes (hp : start.WellFormed) (hb : p.bare = start.bare)
    (hk : start.KeepsBoundaries p) (hq : p.setSharding v sharding = .ok q)
    (hv : v.index < start.values.length) (hw : w.index < start.values.length)
    (hne : q.sharding w ≠ p.sharding w) :
    start.storageOf w = start.storageOf v ∨ start.FilledBeside q w := by
  obtain ⟨place, hpv, hwrite⟩ := setSharding_written hq
  obtain ⟨place', other, hpv', hpw, ht⟩ := (setSharding_eq_or_touches hq w).resolve_left hne
  cases hpv.symm.trans hpv'
  -- The places of values, and what else the bare program determines, are those of the start.
  have hplace (u : ValueId) : p.place? u = start.place? u :=
    read_of_bare_eq (fun r => r.place? u) (fun r => bare_place?) hb
  have hblock (c : BlockId) : p.block c = start.block c :=
    read_of_bare_eq (fun r => r.block c) (by simp) hb
  rw [hplace] at hpv hpw
  by_cases hvw : w = v
  case pos => exact .inl (by rw [hvw])
  case neg =>
    cases ht with
    | same => exact .inl (hp.storageOf_eq hv hw hpv hpw)
    | @argument b c o i j computation hpb hpc hko hij =>
      obtain ⟨before, hbefore, hnone, _⟩ := unsharded_before hb hk hko
      obtain ⟨after, hafter, hsome⟩ := hwrite.argument_filled hpb
      rw [hblock] at hpb hpc
      have hbc := hp.region_unique (by simp [hbefore, OpKind.isIsolated]) hpb hpc
      subst hbc
      have hdv := definitionOf_of_place?_argument hpv
      have hdw := definitionOf_of_place?_argument hpw
      obtain rfl | hn := hij
      · exact .inl (hp.storageOf_eq hv hw hpv hpw)
      · have hmv := List.mem_of_getElem? ((hp.arguments v b i).mpr ⟨hv, hdv⟩)
        have hmw := List.mem_of_getElem? ((hp.arguments w b j).mpr ⟨hw, hdw⟩)
        exact .inr (.argument hbefore (hnone hn) hafter hsome ((hp.regions b o).mpr hpb) hmw hmv
          (Ne.symm hvw))
    | @result o i j computation hko hij =>
      obtain ⟨before, hbefore, _, hnone⟩ := unsharded_before hb hk hko
      obtain ⟨after, hafter, hsome⟩ := hwrite.result_filled
      have hdv := definitionOf_of_place?_result hpv
      have hdw := definitionOf_of_place?_result hpw
      obtain rfl | hn := hij
      · exact .inl (hp.storageOf_eq hv hw hpv hpw)
      · have hmv := List.mem_of_getElem? ((hp.results v o i).mpr ⟨hv, hdv⟩)
        have hmw := List.mem_of_getElem? ((hp.results w o j).mpr ⟨hw, hdw⟩)
        exact .inr (.result hbefore (hnone hn) hafter hsome hmw hmv (Ne.symm hvw))

-- A value that is kept elsewhere, and whose sharding a write changes all the same, had none.
theorem setSharding_fills (hp : p.WellFormed) (hq : p.setSharding v sharding = .ok q)
    (hv : v.index < p.values.length) (hw : w.index < p.values.length)
    (hs : p.storageOf w ≠ p.storageOf v) (hne : q.sharding w ≠ p.sharding w) :
    p.sharding w = none ∧ ∃ ref, q.sharding w = some (Sharding.fullyOpen ref (p.typeOf w).rank) := by
  obtain ⟨place, hpv, hwrite⟩ := setSharding_written hq
  obtain ⟨place', other, hpv', hpw, ht⟩ := (setSharding_eq_or_touches hq w).resolve_left hne
  cases hpv.symm.trans hpv'
  have hqw : q.place? w = some other := by rw [← bare_place?, hwrite.bare_eq, bare_place?, hpw]
  rw [sharding_eq_shardingAt hpw, sharding_eq_shardingAt hqw]
  cases ht with
  | same => exact absurd (hp.storageOf_eq hv hw hpv hpw) hs
  | @argument b c o i j computation hpb hpc hk hij =>
    have hbc := hp.region_unique (by simp [hk, OpKind.isIsolated]) hpb hpc
    subst hbc
    have hji : j ≠ i := by
      rintro rfl
      exact hs (hp.storageOf_eq hv hw hpv hpw)
    have hn := hij.resolve_left hji
    have hmw := (hp.arguments w b j).mpr ⟨hw, definitionOf_of_place?_argument hpw⟩
    cases hwrite with
    | argument hpb' hk' hr =>
      cases hpb.symm.trans hpb'
      cases hk.symm.trans hk'
      rw [hn] at hr
      have he := replaceIn_getElem?_of_ne hr hji hmw
      refine ⟨by simp [shardingAt, parentKind?, hpb, hk, hn], sharding.mesh, ?_⟩
      simp [shardingAt, parentKind?, hpb, op_setKind_of_ne, hk, he]
  | @result o i j computation hk hij =>
    have hji : j ≠ i := by
      rintro rfl
      exact hs (hp.storageOf_eq hv hw hpv hpw)
    have hn := hij.resolve_left hji
    have hmw := (hp.results w o j).mpr ⟨hw, definitionOf_of_place?_result hpw⟩
    cases hwrite with
    | result hk' hr =>
      cases hk.symm.trans hk'
      rw [hn] at hr
      have he := replaceIn_getElem?_of_ne hr hji hmw
      refine ⟨by simp [shardingAt, hk, hn], sharding.mesh, ?_⟩
      simp [shardingAt, op_setKind_of_ne, hk, he]

-- The value still has the sharding it had, or it got its first one beside another value.
def KeptOrFilled (start p q : Program) (v : ValueId) : Prop :=
  q.sharding v = p.sharding v ∨
    (p.sharding v = none ∧ start.FilledBeside q v ∧
      ∃ ref, q.sharding v = some (Sharding.fullyOpen ref (start.typeOf v).rank))

theorem KeptOrFilled.trans (h₁ : KeptOrFilled start p q v) (h₂ : KeptOrFilled start q r v)
    (hk : q.KeepsBoundaries r) : KeptOrFilled start p r v := by
  obtain hq | ⟨hn, hf, ref, hq⟩ := h₁
  case inl =>
    obtain hr | ⟨hn, hf, hr⟩ := h₂
    · exact .inl (hr.trans hq)
    · exact .inr ⟨hq ▸ hn, hf, hr⟩
  case inr =>
    obtain hr | ⟨hn', _⟩ := h₂
    · exact .inr ⟨hn, hf.later hk, ref, hr.trans hq⟩
    · simp [hq] at hn'

-- A write leaves the sharding of a value that is kept elsewhere, or fills it in.
theorem setSharding_keptOrFilled (hp : start.WellFormed) (hb : p.bare = start.bare)
    (hk : start.KeepsBoundaries p) (hq : p.setSharding v sharding = .ok q)
    (hv : v.index < start.values.length) (hw : w.index < start.values.length)
    (hs : start.storageOf w ≠ start.storageOf v) : KeptOrFilled start p q w := by
  by_cases hne : q.sharding w = p.sharding w
  case pos => exact .inl hne
  case neg =>
    have hlen : p.values.length = start.values.length :=
      read_of_bare_eq (fun r => r.values.length) (by simp) hb
    have hstorage (u : ValueId) : p.storageOf u = start.storageOf u :=
      read_of_bare_eq (fun r => r.storageOf u) (by simp) hb
    have htype : p.typeOf w = start.typeOf w := read_of_bare_eq (fun r => r.typeOf w) (by simp) hb
    have hf := (setSharding_changes hp hb hk hq hv hw hne).resolve_left hs
    obtain ⟨hn, ref, hr⟩ := setSharding_fills (hp.of_bare_eq hb) hq (hlen ▸ hv) (hlen ▸ hw)
      (by rwa [hstorage, hstorage]) hne
    exact .inr ⟨hn, hf, ref, htype ▸ hr⟩

end Program

namespace SpreadPlan

-- No member of the link would adopt the proposal.
def Settled (plan : SpreadPlan) (p : Program) (link : Link) : Prop :=
  ∀ proposal, plan.best? p (candidates p link) = some proposal →
    ∀ v ∈ link.members, plan.change? p proposal v = none

variable {plan : SpreadPlan} {p q : Program} {v : ValueId} {vs : List ValueId} {link : Link}
  {proposal : Sharding}

section Settled

theorem adopt_eq_of_unchanged {updated members : List ValueId}
    (h : ∀ v ∈ members, plan.change? p proposal v = none) :
    plan.adopt proposal p updated members = ⟨p, .ok updated⟩ := by
  induction members with
  | nil => rfl
  | cons v members ih =>
    rw [List.forall_mem_cons] at h
    rw [adopt, h.left]
    exact ih h.right

theorem unchanged_of_adopt {updated members : List ValueId}
    (h : (plan.adopt proposal p updated members).result = .ok updated) :
    ∀ v ∈ members, plan.change? p proposal v = none := by
  induction members with
  | nil => simp
  | cons v members ih =>
    rw [adopt] at h
    cases hc : plan.change? p proposal v with
    | none => exact List.forall_mem_cons.mpr ⟨hc, ih (by simpa [hc] using h)⟩
    | some refined =>
      cases hq : p.setSharding v refined with
      | error e => simp [hc, hq] at h
      | ok q =>
        obtain ⟨vs, _, _, hr⟩ := adopt_adopts plan q proposal (updated ++ [v]) members
        have he := hr updated (by simpa [hc, hq] using h)
        simp at he

theorem evaluate_eq_of_settled (h : plan.Settled p link) : plan.evaluate p link = ⟨p, .ok []⟩ := by
  rw [evaluate]
  split
  case _ => rfl
  case _ proposal hb => exact adopt_eq_of_unchanged (h proposal hb)

theorem settled_of_evaluate (h : (plan.evaluate p link).result = .ok []) : plan.Settled p link := by
  intro proposal hb
  have he : plan.evaluate p link = plan.adopt proposal p [] link.members := by
    simp only [candidates] at hb
    simp only [evaluate, hb]
  rw [he] at h
  exact unchanged_of_adopt h

theorem best?_congr (h : q.bare = p.bare) : plan.best? q = plan.best? p := by
  have hm : q.meshes = p.meshes := Program.read_of_bare_eq (fun r => r.meshes) (by simp) h
  have hmerit : plan.merit q = plan.merit p := by
    funext sharding
    simp only [merit, hm]
  have hbetter : best?.better plan q = best?.better plan p := by
    funext best sharding
    simp only [best?.better, hmerit]
  funext shardings
  cases shardings with
  | nil             => rfl
  | cons first rest => simp only [best?, hbetter]

theorem change?_congr (h : q.bare = p.bare) (hv : q.sharding v = p.sharding v) :
    plan.change? q proposal v = plan.change? p proposal v := by
  have hm : q.meshes = p.meshes := Program.read_of_bare_eq (fun r => r.meshes) (by simp) h
  have ht := Program.read_of_bare_eq (fun r => r.typeOf v) (by simp) h
  have hs := Program.read_of_bare_eq (fun r => r.isSettable v) (by simp) h
  have hr : plan.refine? q v proposal = plan.refine? p v proposal := by
    simp only [refine?, hm, ht, hv]
  simp only [change?, hs, hr, hv]

theorem candidates_congr (h : ∀ v ∈ link.members ++ link.inputs, q.sharding v = p.sharding v) :
    candidates q link = candidates p link := by
  rw [candidates, candidates, List.filterMap_congr h]

-- Whether a link is settled depends on the shardings of its values only.
theorem Settled.congr (h : plan.Settled p link) (hb : q.bare = p.bare)
    (hs : ∀ v ∈ link.members ++ link.inputs, q.sharding v = p.sharding v) : plan.Settled q link := by
  intro proposal hp v hv
  rw [best?_congr hb, candidates_congr hs] at hp
  rw [change?_congr hb (hs v (List.mem_append_left _ hv))]
  exact h proposal hp v hv

end Settled

section Enqueue

variable {queue : List Nat} {i : Nat}

theorem mem_enqueue (h : i ∈ queue) : i ∈ plan.enqueue queue v :=
  List.mem_append_left _ h

theorem mem_enqueue_of_concerns (hl : plan.links[i]? = some link)
    (hc : plan.concerns (plan.storage v) link) : i ∈ plan.enqueue queue v := by
  by_cases hi : i ∈ queue
  case pos => exact mem_enqueue hi
  case neg =>
    refine List.mem_append_right _ (List.mem_filter.mpr ⟨List.mem_map.mpr ⟨(link, i), ?_, rfl⟩, ?_⟩)
    · rw [List.mem_filter]
      exact ⟨List.mem_zipIdx_iff_getElem?.mpr hl, hc⟩
    · simpa using hi

theorem mem_foldl_enqueue (h : i ∈ queue) : i ∈ vs.foldl plan.enqueue queue := by
  induction vs generalizing queue with
  | nil          => exact h
  | cons v vs ih => exact ih (mem_enqueue h)

theorem mem_foldl_enqueue_of_concerns (hv : v ∈ vs) (hl : plan.links[i]? = some link)
    (hc : plan.concerns (plan.storage v) link) : i ∈ vs.foldl plan.enqueue queue := by
  induction vs generalizing queue with
  | nil => contradiction
  | cons u vs ih =>
    rw [List.foldl_cons]
    obtain rfl | hv := List.mem_cons.mp hv
    · exact mem_foldl_enqueue (mem_enqueue_of_concerns hl hc)
    · exact ih hv

theorem length_le_foldl_enqueue : queue.length ≤ (vs.foldl plan.enqueue queue).length := by
  induction vs generalizing queue with
  | nil          => exact le_refl _
  | cons v vs ih =>
    have hv : queue.length ≤ (plan.enqueue queue v).length := by simp [enqueue]
    exact hv.trans ih

end Enqueue

section Run

variable {start : Program}

theorem Adopts.keepsBoundaries (h : plan.Adopts proposal p vs q) : p.KeepsBoundaries q := by
  induction h with
  | nil p           => exact .refl p
  | cons _ hq _ ih =>
    have ⟨_, _, hw⟩ := Program.setSharding_written hq
    exact hw.keepsBoundaries.trans ih

-- A value that shares no storage with those that adopted has kept its sharding, or had it filled in.
theorem Adopts.keptOrFilled (h : plan.Adopts proposal p vs q) (hp : start.WellFormed)
    (hb : p.bare = start.bare) (hk : start.KeepsBoundaries p)
    (hvs : ∀ v ∈ vs, v.index < start.values.length) {w : ValueId} (hw : w.index < start.values.length)
    (hs : ∀ v ∈ vs, start.storageOf w ≠ start.storageOf v) : Program.KeptOrFilled start p q w := by
  induction h with
  | nil => exact .inl rfl
  | cons _ hq ha ih =>
    rw [List.forall_mem_cons] at hvs hs
    have ⟨_, _, hwrite⟩ := Program.setSharding_written hq
    have hfirst := Program.setSharding_keptOrFilled hp hb hk hq hvs.left hw hs.left
    have hrest := ih (hwrite.bare_eq.trans hb) (hk.trans hwrite.keepsBoundaries) hvs.right hs.right
    exact hfirst.trans hrest ha.keepsBoundaries

theorem Evaluates.subset (h : plan.Evaluates p link vs q) : vs ⊆ link.members := by
  cases h with
  | nothing      => simp
  | adopt _ hs _ => exact hs

theorem Evaluates.keptOrFilled (h : plan.Evaluates p link vs q) (hp : start.WellFormed)
    (hb : p.bare = start.bare) (hk : start.KeepsBoundaries p) (hl : link.Within start) {w : ValueId}
    (hw : w.index < start.values.length) (hs : ∀ v ∈ vs, start.storageOf w ≠ start.storageOf v) :
    Program.KeptOrFilled start p q w := by
  cases h with
  | nothing         => exact .inl rfl
  | adopt _ hsub ha => exact ha.keptOrFilled hp hb hk (fun v hv => hl.members v (hsub hv)) hw hs

theorem Evaluates.keepsBoundaries (h : plan.Evaluates p link vs q) : p.KeepsBoundaries q := by
  cases h with
  | nothing      => exact .refl p
  | adopt _ _ ha => exact ha.keepsBoundaries

-- The invariant of the run: links that do not wait in the queue were settled at some time, and from
-- then on their values have kept their shardings, or had them filled in.
structure Follows (start : Program) (plan : SpreadPlan) (p : Program) (queue : List Nat) : Prop where
  bare_eq    : p.bare = start.bare
  boundaries : start.KeepsBoundaries p
  settled    : ∀ i link, plan.links[i]? = some link → i ∉ queue → ∃ earlier : Program,
    earlier.bare = start.bare ∧ plan.Settled earlier link ∧
      ∀ w ∈ link.members ++ link.inputs, Program.KeptOrFilled start earlier p w

theorem Follows.evaluates {index : Nat} {queue : List Nat} (h : Follows start plan p (index :: queue))
    (hp : start.WellFormed) (hs : plan.storage = start.storageOf)
    (hl : ∀ link ∈ plan.links, link.Within start)
    (he : plan.Evaluates p ((plan.links[index]?).getD default) vs q)
    (hn : vs = [] → plan.Settled p ((plan.links[index]?).getD default)) :
    Follows start plan q (vs.foldl plan.enqueue queue) where
  bare_eq    := he.bare_eq.trans h.bare_eq
  boundaries := h.boundaries.trans he.keepsBoundaries
  settled i link hi hq := by
    have hw := hl link (List.mem_of_getElem? hi)
    have hindex := forall_links hl ⟨by simp, by simp⟩ index
    -- The link would wait in the queue if it concerned a value that has changed.
    have hkept : ∀ w ∈ link.members ++ link.inputs, Program.KeptOrFilled start p q w := by
      intro w hm
      refine he.keptOrFilled hp h.bare_eq h.boundaries hindex ?_ fun v hv hst => hq ?_
      · exact (List.mem_append.mp hm).elim (hw.members w) (hw.inputs w)
      · refine mem_foldl_enqueue_of_concerns hv hi ?_
        exact List.any_eq_true.mpr ⟨w, hm, by simp [hs, hst]⟩
    by_cases hne : i = index
    case neg =>
      have hwait : i ∉ index :: queue := by
        rw [List.mem_cons, not_or]
        exact ⟨hne, fun hm => hq (mem_foldl_enqueue hm)⟩
      obtain ⟨earlier, hb, hsettled, hsince⟩ := h.settled i link hi hwait
      exact ⟨earlier, hb, hsettled, fun w hm => (hsince w hm).trans (hkept w hm) he.keepsBoundaries⟩
    case pos =>
      -- The evaluated link itself waits again if any of its members has changed.
      subst hne
      simp only [hi, Option.getD_some] at he hn
      cases vs with
      | nil => exact ⟨p, h.bare_eq, hn rfl, hkept⟩
      | cons v vs =>
        have hv := he.subset List.mem_cons_self
        refine absurd (mem_foldl_enqueue_of_concerns List.mem_cons_self hi ?_) hq
        exact List.any_eq_true.mpr ⟨v, List.mem_append_left _ hv, by simp⟩

theorem run_follows (hp : start.WellFormed) (hs : plan.storage = start.storageOf)
    (hl : ∀ link ∈ plan.links, link.Within start) {budget : Nat} {queue : List Nat}
    (h : Follows start plan p queue) {changed done : Bool}
    (hr : (plan.run budget queue changed p).result = .ok done) :
    Follows start plan (plan.run budget queue changed p).program [] := by
  induction budget generalizing queue changed p with
  | zero =>
    cases queue with
    | nil      => exact h
    | cons _ _ => simp [run] at hr
  | succ budget ih =>
    cases queue with
    | nil => exact h
    | cons index queue =>
      obtain ⟨vs, he, hu⟩ := evaluate_evaluates plan p ((plan.links[index]?).getD default)
      rw [run, Outcome.andThen] at hr ⊢
      cases hres : (plan.evaluate p ((plan.links[index]?).getD default)).result with
      | error e    => simp [hres] at hr
      | ok updated =>
        have hvs := hu updated hres
        simp only [hres] at hr ⊢
        refine ih ?_ hr
        subst hvs
        exact h.evaluates hp hs hl he fun hn => settled_of_evaluate (hn ▸ hres)

-- A run that succeeds has evaluated each link in the queue at least once.
theorem length_le_of_run {budget : Nat} {queue : List Nat} {changed done : Bool}
    (h : (plan.run budget queue changed p).result = .ok done) : queue.length ≤ budget := by
  induction budget generalizing queue changed p with
  | zero =>
    cases queue with
    | nil      => exact le_refl _
    | cons _ _ => simp [run] at h
  | succ budget ih =>
    cases queue with
    | nil => exact Nat.zero_le _
    | cons index queue =>
      rw [run, Outcome.andThen] at h
      cases hres : (plan.evaluate p ((plan.links[index]?).getD default)).result with
      | error e    => simp [hres] at h
      | ok updated =>
        simp only [hres] at h
        exact Nat.succ_le_succ (length_le_foldl_enqueue.trans (ih h))

-- A run over settled links changes nothing.
theorem run_eq_of_settled {budget : Nat} {queue : List Nat} {changed : Bool}
    (h : ∀ i ∈ queue, plan.Settled p ((plan.links[i]?).getD default)) (hb : queue.length ≤ budget) :
    plan.run budget queue changed p = ⟨p, .ok changed⟩ := by
  induction budget generalizing queue with
  | zero =>
    rw [List.eq_nil_of_length_eq_zero (Nat.le_zero.mp hb)]
    rfl
  | succ budget ih =>
    cases queue with
    | nil => rfl
    | cons index queue =>
      rw [List.forall_mem_cons] at h
      rw [run, evaluate_eq_of_settled h.left, Outcome.andThen]
      simpa using ih h.right (Nat.le_of_succ_le_succ hb)

-- A run that reports no change has changed nothing, and has found the links in the queue settled.
theorem settled_of_run {budget : Nat} {queue : List Nat} {changed : Bool}
    (h : (plan.run budget queue changed p).result = .ok false) :
    changed = false ∧ ∀ i ∈ queue, plan.Settled p ((plan.links[i]?).getD default) := by
  induction budget generalizing queue changed p with
  | zero =>
    cases queue with
    | nil      => simpa [run] using h
    | cons _ _ => simp [run] at h
  | succ budget ih =>
    cases queue with
    | nil => simpa [run] using h
    | cons index queue =>
      rw [run, Outcome.andThen] at h
      cases hres : (plan.evaluate p ((plan.links[index]?).getD default)).result with
      | error e    => simp [hres] at h
      | ok updated =>
        simp only [hres] at h
        obtain ⟨hc, hq⟩ := ih h
        simp only [Bool.or_eq_false_iff, Bool.not_eq_false', List.isEmpty_iff] at hc
        obtain ⟨hc, rfl⟩ := hc
        have hs := settled_of_evaluate hres
        rw [evaluate_eq_of_settled hs] at hq
        exact ⟨hc, List.forall_mem_cons.mpr ⟨hs, hq⟩⟩

end Run

end SpreadPlan

namespace Program

variable {p : Program}

theorem spreadPlan_storage {options : SpreadOptions} {plan : SpreadPlan}
    (h : p.spreadPlan options = .ok plan) : plan.storage = p.storageOf :=
  ((p.spreadPlan_eq_ok_iff options).mp h).right.right.left

-- Spreading succeeds if the run over all links does and the groups agree in the end.
theorem spread_eq_ok_iff {options : SpreadOptions} {plan : SpreadPlan} {changed : Bool}
    (h : p.spreadPlan options = .ok plan) :
    (p.spread options).result = .ok changed ↔
      (plan.run options.maxIterations (List.range plan.links.length) false p).result = .ok changed ∧
        ((p.spread options).program.groups.bind (p.spread options).program.checkAgreement) = .ok () := by
  rw [spread_program p options h]
  simp only [spread, h, Outcome.andThen]
  cases hr : (plan.run options.maxIterations (List.range plan.links.length) false p).result with
  | error e => simp
  | ok done =>
    generalize (plan.run options.maxIterations (List.range plan.links.length) false p).program = q
    cases hg : q.groups with
    | error e => simp [bind, Except.bind]
    | ok groups =>
      cases ha : q.checkAgreement groups <;> simp [ha, bind, Except.bind, pure, Except.pure]

theorem exists_spreadPlan {options : SpreadOptions} {changed : Bool}
    (hr : (p.spread options).result = .ok changed) : ∃ plan, p.spreadPlan options = .ok plan := by
  cases hplan : p.spreadPlan options with
  | error e => simp [spread, hplan] at hr
  | ok plan => exact ⟨plan, rfl⟩

theorem follows_start {plan : SpreadPlan} :
    SpreadPlan.Follows p plan p (List.range plan.links.length) where
  bare_eq              := rfl
  boundaries           := .refl p
  settled i link hi hq := by
    have hl := (List.getElem?_eq_some_iff.mp hi).choose
    exact absurd (List.mem_range.mpr hl) hq

-- After a run that succeeds, each link was settled before the last values were filled in.
theorem spread_settled (hp : p.WellFormed) {options : SpreadOptions} {plan : SpreadPlan}
    (hplan : p.spreadPlan options = .ok plan) {changed : Bool}
    (hr : (p.spread options).result = .ok changed) {link : Link} (hl : link ∈ plan.links) :
    ∃ earlier : Program, earlier.bare = p.bare ∧ plan.Settled earlier link ∧
      ∀ w ∈ link.members ++ link.inputs, KeptOrFilled p earlier (p.spread options).program w := by
  have hrun := ((spread_eq_ok_iff hplan).mp hr).left
  have hfollows := SpreadPlan.run_follows hp (spreadPlan_storage hplan) (hp.spreadPlan_within hplan)
    follows_start hrun
  have ⟨i, hi⟩ := List.mem_iff_getElem?.mp hl
  rw [spread_program p options hplan]
  exact hfollows.settled i link hi (by simp)

theorem settled_of_spread (hp : p.WellFormed) {options : SpreadOptions} {plan : SpreadPlan}
    (hplan : p.spreadPlan options = .ok plan) {changed : Bool}
    (hr : (p.spread options).result = .ok changed) {link : Link} (hl : link ∈ plan.links)
    (hf : ∀ v ∈ link.members ++ link.inputs, ¬ p.FilledBeside (p.spread options).program v) :
    plan.Settled (p.spread options).program link := by
  obtain ⟨earlier, hb, hs, hkept⟩ := spread_settled hp hplan hr hl
  refine hs.congr ((p.spread_refines options).bare_eq.trans hb.symm) fun w hw => ?_
  exact (hkept w hw).resolve_right fun h => hf w hw h.right.left

-- After a run that succeeds, another one changes nothing exactly if the links of values that were
-- filled beside others are settled. All other links are.
theorem spread_again_iff (h : p.Reachable) (options : SpreadOptions) {plan : SpreadPlan}
    (hplan : p.spreadPlan options = .ok plan) {changed : Bool}
    (hr : (p.spread options).result = .ok changed) :
    let q := (p.spread options).program
    ((q.spread options).result = .ok false ∧ ∀ v, (q.spread options).program.sharding v = q.sharding v) ↔
      ∀ link ∈ plan.links, (∃ v ∈ link.members ++ link.inputs, p.FilledBeside q v) →
        plan.evaluate q link = ⟨q, .ok []⟩ := by
  intro q
  have hp := h.wellFormed
  have hqplan : q.spreadPlan options = .ok plan := by
    rw [← bare_spreadPlan, (p.spread_refines options).bare_eq, bare_spreadPlan, hplan]
  have ⟨hrun, hagree⟩ := (spread_eq_ok_iff hplan).mp hr
  constructor
  · intro ⟨hagain, _⟩ link hl _
    have hq := ((spread_eq_ok_iff hqplan).mp hagain).left
    have ⟨i, hi⟩ := List.mem_iff_getElem?.mp hl
    have hlt := (List.getElem?_eq_some_iff.mp hi).choose
    have hs := (SpreadPlan.settled_of_run hq).right i (List.mem_range.mpr hlt)
    simp only [hi, Option.getD_some] at hs
    exact SpreadPlan.evaluate_eq_of_settled hs
  · intro hfilled
    have hs : ∀ link ∈ plan.links, plan.Settled q link := by
      intro link hl
      by_cases hf : ∃ v ∈ link.members ++ link.inputs, p.FilledBeside q v
      case pos => exact SpreadPlan.settled_of_evaluate (by rw [hfilled link hl hf])
      case neg =>
        simp only [not_exists, not_and] at hf
        exact settled_of_spread hp hplan hr hl hf
    have hempty : plan.Settled q { members := [] } := fun _ _ v hv => absurd hv (by simp)
    have hagain : plan.run options.maxIterations (List.range plan.links.length) false q =
        ⟨q, .ok false⟩ :=
      SpreadPlan.run_eq_of_settled (fun i _ => SpreadPlan.forall_links hs hempty i)
        (SpreadPlan.length_le_of_run hrun)
    have hprogram : (q.spread options).program = q := by
      rw [spread_program q options hqplan, hagain]
    refine ⟨(spread_eq_ok_iff hqplan).mpr ⟨by rw [hagain], ?_⟩, by simp [hprogram]⟩
    rw [hprogram]
    exact hagree

-- Two operands flow into a named computation that has no shardings yet, and one of them is sharded.
def sharedBoundary? : Option Program :=
  let type : TensorType := ⟨[8], .f32⟩
  let sharding : Sharding := ⟨.symbol "mesh", [{ axes := [⟨"a", none⟩], closed := false }], []⟩
  build "main" [
    .mesh "mesh" { axes := [⟨"a", 2⟩] },
    .argument type none,
    .argument type (some sharding),
    .region [type, type],
    .append ⟨1⟩ (.terminator []),
    .append entry (.named ⟨"f", none, none⟩ [⟨0⟩, ⟨1⟩] ⟨1⟩),
    .append entry (.terminator [⟨0⟩])]

def sharedBoundary : Program :=
  sharedBoundary?.get (by rfl)

-- The argument that is filled beside the other one hands its open sharding on in the second run only.
theorem spread_again_sharedBoundary :
    sharedBoundary.verify = .ok () ∧ (sharedBoundary.spread {}).result = .ok true ∧
      ((sharedBoundary.spread {}).program.spread {}).result = .ok true :=
  ⟨by rfl, by rfl, by rfl⟩

theorem spread_again_iff_sharedBoundary :
    let p := sharedBoundary
    let q := (p.spread {}).program
    let plan : SpreadPlan := ⟨{}, p.links.toOption.get (by rfl), p.storageOf, p.pinned⟩
    p.Reachable ∧ p.spreadPlan {} = .ok plan ∧ (p.spread {}).result = .ok true ∧
      (((q.spread {}).result = .ok false ∧ ∀ v, (q.spread {}).program.sharding v = q.sharding v) ↔
        ∀ link ∈ plan.links, (∃ v ∈ link.members ++ link.inputs, p.FilledBeside q v) →
          plan.evaluate q link = ⟨q, .ok []⟩) := by
  have hr : sharedBoundary.Reachable := build_reachable (Option.some_get _).symm
  exact ⟨hr, rfl, rfl, spread_again_iff hr {} rfl rfl⟩

end Program

end MeshSharding
