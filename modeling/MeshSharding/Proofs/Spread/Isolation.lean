import MeshSharding.Proofs.Spread.Convergence
import MeshSharding.Proofs.Spread.Fixpoint

namespace MeshSharding

-- Values of the set adopt shardings of values of the set only.
def Link.Respects (link : Link) (isolated : Set ValueId) : Prop :=
  (∃ v ∈ link.members, v ∈ isolated) → ∀ w ∈ link.members ++ link.inputs, w ∈ isolated

namespace Program

-- Whatever reaches a value of the set comes from a value of the set. Beside the links, these are the
-- writes to values that share a storage, or a boundary of a named computation.
structure Isolated (p : Program) (isolated : Set ValueId) : Prop where
  values    : ∀ v ∈ isolated, v.index < p.values.length
  links     : ∀ links, p.links = .ok links → ∀ link ∈ links, link.Respects isolated
  storage   : ∀ v ∈ isolated, ∀ w : ValueId, w.index < p.values.length →
    p.storageOf w = p.storageOf v → w ∈ isolated
  arguments : ∀ o computation, (p.op o).kind = .named computation → ∀ b ∈ (p.op o).regions,
    ∀ v ∈ (p.block b).arguments, v ∈ isolated → ∀ w ∈ (p.block b).arguments, w ∈ isolated
  results   : ∀ o computation, (p.op o).kind = .named computation →
    ∀ v ∈ (p.op o).results, v ∈ isolated → ∀ w ∈ (p.op o).results, w ∈ isolated

-- The sharding of a value outside the set is replaced.
inductive WritesOutside (isolated : Set ValueId) : Program → Program → Prop
  | write {p q : Program} {v : ValueId} {sharding : Sharding} : v.index < p.values.length →
      v ∉ isolated → p.setSharding v sharding = .ok q → WritesOutside isolated p q

-- All shardings that are kept together with the one of a place.
def storedAt (p : Program) : Place → Option (List Sharding)
  | .argument b _ =>
    match p.parentKind? b with
    | some (.named computation) => computation.inShardings
    | _                         => none
  | .result o _ =>
    match (p.op o).kind with
    | .named computation => computation.outShardings
    | _                  => none
  | place => (p.shardingAt place).map ([·])

-- Places whose shardings are kept together.
inductive Beside (p : Program) : Place → Place → Prop
  | same (place : Place) : Beside p place place
  | argument {b c : BlockId} {o : OpId} {i j : Nat} : (p.block b).parent = some o →
      (p.block c).parent = some o → Beside p (.argument b i) (.argument c j)
  | result {o : OpId} {i j : Nat} : Beside p (.result o i) (.result o j)

variable {p q r : Program} {v w : ValueId} {place other : Place} {sharding : Sharding}
  {isolated : Set ValueId}

section Stored

theorem shardingAt_congr (h : q.storedAt place = p.storedAt place) :
    q.shardingAt place = p.shardingAt place := by
  have hentry (r : Program) : r.shardingAt place = (r.storedAt place).bind (·[match place with
      | .argument _ i | .result _ i => i
      | _                           => 0]?) := by
    cases place with
    | edge o       => cases hs : r.shardingAt (.edge o) <;> simp [storedAt, hs]
    | value v      => cases hs : r.shardingAt (.value v) <;> simp [storedAt, hs]
    | argument b i =>
      simp only [shardingAt, storedAt]
      split <;> simp_all
    | result o i   =>
      simp only [shardingAt, storedAt]
      split <;> simp_all
  rw [hentry, hentry, h]

-- A write leaves alone what is not kept together with the place it goes to.
theorem Written.storedAt_eq_or_beside (h : p.Written sharding place q) (other : Place) :
    q.storedAt other = p.storedAt other ∨ p.Beside place other := by
  cases other with
  | edge u =>
    obtain he | ht := h.shardingAt_eq_or_touches (.edge u)
    · exact .inl (by simp only [storedAt, he])
    · cases ht
      exact .inr (.same _)
  | value w =>
    obtain he | ht := h.shardingAt_eq_or_touches (.value w)
    · exact .inl (by simp only [storedAt, he])
    · cases ht
      exact .inr (.same _)
  | argument c j =>
    cases hc : (p.block c).parent with
    | none =>
      left
      have hq : (q.block c).parent = none := by rw [← bare_block, h.bare_eq, bare_block, hc]
      simp only [storedAt, parentKind?, hc, hq, Option.map_none]
    | some u =>
      cases h with
      | value => exact .inl rfl
      | @edge o _ hk =>
        left
        by_cases hu : u = o <;> simp [storedAt, parentKind?, hc, op_setKind_of_ne, hk, hu]
      | @result o _ _ _ hk _ =>
        left
        by_cases hu : u = o <;> simp [storedAt, parentKind?, hc, op_setKind_of_ne, hk, hu]
      | @argument b o _ _ _ hp hk _ =>
        by_cases hu : u = o
        case pos => exact .inr (.argument hp (hu ▸ hc))
        case neg => simp [storedAt, parentKind?, hc, op_setKind_of_ne, hk, hu]
  | result u j =>
    cases h with
    | value => exact .inl rfl
    | @edge o _ hk =>
      left
      by_cases hu : u = o <;> simp [storedAt, op_setKind_of_ne, hk, hu]
    | @argument _ o _ _ _ _ hk _ =>
      left
      by_cases hu : u = o <;> simp [storedAt, op_setKind_of_ne, hk, hu]
    | @result o _ _ _ hk _ =>
      by_cases hu : u = o
      case pos => exact .inr (hu ▸ .result)
      case neg => simp [storedAt, op_setKind_of_ne, hk, hu]

theorem bare_replaceIn (shardings : Option (List Sharding)) (values : List ValueId) (index : Nat) :
    p.bare.replaceIn shardings values index sharding = p.replaceIn shardings values index sharding := by
  simp [replaceIn]

theorem Beside.of_bare_eq (h : p.Beside place other) (hb : q.bare = p.bare) : q.Beside place other := by
  have hblock (b : BlockId) : q.block b = p.block b := read_of_bare_eq (fun r => r.block b) (by simp) hb
  cases h with
  | same          => exact .same _
  | argument hb hc => exact .argument (hblock _ ▸ hb) (hblock _ ▸ hc)
  | result        => exact .result

-- What a write leaves behind depends on what was kept together with the place before, and on nothing
-- else.
theorem Written.storedAt_congr {p' q' : Program} (h : p.Written sharding place q)
    (h' : p'.Written sharding place q') (hb : p'.bare = p.bare)
    (hs : p'.storedAt place = p.storedAt place) (hp : p.Beside place other) :
    q'.storedAt other = q.storedAt other := by
  have hblock (b : BlockId) : p'.block b = p.block b := read_of_bare_eq (fun r => r.block b) (by simp) hb
  cases h with
  | edge hk =>
    cases h' with
    | edge hk' =>
      cases hp
      simp [storedAt, shardingAt, op_setKind_of_ne, hk, hk']
  | @value v =>
    cases h'
    cases hp
    have hl : p'.values.length = p.values.length :=
      read_of_bare_eq (fun r => r.values.length) (by simp) hb
    simp only [storedAt, shardingAt, storedSharding] at hs
    simp only [storedAt, shardingAt, storedSharding, storeSharding, value_modifyValue, hl]
    split
    case isTrue  => rfl
    case isFalse => exact hs
  | @argument b o i computation shardings hpar hk hr =>
    cases h' with
    | @argument _ o' _ computation' shardings' hpar' hk' hr' =>
      rw [hblock] at hpar'
      cases hpar.symm.trans hpar'
      simp only [storedAt, parentKind?, hblock, hpar, hk, hk', Option.map_some] at hs
      have hreplace := read_of_bare_eq
        (fun r => r.replaceIn computation.inShardings (p.block b).arguments i sharding)
        (fun r => bare_replaceIn _ _ _) hb
      have he : shardings' = shardings := by
        rw [hblock, hs, hreplace, hr] at hr'
        exact (Option.some.inj hr').symm
      have hc : ∃ c j, other = .argument c j ∧ (p.block c).parent = some o := by
        cases hp with
        | same          => exact ⟨b, i, rfl, hpar⟩
        | argument hb hc => exact ⟨_, _, rfl, by rw [hc, ← hb, hpar]⟩
      obtain ⟨c, j, rfl, hc⟩ := hc
      simp [storedAt, parentKind?, hblock, hc, op_setKind_of_ne, hk, hk', he]
  | @result o i computation shardings hk hr =>
    cases h' with
    | @result _ _ computation' shardings' hk' hr' =>
      simp only [storedAt, hk, hk'] at hs
      have hreplace := read_of_bare_eq
        (fun r => r.replaceIn computation.outShardings (p.op o).results i sharding)
        (fun r => bare_replaceIn _ _ _) hb
      have hresults : (p'.op o).results = (p.op o).results :=
        read_of_bare_eq (fun r => (r.op o).results) (by simp) hb
      have he : shardings' = shardings := by
        rw [hresults, hs, hreplace, hr] at hr'
        exact (Option.some.inj hr').symm
      have hc : ∃ j, other = .result o j := by
        cases hp with
        | same   => exact ⟨i, rfl⟩
        | result => exact ⟨_, rfl⟩
      obtain ⟨j, rfl⟩ := hc
      simp [storedAt, op_setKind_of_ne, hk, hk', he]

end Stored

namespace Isolated

theorem of_bare_eq (h : p.Isolated isolated) (hb : q.bare = p.bare) : q.Isolated isolated := by
  have hregions (o : OpId) : (q.op o).regions = (p.op o).regions :=
    read_of_bare_eq (fun r => (r.op o).regions) (by simp) hb
  have hresults (o : OpId) : (q.op o).results = (p.op o).results :=
    read_of_bare_eq (fun r => (r.op o).results) (by simp) hb
  have hblock (b : BlockId) : q.block b = p.block b := read_of_bare_eq (fun r => r.block b) (by simp) hb
  have hnamed (o : OpId) (computation : NamedComputation) (hk : (q.op o).kind = .named computation) :
      ∃ before, (p.op o).kind = .named before := by
    have hbare := read_of_bare_eq (fun r => (r.op o).kind.bare) (by simp) hb
    exact OpKind.eq_named_of_bare (hbare.symm.trans (congrArg OpKind.bare hk))
  have hl : q.values.length = p.values.length := read_of_bare_eq (fun r => r.values.length) (by simp) hb
  have hlinks : q.links = p.links := read_of_bare_eq (fun r => r.links) bare_links hb
  have hstorage (v : ValueId) : q.storageOf v = p.storageOf v :=
    read_of_bare_eq (fun r => r.storageOf v) (by simp) hb
  refine ⟨?_, ?_, ?_, fun o computation hk => ?_, fun o computation hk => ?_⟩
  · simpa only [hl] using h.values
  · simpa only [hlinks] using h.links
  · simpa only [hl, hstorage] using h.storage
  · obtain ⟨before, hk⟩ := hnamed o computation hk
    simpa only [hregions, hblock] using h.arguments o before hk
  · obtain ⟨before, hk⟩ := hnamed o computation hk
    simpa only [hresults] using h.results o before hk

-- A value whose sharding is kept together with that of an isolated one is isolated.
theorem mem_of_beside (h : p.Isolated isolated) (hp : p.WellFormed) (hv : v.index < p.values.length)
    (hw : w ∈ isolated) (hpv : p.place? v = some place) (hpw : p.place? w = some other)
    (hb : p.Beside place other) : v ∈ isolated := by
  have hwl := h.values w hw
  cases hb with
  | same => exact h.storage w hw v hv (hp.storageOf_eq hwl hv hpw hpv)
  | @argument b c o i j hb hc =>
    have hdv := definitionOf_of_place?_argument hpv
    have hdw := definitionOf_of_place?_argument hpw
    have ⟨computation, hk⟩ : ∃ computation, (p.op o).kind = .named computation := by
      simp only [place?, hdv, parentKind?, hb, Option.map_some] at hpv
      repeat' split at hpv
      all_goals simp_all
    have hbc := hp.region_unique (by simp [hk, OpKind.isIsolated]) hb hc
    subst hbc
    have hmv := List.mem_of_getElem? ((hp.arguments v b i).mpr ⟨hv, hdv⟩)
    have hmw := List.mem_of_getElem? ((hp.arguments w b j).mpr ⟨hwl, hdw⟩)
    exact h.arguments o computation hk b ((hp.regions b o).mpr hb) w hmw hw v hmv
  | @result o i j =>
    have hdv := definitionOf_of_place?_result hpv
    have hdw := definitionOf_of_place?_result hpw
    have ⟨computation, hk⟩ : ∃ computation, (p.op o).kind = .named computation := by
      simp only [place?, hdv] at hpv
      repeat' split at hpv
      all_goals simp_all
    have hmv := List.mem_of_getElem? ((hp.results v o i).mpr ⟨hv, hdv⟩)
    have hmw := List.mem_of_getElem? ((hp.results w o j).mpr ⟨hwl, hdw⟩)
    exact h.results o computation hk w hmw hw v hmv

end Isolated

-- The programs cannot be told apart by the shardings of the values, nor by those kept beside them.
structure AgreeOn (isolated : Set ValueId) (p q : Program) : Prop where
  bare_eq  : q.bare = p.bare
  sharding : ∀ v ∈ isolated, q.sharding v = p.sharding v
  stored   : ∀ v ∈ isolated, ∀ place, p.place? v = some place → q.storedAt place = p.storedAt place

namespace AgreeOn

@[refl]
protected theorem refl (p : Program) : AgreeOn isolated p p where
  bare_eq        := rfl
  sharding _ _   := rfl
  stored _ _ _ _ := rfl

protected theorem symm (h : AgreeOn isolated p q) : AgreeOn isolated q p where
  bare_eq             := h.bare_eq.symm
  sharding v hv       := (h.sharding v hv).symm
  stored v hv place hp := by
    rw [← bare_place?, h.bare_eq, bare_place?] at hp
    exact (h.stored v hv place hp).symm

protected theorem trans (h₁ : AgreeOn isolated p q) (h₂ : AgreeOn isolated q r) :
    AgreeOn isolated p r where
  bare_eq             := h₂.bare_eq.trans h₁.bare_eq
  sharding v hv       := (h₂.sharding v hv).trans (h₁.sharding v hv)
  stored v hv place hp := by
    have hq := hp
    rw [← bare_place?, ← h₁.bare_eq, bare_place?] at hq
    exact (h₂.stored v hv place hq).trans (h₁.stored v hv place hp)

-- The shardings of the values follow from those of their places, where they have one.
theorem of_stored (hb : q.bare = p.bare)
    (hs : ∀ v ∈ isolated, ∀ place, p.place? v = some place → q.storedAt place = p.storedAt place)
    (hf : ∀ v ∈ isolated, p.place? v = none → q.sharding v = p.sharding v) : AgreeOn isolated p q where
  bare_eq       := hb
  stored        := hs
  sharding v hv := by
    cases hp : p.place? v with
    | none       => exact hf v hv hp
    | some place =>
      have hq : q.place? v = some place := by rw [← bare_place?, hb, bare_place?, hp]
      rw [sharding_eq_shardingAt hp, sharding_eq_shardingAt hq, shardingAt_congr (hs v hv place hp)]

theorem of_write_outside (hp : p.WellFormed) (hi : p.Isolated isolated) (hv : v.index < p.values.length)
    (hvi : v ∉ isolated) (h : p.setSharding v sharding = .ok q) : AgreeOn isolated p q := by
  have ⟨place, hpv, hw⟩ := setSharding_written h
  refine of_stored hw.bare_eq (fun w hwi other hpw => ?_) fun w _ hpw => hw.sharding_eq hpv hpw
  refine (hw.storedAt_eq_or_beside other).resolve_right fun hb => hvi ?_
  exact hi.mem_of_beside hp hv hwi hpv hpw hb

-- The same write to a value of the set.
theorem setSharding {p' q' : Program} (h : AgreeOn isolated p p') (hv : v ∈ isolated)
    (hq : p.setSharding v sharding = .ok q) (hq' : p'.setSharding v sharding = .ok q') :
    AgreeOn isolated q q' := by
  have ⟨place, hpv, hw⟩ := setSharding_written hq
  have ⟨place', hpv', hw'⟩ := setSharding_written hq'
  have hplace (u : ValueId) : p'.place? u = p.place? u :=
    read_of_bare_eq (fun r => r.place? u) (fun _ => bare_place?) h.bare_eq
  have hplaceq (u : ValueId) : q.place? u = p.place? u :=
    read_of_bare_eq (fun r => r.place? u) (fun _ => bare_place?) hw.bare_eq
  rw [hplace] at hpv'
  cases hpv.symm.trans hpv'
  refine of_stored (by rw [hw'.bare_eq, h.bare_eq, hw.bare_eq]) (fun u hu other hpu => ?_) fun u hu hpu => ?_
  · rw [hplaceq] at hpu
    by_cases hb : p.Beside place other
    case pos => exact hw.storedAt_congr hw' h.bare_eq (h.stored v hv place hpv) hb
    case neg =>
      have hb' : ¬ p'.Beside place other := fun hb' => hb (hb'.of_bare_eq h.bare_eq.symm)
      rw [(hw.storedAt_eq_or_beside other).resolve_right hb,
        (hw'.storedAt_eq_or_beside other).resolve_right hb', h.stored u hu other hpu]
  · rw [hplaceq] at hpu
    rw [hw.sharding_eq hpv hpu, hw'.sharding_eq ((hplace v).trans hpv) ((hplace u).trans hpu),
      h.sharding u hu]

end AgreeOn

theorem WritesOutside.agreeOn (h : WritesOutside isolated p q) (hp : p.WellFormed)
    (hi : p.Isolated isolated) : AgreeOn isolated p q := by
  cases h with
  | write hv hvi h => exact .of_write_outside hp hi hv hvi h

-- Programs that differ by writes to other values.
theorem agreeOn_of_eqvGen (h : Relation.EqvGen (WritesOutside isolated) p q) :
    (q.bare = p.bare) ∧ (p.WellFormed → p.Isolated isolated → AgreeOn isolated p q) := by
  induction h with
  | rel p q h =>
    refine ⟨?_, h.agreeOn⟩
    cases h with
    | write _ _ h => exact setSharding_bare h
  | refl p => exact ⟨rfl, fun _ _ => .refl p⟩
  | symm p q _ ih =>
    refine ⟨ih.left.symm, fun hq hi => ?_⟩
    exact (ih.right (hq.of_bare_eq ih.left.symm) (hi.of_bare_eq ih.left.symm)).symm
  | trans p q r _ _ ih₁ ih₂ =>
    refine ⟨ih₂.left.trans ih₁.left, fun hp hi => ?_⟩
    exact (ih₁.right hp hi).trans (ih₂.right (hp.of_bare_eq ih₁.left) (hi.of_bare_eq ih₁.left))

end Program

namespace SpreadPlan

open Classical in
-- The links in the queue that write to values of the set.
noncomputable def isolatedQueue (plan : SpreadPlan) (isolated : Set ValueId) (queue : List Nat) :
    List Nat :=
  queue.filter fun i => ∃ v ∈ ((plan.links[i]?).getD default).members, v ∈ isolated

variable {plan : SpreadPlan} {p q p' q' : Program} {v : ValueId} {vs : List ValueId} {link : Link}
  {proposal : Sharding} {isolated : Set ValueId} {queue queue' : List Nat} {i : Nat}

section Queue

theorem mem_isolatedQueue : i ∈ plan.isolatedQueue isolated queue ↔
    i ∈ queue ∧ ∃ v ∈ ((plan.links[i]?).getD default).members, v ∈ isolated := by
  simp [isolatedQueue]

theorem isolatedQueue_cons_of_mem
    (h : ∃ v ∈ ((plan.links[i]?).getD default).members, v ∈ isolated) :
    plan.isolatedQueue isolated (i :: queue) = i :: plan.isolatedQueue isolated queue := by
  simp [isolatedQueue, h]

theorem isolatedQueue_cons_of_not_mem
    (h : ¬ ∃ v ∈ ((plan.links[i]?).getD default).members, v ∈ isolated) :
    plan.isolatedQueue isolated (i :: queue) = plan.isolatedQueue isolated queue := by
  simp only [isolatedQueue]
  exact List.filter_cons_of_neg (by simpa using h)

-- Whether a link of the set waits in the queue already depends on the links of the set in it.
theorem isolatedQueue_enqueue (plan : SpreadPlan) (isolated : Set ValueId) (queue : List Nat)
    (v : ValueId) : plan.isolatedQueue isolated (plan.enqueue queue v) =
      plan.isolatedQueue isolated queue ++ (plan.isolatedQueue isolated
        ((plan.links.zipIdx.filter fun (link, _) => plan.concerns (plan.storage v) link).map (·.2))).filter
          fun i => !(plan.isolatedQueue isolated queue).contains i := by
  simp only [isolatedQueue, enqueue, List.filter_append, List.filter_filter]
  congr 1
  refine List.filter_congr fun i _ => ?_
  by_cases h : ∃ v ∈ ((plan.links[i]?).getD default).members, v ∈ isolated <;> simp [h]

theorem isolatedQueue_enqueue_congr
    (h : plan.isolatedQueue isolated queue' = plan.isolatedQueue isolated queue) (v : ValueId) :
    plan.isolatedQueue isolated (plan.enqueue queue' v) =
      plan.isolatedQueue isolated (plan.enqueue queue v) := by
  rw [isolatedQueue_enqueue, isolatedQueue_enqueue, h]

theorem isolatedQueue_foldl_enqueue_congr
    (h : plan.isolatedQueue isolated queue' = plan.isolatedQueue isolated queue) (vs : List ValueId) :
    plan.isolatedQueue isolated (vs.foldl plan.enqueue queue') =
      plan.isolatedQueue isolated (vs.foldl plan.enqueue queue) := by
  induction vs generalizing queue queue' with
  | nil          => exact h
  | cons v vs ih => exact ih (isolatedQueue_enqueue_congr h v)

end Queue

-- What is known of the plan and of all programs of a run.
structure Isolates (plan : SpreadPlan) (isolated : Set ValueId) (p : Program) : Prop where
  wellFormed : p.WellFormed
  storage    : plan.storage = p.storageOf
  closed     : p.Isolated isolated
  within     : ∀ link ∈ plan.links, link.Within p
  respects   : ∀ link ∈ plan.links, link.Respects isolated

namespace Isolates

theorem of_bare_eq (h : plan.Isolates isolated p) (hb : q.bare = p.bare) : plan.Isolates isolated q where
  wellFormed := h.wellFormed.of_bare_eq hb
  storage    := by
    rw [h.storage]
    exact (Program.read_of_bare_eq (fun r => r.storageOf)
      (fun r => funext r.bare_storageOf) hb).symm
  closed     := h.closed.of_bare_eq hb
  within link hl := by
    have hlen := Program.read_of_bare_eq (fun r => r.values.length) (by simp) hb
    have hw := h.within link hl
    exact ⟨hlen ▸ hw.members, hlen ▸ hw.inputs⟩
  respects   := h.respects

theorem within_at (h : plan.Isolates isolated p) (i : Nat) :
    ((plan.links[i]?).getD default).Within p :=
  forall_links h.within ⟨by simp, by simp⟩ i

theorem respects_at (h : plan.Isolates isolated p) (i : Nat) :
    ((plan.links[i]?).getD default).Respects isolated :=
  forall_links h.respects (by simp [Link.Respects]) i

-- A write to another value concerns no link of the set.
theorem isolatedQueue_enqueue (h : plan.Isolates isolated p) (hv : v.index < p.values.length)
    (hvi : v ∉ isolated) :
    plan.isolatedQueue isolated (plan.enqueue queue v) = plan.isolatedQueue isolated queue := by
  have hnone : plan.isolatedQueue isolated ((plan.links.zipIdx.filter
      fun (link, _) => plan.concerns (plan.storage v) link).map (·.2)) = [] := by
    refine List.eq_nil_iff_forall_not_mem.mpr fun i hi => hvi ?_
    obtain ⟨hc, hm⟩ := mem_isolatedQueue.mp hi
    simp only [List.mem_map, List.mem_filter, Prod.exists, exists_eq_right] at hc
    obtain ⟨link, hl, hc⟩ := hc
    rw [List.mem_zipIdx_iff_getElem?] at hl
    simp only [concerns, List.any_eq_true, decide_eq_true_eq] at hc
    obtain ⟨w, hw, hs⟩ := hc
    simp only [hl, Option.getD_some] at hm
    have hwi := h.respects link (List.mem_of_getElem? hl) hm w hw
    rw [h.storage] at hs
    exact h.closed.storage w hwi v hv hs.symm
  rw [SpreadPlan.isolatedQueue_enqueue, hnone, List.filter_nil, List.append_nil]

theorem isolatedQueue_foldl_enqueue (h : plan.Isolates isolated p)
    (hvs : ∀ v ∈ vs, v.index < p.values.length ∧ v ∉ isolated) :
    plan.isolatedQueue isolated (vs.foldl plan.enqueue queue) = plan.isolatedQueue isolated queue := by
  induction vs generalizing queue with
  | nil => rfl
  | cons v vs ih =>
    rw [List.forall_mem_cons] at hvs
    rw [List.foldl_cons, ih hvs.right, h.isolatedQueue_enqueue hvs.left.left hvs.left.right]

end Isolates

section Adopt

theorem Adopts.agreeOn (h : plan.Adopts proposal p vs q) (hi : plan.Isolates isolated p)
    (hvs : ∀ v ∈ vs, v.index < p.values.length ∧ v ∉ isolated) : Program.AgreeOn isolated p q := by
  induction h with
  | nil p => exact .refl p
  | cons _ hq _ ih =>
    rw [List.forall_mem_cons] at hvs
    have hb := Program.setSharding_bare hq
    have hlen := Program.read_of_bare_eq (fun r => r.values.length) (by simp) hb
    have ha := Program.AgreeOn.of_write_outside hi.wellFormed hi.closed hvs.left.left hvs.left.right hq
    exact ha.trans (ih (hi.of_bare_eq hb) (hlen ▸ hvs.right))

-- A link without members in the set.
theorem Evaluates.agreeOn (h : plan.Evaluates p link vs q) (hi : plan.Isolates isolated p)
    (hvs : ∀ v ∈ vs, v.index < p.values.length ∧ v ∉ isolated) : Program.AgreeOn isolated p q := by
  cases h with
  | nothing      => exact .refl p
  | adopt _ _ ha => exact ha.agreeOn hi hvs

-- In programs that agree, members in the set adopt the same.
theorem adopt_agrees {members updated us us' : List ValueId} (h : Program.AgreeOn isolated p p')
    (hm : ∀ v ∈ members, v ∈ isolated)
    (hr : (plan.adopt proposal p updated members).result = .ok us)
    (hr' : (plan.adopt proposal p' updated members).result = .ok us') :
    us' = us ∧ Program.AgreeOn isolated (plan.adopt proposal p updated members).program
      (plan.adopt proposal p' updated members).program := by
  induction members generalizing p p' updated with
  | nil =>
    cases hr
    cases hr'
    exact ⟨rfl, h⟩
  | cons v members ih =>
    rw [List.forall_mem_cons] at hm
    rw [adopt] at hr hr' ⊢
    rw [adopt]
    rw [change?_congr h.bare_eq (h.sharding v hm.left)] at hr' ⊢
    cases hc : plan.change? p proposal v with
    | none =>
      simp only [hc] at hr hr' ⊢
      exact ih h hm.right hr hr'
    | some refined =>
      simp only [hc] at hr hr' ⊢
      cases hq : p.setSharding v refined with
      | error e => simp [hq] at hr
      | ok q =>
        cases hq' : p'.setSharding v refined with
        | error e => simp [hq'] at hr'
        | ok q' =>
          simp only [hq] at hr ⊢
          simp only [hq'] at hr' ⊢
          exact ih (h.setSharding hm.left hq hq') hm.right hr hr'

theorem evaluate_agrees {us us' : List ValueId} (h : Program.AgreeOn isolated p p')
    (hl : ∀ v ∈ link.members ++ link.inputs, v ∈ isolated)
    (hr : (plan.evaluate p link).result = .ok us) (hr' : (plan.evaluate p' link).result = .ok us') :
    us' = us ∧ Program.AgreeOn isolated (plan.evaluate p link).program
      (plan.evaluate p' link).program := by
  have hb : plan.best? p' (candidates p' link) = plan.best? p (candidates p link) := by
    rw [best?_congr h.bare_eq, candidates_congr fun v hv => h.sharding v (hl v hv)]
  simp only [candidates] at hb
  rw [evaluate] at hr hr' ⊢
  rw [evaluate]
  rw [hb] at hr' ⊢
  split at hr
  case _ =>
    simp_all
  case _ proposal hp =>
    simp only [hp] at hr' ⊢
    exact adopt_agrees h (fun v hv => hl v (List.mem_append_left _ hv)) hr hr'

end Adopt

section Run

variable {budget budget' : Nat} {changed changed' done done' : Bool}

-- The first evaluation of a run that succeeds.
theorem run_cons (h : (plan.run budget (i :: queue) changed p).result = .ok done) :
    ∃ fewer updated, budget = fewer + 1 ∧
      (plan.evaluate p ((plan.links[i]?).getD default)).result = .ok updated ∧
      plan.run budget (i :: queue) changed p = plan.run fewer (updated.foldl plan.enqueue queue)
        (changed || !updated.isEmpty) (plan.evaluate p ((plan.links[i]?).getD default)).program := by
  cases budget with
  | zero => simp [run] at h
  | succ fewer =>
    rw [run, Outcome.andThen] at h
    cases hr : (plan.evaluate p ((plan.links[i]?).getD default)).result with
    | error e    => simp [hr] at h
    | ok updated => exact ⟨fewer, updated, rfl, rfl, by simp [run, Outcome.andThen, hr]⟩

-- The evaluation of a link without members in the set shows in none of its values, and puts no link
-- of the set into the queue.
theorem evaluate_outside (hi : plan.Isolates isolated p) (queue : List Nat) {updated : List ValueId}
    (hm : ¬ ∃ v ∈ ((plan.links[i]?).getD default).members, v ∈ isolated)
    (hr : (plan.evaluate p ((plan.links[i]?).getD default)).result = .ok updated) :
    Program.AgreeOn isolated p (plan.evaluate p ((plan.links[i]?).getD default)).program ∧
      plan.isolatedQueue isolated (updated.foldl plan.enqueue queue) =
        plan.isolatedQueue isolated (i :: queue) := by
  obtain ⟨vs, he, hu⟩ := evaluate_evaluates plan p ((plan.links[i]?).getD default)
  have hvs : ∀ v ∈ vs, v.index < p.values.length ∧ v ∉ isolated := fun v hv =>
    ⟨(hi.within_at i).members v (he.subset hv), fun hvi => hm ⟨v, he.subset hv, hvi⟩⟩
  rw [hu updated hr, hi.isolatedQueue_foldl_enqueue hvs, isolatedQueue_cons_of_not_mem hm]
  exact ⟨he.agreeOn hi hvs, rfl⟩

-- A run goes on to the first link of the set in its queue without a sign of it in the set, or to its
-- end if there is none.
theorem run_reaches (hi : plan.Isolates isolated p)
    (h : (plan.run budget queue changed p).result = .ok done) :
    ∃ fewer queue' changed' p', plan.run budget queue changed p = plan.run fewer queue' changed' p' ∧
      Program.AgreeOn isolated p p' ∧
      plan.isolatedQueue isolated queue' = plan.isolatedQueue isolated queue ∧
      (queue' = [] ∨ ∃ i rest, queue' = i :: rest ∧
        ∃ v ∈ ((plan.links[i]?).getD default).members, v ∈ isolated) := by
  induction budget generalizing queue changed p with
  | zero =>
    cases queue with
    | nil      => exact ⟨0, [], changed, p, rfl, .refl p, rfl, .inl rfl⟩
    | cons _ _ => simp [run] at h
  | succ budget ih =>
    cases queue with
    | nil => exact ⟨budget + 1, [], changed, p, rfl, .refl p, rfl, .inl rfl⟩
    | cons i queue =>
      by_cases hm : ∃ v ∈ ((plan.links[i]?).getD default).members, v ∈ isolated
      case pos =>
        exact ⟨budget + 1, i :: queue, changed, p, rfl, .refl p, rfl, .inr ⟨i, queue, rfl, hm⟩⟩
      case neg =>
        obtain ⟨fewer, updated, hb, hr, he⟩ := run_cons h
        cases hb
        obtain ⟨ha, hq⟩ := evaluate_outside hi queue hm hr
        rw [he] at h ⊢
        obtain ⟨fewer, queue', changed', p', he', ha', hq', hend⟩ := ih (hi.of_bare_eq ha.bare_eq) h
        exact ⟨fewer, queue', changed', p', he', ha.trans ha', hq'.trans hq, hend⟩

-- The other run has evaluated all links of the set, too.
theorem run_agrees_of_done (hi : plan.Isolates isolated p) (h : Program.AgreeOn isolated p p')
    (hq : plan.isolatedQueue isolated queue' = [])
    (hr : (plan.run budget queue' changed p').result = .ok done) :
    Program.AgreeOn isolated p (plan.run budget queue' changed p').program := by
  obtain ⟨fewer, rest, changed', r, he, ha, hrest, rfl | ⟨i, rest, rfl, hm⟩⟩ :=
    run_reaches (hi.of_bare_eq h.bare_eq) hr
  · rw [he]
    cases fewer <;> exact h.trans ha
  · rw [hq, isolatedQueue_cons_of_mem hm] at hrest
    contradiction

-- Between the evaluations of two links of the set, each run may evaluate any number of other links.
theorem run_agrees (hi : plan.Isolates isolated p) (h : Program.AgreeOn isolated p p')
    (hq : plan.isolatedQueue isolated queue' = plan.isolatedQueue isolated queue)
    (hr : (plan.run budget queue changed p).result = .ok done)
    (hr' : (plan.run budget' queue' changed' p').result = .ok done') :
    Program.AgreeOn isolated (plan.run budget queue changed p).program
      (plan.run budget' queue' changed' p').program := by
  induction budget generalizing queue changed p queue' changed' p' budget' with
  | zero =>
    cases queue with
    | nil      => exact run_agrees_of_done hi h hq hr'
    | cons _ _ => simp [run] at hr
  | succ budget ih =>
    cases queue with
    | nil => exact run_agrees_of_done hi h hq hr'
    | cons i queue =>
      obtain ⟨fewer, updated, hb, hu, he⟩ := run_cons hr
      cases hb
      by_cases hm : ∃ v ∈ ((plan.links[i]?).getD default).members, v ∈ isolated
      case neg =>
        obtain ⟨ha, hrest⟩ := evaluate_outside hi queue hm hu
        rw [he] at hr ⊢
        exact ih (hi.of_bare_eq ha.bare_eq) (ha.symm.trans h) (hq.trans hrest.symm) hr hr'
      case pos =>
        have hi' := hi.of_bare_eq h.bare_eq
        rw [isolatedQueue_cons_of_mem hm] at hq
        obtain ⟨fewer', rest, flag, r, her, har, hrest, rfl | ⟨j, rest, rfl, hj⟩⟩ := run_reaches hi' hr'
        · rw [hq] at hrest
          contradiction
        · -- Both runs are about to evaluate the same link, on the same shardings.
          rw [hq, isolatedQueue_cons_of_mem hj, List.cons.injEq] at hrest
          obtain ⟨rfl, hrest⟩ := hrest
          rw [her] at hr' ⊢
          obtain ⟨_, updated', _, hu', he'⟩ := run_cons hr'
          obtain ⟨rfl, ha⟩ := evaluate_agrees (h.trans har) (hi.respects_at j hm) hu hu'
          rw [he] at hr ⊢
          rw [he'] at hr' ⊢
          have hb := (evaluate_evaluates plan p ((plan.links[j]?).getD default)).choose_spec.left.bare_eq
          exact ih (hi.of_bare_eq hb) ha (isolatedQueue_foldl_enqueue_congr hrest _) hr hr'

end Run

end SpreadPlan

namespace Program

variable {p q : Program} {isolated : Set ValueId}

theorem spread_agrees (hp : p.WellFormed) (hi : p.Isolated isolated) (h : AgreeOn isolated p q)
    (options : SpreadOptions) {changed changed' : Bool}
    (hr : (p.spread options).result = .ok changed) (hr' : (q.spread options).result = .ok changed') :
    AgreeOn isolated (p.spread options).program (q.spread options).program := by
  have hq : q.spreadPlan options = p.spreadPlan options :=
    read_of_bare_eq (fun r => r.spreadPlan options) (fun r => r.bare_spreadPlan options) h.bare_eq
  cases hplan : p.spreadPlan options with
  | error e => simp [spread, hplan] at hr
  | ok plan =>
    rw [hplan] at hq
    have hl : p.links = .ok plan.links := by
      cases hl : p.links with
      | error e => simp [spreadPlan, hl, bind, Except.bind] at hplan
      | ok all  =>
        rw [spreadPlan_eq options hl] at hplan
        cases hplan
        rfl
    have hisolates : plan.Isolates isolated p := {
      wellFormed := hp
      storage    := spreadPlan_storage hplan
      closed     := hi
      within     := hp.spreadPlan_within hplan
      respects   := hi.links plan.links hl }
    rw [spread_program p options hplan, spread_program q options hq]
    exact SpreadPlan.run_agrees hisolates h rfl ((spread_eq_ok_iff hplan).mp hr).left
      ((spread_eq_ok_iff hq).mp hr').left

-- The links of a barrier tie its result to its operand, or its operand to its result, or neither.
theorem barrier_respects_iff {o : OpId} {allowed : Direction} (hk : (p.op o).kind = .barrier allowed) :
    (∀ link ∈ p.ownLinks o ++ p.flowLinks o, link.Respects isolated) ↔
      (allowed = .forward → p.output o ∈ isolated → p.input o ∈ isolated) ∧
        (allowed = .backward → p.input o ∈ isolated → p.output o ∈ isolated) := by
  have hf : p.flowLinks o = [] := by simp [flowLinks, flowView?, hk]
  cases allowed <;> simp [hf, ownLinks, hk, Link.Respects] <;> tauto

-- Two runs that start from programs that differ by writes to other values give the values of the set
-- the same shardings. A barrier asks of the set no more than its direction says: it is the other values
-- that may have the result or the operand of a barrier that lets nothing through to the set.
theorem spread_isolates (h : p.Reachable) (hi : p.Isolated isolated)
    (hq : Relation.EqvGen (WritesOutside isolated) p q) (options : SpreadOptions)
    {changed changed' : Bool} (hr : (p.spread options).result = .ok changed)
    (hr' : (q.spread options).result = .ok changed') :
    (∀ v ∈ isolated, (q.spread options).program.sharding v = (p.spread options).program.sharding v) ∧
      ∀ o allowed, (p.op o).kind = .barrier allowed → ∀ values : Set ValueId,
        (∀ link ∈ p.ownLinks o ++ p.flowLinks o, link.Respects values) ↔
          (allowed = .forward → p.output o ∈ values → p.input o ∈ values) ∧
            (allowed = .backward → p.input o ∈ values → p.output o ∈ values) := by
  have hp := h.wellFormed
  have ha := (agreeOn_of_eqvGen hq).right hp hi
  exact ⟨(spread_agrees hp hi ha options hr hr').sharding, fun _ _ hk _ => barrier_respects_iff hk⟩

-- A sum of two values, of which one comes through a barrier.
def guardedSum? : Option Program :=
  let type : TensorType := ⟨[8], .f32⟩
  build "main" [
    .mesh "mesh" { axes := [⟨"a", 2⟩] },
    .argument type none,
    .argument type none,
    .append entry (.barrier ⟨0⟩ .forward),
    .append entry (.generic { name := "add", elementwise := true } [⟨2⟩, ⟨1⟩] [type] []),
    .append entry (.terminator [⟨3⟩])]

def guardedSum : Program :=
  guardedSum?.get (by rfl)

-- The same sum with a sharding for the other value.
def guardedSumSharded : Program :=
  (guardedSum.setSharding ⟨1⟩ ⟨.symbol "mesh", [{ axes := [⟨"a", none⟩] }], []⟩).toOption.get (by rfl)

theorem guardedSum_isolated : guardedSum.Isolated {⟨0⟩} := by
  have hnamed (o : OpId) (computation : NamedComputation) :
      (guardedSum.op o).kind ≠ .named computation := by
    obtain ⟨i⟩ := o
    intro hk
    have hi : i < 3 := index_lt_of_kind_ne (p := guardedSum) (o := ⟨i⟩) (by simp [hk])
    interval_cases i <;> cases hk
  refine ⟨?_, ?_, ?_, fun o computation hk => ?_, fun o computation hk => ?_⟩
  · rintro v rfl
    decide
  · intro links hl
    have hall : guardedSum.links = .ok [⟨[⟨2⟩], [⟨0⟩], []⟩, ⟨[⟨2⟩, ⟨1⟩, ⟨3⟩], [], []⟩] := rfl
    cases hall.symm.trans hl
    simp [Link.Respects]
  · rintro v rfl ⟨i⟩ hw hs
    have hi : i < 4 := hw
    interval_cases i <;> first | rfl | (revert hs; decide)
  · exact absurd hk (hnamed o computation)
  · exact absurd hk (hnamed o computation)

-- The sharding of the other value goes through the sum, and stops at the barrier.
theorem spread_isolates_guardedSum :
    let p := guardedSum
    let q := guardedSumSharded
    p.Reachable ∧ p.Isolated {⟨0⟩} ∧ Relation.EqvGen (WritesOutside {⟨0⟩}) p q ∧
      (p.spread {}).result = .ok false ∧ (q.spread {}).result = .ok true ∧
      (∀ v ∈ ({⟨0⟩} : Set ValueId), (q.spread {}).program.sharding v = (p.spread {}).program.sharding v) ∧
      ∀ o allowed, (p.op o).kind = .barrier allowed → ∀ values : Set ValueId,
        (∀ link ∈ p.ownLinks o ++ p.flowLinks o, link.Respects values) ↔
          (allowed = .forward → p.output o ∈ values → p.input o ∈ values) ∧
            (allowed = .backward → p.input o ∈ values → p.output o ∈ values) := by
  have hr : guardedSum.Reachable := build_reachable (Option.some_get _).symm
  have hw : guardedSum.setSharding ⟨1⟩ ⟨.symbol "mesh", [{ axes := [⟨"a", none⟩] }], []⟩ =
      .ok guardedSumSharded := rfl
  have hq : Relation.EqvGen (WritesOutside {⟨0⟩}) guardedSum guardedSumSharded :=
    .rel _ _ (.write (by decide) (by simp) hw)
  exact ⟨hr, guardedSum_isolated, hq, rfl, rfl, spread_isolates hr guardedSum_isolated hq {} rfl rfl⟩

end Program

end MeshSharding
