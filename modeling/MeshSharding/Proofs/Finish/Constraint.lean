import MeshSharding.Proofs.Finish.Guidance

namespace MeshSharding.Program

variable {p q r : Program} {c o u : OpId} {v source target : ValueId} {s : Sharding} {i : Nat}

section Bypass

theorem storedSharding_bypass : (p.bypass o).storedSharding v = p.storedSharding v := by
  rw [bypass, storedSharding_erase]
  by_cases h : p.output o = p.input o
  case pos => rw [replaceUses, replaceUsesExcept, if_pos h]
  case neg => rw [replaceUses, replaceUsesExcept_eq h, storedSharding_redirect]

theorem length_values_bypass : (p.bypass o).values.length = p.values.length := by
  rw [bypass, length_values_erase]
  exact length_values_replaceUsesExcept

theorem erased_bypass (hr : (p.op o).regions = []) : ((p.bypass o).op u).erased = ((p.op u).erased || u = o) := by
  rw [bypass]
  by_cases h : p.output o = p.input o
  case pos => rw [replaceUses, replaceUsesExcept, if_pos h, op_erase_leaf hr]
  case neg => rw [replaceUses, replaceUsesExcept_eq h, op_erase_leaf (regions_redirect.trans hr), erased_redirect]

theorem WellFormed.input_bypass (hp : p.WellFormed) (hne : p.input u ≠ p.output o) :
    (p.bypass o).input u = p.input u := by
  rw [Program.bypass, input_erase]
  by_cases h : p.output o = p.input o
  case pos => rw [Program.replaceUses, Program.replaceUsesExcept, if_pos h]
  case neg =>
    rw [Program.replaceUses, replaceUsesExcept_eq h]
    exact ((input_redirect (fun _ => hp.operand_of_movable) u).resolve_left fun hm => hne hm.right.left).right

-- Live operations read the new value in the place of the old one.
theorem WellFormed.operands_replaceUses (hp : p.WellFormed) (hu : p.isLive u) (i : Nat) :
    ((p.replaceUses source target).op u).operands[i]? =
      if (p.op u).operands[i]? = some source then some target else (p.op u).operands[i]? := by
  by_cases he : source = target
  case pos =>
    rw [Program.replaceUses, Program.replaceUsesExcept, if_pos he]
    split
    case isTrue h => rw [h, he]
    case isFalse  => rfl
  case neg =>
    have hm : (⟨u, i⟩ : Use) ∈ p.movable source none ↔ (p.op u).operands[i]? = some source := by
      refine ⟨fun h => hp.operand_of_movable h, fun h => mem_movable.mpr ⟨?_, by simp, hu⟩⟩
      exact hp.use_of_operand h (erased_of_isLive hu)
    rw [Program.replaceUses, replaceUsesExcept_eq he, operands_redirect fun _ => hp.operand_of_movable]
    simp only [hm]

theorem WellFormed.operands_bypass (hp : p.WellFormed) (hu : p.isLive u) (i : Nat) :
    ((p.bypass o).op u).operands[i]? =
      if (p.op u).operands[i]? = some (p.output o) then some (p.input o) else (p.op u).operands[i]? := by
  rw [Program.bypass, op_erase]
  exact hp.operands_replaceUses hu i

theorem WellFormed.output_ne (hp : p.WellFormed) (hc : (p.op c).kind.isUnary) (ho : (p.op o).kind.isUnary)
    (hne : c ≠ o) : p.output c ≠ p.output o := by
  intro he
  have hr : p.output c ∈ (p.op c).results := by simp [hp.results_eq hc]
  have hr' : p.output c ∈ (p.op o).results := by simp [hp.results_eq ho, he]
  exact hne (hp.definer_unique hr hr')

-- The edge operations of the program stand on results of structural operations. Others may stand anywhere.
def LiveEdgesOwned (p : Program) : Prop :=
  ∀ e, p.isLive e → (p.op e).kind.isEdge → p.checkEdgeOwner (p.input e) = .ok ()

theorem LiveEdgesOwned.of_op (h : q.LiveEdgesOwned) (hf : Frame q r) (ho : r.op = q.op) : r.LiveEdgesOwned := by
  intro e hl hk
  rw [input, ho, ← input]
  exact hf.checkEdgeOwner (h e (hf.isLive (fun o he => by rwa [ho]) hl) (ho ▸ hk))

variable (hp : p.WellFormed) (he : p.LiveEdgesOwned) (ht : (p.op o).kind.isTransparent)
include hp he ht

theorem LiveEdgesOwned.input_ne {e : OpId} (hl : p.isLive e) (hk : (p.op e).kind.isEdge) :
    p.input e ≠ p.output o :=
  fun h => hp.not_checkEdgeOwner ht (h ▸ he e hl hk)

-- No edge operation is moved: those that are not part of the program are left alone.
theorem LiveEdgesOwned.marks_redirect (v : ValueId) (e : OpId) :
    (p.redirect (p.output o) target (p.movable (p.output o) none)).marks v e = p.marks v e := by
  simp only [marks, erased_redirect, kind_redirect, List.head?_eq_getElem?,
    operands_redirect fun _ => hp.operand_of_movable]
  split
  case isFalse => rfl
  case isTrue hm =>
    have hi : (p.op e).operands[0]? = some (p.output o) := hp.operand_of_movable hm
    have hk : (p.op e).kind.isEdge = false := by
      by_contra hk
      refine he.input_ne hp ht (mem_movable.mp hm).right.right (by simpa using hk) ?_
      rw [input, hi, Option.getD_some]
    simp [hk]

theorem LiveEdgesOwned.sharding_redirect (v : ValueId) :
    (p.redirect (p.output o) target (p.movable (p.output o) none)).sharding v = p.sharding v := by
  refine Frame.redirect.sharding ?_ (fun _ => kind_redirect) storedSharding_redirect
  rw [Frame.redirect.edgeForTarget? (he.marks_redirect hp ht) fun _ _ => erased_redirect]

theorem LiveEdgesOwned.marks_bypass (v : ValueId) (e : OpId) :
    (p.bypass o).marks v e = (p.marks v e && e ≠ o) := by
  have hr := hp.regions_eq_nil (OpKind.takesRegions_of_isUnary (OpKind.isUnary_of_isTransparent ht))
  have herase {r : Program} (hr : (r.op o).regions = []) : (r.erase o).marks v e = (r.marks v e && e ≠ o) := by
    simp only [marks, op_erase_leaf hr]
    by_cases h : e = o <;> simp [h]
  rw [bypass]
  by_cases hio : p.output o = p.input o
  case pos => rw [replaceUses, replaceUsesExcept, if_pos hio, herase hr]
  case neg =>
    rw [replaceUses, replaceUsesExcept_eq hio, herase (regions_redirect.trans hr), he.marks_redirect hp ht]

theorem LiveEdgesOwned.sharding_bypass (hk : (p.op o).kind.isEdge = false) (v : ValueId) :
    (p.bypass o).sharding v = p.sharding v := by
  have hr := hp.regions_eq_nil (OpKind.takesRegions_of_isUnary (OpKind.isUnary_of_isTransparent ht))
  rw [bypass]
  by_cases hio : p.output o = p.input o
  case pos => rw [replaceUses, replaceUsesExcept, if_pos hio, sharding_erase hr hk]
  case neg =>
    rw [replaceUses, replaceUsesExcept_eq hio, sharding_erase (regions_redirect.trans hr) (by rwa [kind_redirect]),
      he.sharding_redirect hp ht]

theorem LiveEdgesOwned.bypass : (p.bypass o).LiveEdgesOwned := by
  intro e hl hk
  have hprune : Prunes p (p.bypass o) := .bypass o
  have hl := hprune.isLive hprune.erased hl
  rw [hprune.kind] at hk
  have hi : (p.bypass o).input e = p.input e := by
    have hne := he.input_ne hp ht hl hk
    have hu := hp.operands_eq (OpKind.isUnary_of_isEdge hk)
    rw [input, hp.operands_bypass hl, if_neg (by simp [hu, hne]), ← input]
  exact hprune.checkEdgeOwner (hi ▸ he e hl hk)

end Bypass

section Resolve

-- What is read stays, unless it's the result of what goes.
theorem Resolves.operands (h : p.Resolves o q) (hp : p.WellFormed) (hu : p.isLive u)
    (hv : (p.op u).operands[i]? = some v) (hn : v ∉ (p.op o).results) : (q.op u).operands[i]? = some v := by
  have hbypass (ho : (p.op o).kind.isUnary) : ((p.bypass o).op u).operands[i]? = some v := by
    rw [hp.operands_bypass hu, if_neg, hv]
    rintro he
    refine hn ?_
    rw [hv] at he
    simp [hp.results_eq ho, Option.some.inj he]
  cases h with
  | unused hk _ | satisfied hk _ | opened hk => exact hbypass (by rw [hk]; rfl)
  | unsatisfied _ _ | closed _ _ => rwa [op_setKind]
  | group _ => rwa [op_erase]

theorem Resolves.kind (h : p.Resolves o q) (u : OpId) :
    (q.op u).kind = (p.op u).kind ∨ ∃ s, (q.op u).kind = .reshard s := by
  have hset (s : Sharding) : ((p.setKind o (.reshard s)).op u).kind = (p.op u).kind ∨
      ∃ t, ((p.setKind o (.reshard s)).op u).kind = .reshard t := by
    rw [op_setKind]
    dsimp only
    split
    · exact .inr ⟨s, rfl⟩
    · exact .inl rfl
  cases h with
  | unused _ _ | satisfied _ _ | opened _ => exact .inl ((Prunes.bypass o).kind u)
  | unsatisfied _ _ | closed _ _ => exact hset _
  | group _ => exact .inl ((Prunes.erase o).kind u)

-- No value is sharded otherwise after a step of finishing.
theorem Resolves.sharding (h : p.Resolves o q) (hp : p.WellFormed) (he : p.LiveEdgesOwned)
    (hv : v.index < p.values.length) : q.sharding v = p.sharding v := by
  cases h with
  | unused hk _ | satisfied hk _ | opened hk =>
    exact he.sharding_bypass hp (by rw [hk]; rfl) (by rw [hk]; rfl) v
  | group hk =>
    exact sharding_erase (hp.regions_eq_nil (by rw [hk]; rfl)) (by rw [hk]; rfl)
  | closed hk hs => exact hp.sharding_setReshard (by rw [hk]; rfl) (by rw [hk]; rfl) (fun _ => hs) hv
  | unsatisfied hk _ =>
    refine hp.sharding_setReshard (by rw [hk]; rfl) (by rw [hk]; rfl) (fun h => ?_) hv
    rw [hp.sharding_output (by rw [hk]; rfl) h, shardingOfResult, hk]

theorem Resolves.length_values (h : p.Resolves o q) : q.values.length = p.values.length := by
  cases h with
  | unused _ _ | satisfied _ _ | opened _ => exact length_values_bypass
  | unsatisfied _ _ | closed _ _          => rfl
  | group _                               => exact length_values_erase

end Resolve

-- A constraint that an operation reads, where this is none that is there for spreading only.
structure Constrains (p : Program) (c : OpId) (s : Sharding) (u : OpId) (i : Nat) : Prop where
  here    : c ∈ p.walk
  kind    : (p.op c).kind = .constraint s
  user    : u ∈ p.walk
  lasting : (p.op u).kind.isTemporary = false
  operand : (p.op u).operands[i]? = some (p.output c)

section Sink

-- While edge operations are taken out, the constraint is read as before and its result is sharded as before.
-- None of those to come stands on the result.
structure Undrawn (p q : Program) (os : List OpId) (c : OpId) (s : Sharding) (u : OpId) (i : Nat) : Prop where
  sound      : q.Sound
  frame      : Frame p q
  edges      : q.LiveEdgesOwned
  constrains : q.Constrains c s u i
  unmarked   : ∀ e ∈ os, q.marks (p.output c) e = false
  sharding   : q.sharding (p.output c) = p.sharding (p.output c)

variable {os : List OpId}

-- The result of a constraint is sharded as this or an edge operation on it states.
theorem WellFormed.sharding_constraint_congr (hp : p.WellFormed) (hf : Frame p q)
    (hk : ∀ o, (q.op o).kind = (p.op o).kind) (hc : (p.op c).kind = .constraint s)
    (hm : ∀ e, q.marks (p.output c) e = p.marks (p.output c) e) :
    q.sharding (p.output c) = p.sharding (p.output c) := by
  have hd : p.definitionOf (p.output c) = .result c 0 := hp.definitionOf_output (by rw [hc]; rfl)
  have he : q.edgeForTarget? (p.output c) = p.edgeForTarget? (p.output c) := by
    simp only [edgeForTarget?, edgeOfOwner?_congr hm, hf.definitions, hd]
  simp only [Program.sharding, he, hf.definitions, hd, shardingOfResult, hk, hc]

theorem Undrawn.of_op (h : Undrawn p q os c s u i) (hb : r.bare = q.bare) (ho : r.op = q.op) :
    Undrawn p r os c s u i := by
  have hf := Frame.of_bare_eq hb
  have hw : r.walk = q.walk := read_of_bare_eq Program.walk bare_walk hb
  have hm (v : ValueId) (e : OpId) : r.marks v e = q.marks v e := by rw [marks, ho, marks]
  exact {
    sound      := (h.sound.of_bare_eq hb).left
    frame      := h.frame.trans hf
    edges      := h.edges.of_op hf ho
    constrains := by
      have hc := h.constrains
      exact ⟨hw ▸ hc.here, ho ▸ hc.kind, hw ▸ hc.user, ho ▸ hc.lasting, by rw [ho, hf.output, hc.operand]⟩
    unmarked e he := by rw [hm, h.unmarked e he]
    sharding   := by
      rw [← h.sharding, ← h.frame.output]
      exact h.sound.wellFormed.sharding_constraint_congr hf (fun _ => by rw [ho]) h.constrains.kind (hm _) }

theorem Undrawn.bypass (h : Undrawn p q (o :: os) c s u i) (hk : (q.op o).kind.isEdge) :
    Undrawn p (q.bypass o) os c s u i := by
  have hq := h.sound.wellFormed
  have hc := h.constrains
  have ht := OpKind.isTransparent_of_isEdge hk
  have hd := h.sound.bypass_discharges ht
  have hprune : Prunes q (q.bypass o) := .bypass o
  have hne : c ≠ o := by
    rintro rfl
    simp [hc.kind, OpKind.isEdge] at hk
  have hm (e : OpId) : (q.bypass o).marks (p.output c) e = q.marks (p.output c) e := by
    rw [h.edges.marks_bypass hq ht]
    by_cases he : e = o
    case pos => simp [he, h.unmarked o List.mem_cons_self]
    case neg => simp [he]
  exact {
    sound      := hd.sound
    frame      := h.frame.trans hd.frame
    edges      := h.edges.bypass hq ht
    constrains := {
      here    := hd.held hc.here hne
      kind    := (hprune.kind c).trans hc.kind
      user    := by
        refine hd.held hc.user ?_
        rintro rfl
        have hl := hc.lasting
        cases he : (q.op u).kind <;> simp [he, OpKind.isEdge, OpKind.isTemporary] at hk hl
      lasting := by rw [hprune.kind, hc.lasting]
      operand := by
        have hout := hq.output_ne (by rw [hc.kind]; rfl) (OpKind.isUnary_of_isEdge hk) hne
        have hl := hq.isLive_of_mem_walk h.sound.rooted hc.user
        rw [hq.operands_bypass hl, if_neg (by simp [hc.operand, hout]), hc.operand, hd.frame.output] }
    unmarked e he := by rw [hm, h.unmarked e (List.mem_cons_of_mem o he)]
    sharding   := by
      rw [← h.sharding, ← h.frame.output]
      exact hq.sharding_constraint_congr hd.frame hprune.kind hc.kind (by simpa only [h.frame.output] using hm) }

theorem Undrawn.step (h : Undrawn p q (o :: os) c s u i) (hs : q.sinkOp o = some r) : Undrawn p r os c s u i := by
  simp only [sinkOp, Option.ite_none_right_eq_some, Option.some.injEq] at hs
  obtain ⟨t, hb, ho, he⟩ := sinkEdge_eq q o
  rw [← hs.right, he]
  exact (h.of_op hb ho).bypass (ho ▸ hs.left)

theorem Undrawn.skip (h : Undrawn p q (o :: os) c s u i) : Undrawn p q os c s u i :=
  { h with unmarked := fun e he => h.unmarked e (List.mem_cons_of_mem o he) }

end Sink

section Drain

-- Between two steps of the second loop, where some operations have been gone over. Nothing that is there for
-- spreading only is left among these.
structure Draining (p q : Program) (gone : List OpId) : Prop where
  sound    : q.Sound
  frame    : Frame p q
  edges    : ∀ e, q.isLive e → (q.op e).kind.isEdge = false
  walk     : ∃ keep : OpId → Bool, q.walk = p.walk.filter keep
  settled  : ∀ o ∈ q.walk, (q.op o).kind.isTemporary → o ∉ gone
  length   : q.values.length = p.values.length
  sharding : ∀ v, v.index < p.values.length → q.sharding v = p.sharding v

-- What is read in the place of a constraint: its result, or what has been found behind it. The latter stays.
inductive Reading (p : Program) (c : OpId) (s : Sharding) (u : OpId) (i : Nat) : Prop
  | result : c ∈ p.walk → (p.op u).operands[i]? = some (p.output c) →
      (p.op c).kind = .constraint s ∨ (p.op c).kind = .reshard s → Reading p c s u i
  | behind (v : ValueId) : c ∉ p.walk → (p.op u).operands[i]? = some v → Sharding.satisfies (p.sharding v) s →
      (∀ o, v ∈ (p.op o).results → (p.op o).kind.isTemporary = false) → Reading p c s u i

variable {gone os : List OpId}

theorem Draining.start (hp : p.Sound) (he : ∀ e, p.isLive e → (p.op e).kind.isEdge = false) : Draining p p [] where
  sound        := hp
  frame        := .refl p
  edges        := he
  walk         := ⟨fun _ => true, by simp⟩
  settled _ _ _ := List.not_mem_nil
  length       := rfl
  sharding _ _ := rfl

theorem Draining.owned (h : Draining p q gone) : q.LiveEdgesOwned :=
  fun e hl hk => by simp [h.edges e hl] at hk

theorem Draining.step (h : Draining p q gone) (hs : q.finishOp o = some r) : Draining p r (gone ++ [o]) := by
  have hd := h.sound.finishOp_discharges hs
  have hres := resolves_of_finishOp hs
  exact {
    sound    := hd.sound
    frame    := h.frame.trans hd.frame
    edges e hl := by
      obtain hk | ⟨s, hk⟩ := hres.kind e <;> rw [hk]
      · exact h.edges e (hd.alive e hl)
      · rfl
    walk     := by
      obtain ⟨keep, hw⟩ := h.walk
      obtain he | he := hd.walk
      · exact ⟨keep, he.trans hw⟩
      · exact ⟨_, by rw [he, hw, List.filter_filter]⟩
    settled v hv hk := by
      have hne : v ≠ o := by
        rintro rfl
        obtain ⟨s, hs⟩ := hd.done hv
        simp [hs, OpKind.isTemporary] at hk
      rw [hd.kind v hne] at hk
      simpa [hne] using h.settled v (hd.mem_walk hv) hk
    length   := hres.length_values.trans h.length
    sharding v hv := (hres.sharding h.sound.wellFormed h.owned (h.length ▸ hv)).trans (h.sharding v hv) }

theorem Draining.skip (h : Draining p q gone) (hs : q.finishOp o = none) : Draining p q (gone ++ [o]) :=
  { h with
    settled := by
      intro v hv hk
      have hne : v ≠ o := by
        rintro rfl
        have hl := h.sound.wellFormed.isLive_of_mem_walk h.sound.rooted hv
        simp [not_isTemporary_of_finishOp hs (h.edges v hl)] at hk
      simpa [hne] using h.settled v hv hk }

-- What stands in front of an operation has been gone over before it.
theorem Draining.settled_of_operand (h : Draining p q gone) (hw : p.walk = gone ++ c :: os) (hc : c ∈ q.walk)
    (hv : v ∈ (q.op c).operands) (ho : v ∈ (q.op o).results) : (q.op o).kind.isTemporary = false := by
  have hscope := h.sound.scope c hc v hv
  obtain ⟨keep, hkeep⟩ := h.walk
  have hsplit : q.walk = gone.filter keep ++ c :: os.filter keep := by
    have hk : keep c := by
      rw [hkeep] at hc
      exact (List.mem_filter.mp hc).right
    rw [hkeep, hw, List.filter_append, List.filter_cons_of_pos hk]
  have ho' := h.sound.wellFormed.precedes_of_inScope hscope ho _ _ hsplit
  by_contra hk
  exact h.settled o (h.sound.wellFormed.definer_mem_walk hscope hc ho) (by simpa using hk) (List.mem_of_mem_filter ho')

variable (h : Draining p q gone) (hw : p.walk = gone ++ o :: os) (hs : q.finishOp o = some r) (hu : u ∈ q.walk)
include h hw hs hu

-- The constraint itself is gone over.
theorem Draining.reading_self (hk : (q.op o).kind = .constraint s) (hc : o ∈ q.walk)
    (hi : (q.op u).operands[i]? = some (q.output o)) : r.Reading o s u i := by
  have hq := h.sound.wellFormed
  have hd := h.sound.finishOp_discharges hs
  have hlive := hq.isLive_of_mem_walk h.sound.rooted hu
  have hunary : (q.op o).kind.isUnary := by rw [hk]; rfl
  cases resolves_of_finishOp hs with
  | unused hk' hunused =>
    exact absurd (List.mem_of_getElem? hi) (hq.unused_of_hasUses h.sound.rooted hunused hu)
  | satisfied hk' hsat =>
    rw [hk] at hk'
    cases hk'
    have hbk (v : OpId) : ((q.bypass o).op v).kind = (q.op v).kind := (Prunes.bypass o).kind v
    refine .behind (q.input o) (fun hm => ?_) ?_ ?_ fun v hv => ?_
    · obtain ⟨t, ht⟩ := hd.done hm
      simp [hbk, hk] at ht
    · rw [hq.operands_bypass hlive, if_pos hi]
    · rwa [h.owned.sharding_bypass hq (by rw [hk]; rfl) (by rw [hk]; rfl)]
    · rw [hd.frame.results] at hv
      rw [hbk]
      exact h.settled_of_operand hw hc (by simp [hq.operands_eq hunary]) hv
  | unsatisfied hk' _ =>
    rw [hk] at hk'
    cases hk'
    refine .result ?_ ?_ (.inr (kind_setKind_of_transparent (by rw [hk]; rfl)))
    · exact (hq.relinks_setKind (by rw [hk]; rfl) rfl).mem_walk_iff.mpr hc
    · rw [op_setKind, hd.frame.output, hi]
  | group hk' | opened hk' | closed hk' _ =>
    rw [hk] at hk'
    cases hk'

theorem Draining.reading (hr : q.Reading c s u i) : r.Reading c s u i := by
  have hq := h.sound.wellFormed
  have hd := h.sound.finishOp_discharges hs
  have hres := resolves_of_finishOp hs
  have hlive := hq.isLive_of_mem_walk h.sound.rooted hu
  cases hr with
  | result hc hi hk =>
    by_cases hne : c = o
    case pos =>
      subst hne
      obtain hk | hk := hk
      · exact h.reading_self hw hs hu hk hc hi
      · simp [finishOp, hk] at hs
    case neg =>
      refine .result (hd.held hc hne) ?_ (by rwa [hd.kind c hne])
      rw [hd.frame.output]
      refine hres.operands hq hlive hi fun hm => hne ?_
      have hc : (q.op c).kind.isUnary := by obtain hk | hk := hk <;> rw [hk] <;> rfl
      exact hq.definer_unique (by simp [hq.results_eq hc]) hm
  | behind v hc hi hsat hsettled =>
    have hno : v ∉ (q.op o).results := by
      intro hm
      have ht := hsettled o hm
      cases hres with
      | unused hk _ | satisfied hk _ | unsatisfied hk _ | group hk | opened hk | closed hk _ =>
        simp [hk, OpKind.isTemporary] at ht
    refine .behind v (fun hm => hc (hd.mem_walk hm)) (hres.operands hq hlive hi hno) ?_ fun g hg => ?_
    · rwa [hres.sharding hq h.owned (hq.operands u v (List.mem_of_getElem? hi))]
    · rw [hd.frame.results] at hg
      rw [hd.kind g (by rintro rfl; exact hno hg)]
      exact hsettled g hg

end Drain

section Runs

-- What holds of the program and of the operations that have been gone over.
theorem applyWhere_induction_gone {step : Program → OpId → Option Program} {P : Program → List OpId → Prop}
    (hsome : ∀ q r gone o rest, os = gone ++ o :: rest → step q o = some r → P q gone → P r (gone ++ [o]))
    (hnone : ∀ q gone o rest, os = gone ++ o :: rest → step q o = none → P q gone → P q (gone ++ [o]))
    (hp : P p []) (changed : Bool) : P (applyWhere step p changed os).1 os := by
  have h : ∃ gone, os = gone ++ [] ∧ P (applyWhere step p changed os).1 gone := by
    refine applyWhere_induction (P := fun q rest => ∃ gone, os = gone ++ rest ∧ P q gone) ?step ?skip
      ⟨[], rfl, hp⟩ changed
    case step =>
      rintro q r o rest hs ⟨gone, hw, h⟩
      exact ⟨gone ++ [o], by simp [hw], hsome q r gone o rest hw hs h⟩
    case skip =>
      rintro q o rest hs ⟨gone, hw, h⟩
      exact ⟨gone ++ [o], by simp [hw], hnone q gone o rest hw hs h⟩
  obtain ⟨gone, hw, h⟩ := h
  rw [List.append_nil] at hw
  exact hw ▸ h

theorem Constrains.sinkAll (hp : p.Sound) (he : p.LiveEdgesOwned) (hc : p.Constrains c s u i) :
    Undrawn p (applyWhere sinkOp p false p.walk).1 [] c s u i := by
  have hunary : (p.op c).kind.isTransparent := by rw [hc.kind]; rfl
  refine applyWhere_induction (P := fun q os => Undrawn p q os c s u i) (fun q r o os hs h => h.step hs)
    (fun q o os _ h => h.skip) ⟨hp, .refl p, he, hc, fun e hm => ?_, rfl⟩ false
  by_contra hmarks
  obtain ⟨_, hk, hi⟩ := hp.wellFormed.marks_iff.mp (by simpa using hmarks)
  exact he.input_ne hp.wellFormed hunary (hp.wellFormed.isLive_of_mem_walk hp.rooted hm) hk hi

theorem Constrains.finishAll (hp : p.Sound) (he : ∀ e, p.isLive e → (p.op e).kind.isEdge = false)
    (hc : p.Constrains c s u i) (changed : Bool) :
    let q := (applyWhere finishOp p changed p.walk).1
    Draining p q p.walk ∧ u ∈ q.walk ∧ q.Reading c s u i := by
  intro q
  obtain ⟨h, hu, hr⟩ : Draining p q p.walk ∧ (u ∈ q.walk ∧ (q.op u).kind.isTemporary = false) ∧ q.Reading c s u i := by
    refine applyWhere_induction_gone (P := fun q gone => Draining p q gone ∧
      (u ∈ q.walk ∧ (q.op u).kind.isTemporary = false) ∧ q.Reading c s u i) ?step ?skip
      ⟨.start hp he, ⟨hc.user, hc.lasting⟩, .result hc.here hc.operand (.inl hc.kind)⟩ changed
    case step =>
      rintro q r gone o os hw hs ⟨h, ⟨hu, hl⟩, hr⟩
      have hd := h.sound.finishOp_discharges hs
      have hne : u ≠ o := by
        rintro rfl
        simp [finishOp_eq_none hl] at hs
      exact ⟨h.step hs, ⟨hd.held hu hne, hd.kind u hne ▸ hl⟩, h.reading hw hs hu hr⟩
    case skip =>
      rintro q gone o os hw hs ⟨h, hu, hr⟩
      exact ⟨h.skip hs, hu, hr⟩
  exact ⟨h, hu.left, hr⟩

-- What is read in the end: a value that is split as the constraint states, or the result of the constraint.
theorem Draining.satisfies_iff (h : Draining p q p.walk) (hr : q.Reading c s u i)
    (hc : (p.output c).index < p.values.length) : ∃ v, (q.op u).operands[i]? = some v ∧
      (Sharding.satisfies (q.sharding v) s ↔ (c ∈ q.walk → Sharding.satisfies (p.sharding (p.output c)) s)) := by
  cases hr with
  | result hm hi _ =>
    refine ⟨_, hi, ?_⟩
    rw [h.frame.output, h.sharding _ hc, imp_iff_right hm]
  | behind v hm hi hsat _ => exact ⟨v, hi, iff_of_true hsat fun h => absurd h hm⟩

theorem Constrains.finish (hp : p.Sound) (hh : p.Housed) (he : p.LiveEdgesOwned) (hc : p.Constrains c s u i) :
    u ∈ p.finish.1.walk ∧ ∃ v, (p.finish.1.op u).operands[i]? = some v ∧
      (Sharding.satisfies (p.finish.1.sharding v) s ↔
        (c ∈ p.finish.1.walk → Sharding.satisfies (p.sharding (p.output c)) s)) := by
  have hsunk := hc.sinkAll hp he
  have hnone := (hp.sinkAll false).right.none
  have hhoused : (applyWhere sinkOp p false p.walk).1.Housed :=
    ((edits_applyWhere (fun _ _ _ _ h hq => hq.edits_sinkOp h) hp.wellFormed false).reshapes
      hp.wellFormed).right.housed hh
  have hedges : ∀ e, (applyWhere sinkOp p false p.walk).1.isLive e →
      ((applyWhere sinkOp p false p.walk).1.op e).kind.isEdge = false := fun e hl =>
    hnone e ((hhoused.mem_walk_iff_isLive hsunk.sound.wellFormed hsunk.sound.rooted).mpr hl)
  obtain ⟨h, hu, hr⟩ :=
    hsunk.constrains.finishAll hsunk.sound hedges (applyWhere sinkOp p false p.walk).2
  have hunary : ((applyWhere sinkOp p false p.walk).1.op c).kind.isUnary := by
    rw [hsunk.constrains.kind]
    rfl
  obtain ⟨v, hv, hsat⟩ := h.satisfies_iff hr (hsunk.sound.wellFormed.output_lt hunary)
  rw [hsunk.frame.output, hsunk.sharding] at hsat
  exact ⟨hu, v, hv, hsat⟩

end Runs

-- An edge operation is read by nothing that is there to stay.
theorem Valid.constrains (hp : p.Valid) (hc : c ∈ p.walk) (hk : (p.op c).kind = .constraint s) (hu : u ∈ p.walk)
    (hg : (p.op u).kind.isGuide = false) (hb : (p.op u).kind.isBarrier = false)
    (hi : (p.op u).operands[i]? = some (p.output c)) : p.Constrains c s u i := by
  refine ⟨hc, hk, hu, ?_, hi⟩
  have he : (p.op u).kind.isEdge = false := by
    by_contra he
    have he : (p.op u).kind.isEdge := by simpa using he
    have hm := List.mem_of_getElem? hi
    rw [hp.sound.wellFormed.operands_eq (OpKind.isUnary_of_isEdge he), List.mem_singleton] at hm
    exact hp.sound.wellFormed.not_checkEdgeOwner (by rw [hk]; rfl) (hm ▸ hp.checkEdgeOwner hu he)
  cases h : (p.op u).kind <;> simp [h, OpKind.isGuide, OpKind.isBarrier, OpKind.isEdge, OpKind.isTemporary] at *

-- An operation that reads the result of a constraint reads a value that is split as the constraint states after
-- finishing, if the constraint has gone or its result is sharded like this, which an edge operation on it may
-- prevent.
theorem finish_keeps_constraint (hp : p.Reachable) (hv : p.verify = .ok ()) (hc : p.isLive c)
    (hk : (p.op c).kind = .constraint s) (hu : p.isLive u) (hg : (p.op u).kind.isGuide = false)
    (hb : (p.op u).kind.isBarrier = false) (hi : (p.op u).operands[i]? = some (p.output c)) :
    let q := p.finish.1
    q.isLive u ∧ ∃ v, (q.op u).operands[i]? = some v ∧
      (p.edgeOfOwner? (p.output c) = none → Sharding.satisfies (q.sharding v) s) ∧
      (Sharding.satisfies (q.sharding v) s ↔
        (q.isLive c → Sharding.satisfies (p.sharding (p.output c)) s)) := by
  intro q
  have hw := hp.wellFormed
  have hvalid : p.Valid := ((verify_iff hw).mp hv).left
  have hlive (o : OpId) : p.isLive o ↔ o ∈ p.walk := (hp.mem_walk_iff hvalid.sound.rooted).symm
  have hedges : p.LiveEdgesOwned := fun e he hk => hvalid.checkEdgeOwner ((hlive e).mp he) hk
  have hconstrains := hvalid.constrains ((hlive c).mp hc) hk ((hlive u).mp hu) hg hb hi
  obtain ⟨huq, v, hvq, hsat⟩ := hconstrains.finish hvalid.sound hp.housed hedges
  have hq : q.Reachable := .run .finish hp
  have hlive' (o : OpId) : q.isLive o ↔ o ∈ q.walk := (hq.mem_walk_iff hvalid.sound.finish.left.rooted).symm
  rw [← hlive'] at hsat huq
  refine ⟨huq, v, hvq, fun he => hsat.mpr fun _ => ?_, hsat⟩
  have hunary : (p.op c).kind.isUnary := by rw [hk]; rfl
  have hnone : p.edgeForTarget? (p.output c) = none := by
    simp only [edgeForTarget?, he, hw.definitionOf_output hunary]
  rw [hw.sharding_output hunary hnone, shardingOfResult, hk]
  exact Sharding.satisfies_iff.mpr rfl

-- A constraint behind a barrier asks for what the one before the barrier asks for as well.
def constrainedTwice? : Option Program :=
  let type : TensorType := ⟨[8], .f32⟩
  let whole : Sharding := ⟨.symbol "mesh", [{}], []⟩
  build "main" [
    .mesh "mesh" { axes := [⟨"a", 2⟩] },
    .argument type (some ⟨.symbol "mesh", [{ axes := [⟨"a", none⟩] }], []⟩),
    .append entry (.constraint ⟨0⟩ whole),
    .append entry (.barrier ⟨1⟩ .neither),
    .append entry (.constraint ⟨2⟩ whole),
    .append entry (.generic { name := "exp" } [⟨3⟩] [type] []),
    .append entry (.terminator [⟨4⟩])]

def constrainedTwice : Program :=
  constrainedTwice?.get (by rfl)

theorem finish_keeps_constraint_constrainedTwice :
    let p := constrainedTwice
    let q := p.finish.1
    let whole : Sharding := ⟨.symbol "mesh", [{}], []⟩
    p.Reachable ∧ p.verify = .ok () ∧ p.isLive ⟨2⟩ ∧ (p.op ⟨2⟩).kind = .constraint whole ∧ p.isLive ⟨3⟩ ∧
      (p.op ⟨3⟩).kind.isGuide = false ∧ (p.op ⟨3⟩).kind.isBarrier = false ∧
      (p.op ⟨3⟩).operands[0]? = some (p.output ⟨2⟩) ∧ q.walk = [⟨0⟩, ⟨3⟩, ⟨4⟩] ∧
      q.isLive ⟨3⟩ ∧ ∃ v, (q.op ⟨3⟩).operands[0]? = some v ∧
        (p.edgeOfOwner? (p.output ⟨2⟩) = none → Sharding.satisfies (q.sharding v) whole) ∧
        (Sharding.satisfies (q.sharding v) whole ↔
          (q.isLive ⟨2⟩ → Sharding.satisfies (p.sharding (p.output ⟨2⟩)) whole)) := by
  have hp : constrainedTwice.Reachable := build_reachable (Option.some_get _).symm
  have hv : constrainedTwice.verify = .ok () := by rfl
  exact ⟨hp, hv, by rfl, by rfl, by rfl, by rfl, by rfl, by rfl, by rfl,
    finish_keeps_constraint hp hv (by rfl) (by rfl) (by rfl) (by rfl) (by rfl) (by rfl)⟩

-- The result of a loop has an edge operation in a block that is not part of the program, from where it is moved
-- onto the result of a constraint.
def strayEdge? : Option Program :=
  let type : TensorType := ⟨[8], .f32⟩
  build "main" [
    .mesh "mesh" { axes := [⟨"a", 2⟩] },
    .argument type none,
    .region [type],
    .append ⟨1⟩ (.terminator [⟨1⟩]),
    .append entry (.generic { name := "while" } [⟨0⟩] [type] [⟨1⟩]),
    .region [],
    .append ⟨2⟩ (.edge ⟨2⟩ none),
    .append entry (.constraint ⟨0⟩ ⟨.symbol "mesh", [{ axes := [⟨"a", none⟩] }], []⟩),
    .append entry (.terminator [⟨4⟩])]

def strayEdge : Program :=
  (strayEdge?.get (by rfl)).setOperand ⟨2⟩ 0 ⟨4⟩

-- The constraint becomes a change of sharding, and yet what returns its result sees no sharding.
theorem finish_loses_constraint_strayEdge :
    let p := strayEdge
    let q := p.finish.1
    let split : Sharding := ⟨.symbol "mesh", [{ axes := [⟨"a", none⟩] }], []⟩
    p.Reachable ∧ p.verify = .ok () ∧ p.isLive ⟨3⟩ ∧ (p.op ⟨3⟩).kind = .constraint split ∧ p.isLive ⟨4⟩ ∧
      (p.op ⟨4⟩).kind = .terminator ∧ (p.op ⟨4⟩).operands[0]? = some (p.output ⟨3⟩) ∧
      (q.op ⟨4⟩).operands[0]? = some ⟨4⟩ ∧ q.sharding ⟨4⟩ = none := by
  have hp : (strayEdge?.get (by rfl)).Reachable := build_reachable (Option.some_get _).symm
  exact ⟨hp.setOperand (by decide) (by decide), by rfl, by rfl, by rfl, by rfl, by rfl, by rfl, by rfl, by rfl⟩

end MeshSharding.Program
