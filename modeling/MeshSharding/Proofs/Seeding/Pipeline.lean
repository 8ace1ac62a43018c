import MeshSharding.Proofs.Flow.Passes
import MeshSharding.Proofs.Gap.Text
import MeshSharding.Proofs.Seeding.Insert
import MeshSharding.Proofs.Verify.Fits

namespace MeshSharding.Program

variable {p q r : Program} {o c : OpId} {x : ValueId} {s : Sharding} {b : BlockId} {position : Nat} {g : Gap}

section Prepare

theorem arrives?_prepare : p.prepare.arrives? =
    if p.GroupsAgree then
      (p.walk.foldlM move? p).bind fun q => q.walk.foldlM (fun (q : Program) o => (q.attachEdgesOf o).arrives?) q
    else none := by
  cases h : p.groups.bind p.checkAgreement with
  | error e =>
    have hn : ¬ p.GroupsAgree := fun hg => by simp [GroupsAgree, h] at hg
    rw [if_neg hn, prepare, h, Outcome.arrives?_error]
  | ok _    =>
    have hm : p.walk.foldlM move? p = (Outcome.forEach moveConstraint p false p.walk).reached?.map (·.1) := by
      rw [← Outcome.arrives?_eq_map, Outcome.arrives?_forEach]
      rfl
    rw [if_pos (show p.GroupsAgree from h), prepare, h, hm, Option.bind_map]
    simp only [Outcome.arrives?_andThen, Outcome.arrives?_forEach]
    rfl

section Constraint

variable (hp : p.WellFormed) (ho : 0 < p.operations.length) (hx : x.index < p.values.length) (hs : p.isSettable x)
  (he : p.edgeForTarget? x = none) (hb : b ∈ p.nested) (hi : position ≤ (p.block b).operations.length)
  (hu : p.Undisturbed x s) (hr : p.setSharding x s = .ok r)
include hp ho hx hs he hb hi hu hr

-- The constraint is moved and leaves a gap. The edge operations are put in behind it.
theorem WellFormed.prepare_placeConstraint
    (ha : (p.place b position (.constraint x s)).GroupsAgree ↔ r.GroupsAgree) :
    (p.place b position (.constraint x s)).prepare.arrives? =
      r.prepare.arrives?.map (·.past (p.leftover b x s ho hx)) := by
  have hm := hp.foldlM_placeConstraint ho hx hs he hb hi hu
  have hseed : p.seed? x s = some r := toOption_eq_some_iff.mpr hr
  rw [hseed, Option.bind_some] at hm
  rw [arrives?_prepare, arrives?_prepare, hm]
  by_cases hg : r.GroupsAgree
  case neg => rw [if_neg hg, if_neg (hg ∘ ha.mp), Option.map_none]
  case pos =>
    rw [if_pos hg, if_pos (ha.mpr hg)]
    cases hq : r.walk.foldlM move? r with
    | none   => rfl
    | some q =>
      have hf : Follows p q := (hp.follows_seed? hseed).foldlM_move? hq
      have hspans : q.Spans (p.leftover b x s ho hx) := by
        constructor
        case op    => rw [hf.frame.length]; exact le_refl _
        case value => rw [hf.count]; exact le_refl _
      rw [Option.map_some, Option.bind_some, Option.bind_some, past_walk]
      exact hspans.attachAll q.walk

end Constraint

end Prepare

section Pipeline

-- What is prepared alike is spread alike.
theorem Sound.spreadShardings_of_prepare (hr : r.Sound) (h : q.prepare.arrives? = r.prepare.arrives?.map (·.past g))
    (options : PipelineOptions) :
    (q.spreadShardings options).arrives?.map text = (r.spreadShardings options).arrives?.map text := by
  have hpasses : (Pipeline.ofOptions options).passes =
      .prepare :: (.spread options.spread :: .finish :: if options.simplify then [.simplify] else []) := rfl
  have hnext : Pass.prepare ∉ (.spread options.spread :: .finish :: if options.simplify then [.simplify] else []) := by
    cases options.simplify <;> simp
  have hfirst : (Pipeline.runPass options.verifyEachPass q .prepare).arrives? =
      (Pipeline.runPass options.verifyEachPass r .prepare).arrives?.map (·.past g) := hr.past_runPass h
  rw [arrives?_spreadShardings, arrives?_spreadShardings, hpasses, List.foldlM_cons, List.foldlM_cons, hfirst]
  cases hm : (Pipeline.runPass options.verifyEachPass r .prepare).arrives? with
  | none   => rfl
  | some m =>
    rw [Option.map_some]
    refine (congrArg (Option.map text) ((hr.of_runPass hm).past_passes hnext)).trans ?_
    rw [Option.map_map]
    exact congrArg (Option.map · _) (funext fun _ => past_text)

end Pipeline

section Main

theorem exists_replaceIn {shardings : Option (List Sharding)} {values : List ValueId} {counted : Counted} {i : Nat}
    (h : p.checkShardings counted shardings values = .ok ()) (hi : i < values.length) :
    ∃ replaced, p.replaceIn shardings values i s = some replaced := by
  rw [replaceIn]
  cases shardings with
  | none   => exact ⟨_, if_pos (by simpa using hi)⟩
  | some l => exact ⟨_, if_pos (by simpa [(checkShardings_eq_ok_iff.mp h l rfl).left] using hi)⟩

section Settable

variable {computation : NamedComputation} (hw : p.WellFormed) (hv : p.verify = .ok ())
include hw hv

-- The shardings that a named computation states are as many as its arguments and its results.
theorem WellFormed.checkShardings_of_verify (ho : o ∈ p.walk) (hk : (p.op o).kind = .named computation) :
    p.checkShardings .inShardings computation.inShardings
        (p.block (((p.op o).regions[0]?).getD default)).arguments = .ok () ∧
      p.checkShardings .outShardings computation.outShardings (p.op o).results = .ok () :=
  have hup := (Upright.of_verify hw hv).left
  (checkNamed_iff.mp ((formed_named_iff hk).mp (hup.formed o ho))).right

variable (he : p.edgeForTarget? x = none) (hs : p.isSettable x)
include he hs

theorem WellFormed.isSome_writeSharding_of_argument (hb : b ∈ p.nested) (hx : x ∈ (p.block b).arguments)
    (hbody : b = entry → (p.block b).parent = none) : (p.writeSharding? x s).isSome := by
  obtain ⟨i, hi⟩ := List.mem_iff_getElem?.mp hx
  have hd := ((hw.arguments x b i).mp hi).right
  simp only [isSettable, he, hd, Option.isSome_none, Bool.false_or] at hs
  cases hparent : (p.block b).parent with
  | none   => simp [writeSharding?, he, hd, hparent]
  | some o =>
    cases hk : (p.op o).kind with
    | manual _          => simp [parentKind?, hparent, hk, OpKind.isManual] at hs
    | named computation =>
      have hm := (hw.regions b o).mpr hparent
      have ho : o ∈ p.walk := by
        obtain rfl | ⟨u, hu, hwalk⟩ := parent_of_nested hb
        · simp [hbody rfl] at hparent
        · cases hparent.symm.trans ((hw.regions b u).mp hu)
          exact hwalk
      have hregion : ((p.op o).regions[0]?).getD default = b := by
        obtain ⟨c, hc⟩ := (hw.shaped o).body (by simp [hk, OpKind.isIsolated])
        simp_all
      have hin := (hw.checkShardings_of_verify hv ho hk).left
      rw [hregion] at hin
      obtain ⟨l, hl⟩ := exists_replaceIn (s := s) hin (List.getElem?_eq_some_iff.mp hi).choose
      simp [writeSharding?, he, hd, hparent, hk, hl]
    | _ => simp [writeSharding?, he, hd, hparent, hk]

theorem WellFormed.isSome_writeSharding_of_result (ho : o ∈ p.walk) (hx : x ∈ (p.op o).results) :
    (p.writeSharding? x s).isSome := by
  obtain ⟨i, hi⟩ := List.mem_iff_getElem?.mp hx
  have hd := ((hw.results x o i).mp hi).right
  simp only [isSettable, he, hd, Option.isSome_none, Bool.false_or] at hs
  cases hk : (p.op o).kind with
  | named computation =>
    have hout := (hw.checkShardings_of_verify hv ho hk).right
    obtain ⟨l, hl⟩ := exists_replaceIn (s := s) hout (List.getElem?_eq_some_iff.mp hi).choose
    simp [writeSharding?, he, hd, hk, hl]
  | edge _ | generic _ | constant _ | barrier _ => simp [writeSharding?, he, hd, hk]
  | _ => simp [hk, OpKind.storesResultShardings] at hs

end Settable

-- A value of the program can be given any sharding that fits it, if it can be given any at all. The body of the
-- program is set apart: it can be the region of an operation that is not part of the program, and so not checked.
theorem exists_setSharding (hp : p.Reachable) (hv : p.verify = .ok ()) (hheld : p.Holds x)
    (hbody : x ∈ (p.block entry).arguments → (p.block entry).parent = none) (hs : p.isSettable x)
    (hc : p.checkFits s x = .ok ()) : ∃ r, p.setSharding x s = .ok r := by
  have hw := hp.wellFormed
  have hrooted := (Upright.of_verify hw hv).left.standing.sound.rooted
  suffices h : (p.writeSharding? x s).isSome by
    obtain ⟨r, hr⟩ := Option.isSome_iff_exists.mp h
    exact ⟨r, setSharding_eq_ok_iff.mpr ⟨hc, hr⟩⟩
  cases he : p.edgeForTarget? x with
  | some edge => simp [writeSharding?, he]
  | none =>
    obtain ⟨b, hb, hm⟩ | ⟨o, hl, hm⟩ := hheld
    case inl => exact hw.isSome_writeSharding_of_argument hv he hs hb hm fun h => h ▸ hbody (h ▸ hm)
    case inr => exact hw.isSome_writeSharding_of_result hv he hs ((hp.housed.mem_walk_iff_isLive hw hrooted).mpr hl) hm

theorem Reachable.definingBlock_nested (hp : p.Reachable) (hsound : p.Sound) (hheld : p.Holds x) :
    x.index < p.values.length ∧ p.definingBlock x ∈ p.nested := by
  have hw := hp.wellFormed
  obtain ⟨b, hb, hm⟩ | ⟨o, hl, hm⟩ := hheld
  all_goals obtain ⟨i, hi⟩ := List.mem_iff_getElem?.mp hm
  case inl =>
    obtain ⟨hx, hd⟩ := (hw.arguments x b i).mp hi
    exact ⟨hx, by simpa [definingBlock, hd] using hb⟩
  case inr =>
    obtain ⟨hx, hd⟩ := (hw.results x o i).mp hi
    have ho : o ∈ p.walk := (hp.housed.mem_walk_iff_isLive hw hsound.rooted).mpr hl
    exact ⟨hx, by simpa [definingBlock, hd] using (hw.block_nested ho).left⟩

-- Stating a sharding by a constraint at the end of the block of a value, of which nothing uses the result, or by
-- seeding the value, makes no difference to where the pipeline leads: if the groups agree in both programs or in
-- none, and no other constraint that is moved is disturbed.
theorem constraint_seeds (hp : p.Reachable) (hv : p.verify = .ok ()) (hheld : p.Holds x) (hs : p.isSettable x)
    (he : p.edgeForTarget? x = none) (hc : p.checkFits s x = .ok ()) (options : PipelineOptions) :
    ∃ q c, p.insert (p.definingBlock x) ((p.block (p.definingBlock x)).operations.length - 1) (.constraint x s) =
        .ok (q, c) ∧
      ((x ∈ (p.block entry).arguments → (p.block entry).parent = none) → ∃ r, p.setSharding x s = .ok r) ∧
      ∀ r, p.setSharding x s = .ok r → (q.GroupsAgree ↔ r.GroupsAgree) → p.Undisturbed x s →
        (q.spreadShardings options).arrives?.map text = (r.spreadShardings options).arrives?.map text := by
  have hw := hp.wellFormed
  have hvalid : p.Valid := ((verify_iff hw).mp hv).left
  obtain ⟨hx, hb⟩ := hp.definingBlock_nested hvalid.sound hheld
  have ho : 0 < p.operations.length := by
    obtain ⟨o, ho⟩ := Option.isSome_iff_exists.mp hvalid.body
    have hm := List.mem_of_getLast? (Option.eq_some_of_filter_eq_some ho)
    exact Nat.zero_lt_of_lt (hw.member_lt hm)
  refine ⟨_, _, insert_constraint hx hc, fun hbody => exists_setSharding hp hv hheld hbody hs hc, ?_⟩
  intro r hr hg hu
  have hprepare := hw.prepare_placeConstraint ho hx hs he hb (Nat.sub_le _ _) hu hr hg
  exact (hvalid.sound.of_bare_eq (setSharding_bare hr)).left.spreadShardings_of_prepare hprepare options

-- Two arguments in a group, of which one is split and the other one is not.
def dividedGroup? : Option Program :=
  let type : TensorType := ⟨[8], .f32⟩
  build "main" [
    .mesh "mesh" { axes := [⟨"a", 2⟩] },
    .argument type (some ⟨.symbol "mesh", [{ axes := [⟨"a", none⟩] }], []⟩),
    .argument type (some ⟨.symbol "mesh", [{}], []⟩),
    .append entry (.group ⟨0⟩ 0),
    .append entry (.group ⟨1⟩ 0),
    .append entry (.terminator [⟨0⟩, ⟨1⟩])]

def dividedGroup : Program :=
  dividedGroup?.get (by rfl)

-- A constraint comes too late for the group, which is checked before it is moved.
theorem constraint_seeds_not_dividedGroup :
    let p := dividedGroup
    let whole : Sharding := ⟨.symbol "mesh", [{}], []⟩
    p.Reachable ∧ p.verify = .ok () ∧ p.Holds ⟨0⟩ ∧ p.isSettable ⟨0⟩ ∧ p.edgeForTarget? ⟨0⟩ = none ∧
      p.checkFits whole ⟨0⟩ = .ok () ∧
      ∃ q c r, p.insert (p.definingBlock ⟨0⟩) ((p.block (p.definingBlock ⟨0⟩)).operations.length - 1)
          (.constraint ⟨0⟩ whole) = .ok (q, c) ∧ p.setSharding ⟨0⟩ whole = .ok r ∧
        (q.spreadShardings {}).arrives?.isNone ∧ (r.spreadShardings {}).arrives?.isSome := by
  have hp : dividedGroup.Reachable := build_reachable (Option.some_get _).symm
  have hv : dividedGroup.verify = .ok () := by rfl
  have hheld : dividedGroup.Holds ⟨0⟩ := .inl ⟨entry, by decide, by decide⟩
  have hc : dividedGroup.checkFits ⟨.symbol "mesh", [{}], []⟩ ⟨0⟩ = .ok () := by rfl
  exact ⟨hp, hv, hheld, by rfl, by rfl, hc, _, _, _, insert_constraint (by decide) hc,
    setSharding_eq_ok_iff.mpr ⟨hc, rfl⟩, by decide +kernel, by decide +kernel⟩

-- Without the condition on constraints of the value: what is moved last is what stays.
example :
    let split : Sharding := ⟨.symbol "mesh", [{ axes := [⟨"a", none⟩] }], []⟩
    let whole : Sharding := ⟨.symbol "mesh", [{}], []⟩
    let programs := (build "main" [
      .mesh "mesh" { axes := [⟨"a", 2⟩] },
      .argument ⟨[8], .f32⟩ none,
      .append entry (.constraint ⟨0⟩ split),
      .append entry (.terminator [⟨0⟩])]).map fun p =>
        [p.place entry 1 (.constraint ⟨0⟩ whole), p.storeSharding ⟨0⟩ (some whole)]
    programs.map (·.map fun p => (p.spreadShardings {}).program.sharding ⟨0⟩) = some [some whole, some split] := by
  decide +kernel

-- Without the condition on boundaries: what is written first says on which mesh a third argument is open.
example :
    let split (mesh axis : String) : Sharding := ⟨.symbol mesh, [{ axes := [⟨axis, none⟩] }], []⟩
    let type : TensorType := ⟨[8], .f32⟩
    let programs := (build "main" [
      .mesh "m" { axes := [⟨"a", 2⟩] },
      .mesh "n" { axes := [⟨"b", 2⟩] },
      .argument type none,
      .region [type, type, type],
      .append ⟨1⟩ (.constraint ⟨2⟩ (split "n" "b")),
      .append ⟨1⟩ (.terminator []),
      .append entry (.named ⟨"f", none, none⟩ [⟨0⟩, ⟨0⟩, ⟨0⟩] ⟨1⟩),
      .append entry (.terminator [⟨0⟩])]).bind fun p =>
        (p.seed? ⟨1⟩ (split "m" "a")).map fun r => [p.place ⟨1⟩ 1 (.constraint ⟨1⟩ (split "m" "a")), r]
    programs.map (·.map fun p => (p.prepare.program.sharding ⟨3⟩).map (·.mesh)) =
      some [some (.symbol "n"), some (.symbol "m")] := by
  decide +kernel

-- Two arguments, of which the second one has a constraint that nothing uses.
def constrainedPair? : Option Program :=
  let type : TensorType := ⟨[8], .f32⟩
  build "main" [
    .mesh "mesh" { axes := [⟨"a", 2⟩] },
    .argument type none,
    .argument type none,
    .append entry (.constraint ⟨1⟩ ⟨.symbol "mesh", [{ axes := [⟨"a", none⟩] }], []⟩),
    .append entry (.terminator [⟨0⟩, ⟨1⟩])]

def constrainedPair : Program :=
  constrainedPair?.get (by rfl)

theorem constraint_seeds_constrainedPair :
    let p := constrainedPair
    let whole : Sharding := ⟨.symbol "mesh", [{}], []⟩
    p.Reachable ∧ p.verify = .ok () ∧ p.Holds ⟨0⟩ ∧ p.isSettable ⟨0⟩ ∧ p.edgeForTarget? ⟨0⟩ = none ∧
      p.checkFits whole ⟨0⟩ = .ok () ∧ p.Undisturbed ⟨0⟩ whole ∧
      ∃ q c r, p.insert (p.definingBlock ⟨0⟩) ((p.block (p.definingBlock ⟨0⟩)).operations.length - 1)
          (.constraint ⟨0⟩ whole) = .ok (q, c) ∧ p.setSharding ⟨0⟩ whole = .ok r ∧
        (q.GroupsAgree ↔ r.GroupsAgree) ∧
        (q.spreadShardings {}).arrives?.map text = (r.spreadShardings {}).arrives?.map text := by
  have hp : constrainedPair.Reachable := build_reachable (Option.some_get _).symm
  have hv : constrainedPair.verify = .ok () := by rfl
  have hheld : constrainedPair.Holds ⟨0⟩ := .inl ⟨entry, by decide, by decide⟩
  have hc : constrainedPair.checkFits ⟨.symbol "mesh", [{}], []⟩ ⟨0⟩ = .ok () := by rfl
  have hu : constrainedPair.Undisturbed ⟨0⟩ ⟨.symbol "mesh", [{}], []⟩ := by
    intro o ho _ t a b hk ha hb
    have hwalk : constrainedPair.walk = [⟨0⟩, ⟨1⟩] := by rfl
    simp only [hwalk, List.mem_cons, List.not_mem_nil, or_false] at ho
    obtain rfl | rfl := ho
    case inl =>
      obtain rfl : Place.value ⟨1⟩ = a := Option.some.inj ha
      obtain rfl : Place.value ⟨0⟩ = b := Option.some.inj hb
      exact ⟨fun h => absurd h (by decide), fun _ h => absurd h (by decide)⟩
    case inr => cases hk
  obtain ⟨q, c, hq, hset, h⟩ := constraint_seeds hp hv hheld (by rfl) (by rfl) hc {}
  obtain ⟨r, hr⟩ := hset fun _ => rfl
  have hg : q.GroupsAgree ↔ r.GroupsAgree := by
    cases hq.symm.trans (insert_constraint (by decide) hc)
    cases hr.symm.trans (setSharding_eq_ok_iff.mpr ⟨hc, rfl⟩)
    decide +kernel
  exact ⟨hp, hv, hheld, by rfl, by rfl, hc, hu, q, c, r, hq, hr, hg, h r hr hg hu⟩

end Main

end MeshSharding.Program
