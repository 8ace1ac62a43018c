import MeshSharding.Proofs.Nesting.Climb
import MeshSharding.Proofs.Sharding.Fit
import MeshSharding.Proofs.Verify.Move

namespace MeshSharding.Program

-- The value is part of the program: an argument of a block or a result of an operation that is.
def Holds (p : Program) (v : ValueId) : Prop :=
  (∃ b ∈ p.nested, v ∈ (p.block b).arguments) ∨ ∃ o, p.isLive o ∧ v ∈ (p.op o).results

variable {p : Program} {o e : OpId} {v w : ValueId} {b : BlockId} {s : Sharding} {index : Nat}

section Boundary

variable {computation : ManualComputation} {mesh : Mesh} {manual : List String}

theorem localType_of_checkBoundary {place : Nat → TypedPlace} {entries : List (Sharding × ValueId × ValueId)}
    (h : p.checkBoundary place manual mesh index entries = .ok ()) :
    ∀ entry ∈ entries, entry.1.localType manual mesh (p.typeOf entry.2.1) = .ok (p.typeOf entry.2.2) := by
  induction entries generalizing index with
  | nil => simp
  | cons entry entries ih =>
    simp only [checkBoundary, bind_eq_ok_iff, checkType, exists_require_eq_ok_iff] at h
    obtain ⟨type, hl, rfl, h⟩ := h
    exact List.forall_mem_cons.mpr ⟨hl, ih h⟩

theorem mem_zip_zip {α β γ : Type} {as : List α} {bs : List β} {cs : List γ} {i : Nat} {a : α} {b : β}
    {c : γ} (ha : as[i]? = some a) (hb : bs[i]? = some b) (hc : cs[i]? = some c) :
    (a, b, c) ∈ as.zip (bs.zip cs) :=
  List.mem_iff_getElem?.mpr
    ⟨i, List.getElem?_zip_eq_some.mpr ⟨ha, List.getElem?_zip_eq_some.mpr ⟨hb, hc⟩⟩⟩

theorem exists_getElem?_of_length_eq {α β : Type} {as : List α} {bs : List β} {i : Nat} {a : α}
    (ha : as[i]? = some a) (hl : bs.length = as.length) : ∃ b, bs[i]? = some b := by
  have hi := (List.getElem?_eq_some_iff.mp ha).choose
  exact ⟨_, List.getElem?_eq_getElem (hl ▸ hi)⟩

-- All shardings of a manual computation are on one mesh, and each has a value outside and one in the body.
theorem boundary_of_checkManual {op : Operation} (h : p.checkManual op computation = .ok ()) :
    ∃ mesh returned, (∀ s ∈ computation.inShardings ++ computation.outShardings, p.meshes.resolve s.mesh = .ok mesh) ∧
      op.operands.length = computation.inShardings.length ∧
      op.operands.length = (p.block ((op.regions[0]?).getD default)).arguments.length ∧
      op.results.length = computation.outShardings.length ∧ op.results.length = returned.length ∧
      (∀ entry ∈ computation.inShardings.zip
          (op.operands.zip (p.block ((op.regions[0]?).getD default)).arguments),
        entry.1.localType computation.manualAxes mesh (p.typeOf entry.2.1) = .ok (p.typeOf entry.2.2)) ∧
      ∀ entry ∈ computation.outShardings.zip (op.results.zip returned),
        entry.1.localType computation.manualAxes mesh (p.typeOf entry.2.1) = .ok (p.typeOf entry.2.2) := by
  obtain ⟨inShardings, outShardings, manual⟩ := computation
  simp only [checkManual, bind_eq_ok_iff, checkArity, exists_require_eq_ok_iff] at h
  obtain ⟨returned, -, hin, harguments, hout, hreturned, h⟩ := h
  split at h
  case h_1 hempty =>
    obtain ⟨rfl, rfl⟩ := List.append_eq_nil_iff.mp hempty
    exact ⟨default, returned, by simp, hin, harguments, hout, hreturned, by simp, by simp⟩
  case h_2 first rest hcons =>
    simp only [bind_eq_ok_iff] at h
    obtain ⟨mesh, hmesh, _, -, _, hbi, hbo⟩ := h
    obtain ⟨hfirst, hrest⟩ := commonMesh_eq_ok_iff.mp hmesh
    have hall : ∀ s ∈ inShardings ++ outShardings, p.meshes.resolve s.mesh = .ok mesh := by
      rw [hcons]
      exact List.forall_mem_cons.mpr ⟨hfirst, hrest⟩
    exact ⟨mesh, returned, hall, hin, harguments, hout, hreturned, localType_of_checkBoundary hbi,
      localType_of_checkBoundary hbo⟩

-- A sharding on the boundary of a manual computation lets the value cross it.
theorem crosses_of_checkManual {op : Operation} (h : p.checkManual op computation = .ok ()) :
    ∃ mesh, (∀ (i : Nat) s v, computation.inShardings[i]? = some s →
        (p.block ((op.regions[0]?).getD default)).arguments[i]? = some v →
        p.meshes.resolve s.mesh = .ok mesh ∧
          ∃ type, s.localType computation.manualAxes mesh type = .ok (p.typeOf v)) ∧
      ∀ (i : Nat) s v, computation.outShardings[i]? = some s → op.results[i]? = some v →
        p.meshes.resolve s.mesh = .ok mesh ∧
          ∃ inner, s.localType computation.manualAxes mesh (p.typeOf v) = .ok inner := by
  obtain ⟨mesh, returned, hall, hin, -, -, hreturned, hbi, hbo⟩ := boundary_of_checkManual h
  refine ⟨mesh, fun i s v hs hv => ?_, fun i s v hs hv => ?_⟩
  · obtain ⟨w, hw⟩ := exists_getElem?_of_length_eq hs hin
    exact ⟨hall s (List.mem_append_left _ (List.mem_of_getElem? hs)), _, hbi _ (mem_zip_zip hs hw hv)⟩
  · obtain ⟨w, hw⟩ := exists_getElem?_of_length_eq hv hreturned.symm
    exact ⟨hall s (List.mem_append_right _ (List.mem_of_getElem? hs)), _, hbo _ (mem_zip_zip hs hv hw)⟩

-- No sharding of a manual computation is without a value that crosses the boundary with it.
theorem localType_of_checkManual {op : Operation} (h : p.checkManual op computation = .ok ()) :
    ∃ mesh, ∀ s ∈ computation.inShardings ++ computation.outShardings, p.meshes.resolve s.mesh = .ok mesh ∧
      ∃ type inner, s.localType computation.manualAxes mesh type = .ok inner := by
  obtain ⟨mesh, returned, hall, hin, harguments, hout, hreturned, hbi, hbo⟩ := boundary_of_checkManual h
  refine ⟨mesh, fun s hs => ⟨hall s hs, ?_⟩⟩
  obtain hs | hs := List.mem_append.mp hs
  · obtain ⟨i, hi⟩ := List.mem_iff_getElem?.mp hs
    obtain ⟨v, hv⟩ := exists_getElem?_of_length_eq hi hin
    obtain ⟨w, hw⟩ := exists_getElem?_of_length_eq hv harguments.symm
    exact ⟨_, _, hbi _ (mem_zip_zip hi hv hw)⟩
  · obtain ⟨i, hi⟩ := List.mem_iff_getElem?.mp hs
    obtain ⟨v, hv⟩ := exists_getElem?_of_length_eq hi hout
    obtain ⟨w, hw⟩ := exists_getElem?_of_length_eq hv hreturned.symm
    exact ⟨_, _, hbo _ (mem_zip_zip hi hv hw)⟩

end Boundary

section Places

-- Which of the operations of the program verification has looked at.
theorem checkOp_of_verify (hp : p.WellFormed) (h : p.verify = .ok ()) (ho : o ∈ p.walk) :
    p.checkOp o = .ok () := by
  obtain ⟨hvalid, -, hfree⟩ := (verify_iff hp).mp h
  exact checkOp_iff.mpr ⟨hvalid.checks o ho, hfree o ho⟩

theorem Reachable.checkOp_of_isLive (hp : p.Reachable) (h : p.verify = .ok ()) (ho : p.isLive o) :
    p.checkOp o = .ok () := by
  have hw := hp.wellFormed
  have hsound := ((verify_iff hw).mp h).left.sound
  exact checkOp_of_verify hw h ((hp.housed.mem_walk_iff_isLive hw hsound.rooted).mpr ho)

theorem checkFits_of_shape_eq (h : p.checkFits s w = .ok ()) (ht : (p.typeOf v).shape = (p.typeOf w).shape) :
    p.checkFits s v = .ok () := by
  rwa [checkFits, ht]

theorem checkFits_of_localType {mesh : Mesh} {manual : List String} {inner : TensorType}
    (hm : p.meshes.resolve s.mesh = .ok mesh) (h : s.localType manual mesh (p.typeOf v) = .ok inner) :
    p.checkFits s v = .ok () :=
  bind_eq_ok_iff.mpr ⟨mesh, hm, (Sharding.localType_eq_ok h).left⟩

-- The result of an operation with one operand has the type of this one.
theorem checkFits_result (hu : p.checkUnary (p.op o) = .ok w) (hv : v ∈ (p.op o).results)
    (h : p.checkFits s w = .ok ()) : p.checkFits s v = .ok () := by
  obtain ⟨r, -, hr, ht⟩ := checkUnary_eq_ok_iff.mp hu
  rw [hr, List.mem_singleton] at hv
  exact checkFits_of_shape_eq h (by rw [hv, ht])

theorem checkFits_of_edge (h : p.checkOp e = .ok ()) (hk : (p.op e).kind = .edge (some s)) :
    ∃ w, p.checkUnary (p.op e) = .ok w ∧ p.checkFits s w = .ok () := by
  simp only [checkOp, hk, bind_eq_ok_iff] at h
  obtain ⟨w, hu, _, -, hf⟩ := h
  exact ⟨w, hu, forM_eq_ok_iff.mp hf s (by simp)⟩

-- What an operation that obeys its rules states for a result of it fits.
theorem checkFits_shardingOfResult (h : p.checkOp o = .ok ()) (hv : (p.op o).results[index]? = some v)
    (hstored : ∀ s, p.storedSharding v = some s → p.checkFits s v = .ok ())
    (hs : p.shardingOfResult v o index = some s) : p.checkFits s v = .ok () := by
  have hr := List.mem_of_getElem? hv
  rw [shardingOfResult] at hs
  cases hk : (p.op o).kind <;> simp only [hk] at hs
  case constraint t | reshard t =>
    cases hs
    simp only [checkOp, hk, bind_eq_ok_iff] at h
    obtain ⟨w, hu, hf⟩ := h
    exact checkFits_result hu hr hf
  case collective collective =>
    cases hs
    obtain ⟨hu, hc⟩ := (checkOp_collective_iff hk).mp h
    exact checkFits_result hu hr (checkCollective_eq_ok_iff.mp hc).left
  case edge =>
    subst hs
    obtain ⟨w, hu, hf⟩ := checkFits_of_edge h hk
    exact checkFits_result hu hr hf
  case manual computation =>
    simp only [checkOp, hk] at h
    obtain ⟨mesh, -, hout⟩ := crosses_of_checkManual h
    obtain ⟨hm, _, hl⟩ := hout index s v hs hv
    exact checkFits_of_localType hm hl
  case named computation =>
    simp only [checkOp, hk] at h
    obtain ⟨-, -, hout⟩ := checkNamed_iff.mp h
    obtain ⟨shardings, hl, hs⟩ := Option.bind_eq_some_iff.mp hs
    exact (checkShardings_eq_ok_iff.mp hout shardings hl).right index s v hs hv
  all_goals exact hstored s hs

-- So does what it states for an argument of its body, as seen from inside.
theorem checkFits_shardingOfArgument (hp : p.WellFormed) (hb : b ∈ (p.op o).regions)
    (h : p.checkOp o = .ok ()) (hv : (p.block b).arguments[index]? = some v)
    (hbuilt : ∀ mesh, p.meshes.resolve s.mesh = .ok mesh → mesh.Built)
    (hstored : ∀ s, p.storedSharding v = some s → p.checkFits s v = .ok ())
    (hs : p.shardingOfArgument v b index = some s) : p.checkFits s v = .ok () := by
  have hparent : p.parentKind? b = some (p.op o).kind := by
    rw [parentKind?, (hp.regions b o).mp hb, Option.map_some]
  have hbody (hi : (p.op o).kind.isIsolated) : ((p.op o).regions[0]?).getD default = b := by
    obtain ⟨c, hc⟩ := (hp.shaped o).body hi
    rw [hc, List.mem_singleton] at hb
    simp [hc, hb]
  rw [shardingOfArgument, hparent] at hs
  cases hk : (p.op o).kind <;> simp only [hk] at hs
  case manual computation =>
    obtain ⟨t, ht, rfl⟩ := Option.map_eq_some_iff.mp hs
    simp only [checkOp, hk] at h
    obtain ⟨mesh, hin, -⟩ := crosses_of_checkManual h
    rw [hbody (by simp [hk, OpKind.isIsolated])] at hin
    obtain ⟨hm, type, hl⟩ := hin index t v ht hv
    exact bind_eq_ok_iff.mpr ⟨mesh, hm, Sharding.checkIn_localView (hbuilt mesh hm) hl⟩
  case named computation =>
    simp only [checkOp, hk] at h
    obtain ⟨-, hin, -⟩ := checkNamed_iff.mp h
    rw [hbody (by simp [hk, OpKind.isIsolated])] at hin
    obtain ⟨shardings, hl, hs⟩ := Option.bind_eq_some_iff.mp hs
    exact (checkShardings_eq_ok_iff.mp hin shardings hl).right index s v hs hv
  all_goals exact hstored s hs

end Places

section Verify

-- A block that is part of the program is the body or a region of an operation that is part of it.
theorem parent_of_nested (h : b ∈ p.nested) : b = entry ∨ ∃ o, b ∈ (p.op o).regions ∧ o ∈ p.walk := by
  obtain ⟨n, hn, hb⟩ := mem_nested_iff.mp h
  cases hb with
  | here => exact .inl rfl
  | @step m c _ o hc ho hr =>
    exact .inr ⟨o, hr, mem_walk_iff.mpr ⟨c, mem_nested_iff.mpr ⟨m, Nat.lt_of_succ_lt hn, hc⟩, ho⟩⟩

theorem sharding_of_edgeForTarget? (he : p.edgeForTarget? v = some e) (hs : p.sharding v = some s) :
    (p.op e).kind = .edge (some s) := by
  obtain ⟨previous, hk⟩ := edgeForTarget?_kind he
  simp only [sharding, he, hk, Option.map_some] at hs
  rw [hk, hs]

-- The shardings of all values of a program that verification accepts fit them, those values apart that read
-- from an edge operation that is not part of the program, or that stands on a value of another shape. If it
-- is part of the program, the sharding fits that other value.
theorem verify_shardings_fit (hp : p.Reachable) (hv : p.verify = .ok ()) (hheld : p.Holds v)
    (hbody : v ∈ (p.block entry).arguments → (p.block entry).parent = none) (hs : p.sharding v = some s)
    (hbuilt : ∀ mesh, p.meshes.resolve s.mesh = .ok mesh → mesh.Built) :
    (∀ e, p.edgeForTarget? v = some e → p.isLive e → p.checkFits s (p.input e) = .ok ()) ∧
    ((∀ e, p.edgeForTarget? v = some e →
        p.isLive e ∧ (p.typeOf v).shape = (p.typeOf (p.input e)).shape) → p.checkFits s v = .ok ()) := by
  have hw := hp.wellFormed
  have hvalid := ((verify_iff hw).mp hv).left
  have hedge (e : OpId) (he : p.edgeForTarget? v = some e) (hl : p.isLive e) :
      p.checkFits s (p.input e) = .ok () := by
    obtain ⟨w, hu, hf⟩ := checkFits_of_edge (hp.checkOp_of_isLive hv hl) (sharding_of_edgeForTarget? he hs)
    rwa [input_eq_of_checkUnary hu]
  refine ⟨hedge, fun hmatch => ?_⟩
  cases he : p.edgeForTarget? v with
  | some e =>
    obtain ⟨hl, hshape⟩ := hmatch e he
    exact checkFits_of_shape_eq (hedge e he hl) hshape
  | none =>
    simp only [sharding, he, Option.map_none] at hs
    obtain ⟨b, hb, hm⟩ | ⟨o, ho, hm⟩ := hheld
    case inl =>
      obtain ⟨index, hi⟩ := List.mem_iff_getElem?.mp hm
      have hstored (t : Sharding) (ht : p.storedSharding v = some t) : p.checkFits t v = .ok () :=
        hvalid.stored v t ht fun u hu => by simp [hw.definer?_of_argument hm] at hu
      simp only [((hw.arguments v b index).mp hi).right] at hs
      obtain rfl | ⟨o, hr, ho⟩ := parent_of_nested hb
      · rw [shardingOfArgument, parentKind?, hbody hm] at hs
        exact hstored s hs
      · exact checkFits_shardingOfArgument hw hr (checkOp_of_verify hw hv ho) hi hbuilt hstored hs
    case inr =>
      obtain ⟨index, hi⟩ := List.mem_iff_getElem?.mp hm
      have hstored (t : Sharding) (ht : p.storedSharding v = some t) : p.checkFits t v = .ok () :=
        hvalid.stored v t ht fun u hu => by
          cases (hw.definer?_of_result hm).symm.trans hu
          exact erased_of_isLive ho
      simp only [((hw.results v o index).mp hi).right] at hs
      exact checkFits_shardingOfResult (hp.checkOp_of_isLive hv ho) hi hstored hs

-- A loop with an argument of another rank than its result, and an edge operation on the result.
def mismatchedLoop? : Option Program :=
  build "main" [
    .mesh "mesh" ⟨[⟨"a", 2⟩], []⟩,
    .argument ⟨[8], .f32⟩ none,
    .region [⟨[8, 8], .f32⟩],
    .append ⟨1⟩ (.terminator [⟨0⟩]),
    .append entry (.generic ⟨"while", false⟩ [⟨0⟩] [⟨[8], .f32⟩] [⟨1⟩]),
    .append entry (.edge ⟨2⟩ (some ⟨.symbol "mesh", [{ axes := [.whole "a"] }], []⟩)),
    .append entry (.terminator [⟨3⟩])]

theorem verify_shardings_not_fit_mismatchedLoop :
    let p := mismatchedLoop?.get (by rfl)
    p.Reachable ∧ p.IsTree ∧ p.verify = .ok () ∧ p.Holds ⟨1⟩ ∧
      ∃ s, p.sharding ⟨1⟩ = some s ∧ p.meshes.resolve s.mesh = .ok ⟨[⟨"a", 2⟩], []⟩ ∧
        p.checkFits s ⟨1⟩ = .error (.rankMismatch 1 2) := by
  intro p
  have hp : p.Reachable := build_reachable (Option.some_get _).symm
  have htree : p.nested.Nodup := by decide
  have hheld : p.Holds ⟨1⟩ := .inl ⟨⟨1⟩, by decide, by decide⟩
  exact ⟨hp, htree, by rfl, hheld, ⟨.symbol "mesh", [{ axes := [.whole "a"] }], []⟩, by rfl, by rfl, by rfl⟩

-- A manual computation over one of the two axes that split its operand.
def manualHalf? : Option Program :=
  let split : Sharding := ⟨.symbol "mesh", [{ axes := [.whole "a", .whole "b"] }], []⟩
  build "main" [
    .mesh "mesh" ⟨[⟨"a", 2⟩, ⟨"b", 2⟩], []⟩,
    .argument ⟨[8], .f32⟩ none,
    .region [⟨[4], .f32⟩],
    .append ⟨1⟩ (.terminator [⟨1⟩]),
    .append entry (.manual ⟨[split], [split], ["a"]⟩ [⟨0⟩] ⟨1⟩ [⟨[8], .f32⟩]),
    .append entry (.terminator [⟨2⟩])]

theorem verify_shardings_fit_manualHalf :
    let p := manualHalf?.get (by rfl)
    let s : Sharding := ⟨.symbol "mesh", [{ axes := [.whole "b"] }], []⟩
    p.Reachable ∧ p.verify = .ok () ∧ p.Holds ⟨1⟩ ∧ p.sharding ⟨1⟩ = some s ∧
      p.checkFits s ⟨1⟩ = .ok () := by
  intro p s
  have hp : p.Reachable := build_reachable (Option.some_get _).symm
  have hv : p.verify = .ok () := by rfl
  have hheld : p.Holds ⟨1⟩ := .inl ⟨⟨1⟩, by decide, by decide⟩
  have hbody : ⟨1⟩ ∈ (p.block entry).arguments → (p.block entry).parent = none := fun _ => by rfl
  have hs : p.sharding ⟨1⟩ = some s := by rfl
  have hmesh : p.meshes.resolve s.mesh = .ok ⟨[⟨"a", 2⟩, ⟨"b", 2⟩], []⟩ := by rfl
  have hbuilt (mesh : Mesh) (hm : p.meshes.resolve s.mesh = .ok mesh) : mesh.Built := by
    cases hmesh.symm.trans hm
    rfl
  have hedge : p.edgeForTarget? ⟨1⟩ = none := by rfl
  obtain ⟨-, hfits⟩ := verify_shardings_fit hp hv hheld hbody hs hbuilt
  exact ⟨hp, hv, hheld, hs, hfits fun e he => by simp [hedge] at he⟩

end Verify

end MeshSharding.Program
