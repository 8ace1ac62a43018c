import MeshSharding.Proofs.Flow.Edits
import MeshSharding.Proofs.Nesting.Forest

namespace MeshSharding.Program

-- The block has operations, and the last of them is its only terminator.
def Ended (p : Program) (b : BlockId) : Prop :=
  ∃ before o, (p.block b).operations = before ++ [o] ∧ (p.op o).kind.isTerminator ∧
    ∀ u ∈ before, (p.op u).kind.isTerminator = false

-- The block is a region of an operation of another dialect, and it has no operations.
def Emptied (p : Program) (b : BlockId) : Prop :=
  (p.block b).operations = [] ∧ ∃ o ∈ p.walk, (p.op o).kind.isGeneric ∧ b ∈ (p.op o).regions

-- The regions of operations that are not erased have terminators.
def Closed (p : Program) : Prop :=
  ∀ b u, (p.block b).parent = some u → (p.op u).erased = false →
    ∃ t, (p.op t).erased = false ∧ (p.op t).block = b ∧ (p.op t).kind.isTerminator

-- The call does not erase a terminator, other than by erasing an operation around it.
def SparesEnds (p : Program) : Call → Prop
  | .erase o => (p.op o).kind.isTerminator = false
  | _        => True

variable {p q : Program} {b : BlockId} {o t u : OpId} {vs : List ValueId} {new : NewOp} {position : Nat}
  {call : Call} {calls : List Call}

section Verify

theorem returnedBy_eq_ok_iff : p.returnedBy b = .ok vs ↔ p.returned? b = some vs := by
  cases h : p.returned? b <;> simp [returnedBy, h]

theorem returned?_isSome : (p.returned? b).isSome = (p.terminator? b).isSome := by
  simp [returned?]

theorem operations_ne_nil_of_terminator? (h : (p.terminator? b).isSome) : (p.block b).operations ≠ [] := by
  intro he
  simp [terminator?, he] at h

-- The body of a computation has a terminator.
theorem terminator?_of_isIsolated (hr : (p.op o).regions = [b]) (hi : (p.op o).kind.isIsolated)
    (hc : p.checkOp o = .ok ()) : (p.terminator? b).isSome := by
  have hbody : ((p.op o).regions[0]?).getD default = b := by simp [hr]
  cases hk : (p.op o).kind <;> simp [hk, OpKind.isIsolated] at hi
  case manual computation =>
    simp only [checkOp, hk, checkManual, hbody, bind_eq_ok_iff, returnedBy_eq_ok_iff] at hc
    obtain ⟨vs, hvs, -⟩ := hc
    rw [← returned?_isSome, hvs, Option.isSome_some]
  case named computation =>
    simp only [checkOp, hk, checkNamed, hbody, bind_eq_ok_iff, returnedBy_eq_ok_iff] at hc
    obtain ⟨_, _, _, _, _, _, vs, hvs, -⟩ := hc
    rw [← returned?_isSome, hvs, Option.isSome_some]

namespace Valid

variable (hv : p.Valid)
include hv

theorem ended_iff (hb : b ∈ p.nested) : p.Ended b ↔ (p.block b).operations ≠ [] := by
  constructor
  · rintro ⟨before, o, ho, -⟩ he
    simp [he] at ho
  · intro hne
    obtain ⟨before, o, ho⟩ := (List.eq_nil_or_concat' (p.block b).operations).resolve_left hne
    have hl : (p.block b).operations.getLast? = some o := by simp [ho]
    refine ⟨before, o, ho, (hv.terminators b hb o (by simp [ho])).mpr hl, fun u hu => ?_⟩
    by_contra hk
    have hu' := (hv.terminators b hb u (by simp [ho, hu])).mp (by simpa using hk)
    have hn := hv.sound.wellFormed.nodup b
    rw [ho] at hn
    obtain rfl := Option.some.inj (hu'.symm.trans hl)
    simp only [List.nodup_append, List.mem_singleton, forall_eq] at hn
    exact hn.right.right u hu rfl

theorem emptied (hb : b ∈ p.nested) (he : (p.block b).operations = []) : p.Emptied b := by
  refine ⟨he, ?_⟩
  obtain ⟨n, hn⟩ := (below_mem_nested hv.shallow).mpr hb
  cases hn with
  | here => exact absurd he (operations_ne_nil_of_terminator? hv.body)
  | @step n c _ o hc ho hbo =>
    have hw := mem_walk_iff.mpr ⟨c, (below_mem_nested hv.shallow).mp ⟨n, hc⟩, ho⟩
    have hs := hv.sound.wellFormed.shaped o
    refine ⟨o, hw, ?_, hbo⟩
    by_contra hk
    have hi : (p.op o).kind.isIsolated := by
      have ht := hs.leaf (List.ne_nil_of_mem hbo)
      cases hkind : (p.op o).kind <;> simp_all [OpKind.takesRegions, OpKind.isGeneric, OpKind.isIsolated]
    obtain ⟨d, hd⟩ := hs.body hi
    obtain rfl : b = d := by simpa [hd] using hbo
    have hc := hv.checks o hw
    have hc : p.checkOp o = .ok () := by
      cases hkind : (p.op o).kind <;> simp_all [Checked, OpKind.isIsolated]
    exact operations_ne_nil_of_terminator? (terminator?_of_isIsolated hd hi hc) he

theorem ended_iff_not_emptied (hb : b ∈ p.nested) : p.Ended b ↔ ¬ p.Emptied b := by
  rw [hv.ended_iff hb]
  exact ⟨fun hne he => hne he.left, fun hne he => hne (hv.emptied hb he)⟩

end Valid

end Verify

section Closed

-- Terminators that are not erased stay so.
def KeepsEnds (p q : Program) : Prop :=
  ∀ t, (p.op t).erased = false → (p.op t).kind.isTerminator →
    (q.op t).erased = false ∧ (q.op t).kind.isTerminator

theorem keepsEnds_of_bare_eq (h : q.bare = p.bare) : p.KeepsEnds q := by
  intro t he hk
  have he' := read_of_bare_eq (fun r => (r.op t).erased) (by simp) h
  have hk' := read_of_bare_eq (fun r => (r.op t).kind.isTerminator) (by simp) h
  exact ⟨he'.trans he, hk'.trans hk⟩

theorem keepsEnds_redirect {source target : ValueId} (moved : List Use) :
    p.KeepsEnds (p.redirect source target moved) := by
  intro t he hk
  exact ⟨erased_redirect.trans he, by rwa [kind_redirect]⟩

theorem keepsEnds_place (b : BlockId) (position : Nat) (new : NewOp) :
    p.KeepsEnds (p.place b position new) := by
  intro t he hk
  rw [op_place_of_ne (ne_nextOp (index_lt_of_not_erased he))]
  exact ⟨he, hk⟩

theorem keepsEnds_replaceUsesExcept {source target : ValueId} (except : Option OpId) :
    p.KeepsEnds (p.replaceUsesExcept source target except) := by
  by_cases h : source = target
  case pos =>
    rw [replaceUsesExcept, if_pos h]
    exact keepsEnds_of_bare_eq rfl
  case neg =>
    rw [replaceUsesExcept_eq h]
    exact keepsEnds_redirect _

theorem keepsEnds_setOperand {v : ValueId} (index : Nat) : p.KeepsEnds (p.setOperand o index v) := by
  cases h : (p.op o).operands[index]? with
  | none =>
    simp only [Program.setOperand, h]
    exact keepsEnds_of_bare_eq rfl
  | some previous =>
    rw [setOperand_eq h]
    exact keepsEnds_redirect _

theorem PassEdit.keepsEnds (h : PassEdit p q) (hp : p.WellFormed) : p.KeepsEnds q := by
  have hnot {kind : OpKind} (hk : kind.isTerminator) : kind.isUnary = false ∧ kind.isGroup = false := by
    cases kind <;> first | exact ⟨rfl, rfl⟩ | contradiction
  cases h with
  | write h        => exact keepsEnds_of_bare_eq (setSharding_bare h)
  | store v s      => exact keepsEnds_of_bare_eq (bare_storeSharding s)
  | replace _ _    => exact keepsEnds_replaceUsesExcept _
  | setOperand _ _ => exact keepsEnds_setOperand _
  | attach _ _ h   => exact (insert_eq_ok h).left ▸ keepsEnds_place _ _ _
  | @recast o _ hu _ =>
    intro t he hk
    have ht : t ≠ o := by
      rintro rfl
      have := hnot hk
      simp_all
    rw [op_setKind, if_neg (ht ·.left)]
    exact ⟨he, hk⟩
  | @erase o hu =>
    have hl : (p.op o).regions = [] := by
      refine hp.regions_eq_nil ?_
      cases hk : (p.op o).kind <;> simp_all [OpKind.isUnary, OpKind.isGroup, OpKind.takesRegions]
    intro t he hk
    have ht : t ≠ o := by
      rintro rfl
      have := hnot hk
      simp_all
    rw [op_erase_leaf hl]
    simp [he, ht, hk]

theorem PassEdits.keepsEnds (h : PassEdits p q) (hp : p.WellFormed) : p.KeepsEnds q := by
  refine (h.keep hp (fun he hq hpq t ht hk => ?_) fun t ht hk => ⟨ht, hk⟩).right
  obtain ⟨ht, hk⟩ := hpq t ht hk
  exact he.keepsEnds hq t ht hk

namespace Closed

theorem of_reshapes (hc : p.Closed) (hp : p.WellFormed) (h : Reshapes p q) (hk : p.KeepsEnds q) :
    q.Closed := by
  intro b u hb hu
  rw [h.parents] at hb
  have hpu : (p.op u).erased = false := by
    by_contra he
    simp [h.erased u (hp.parent_lt hb) (by simpa using he)] at hu
  obtain ⟨t, ht, htb, htk⟩ := hc b u hb hpu
  obtain ⟨hqt, hqk⟩ := hk t ht htk
  exact ⟨t, hqt, (h.blocks t (index_lt_of_not_erased ht)).trans htb, hqk⟩

-- A terminator that goes with an operation around it has been in a region of an operation that goes.
theorem erase (hc : p.Closed) (hp : p.WellFormed) (ho : (p.op o).kind.isTerminator = false) :
    (p.erase o).Closed := by
  have hr := hp.reshapes_erase o
  intro b u hb hu
  rw [hr.parents] at hb
  rw [op_erase] at hu
  simp only [Bool.or_eq_false_iff, List.contains_eq_mem, decide_eq_false_iff_not, List.mem_cons,
    not_or] at hu
  obtain ⟨t, ht, htb, htk⟩ := hc b u hb hu.left
  refine ⟨t, ?_, by rwa [hr.blocks t (index_lt_of_not_erased ht)], by rwa [op_erase]⟩
  rw [op_erase]
  simp only [ht, Bool.false_or, List.contains_eq_mem, decide_eq_false_iff_not, List.mem_cons, not_or]
  refine ⟨by rintro rfl; simp [ho] at htk, fun hn => ?_⟩
  have hregion {c : BlockId} (hm : t ∈ ((p.detach o).block c).operations) : c = b :=
    (hp.members c t (mem_of_mem_detach hm)).right.symm.trans htb
  have hbu := (hp.regions b u).mpr hb
  obtain ⟨c, hco, hw⟩ := List.mem_flatMap.mp hn
  obtain hm | ⟨w, hw, d, hd, hm⟩ := mem_walkBlock hw
  · cases hregion hm
    exact hu.right.left (hp.parent_unique hbu hco)
  · cases hregion hm
    obtain rfl := hp.parent_unique hbu hd
    exact hu.right.right (List.mem_flatMap.mpr ⟨c, hco, hw⟩)

theorem place (hc : p.Closed) (hp : p.WellFormed) (hn : p.checkNew new = .ok ()) :
    (p.place b position new).Closed := by
  obtain ⟨-, hparent, hends⟩ := checkNew_eq_ok_iff.mp hn
  intro c u hcu hu
  obtain ⟨t, ht, htc, htk⟩ : ∃ t, (p.op t).erased = false ∧ (p.op t).block = c ∧
      (p.op t).kind.isTerminator := by
    by_cases hcn : c ∈ new.regions
    case pos =>
      obtain ⟨t, ht⟩ := Option.isSome_iff_exists.mp (hends c hcn)
      obtain ⟨hm, htk⟩ := exists_of_terminator? ht
      obtain ⟨hte, htc⟩ := hp.members c t hm
      exact ⟨t, hte, htc, htk⟩
    case neg =>
      simp only [block_place, hcn, false_and, if_false] at hcu
      rw [op_place_of_ne (ne_nextOp (hp.parent_lt hcu))] at hu
      exact hc c u hcu hu
  obtain ⟨hqt, hqk⟩ := keepsEnds_place b position new t ht htk
  refine ⟨t, hqt, ?_, hqk⟩
  rwa [op_place_of_ne (ne_nextOp (index_lt_of_not_erased ht))]

end Closed

end Closed

section History

theorem keepsEnds_of_operations_eq (h : q.operations = p.operations) : p.KeepsEnds q := by
  intro t ht hk
  rw [op, h, ← op]
  exact ⟨ht, hk⟩

theorem keepsEnds_construct {call : Construction} (hc : ∀ b position new, call ≠ .operation b position new) :
    p.KeepsEnds (p.construct call).program := by
  cases call with
  | mesh name mesh =>
    refine keepsEnds_of_operations_eq ?_
    simp only [construct, declareMesh, bind, Except.bind]
    split <;> rfl
  | argument type sharding =>
    refine keepsEnds_of_operations_eq ?_
    simp only [construct, addArgument, bind, Except.bind]
    split <;> rfl
  | sharding v sharding =>
    rw [construct]
    cases hs : p.setSharding v sharding with
    | error e => exact keepsEnds_of_bare_eq rfl
    | ok q    => exact keepsEnds_of_bare_eq (setSharding_bare hs)
  | operation b position new => exact absurd rfl (hc b position new)

theorem Closed.after (hc : p.Closed) (hp : p.Reachable) (hs : p.SparesEnds call) :
    (p.after call).Closed := by
  have hw := hp.wellFormed
  cases call with
  | construct call =>
    cases call with
    | operation b position new =>
      rw [Program.after, construct, hw.insertInPlace_eq]
      cases hi : p.insert b position new with
      | error e => exact hc
      | ok pair =>
        obtain ⟨q, o⟩ := pair
        obtain ⟨hn, rfl, -⟩ := insert_eq_ok_iff.mp hi
        exact hc.place hw hn
    | mesh | argument | sharding =>
      exact hc.of_reshapes hw (reshapes_construct (by simp)) (keepsEnds_construct (by simp))
  | region types =>
    exact hc.of_reshapes hw (reshapes_addRegion types) (keepsEnds_of_operations_eq rfl)
  | transform name transform =>
    exact hc.of_reshapes hw (reshapes_registerTransform name transform) (keepsEnds_of_operations_eq rfl)
  | replaceUses source target =>
    exact hc.of_reshapes hw (.replaceUsesExcept none) (keepsEnds_replaceUsesExcept none)
  | setOperand o index v => exact hc.of_reshapes hw (.setOperand index) (keepsEnds_setOperand index)
  | erase o => exact hc.erase hw hs
  | run pass =>
    exact hc.of_reshapes hw (hw.reshapes_run hp.housed pass) ((hw.edits_run hp.housed pass).keepsEnds hw)

theorem Closed.not_emptied (hc : p.Closed) (hp : p.WellFormed) (hh : p.Housed) : ¬ p.Emptied b := by
  rintro ⟨he, o, ho, -, hb⟩
  obtain ⟨t, ht, rfl, -⟩ := hc b o ((hp.regions b o).mp hb) (hp.not_erased ho)
  simpa [he] using hh t ht

-- In all states of a history, the blocks of a program that verification accepts end with their only
-- terminators, those regions apart that have no operations left. There are none of these if no call
-- erases a terminator.
theorem states_end_blocks {name : String} (h : (empty name).Along Fits calls) :
    ∀ p ∈ (empty name).states calls, p.verify = .ok () →
      (∀ b ∈ p.nested, p.Ended b ↔ ¬ p.Emptied b) ∧
      ((empty name).Along SparesEnds calls → ∀ b ∈ p.nested, p.Ended b) := by
  intro p hp hv
  have hreach : p.Reachable := (Reachable.empty name).states h p hp
  have hvalid := ((verify_iff hreach.wellFormed).mp hv).left
  have hiff : ∀ b ∈ p.nested, p.Ended b ↔ ¬ p.Emptied b := fun b hb => hvalid.ended_iff_not_emptied hb
  refine ⟨hiff, fun hs b hb => (hiff b hb).mpr ?_⟩
  have hstep (p : Program) (call : Call) (hp : p.Reachable ∧ p.Closed)
      (hc : p.Fits call ∧ p.SparesEnds call) : (p.after call).Reachable ∧ (p.after call).Closed :=
    ⟨hp.left.after hc.left, hp.right.after hp.left hc.right⟩
  have hempty : (empty name).Closed := by
    intro b u hu
    simp [empty, block] at hu
  obtain ⟨hreach, hclosed⟩ := states_keep hstep ⟨.empty name, hempty⟩ (h.and hs) p hp
  exact hclosed.not_emptied hreach.wellFormed hreach.housed

-- A block is a region of an operation of another dialect, and its terminator is erased.
def emptiedRegion : List Call := [
  .region [],
  .construct (.operation ⟨1⟩ 0 (.terminator [])),
  .construct (.operation entry 0 (.generic ⟨"scf.if", false⟩ [] [] [⟨1⟩])),
  .construct (.operation entry 1 (.terminator [])),
  .erase ⟨0⟩]

theorem verify_not_ended_emptiedRegion :
    let p := (((empty "main").states emptiedRegion)[5]?).get (by rfl)
    (empty "main").Along Fits emptiedRegion ∧ p ∈ (empty "main").states emptiedRegion ∧ p.IsTree ∧
      p.verify = .ok () ∧ ⟨1⟩ ∈ p.nested ∧ ¬ p.Ended ⟨1⟩ := by
  intro p
  have hfits : (empty "main").Along Fits emptiedRegion :=
    ⟨trivial, ⟨by decide, by decide⟩, ⟨by decide, by decide⟩, ⟨by decide, by decide⟩,
      Nat.zero_lt_succ 2, trivial⟩
  have htree : p.nested.Nodup := by decide
  refine ⟨hfits, List.mem_of_getElem? (Option.some_get _).symm, htree, by rfl, by decide, ?_⟩
  rintro ⟨before, o, ho, -⟩
  have he : (p.block ⟨1⟩).operations = [] := by rfl
  simp [he] at ho

theorem states_end_blocks_loopHistory : ∃ p ∈ (empty "main").states loopHistory, p.verify = .ok () ∧
    ⟨1⟩ ∈ p.nested ∧ ∀ b ∈ p.nested, (p.Ended b ↔ ¬ p.Emptied b) ∧ p.Ended b := by
  let p := (((empty "main").states loopHistory)[5]?).get (by rfl)
  have hp : p ∈ (empty "main").states loopHistory := List.mem_of_getElem? (Option.some_get _).symm
  have hv : p.verify = .ok () := by rfl
  have hfits : (empty "main").Along Fits loopHistory :=
    ⟨trivial, ⟨by decide, by decide⟩, ⟨by decide, by decide⟩, ⟨by decide, by decide⟩,
      ⟨by decide, by decide⟩, trivial⟩
  have hspares : (empty "main").Along SparesEnds loopHistory :=
    ⟨trivial, trivial, trivial, trivial, trivial, trivial⟩
  obtain ⟨hiff, hends⟩ := states_end_blocks hfits p hp hv
  exact ⟨p, hp, hv, by decide, fun b hb => ⟨hiff b hb, hends hspares b hb⟩⟩

end History

end MeshSharding.Program
