import MeshSharding.Proofs.Edit.Passes
import MeshSharding.Proofs.Verify.Fits

namespace MeshSharding.Program

-- The body of the program is set apart, since it may have got arguments after the list.
structure Tallied (p : Program) : Prop where
  arguments : ∀ o computation b, (p.op o).kind = .named computation → b ∈ (p.op o).regions → b ≠ entry →
    entryCount computation.inShardings (p.block b).arguments = (p.block b).arguments.length
  results   : ∀ o computation, (p.op o).kind = .named computation →
    entryCount computation.outShardings (p.op o).results = (p.op o).results.length

variable {p q : Program} {o : OpId} {v w : ValueId} {s : Sharding} {kind : OpKind}

section EntryCount

variable {shardings : Option (List Sharding)} {values : List ValueId} {counted : Counted} {index : Nat}
  {replaced : List Sharding}

theorem isSome_replaceIn_iff :
    (p.replaceIn shardings values index s).isSome ↔ index < entryCount shardings values := by
  cases shardings <;> simp [replaceIn, entryCount]

theorem entryCount_of_replaceIn (h : p.replaceIn shardings values index s = some replaced) :
    entryCount (some replaced) values = entryCount shardings values := by
  simp only [replaceIn, Option.ite_none_right_eq_some, Option.some.injEq] at h
  obtain ⟨_, rfl⟩ := h
  cases shardings <;> simp [entryCount]

theorem entryCount_of_checkShardings (h : p.checkShardings counted shardings values = .ok ()) :
    entryCount shardings values = values.length := by
  cases shardings with
  | none   => rfl
  | some l => exact (checkShardings_eq_ok_iff.mp h l rfl).left

end EntryCount

namespace Tallied

theorem empty (name : String) : (Program.empty name).Tallied where
  arguments o _ _ hk := by simp [Program.empty, op] at hk
  results o _ hk     := by simp [Program.empty, op] at hk

section Edits

variable (ht : p.Tallied)
include ht

-- Named computations are the same, on the same arguments and results.
theorem congr (hk : ∀ o computation, (q.op o).kind = .named computation → (p.op o).kind = .named computation)
    (hr : ∀ o, (q.op o).results = (p.op o).results) (hregions : ∀ o, (q.op o).regions = (p.op o).regions)
    (ha : ∀ o, ∀ b ∈ (p.op o).regions, b ≠ entry → (q.block b).arguments = (p.block b).arguments) :
    q.Tallied where
  arguments o computation b h hb hne := by
    rw [hregions] at hb
    rw [ha o b hb hne]
    exact ht.arguments o computation b (hk o computation h) hb hne
  results o computation h := by
    rw [hr]
    exact ht.results o computation (hk o computation h)

theorem of_frame (hf : Frame p q)
    (hk : ∀ o computation, (q.op o).kind = .named computation → (p.op o).kind = .named computation) : q.Tallied :=
  ht.congr hk hf.results hf.regions fun _ b _ _ => hf.arguments b

theorem insert {b : BlockId} {position : Nat} {new : NewOp} (h : p.insert b position new = .ok (q, o)) :
    q.Tallied := by
  obtain ⟨_, rfl, rfl, hc⟩ := insert_eq_ok_iff.mp h
  constructor
  case arguments =>
    intro u computation c hk hb hne
    by_cases hu : u = p.nextOp
    case pos =>
      subst hu
      obtain ⟨-, hin, -⟩ := checkNamed_iff.mp (by simpa only [checkOp, hk] using hc)
      have hregion : ((((p.place b position new).op p.nextOp).regions[0]?).getD default) = c := by
        rw [op_place_nextOp] at hk hb ⊢
        obtain ⟨d, hd⟩ := ((insert_eq_ok h).right.right.placed_shaped b).body (by simp [hk, OpKind.isIsolated])
        rw [hd, List.mem_singleton] at hb
        simp [hd, hb]
      exact hregion ▸ entryCount_of_checkShardings hin
    case neg =>
      rw [op_place_of_ne hu] at hk hb
      rw [block_place]
      exact ht.arguments u computation c hk hb hne
  case results =>
    intro u computation hk
    by_cases hu : u = p.nextOp
    case pos =>
      subst hu
      obtain ⟨-, -, hout⟩ := checkNamed_iff.mp (by simpa only [checkOp, hk] using hc)
      exact entryCount_of_checkShardings hout
    case neg =>
      rw [op_place_of_ne hu] at hk ⊢
      exact ht.results u computation hk

theorem storeSharding (v : ValueId) (sharding : Option Sharding) : (p.storeSharding v sharding).Tallied :=
  ht.of_frame (.storeSharding sharding) fun _ _ => id

theorem setKind (hu : (p.op o).kind.isUnary) (hk : kind.isUnary) : (p.setKind o kind).Tallied := by
  refine ht.of_frame (.setKind hu hk) fun u computation h => ?_
  rw [op_setKind] at h
  dsimp only at h
  split at h
  · simp [h, OpKind.isUnary] at hk
  · exact h

-- A named computation that states other shardings, in lists of the same length.
theorem setKind_named {computation other : NamedComputation} (hk : (p.op o).kind = .named computation)
    (ha : ∀ b ∈ (p.op o).regions, entryCount other.inShardings (p.block b).arguments =
      entryCount computation.inShardings (p.block b).arguments)
    (hr : entryCount other.outShardings (p.op o).results = entryCount computation.outShardings (p.op o).results) :
    (p.setKind o (.named other)).Tallied := by
  have hne : (p.op o).kind ≠ .terminator := by simp [hk]
  constructor
  case arguments =>
    intro u stated b h hb hbody
    rw [op_setKind_of_ne hne] at h hb
    by_cases hu : u = o
    case pos =>
      subst hu
      rw [if_pos rfl] at h hb
      cases h
      exact (ha b hb).trans (ht.arguments u computation b hk hb hbody)
    case neg =>
      rw [if_neg hu] at h hb
      exact ht.arguments u stated b h hb hbody
  case results =>
    intro u stated h
    rw [op_setKind_of_ne hne] at h ⊢
    by_cases hu : u = o
    case pos =>
      subst hu
      rw [if_pos rfl] at h ⊢
      cases h
      exact hr.trans (ht.results u computation hk)
    case neg =>
      rw [if_neg hu] at h ⊢
      exact ht.results u stated h

theorem setSharding (hp : p.WellFormed) (h : p.setSharding v s = .ok q) : q.Tallied := by
  obtain ⟨place, hv, hw⟩ := setSharding_written h
  cases hw with
  | value        => exact ht.storeSharding _ _
  | edge hk      => exact ht.setKind (by simp [hk, OpKind.isUnary]) rfl
  | result hk hr => exact ht.setKind_named hk (fun _ _ => rfl) (entryCount_of_replaceIn hr)
  | @argument b o _ computation _ hparent hk hr =>
    refine ht.setKind_named hk (fun c hc => ?_) rfl
    rw [hp.region_unique (by simp [hk, OpKind.isIsolated]) ((hp.regions c o).mp hc) hparent]
    exact entryCount_of_replaceIn hr

theorem addArgument {type : TensorType} {sharding : Option Sharding}
    (h : p.addArgument type sharding = .ok (q, v)) : q.Tallied := by
  obtain ⟨_, _, heq⟩ := bind_eq_ok_iff.mp h
  cases heq
  refine ht.congr (fun _ _ => id) (fun _ => rfl) (fun _ => rfl) fun _ b _ hne => ?_
  rw [block_modifyBlock, if_neg fun h => hne h.left]
  rfl

theorem addRegion (hp : p.WellFormed) (types : List TensorType) : (p.addRegion types).1.Tallied := by
  refine ht.congr (fun _ _ => id) (fun _ => rfl) (fun _ => rfl) fun o b hb _ => ?_
  have hlt : b.index < p.blocks.length := by
    by_contra hn
    have hparent := (hp.regions b o).mp hb
    simp [block_of_length_le (Nat.le_of_not_lt hn)] at hparent
  simp only [Program.addRegion, block, blocks_pushValues, List.getElem?_append_left hlt]

end Edits

theorem keptByEdits : KeptByEdits Tallied where
  insert _ ht h      := ht.insert h
  setSharding hw ht h := ht.setSharding hw h
  storeSharding v s ht := ht.storeSharding v s
  replaceUsesExcept source target except ht := by
    by_cases h : source = target
    case pos => rwa [Program.replaceUsesExcept, if_pos h]
    case neg =>
      rw [replaceUsesExcept_eq h]
      exact ht.of_frame .redirect fun _ _ hk => kind_redirect ▸ hk
  setOperand {p} o index v ht := by
    cases h : (p.op o).operands[index]? with
    | none   => simpa [Program.setOperand, h] using ht
    | some w =>
      rw [setOperand_eq h]
      exact ht.of_frame .redirect fun _ _ hk => kind_redirect ▸ hk
  erase o ht := ht.of_frame .erase fun u _ hk => by rwa [op_erase] at hk
  setKind ht hu hk := ht.setKind hu hk

end Tallied

theorem Reachable.tallied (h : p.Reachable) : p.Tallied := by
  induction h with
  | empty name                 => exact .empty name
  | declareMesh _ h ht         =>
    obtain ⟨meshes, _, heq⟩ := bind_eq_ok_iff.mp h
    cases heq
    exact ⟨ht.arguments, ht.results⟩
  | registerTransform _ _ _ ht => exact ⟨ht.arguments, ht.results⟩
  | addArgument _ h ht         => exact ht.addArgument h
  | addRegion types hp ht      => exact ht.addRegion hp.wellFormed types
  | insert _ _ _ h ht          => exact ht.insert h
  | setSharding hp h ht        => exact ht.setSharding hp.wellFormed h
  | replaceUses _ _ _ ht       => exact Tallied.keptByEdits.replaceUsesExcept _ _ none ht
  | setOperand _ _ _ ht        => exact Tallied.keptByEdits.setOperand _ _ _ ht
  | erase _ _ ht               => exact Tallied.keptByEdits.erase _ ht
  | run pass hp ht             => exact Tallied.keptByEdits.run hp.wellFormed ht pass

section Settable

-- The entries for the arguments of a block, if it is the body of a named computation.
def entries? (p : Program) (b : BlockId) : Option Nat :=
  match p.parentKind? b with
  | some (.named computation) => some (entryCount computation.inShardings (p.block b).arguments)
  | _                         => none

-- The value is an argument of the body of the program, and this is the body of a named computation too, which has
-- no entry for the value.
def Overruns (p : Program) (v : ValueId) : Prop :=
  p.edgeForTarget? v = none ∧ ∃ index count, p.definitionOf v = .argument entry index ∧
    p.entries? entry = some count ∧ count ≤ index

theorem Reachable.isSome_writeSharding_iff (hp : p.Reachable) (hv : v.index < p.values.length) :
    (p.writeSharding? v s).isSome ↔ p.isSettable v ∧ ¬ p.Overruns v := by
  have hw := hp.wellFormed
  have ht := hp.tallied
  cases he : p.edgeForTarget? v with
  | some edge => simp [writeSharding?, isSettable, Overruns, he]
  | none =>
    cases hd : p.definitionOf v with
    | result o index =>
      have hi := (List.getElem?_eq_some_iff.mp ((hw.results v o index).mpr ⟨hv, hd⟩)).choose
      cases hk : (p.op o).kind <;>
        simp [writeSharding?, isSettable, Overruns, he, hd, hk, OpKind.storesResultShardings]
      case named computation => rwa [isSome_replaceIn_iff, ht.results o computation hk]
    | argument b index =>
      have hi := (List.getElem?_eq_some_iff.mp ((hw.arguments v b index).mpr ⟨hv, hd⟩)).choose
      have hoverruns : p.Overruns v ↔ b = entry ∧ ∃ count, p.entries? b = some count ∧ count ≤ index := by
        simp only [Overruns, he, hd, true_and, Definition.argument.injEq]
        constructor
        · rintro ⟨_, count, ⟨rfl, rfl⟩, h⟩
          exact ⟨rfl, count, h⟩
        · rintro ⟨rfl, count, h⟩
          exact ⟨index, count, ⟨rfl, rfl⟩, h⟩
      rw [hoverruns]
      cases hparent : (p.block b).parent with
      | none   => simp [writeSharding?, isSettable, entries?, he, hd, hparent, parentKind?]
      | some o =>
        cases hk : (p.op o).kind <;>
          simp [writeSharding?, isSettable, entries?, he, hd, hparent, parentKind?, hk, OpKind.isManual]
        case named computation =>
          rw [isSome_replaceIn_iff]
          by_cases hb : b = entry
          case pos => simp [hb]
          case neg =>
            refine iff_of_true ?_ fun h => absurd h hb
            rwa [ht.arguments o computation b hk ((hw.regions b o).mpr hparent) hb]

-- A sharding can be given to a value if it fits and the value takes one, and if there is an entry for it.
theorem Reachable.exists_setSharding_iff (hp : p.Reachable) (hv : v.index < p.values.length) :
    (∃ q, p.setSharding v s = .ok q) ↔ p.checkFits s v = .ok () ∧ p.isSettable v ∧ ¬ p.Overruns v := by
  rw [← hp.isSome_writeSharding_iff (s := s) hv, Option.isSome_iff_exists]
  simp only [setSharding_eq_ok_iff, exists_and_left, checkFits]

-- Only the kind of the operation around a block counts.
theorem entries?_setKind {b : BlockId} (hk : (p.op o).kind ≠ .terminator) (h : (p.block b).parent = some o →
    (p.setKind o kind).entries? b = p.entries? b) : (p.setKind o kind).entries? b = p.entries? b := by
  by_cases hb : (p.block b).parent = some o
  case pos => exact h hb
  case neg =>
    have hparent : (p.setKind o kind).parentKind? b = p.parentKind? b := by
      simp only [parentKind?, block_setKind]
      cases hu : (p.block b).parent with
      | none   => rfl
      | some u =>
        have hne : u ≠ o := fun he => hb (he ▸ hu)
        rw [Option.map_some, op_setKind_of_ne hk, if_neg hne, Option.map_some]
    rw [entries?, hparent, block_setKind, entries?]

-- A write leaves the number of entries as it is.
theorem Written.entries?_eq {place : Place} (h : p.Written s place q) (hp : p.WellFormed) (b : BlockId) :
    q.entries? b = p.entries? b := by
  cases h with
  | value => rfl
  | edge hk =>
    refine entries?_setKind (by simp [hk]) fun hb => ?_
    simp [entries?, parentKind?, hb, hk, kind_setKind_self]
  | result hk _ =>
    refine entries?_setKind (by simp [hk]) fun hb => ?_
    simp [entries?, parentKind?, hb, hk, kind_setKind_self]
  | argument hc hk hr =>
    refine entries?_setKind (by simp [hk]) fun hb => ?_
    have hcb := hp.region_unique (by simp [hk, OpKind.isIsolated]) hb hc
    simp [entries?, parentKind?, hb, hk, kind_setKind_self, hcb ▸ entryCount_of_replaceIn hr]

theorem WellFormed.overruns_of_setSharding (hp : p.WellFormed) (h : p.setSharding v s = .ok q) :
    q.Overruns w ↔ p.Overruns w := by
  obtain ⟨_, _, hw⟩ := setSharding_written h
  have he : q.edgeForTarget? w = p.edgeForTarget? w :=
    read_of_bare_eq (·.edgeForTarget? w) (fun r => r.bare_edgeForTarget? w) hw.bare_eq
  have hd : q.definitionOf w = p.definitionOf w :=
    read_of_bare_eq (·.definitionOf w) (fun r => r.bare_definitionOf w) hw.bare_eq
  simp only [Overruns, he, hd, hw.entries?_eq hp]

-- To write to the value is a panic.
theorem Overruns.writeFault (h : p.Overruns v) :
    ∃ length index, length ≤ index ∧ p.writeFault v = .indexOutOfBounds length index := by
  obtain ⟨-, index, count, hd, he, hle⟩ := h
  refine ⟨count, index, hle, ?_⟩
  rw [entries?] at he
  split at he
  case h_1 hparent => simp [Program.writeFault, hd, hparent, ← Option.some.inj he]
  case h_2         => simp at he

-- That computation is not part of the program, if the program is valid.
theorem Overruns.detached (h : p.Overruns v) (hp : p.Valid) :
    ∃ o, (p.block entry).parent = some o ∧ o ∉ p.walk := by
  obtain ⟨-, _, _, -, he, -⟩ := h
  cases hparent : (p.block entry).parent with
  | none   => simp [entries?, parentKind?, hparent] at he
  | some o =>
    refine ⟨o, rfl, fun ho => ?_⟩
    obtain ⟨b, hb, hob⟩ := mem_walk_iff.mp ho
    obtain ⟨n, _, hn⟩ := mem_nested_iff.mp hb
    have hbelow : p.Below entry (n + 1) entry :=
      .step hn hob ((hp.sound.wellFormed.regions entry o).mpr hparent)
    exact hp.sound.rooted.not_below (hp.shallow _ _ hbelow) hbelow

end Settable

end MeshSharding.Program
