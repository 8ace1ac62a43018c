import MeshSharding.Pipeline.Prepare
import MeshSharding.Proofs.Reachable
import MeshSharding.Proofs.Seeding.Erase

namespace MeshSharding.Program

-- The sharding of a constraint that is to be moved onto its operand.
def dangling? (p : Program) (o : OpId) : Option Sharding :=
  match (p.op o).kind with
  | .constraint s => if p.hasUses (p.output o) || !p.isSettable (p.input o) then none else some s
  | _             => none

-- The program once a constraint has been gone over.
def move? (p : Program) (o : OpId) : Option Program :=
  (p.moveConstraint o).arrives?

variable {p q r : Program} {o u c : OpId} {v w x : ValueId} {s t : Sharding} {a b : Place}

theorem dangling?_eq_some_iff : p.dangling? o = some s ↔
    (p.op o).kind = .constraint s ∧ p.hasUses (p.output o) = false ∧ p.isSettable (p.input o) := by
  cases hk : (p.op o).kind <;> simp [dangling?, hk]
  case constraint t => exact ⟨fun ⟨⟨hu, hi⟩, h⟩ => ⟨h, hu, hi⟩, fun ⟨h, hu, hi⟩ => ⟨⟨hu, hi⟩, h⟩⟩

theorem move?_of_eq_none (h : p.dangling? o = none) : p.move? o = some p := by
  cases hk : (p.op o).kind <;> simp [dangling?, hk] at h <;> simp [move?, moveConstraint, hk]
  case constraint t =>
    have hn : p.hasUses (p.output o) = true ∨ p.isSettable (p.input o) = false := by
      cases hu : p.hasUses (p.output o)
      case true  => exact .inl rfl
      case false => exact .inr (h hu)
    rw [if_pos hn, Outcome.arrives?_ok]

theorem move?_of_eq_some (h : p.dangling? o = some s) :
    p.move? o = (p.seed? (p.input o) s).map (·.erase o) := by
  obtain ⟨hk, hu, hi⟩ := dangling?_eq_some_iff.mp h
  simp only [move?, moveConstraint, hk, hu, hi, seed?]
  cases p.setSharding (p.input o) s <;> rfl

@[simp]
theorem bare_dangling? (p : Program) (o : OpId) : p.bare.dangling? o = p.dangling? o := by
  cases hk : (p.op o).kind <;> simp [dangling?, OpKind.bare, hk]

section Follows

-- What stays when constraints are moved onto their operands.
structure Follows (p q : Program) : Prop where
  wellFormed : q.WellFormed
  frame      : Frame p q
  count      : q.values.length = p.values.length
  operands   : ∀ o, (q.op o).operands = (p.op o).operands
  kind       : ∀ o, (q.op o).kind.bare = (p.op o).kind.bare
  place      : ∀ v, q.place? v = p.place? v
  used       : ∀ v, q.hasUses v → p.hasUses v
  -- Only the operands of constraints that are moved lose uses.
  unused     : ∀ v, q.hasUses v = false → p.hasUses v = false ∨ p.isSettable v
  touches    : ∀ a b, q.Touches a b → p.Touches a b

namespace Follows

theorem refl (hp : p.WellFormed) : Follows p p where
  wellFormed    := hp
  frame         := .refl p
  count         := rfl
  operands _    := rfl
  kind _        := rfl
  place _       := rfl
  used _ h      := h
  unused _ h    := .inl h
  touches _ _ h := h

theorem constraint (h : Follows p q) : (q.op o).kind = .constraint s ↔ (p.op o).kind = .constraint s := by
  have hk := h.kind o
  cases hp : (p.op o).kind <;> cases hq : (q.op o).kind <;> simp_all [OpKind.bare]

theorem input (h : Follows p q) : q.input o = p.input o := by
  rw [Program.input, h.operands, Program.input]

theorem output (h : Follows p q) : q.output o = p.output o := by
  rw [Program.output, h.frame.results, Program.output]

theorem isSettable (h : Follows p q) : q.isSettable v = p.isSettable v := by
  rw [Bool.eq_iff_iff]
  simp only [isSettable_iff, h.place]

theorem boundary (h : Follows p q) : q.boundary a = p.boundary a := by
  cases a <;> simp only [Program.boundary, h.frame.arguments, h.frame.results]

theorem trans (h : Follows p q) (h' : Follows q r) : Follows p r where
  wellFormed     := h'.wellFormed
  frame          := h.frame.trans h'.frame
  count          := h'.count.trans h.count
  operands o     := (h'.operands o).trans (h.operands o)
  kind o         := (h'.kind o).trans (h.kind o)
  place v        := (h'.place v).trans (h.place v)
  used v hv      := h.used v (h'.used v hv)
  touches a b ht := h.touches a b (h'.touches a b ht)
  unused v hv    := by
    obtain hq | hq := h'.unused v hv
    · exact h.unused v hq
    · exact .inr (h.isSettable ▸ hq)

end Follows

theorem kind_of_setKind {kind other : OpKind} (hu : (p.op u).kind ≠ .terminator)
    (h : ((p.setKind u kind).op o).kind = other) : o = u ∧ kind = other ∨ (p.op o).kind = other := by
  rw [op_setKind_of_ne hu] at h
  split at h
  case isTrue ho => exact .inl ⟨ho, h⟩
  case isFalse   => exact .inr h

-- A boundary with shardings keeps them.
theorem Written.named (h : p.Written s a q) {computation : NamedComputation}
    (hk : (q.op o).kind = .named computation) : ∃ other, (p.op o).kind = .named other ∧
      (computation.inShardings = none → other.inShardings = none) ∧
      (computation.outShardings = none → other.outShardings = none) := by
  cases h with
  | value   => exact ⟨computation, hk, id, id⟩
  | edge hu =>
    obtain ⟨_, hn⟩ | hp := kind_of_setKind (by simp [hu]) hk
    case inl => cases hn
    case inr => exact ⟨computation, hp, id, id⟩
  | argument _ hu _ =>
    obtain ⟨rfl, hn⟩ | hp := kind_of_setKind (by simp [hu]) hk
    case inl =>
      cases hn
      exact ⟨_, hu, by simp, id⟩
    case inr => exact ⟨computation, hp, id, id⟩
  | result hu _ =>
    obtain ⟨rfl, hn⟩ | hp := kind_of_setKind (by simp [hu]) hk
    case inl =>
      cases hn
      exact ⟨_, hu, id, by simp⟩
    case inr => exact ⟨computation, hp, id, id⟩

theorem Written.touches (h : p.Written s a q) {b c : Place} (ht : q.Touches b c) : p.Touches b c := by
  have hparent (d : BlockId) : (q.block d).parent = (p.block d).parent :=
    read_of_bare_eq (fun r => (r.block d).parent) (by simp) h.bare_eq
  cases ht with
  | same _               => exact .same _
  | argument hb hc hk hi =>
    obtain ⟨other, ho, hn, _⟩ := h.named hk
    exact .argument (hparent _ ▸ hb) (hparent _ ▸ hc) ho (hi.imp_right hn)
  | result hk hi         =>
    obtain ⟨other, ho, _, hn⟩ := h.named hk
    exact .result ho (hi.imp_right hn)

theorem WellFormed.follows_seed? (hp : p.WellFormed) (h : p.seed? v s = some q) : Follows p q := by
  have hb := bare_of_seed? h
  obtain ⟨place, _, hw⟩ := setSharding_written (toOption_eq_some_iff.mp h)
  have hu (v : ValueId) : q.hasUses v = p.hasUses v := read_of_bare_eq (·.hasUses v) (fun r => r.bare_hasUses v) hb
  exact {
    wellFormed    := hp.of_bare_eq hb
    frame         := .of_bare_eq hb
    count         := read_of_bare_eq (·.values.length) bare_length_values hb
    operands o    := read_of_bare_eq (fun r => (r.op o).operands) (by simp) hb
    kind o        := read_of_bare_eq (fun r => (r.op o).kind.bare) (by simp) hb
    place v       := read_of_bare_eq (·.place? v) (fun _ => bare_place?) hb
    used v        := (hu v ▸ ·)
    unused v h    := .inl (hu v ▸ h)
    touches _ _ h := hw.touches h }

theorem WellFormed.follows_erase (hp : p.WellFormed) (hk : (p.op o).kind = .constraint s)
    (hi : p.isSettable (p.input o)) : Follows p (p.erase o) where
  wellFormed    := hp.erase o
  frame         := .erase
  count         := length_values_erase
  operands u    := by rw [op_erase]
  kind u        := by rw [op_erase]
  place v       := place?_erase hp hk
  used v h      := hasUses_of_erase hp hk h
  unused v h    := by
    by_cases hv : v = p.input o
    case pos => exact .inr (hv ▸ hi)
    case neg => exact .inl (hasUses_erase hp hk hv ▸ h)
  touches a b h := by
    have hkind (u : OpId) : ((p.erase o).op u).kind = (p.op u).kind := by rw [op_erase]
    cases h with
    | same _               => exact .same _
    | argument hb hc hk hi =>
      rw [Frame.erase.parents] at hb hc
      exact .argument hb hc (hkind _ ▸ hk) hi
    | result hk hi         => exact .result (hkind _ ▸ hk) hi

theorem WellFormed.follows_move? (hp : p.WellFormed) (h : p.move? o = some q) : Follows p q := by
  cases hd : p.dangling? o with
  | none   =>
    rw [move?_of_eq_none hd, Option.some.injEq] at h
    exact h ▸ .refl hp
  | some s =>
    obtain ⟨hk, _, hi⟩ := dangling?_eq_some_iff.mp hd
    rw [move?_of_eq_some hd, Option.map_eq_some_iff] at h
    obtain ⟨r, hr, rfl⟩ := h
    have hf := hp.follows_seed? hr
    exact hf.trans (hf.wellFormed.follows_erase (hf.constraint.mpr hk) (by rwa [hf.input, hf.isSettable]))

theorem Follows.foldlM_move? {os : List OpId} (h : Follows p q) (hr : os.foldlM Program.move? q = some r) : Follows p r := by
  induction os generalizing q with
  | nil          => exact Option.some.inj hr ▸ h
  | cons o os ih =>
    rw [List.foldlM_cons] at hr
    obtain ⟨m, hm, hr⟩ := Option.bind_eq_some_iff.mp hr
    exact ih (h.trans (h.wellFormed.follows_move? hm)) hr

end Follows

section Commute

-- A constraint and a sharding for a value do not get in each other's way: they say the same, or are about
-- different places, of which none fills a third one.
def Clear (p : Program) (x : ValueId) (s : Sharding) (o : OpId) : Prop :=
  ∀ t a b, (p.op o).kind = .constraint t → p.place? (p.input o) = some a → p.place? x = some b →
    (a = b → t = s) ∧ (p.Touches a b → 2 < (p.boundary a).length → t.mesh = s.mesh)

theorem Follows.clear (h : Follows p q) (hc : p.Clear x s o) : q.Clear x s o := by
  intro t a b hk ha hb
  rw [h.input, h.place] at ha
  obtain ⟨hs, hm⟩ := hc t a b (h.constraint.mp hk) ha (h.place x ▸ hb)
  exact ⟨hs, fun ht hl => hm (h.touches a b ht) (h.boundary ▸ hl)⟩

theorem seed?_move? (hp : p.WellFormed) (h : ∀ t, p.dangling? o = some t → p.Clear x s o) :
    (p.move? o).bind (·.seed? x s) = (p.seed? x s).bind (·.move? o) := by
  have hd {q : Program} (hq : p.seed? x s = some q) : q.dangling? o = p.dangling? o :=
    read_of_bare_eq (·.dangling? o) (fun r => r.bare_dangling? o) (bare_of_seed? hq)
  cases ht : p.dangling? o with
  | none =>
    have hm : ∀ q, p.seed? x s = some q → q.move? o = some q := fun q hq => move?_of_eq_none ((hd hq).trans ht)
    rw [move?_of_eq_none ht, Option.bind_some, Option.bind_congr hm, Option.bind_fun_some]
  | some t =>
    obtain ⟨hk, _, _⟩ := dangling?_eq_some_iff.mp ht
    have hseed : ∀ q, p.seed? (p.input o) t = some q → (q.erase o).seed? x s = (q.seed? x s).map (·.erase o) :=
      fun q hq =>
        have hf := hp.follows_seed? hq
        seed?_erase hf.wellFormed (hf.constraint.mpr hk)
    have hmove : ∀ q, p.seed? x s = some q → q.move? o = (q.seed? (p.input o) t).map (·.erase o) := fun q hq => by
      rw [move?_of_eq_some ((hd hq).trans ht), (hp.follows_seed? hq).input]
    have hcomm := seed?_comm (v := p.input o) (w := x) hp fun a b ha hb => h t ht t a b hk ha hb
    calc (p.move? o).bind (·.seed? x s)
      _ = (p.seed? (p.input o) t).bind fun q => (q.erase o).seed? x s := by
        rw [move?_of_eq_some ht, Option.bind_map]
        rfl
      _ = ((p.seed? (p.input o) t).bind (·.seed? x s)).map (·.erase o) := by
        rw [Option.bind_congr hseed, bind_fun_map]
      _ = ((p.seed? x s).bind (·.seed? (p.input o) t)).map (·.erase o) := by rw [hcomm]
      _ = (p.seed? x s).bind (·.move? o) := by rw [← bind_fun_map, Option.bind_congr hmove]

theorem move?_erase (hp : p.WellFormed) (hc : (p.op c).kind = .constraint s)
    (ho : ∀ t, (p.op o).kind = .constraint t → p.output o ≠ p.input c) :
    (p.erase c).move? o = (p.move? o).map (·.erase c) := by
  have hkind : ((p.erase c).op o).kind = (p.op o).kind := by rw [op_erase]
  have houtput : (p.erase c).output o = p.output o := by rw [output, op_erase, output]
  have hd : (p.erase c).dangling? o = p.dangling? o := by
    cases hk : (p.op o).kind with
    | constraint t =>
      simp only [dangling?, hkind, hk, houtput, input_erase, isSettable_erase hp hc, hasUses_erase hp hc (ho t hk)]
    | _ => simp only [dangling?, hkind, hk]
  cases ht : p.dangling? o with
  | none   => rw [move?_of_eq_none ht, move?_of_eq_none (hd.trans ht), Option.map_some]
  | some t =>
    obtain ⟨hk, _, _⟩ := dangling?_eq_some_iff.mp ht
    rw [move?_of_eq_some ht, move?_of_eq_some (hd.trans ht), input_erase, seed?_erase hp hc, Option.map_map,
      Option.map_map]
    refine Option.map_congr fun q hq => ?_
    have hf := hp.follows_seed? hq
    obtain ⟨hco, hcr⟩ := hf.wellFormed.constraint_leaf (hf.constraint.mpr hc)
    obtain ⟨hoo, hor⟩ := hf.wellFormed.constraint_leaf (hf.constraint.mpr hk)
    exact erase_erase hoo hor hco hcr

end Commute

end MeshSharding.Program
