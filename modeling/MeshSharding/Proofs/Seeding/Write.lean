import MeshSharding.Proofs.Arrival
import MeshSharding.Proofs.Place
import MeshSharding.Proofs.WellFormed

namespace MeshSharding

-- Edits of two items of a list commute, and those of the same item if the edits do.
theorem modify_comm {α : Type} {f g : α → α} {i j : Nat} (h : i = j → ∀ a, g (f a) = f (g a)) (l : List α) :
    (l.modify i f).modify j g = (l.modify j g).modify i f := by
  by_cases hij : i = j
  case pos =>
    subst hij
    rw [List.modify_modify_eq, List.modify_modify_eq]
    exact congrArg _ (funext (h rfl))
  case neg => exact List.modify_modify_ne f g l hij

theorem bind_fun_map {α β γ : Type} {x : Option α} {y : α → Option β} {f : β → γ} :
    (x.bind fun a => (y a).map f) = (x.bind y).map f := by
  cases x <;> rfl

namespace Program

-- The kind of the keeper of a place once the sharding there has been replaced.
def fill? (p : Program) (s : Sharding) : Place → OpKind → Option OpKind
  | .edge _,           .edge _            => some (.edge (some s))
  | .argument b index, .named computation =>
    (p.replaceIn computation.inShardings (p.block b).arguments index s).map fun shardings =>
      .named { computation with inShardings := some shardings }
  | .result o index,   .named computation =>
    (p.replaceIn computation.outShardings (p.op o).results index s).map fun shardings =>
      .named { computation with outShardings := some shardings }
  | _,                 _                  => none

-- Replaces the sharding at a place.
def writeAt? (p : Program) (s : Sharding) : Place → Option Program
  | .value v => some (p.storeSharding v (some s))
  | place    => (p.keeper? place).bind fun o => (p.fill? s place (p.op o).kind).map (p.setKind o)

-- The values with a sharding in the same list as that of a place.
def boundary (p : Program) : Place → List ValueId
  | .argument b _       => (p.block b).arguments
  | .result o _         => (p.op o).results
  | .edge _ | .value _  => []

variable {p q : Program} {v w : ValueId} {o u : OpId} {s t : Sharding} {a b : Place} {kind : OpKind}

theorem writeAt?_eq (h : p.keeper? a = some o) : p.writeAt? s a = (p.fill? s a (p.op o).kind).map (p.setKind o) := by
  cases a <;> simp_all [writeAt?, keeper?]

theorem writeAt?_eq_none (h : p.keeper? a = none) (hv : ∀ v, a ≠ .value v) : p.writeAt? s a = none := by
  cases a <;> simp_all [writeAt?, keeper?]

theorem writeSharding?_eq : p.writeSharding? v s = (p.place? v).bind (p.writeAt? s) := by
  cases he : p.edgeForTarget? v with
  | some edge =>
    obtain ⟨previous, hk⟩ := edgeForTarget?_kind he
    simp [writeSharding?, place?, he, writeAt?, keeper?, hk, fill?]
  | none =>
    cases hd : p.definitionOf v with
    | result o index =>
      cases hk : (p.op o).kind <;>
        simp [writeSharding?, place?, he, hd, hk, writeAt?, keeper?, fill?, Function.comp_def]
    | argument c index =>
      cases hb : (p.block c).parent with
      | none   => simp [writeSharding?, place?, he, hd, hb, parentKind?, writeAt?]
      | some o =>
        cases hk : (p.op o).kind <;>
          simp [writeSharding?, place?, he, hd, hb, hk, parentKind?, writeAt?, keeper?, fill?, Function.comp_def]

section Keepers

theorem fill?_congr (ht : q.typeOf = p.typeOf) (hb : ∀ c, (q.block c).arguments = (p.block c).arguments)
    (hr : ∀ o, (q.op o).results = (p.op o).results) : q.fill? s a kind = p.fill? s a kind := by
  have hreplace : q.replaceIn = p.replaceIn := by
    funext shardings values index sharding
    simp only [replaceIn, ht]
  cases a <;> cases kind <;> simp only [fill?, hreplace, hb, hr]

theorem fill?_setKind {other : OpKind} : (p.setKind o other).fill? s a kind = p.fill? s a kind := by
  refine fill?_congr rfl (fun _ => rfl) fun u => ?_
  simp only [setKind, op_modifyOp]
  split <;> rfl

theorem keeper?_setKind {other : OpKind} : (p.setKind o other).keeper? a = p.keeper? a := by
  cases a <;> rfl

theorem kind_ne_terminator_of_fill? {other : OpKind} (h : p.fill? s a kind = some other) : kind ≠ .terminator := by
  rintro rfl
  cases a <;> cases h

theorem setKind_comm {other : OpKind} (h : o ≠ u) :
    (p.setKind o kind).setKind u other = (p.setKind u other).setKind o kind := by
  simp only [setKind, modifyOp, Program.mk.injEq, true_and, and_true]
  exact modify_comm (fun hi => absurd (congrArg OpId.mk hi) h) _

theorem setKind_setKind {other : OpKind} : (p.setKind o other).setKind o kind = p.setKind o kind := by
  simp only [setKind, modifyOp, List.modify_modify_eq]
  rfl

theorem storeSharding_comm {s t : Option Sharding} (h : v ≠ w) :
    (p.storeSharding v s).storeSharding w t = (p.storeSharding w t).storeSharding v s := by
  simp only [storeSharding, modifyValue, Program.mk.injEq, true_and, and_true]
  exact modify_comm (fun hi => absurd (congrArg ValueId.mk hi) h) _

theorem storeSharding_storeSharding {s : Option Sharding} :
    (p.storeSharding v s).storeSharding v s = p.storeSharding v s := by
  simp only [storeSharding, modifyValue, List.modify_modify_eq]
  rfl

-- Where shardings are kept with operations, those that are kept with values do not matter.
theorem writeAt?_storeSharding {t : Option Sharding} (hv : ∀ v, a ≠ .value v) :
    (p.storeSharding w t).writeAt? s a = (p.writeAt? s a).map (·.storeSharding w t) := by
  have hf (kind : OpKind) : (p.storeSharding w t).fill? s a kind = p.fill? s a kind := by
    refine fill?_congr (funext fun v => ?_) (fun _ => rfl) fun _ => rfl
    simp only [typeOf, storeSharding, value_modifyValue]
    split <;> rfl
  have hk : (p.storeSharding w t).keeper? a = p.keeper? a := by cases a <;> rfl
  cases ho : p.keeper? a with
  | none   => rw [writeAt?_eq_none ho hv, writeAt?_eq_none (hk.trans ho) hv, Option.map_none]
  | some o =>
    rw [writeAt?_eq ho, writeAt?_eq (hk.trans ho), hf, Option.map_map]
    rfl

-- Two writes to what one operation keeps.
theorem writeAt?_writeAt? (ha : p.keeper? a = some o) (hb : p.keeper? b = some o) :
    (p.writeAt? s a).bind (·.writeAt? t b) =
      ((p.fill? s a (p.op o).kind).bind (p.fill? t b)).map (p.setKind o) := by
  rw [writeAt?_eq ha]
  cases hf : p.fill? s a (p.op o).kind with
  | none      => rfl
  | some kind =>
    have hk : ((p.setKind o kind).op o).kind = kind :=
      kind_setKind_self (kind_ne_terminator_of_fill? hf)
    rw [Option.map_some, Option.bind_some, Option.bind_some, writeAt?_eq (keeper?_setKind.trans hb), hk, fill?_setKind]
    cases p.fill? t b kind with
    | none       => rfl
    | some other => rw [Option.map_some, Option.map_some, setKind_setKind]

end Keepers

section Boundaries

variable {shardings : Option (List Sharding)} {values : List ValueId} {i j : Nat}

-- If there are no entries yet, the first write fills those that neither of the two writes.
theorem replaceIn_comm (hij : i ≠ j) (hm : shardings = none → 2 < values.length → s.mesh = t.mesh) :
    ((p.replaceIn shardings values i s).bind fun l => p.replaceIn (some l) values j t) =
      (p.replaceIn shardings values j t).bind fun l => p.replaceIn (some l) values i s := by
  cases shardings with
  | some l =>
    simp only [replaceIn, Option.getD_some]
    by_cases hi : i < l.length <;> by_cases hj : j < l.length <;> simp [hi, hj]
    exact List.set_comm _ _ hij
  | none =>
    simp only [replaceIn, Option.getD_none, Option.getD_some, List.length_map]
    by_cases hi : i < values.length <;> by_cases hj : j < values.length <;> simp [hi, hj]
    apply List.ext_getElem?
    intro k
    simp only [List.getElem?_set, List.length_set, List.length_map, List.getElem?_map]
    by_cases hki : i = k
    case pos =>
      subst hki
      simp [hi, Ne.symm hij]
    case neg =>
      by_cases hkj : j = k
      case pos => simp [hki, hkj, hkj ▸ hj]
      case neg =>
        by_cases hk : k < values.length
        case pos => simp [hki, hkj, hm rfl (by omega)]
        case neg => simp [hki, hkj, List.getElem?_eq_none (Nat.le_of_not_lt hk)]

theorem replaceIn_idem : ((p.replaceIn shardings values i s).bind fun l => p.replaceIn (some l) values i s) =
    p.replaceIn shardings values i s := by
  simp only [replaceIn, Option.getD_some]
  split
  case isTrue h  => simp [h]
  case isFalse   => rfl

theorem fill?_idem : (p.fill? s a kind).bind (p.fill? s a) = p.fill? s a kind := by
  cases a <;> cases kind <;> try rfl
  all_goals
    simp only [fill?, Option.bind_map, Function.comp_def, bind_fun_map]
    exact congrArg _ replaceIn_idem

theorem fill?_comm (hp : p.WellFormed) (hne : a ≠ b) (ha : p.keeper? a = some o) (hb : p.keeper? b = some o)
    (hm : p.Touches a b → 2 < (p.boundary a).length → s.mesh = t.mesh) :
    (p.fill? s a (p.op o).kind).bind (p.fill? t b) = (p.fill? t b (p.op o).kind).bind (p.fill? s a) := by
  cases hk : (p.op o).kind with
  | named computation =>
    cases a with
    | argument c i =>
      cases b with
      | argument d j =>
        have hd : d = c := by
          obtain ⟨e, he⟩ := (hp.shaped o).body (by simp [hk, OpKind.isIsolated])
          have hc := (hp.regions c o).mpr ha
          have hd := (hp.regions d o).mpr hb
          simp_all
        subst hd
        have hij : i ≠ j := fun h => hne (h ▸ rfl)
        simp only [fill?, Option.bind_map, Function.comp_def, bind_fun_map]
        exact congrArg _ (replaceIn_comm hij fun hn => hm (.argument ha hb hk (.inr hn)))
      | result u j =>
        cases hi : p.replaceIn computation.inShardings (p.block c).arguments i s <;>
          cases ho : p.replaceIn computation.outShardings (p.op u).results j t <;> simp [fill?, hi, ho]
      | _ => cases hi : p.replaceIn computation.inShardings (p.block c).arguments i s <;> simp [fill?, hi]
    | result u i =>
      cases b with
      | argument c j =>
        cases hi : p.replaceIn computation.inShardings (p.block c).arguments j t <;>
          cases ho : p.replaceIn computation.outShardings (p.op u).results i s <;> simp [fill?, hi, ho]
      | result w j =>
        obtain rfl : u = o := Option.some.inj ha
        obtain rfl : w = u := Option.some.inj hb
        have hij : i ≠ j := fun h => hne (h ▸ rfl)
        simp only [fill?, Option.bind_map, Function.comp_def, bind_fun_map]
        exact congrArg _ (replaceIn_comm hij fun hn => hm (.result hk (.inr hn)))
      | _ => cases ho : p.replaceIn computation.outShardings (p.op u).results i s <;> simp [fill?, ho]
    | _ =>
      cases b with
      | argument c j => cases hi : p.replaceIn computation.inShardings (p.block c).arguments j t <;> simp [fill?, hi]
      | result u j   => cases ho : p.replaceIn computation.outShardings (p.op u).results j t <;> simp [fill?, ho]
      | _            => simp [fill?]
  | edge previous =>
    cases a <;> cases b <;> simp [fill?]
    case edge.edge u w => simp_all [keeper?]
  | _ => cases a <;> cases b <;> simp [fill?]

end Boundaries

section Commute

theorem writeAt?_idem : (p.writeAt? s a).bind (·.writeAt? s a) = p.writeAt? s a := by
  cases ho : p.keeper? a with
  | some o => rw [writeAt?_writeAt? ho ho, fill?_idem, writeAt?_eq ho]
  | none   =>
    cases a with
    | value v => exact congrArg some storeSharding_storeSharding
    | _       => simp [writeAt?, ho]

-- Operations that keep shardings are independent of each other.
theorem writeAt?_comm_of_ne (hou : o ≠ u) (ha : p.keeper? a = some o) (hb : p.keeper? b = some u) :
    (p.writeAt? s a).bind (·.writeAt? t b) = (p.writeAt? t b).bind (·.writeAt? s a) := by
  have hop {o u : OpId} (h : u ≠ o) (kind : OpKind) : (p.setKind o kind).op u = p.op u := by
    rw [setKind, op_modifyOp, if_neg fun hu => h hu.left]
  rw [writeAt?_eq ha, writeAt?_eq hb]
  cases hs : p.fill? s a (p.op o).kind <;> cases ht : p.fill? t b (p.op u).kind <;>
    simp [writeAt?_eq (keeper?_setKind.trans ha), writeAt?_eq (keeper?_setKind.trans hb), hop hou, hop (Ne.symm hou),
      fill?_setKind, hs, ht, setKind_comm hou]

-- A place that no operation keeps is none after a write to a kept one either.
theorem writeAt?_bind_eq_none (ha : p.keeper? a = none) (hv : ∀ v, a ≠ .value v) (hw : ∀ w, b ≠ .value w) :
    (p.writeAt? t b).bind (·.writeAt? s a) = none := by
  cases hb : p.keeper? b with
  | none   => rw [writeAt?_eq_none hb hw, Option.bind_none]
  | some u =>
    rw [writeAt?_eq hb]
    cases p.fill? t b (p.op u).kind with
    | none   => rfl
    | some _ => exact writeAt?_eq_none (keeper?_setKind.trans ha) hv

theorem writeAt?_comm (hp : p.WellFormed) (hs : a = b → s = t)
    (hm : p.Touches a b → 2 < (p.boundary a).length → s.mesh = t.mesh) :
    (p.writeAt? s a).bind (·.writeAt? t b) = (p.writeAt? t b).bind (·.writeAt? s a) := by
  by_cases hne : a = b
  case pos =>
    obtain rfl := hs hne
    rw [hne]
  case neg =>
    by_cases hv : ∃ v, a = .value v <;> by_cases hw : ∃ w, b = .value w
    case pos =>
      obtain ⟨v, rfl⟩ := hv
      obtain ⟨w, rfl⟩ := hw
      exact congrArg some (storeSharding_comm fun h => hne (h ▸ rfl))
    case neg =>
      obtain ⟨v, rfl⟩ := hv
      exact (writeAt?_storeSharding (not_exists.mp hw)).trans Option.map_eq_bind
    case pos =>
      obtain ⟨w, rfl⟩ := hw
      exact ((writeAt?_storeSharding (not_exists.mp hv)).trans Option.map_eq_bind).symm
    case neg =>
      rw [not_exists] at hv hw
      cases ha : p.keeper? a with
      | none   => rw [writeAt?_bind_eq_none ha hv hw, writeAt?_eq_none ha hv, Option.bind_none]
      | some o =>
        cases hb : p.keeper? b with
        | none   => rw [writeAt?_bind_eq_none hb hw hv, writeAt?_eq_none hb hw, Option.bind_none]
        | some u =>
          by_cases hou : o = u
          case pos =>
            subst hou
            rw [writeAt?_writeAt? ha hb, writeAt?_writeAt? hb ha, fill?_comm hp hne ha hb hm]
          case neg => exact writeAt?_comm_of_ne hou ha hb

end Commute

section Seed

-- The program with another sharding of a value, if this can be replaced by it.
def seed? (p : Program) (v : ValueId) (s : Sharding) : Option Program :=
  (p.setSharding v s).toOption

theorem seed?_eq : p.seed? v s =
    if s.check p.meshes (p.typeOf v).shape = .ok () then (p.place? v).bind (p.writeAt? s) else none := by
  ext q
  rw [seed?, toOption_eq_some_iff, setSharding_eq_ok_iff, writeSharding?_eq, Option.ite_none_right_eq_some]

theorem bare_of_seed? (h : p.seed? v s = some q) : q.bare = p.bare :=
  setSharding_bare (toOption_eq_some_iff.mp h)

-- What a value may be seeded with, and where, is the same after another one has been seeded.
theorem seed?_seed? (h : p.seed? w t = some q) : q.seed? v s =
    if s.check p.meshes (p.typeOf v).shape = .ok () then (p.place? v).bind (q.writeAt? s) else none := by
  have hb := bare_of_seed? h
  rw [seed?_eq, read_of_bare_eq (·.meshes) bare_meshes hb, read_of_bare_eq (·.typeOf v) (fun r => r.bare_typeOf v) hb,
    read_of_bare_eq (·.place? v) (fun _ => bare_place?) hb]

theorem seed?_idem : (p.seed? v s).bind (·.seed? v s) = p.seed? v s := by
  rw [Option.bind_congr fun _ => seed?_seed?, seed?_eq]
  split
  case isTrue =>
    cases p.place? v with
    | none   => rfl
    | some a => exact writeAt?_idem
  case isFalse => rfl

theorem seed?_comm (hp : p.WellFormed)
    (h : ∀ a b, p.place? v = some a → p.place? w = some b →
      (a = b → s = t) ∧ (p.Touches a b → 2 < (p.boundary a).length → s.mesh = t.mesh)) :
    (p.seed? v s).bind (·.seed? w t) = (p.seed? w t).bind (·.seed? v s) := by
  rw [Option.bind_congr fun _ => seed?_seed?, Option.bind_congr fun _ => seed?_seed?, seed?_eq, seed?_eq]
  split <;> split
  case isTrue.isTrue =>
    cases hv : p.place? v with
    | none   => simp
    | some a =>
      cases hw : p.place? w with
      | none   => simp
      | some b =>
        obtain ⟨hs, hm⟩ := h a b hv hw
        exact writeAt?_comm hp hs hm
  all_goals simp

end Seed

end Program

end MeshSharding
