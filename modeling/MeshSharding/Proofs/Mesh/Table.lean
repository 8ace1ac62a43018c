import MeshSharding.Mesh.Table
import MeshSharding.Proofs.Checks

namespace MeshSharding

open Text

section Name

variable {name declared : String} {s : List Char} {c : Char}

-- There is no white space at the ends.
def Text.Trimmed (s : List Char) : Prop :=
  (∀ c ∈ s.head?, isBlank c = false) ∧ ∀ c ∈ s.getLast?, isBlank c = false

theorem Text.dropWhile_eq_self (h : ∀ c ∈ s.head?, isBlank c = false) : s.dropWhile isBlank = s := by
  cases s with
  | nil      => rfl
  | cons c s => rw [List.dropWhile_cons_of_neg (by simp [h c rfl])]

theorem Text.Trimmed.trimBlank_eq (h : Trimmed s) : trimBlank s = s := by
  have hlast : ∀ c ∈ s.reverse.head?, isBlank c = false := by
    rw [List.head?_reverse]
    exact h.right
  rw [trimBlank, dropWhile_eq_self h.left, dropWhile_eq_self hlast, List.reverse_reverse]

theorem MeshRef.mem_withoutAt (h : c ∈ s) : c = '@' ∨ c ∈ withoutAt s := by
  fun_cases withoutAt s with
  | case1 rest => exact List.mem_cons.mp h
  | case2      => exact .inr h

-- White space at an end is not taken away together with an `@`.
theorem MeshRef.exists_blank_withoutAt (h : ¬Trimmed s) : ∃ c ∈ withoutAt s, isBlank c := by
  by_contra hn
  have hall (c : Char) (hc : c ∈ s) : isBlank c = false := by
    obtain rfl | hc := mem_withoutAt hc
    · decide
    · simpa using fun hb => hn ⟨c, hc, hb⟩
  exact h ⟨fun c hc => hall c (List.mem_of_mem_head? hc), fun c hc => hall c (List.mem_of_mem_getLast? hc)⟩

theorem MeshTable.declaredName_eq_ok_iff : declaredName name = .ok declared ↔
    String.ofList (MeshRef.withoutAt (trimBlank name.toList)) = declared ∧ declared ≠ "" ∧
      ∀ c ∈ declared.toList, isBlank c = false := by
  simp only [declaredName, check_bind_eq_ok_iff, require_eq_ok_iff, pure, Except.pure, Except.ok.injEq]
  constructor
  case mp =>
    rintro ⟨⟨hne, hb⟩, rfl⟩
    exact ⟨rfl, by simpa using hne, by simpa using hb⟩
  case mpr =>
    rintro ⟨rfl, hne, hb⟩
    exact ⟨⟨by simpa using hne, by simpa using hb⟩, rfl⟩

end Name

namespace MeshTable

variable {table next : MeshTable} {name declared : String} {mesh other : Mesh} {ref : MeshRef} {error : Error}
  {calls later : List (String × Mesh)}

section Declare

-- The table with a mesh behind all others.
def push (table : MeshTable) (name : String) (mesh : Mesh) : MeshTable where
  meshes    := table.meshes ++ [(name, mesh)]
  positions := (name, table.meshes.length) :: table.positions

@[simp]
theorem meshes_push : (table.push name mesh).meshes = table.meshes ++ [(name, mesh)] :=
  rfl

@[simp]
theorem position?_push {key : String} : (table.push name mesh).position? key =
    if key = name then some table.meshes.length else table.position? key := by
  simp only [position?, push, List.lookup_cons]
  split <;> simp_all

theorem run_declareInPlace_of_ok (h : table.entryName name mesh = .ok declared) :
    (declareInPlace name mesh).run table = (.ok (), table.push declared mesh) := by
  simp [declareInPlace, h, push]
  rfl

theorem run_declareInPlace_of_error (h : table.entryName name mesh = .error error) :
    (declareInPlace name mesh).run table = (.error error, table) := by
  simp [declareInPlace, h]
  rfl

theorem exists_entryName_of_run_eq_ok (h : ((declareInPlace name mesh).run table).1 = .ok ()) :
    ∃ declared, table.entryName name mesh = .ok declared := by
  cases ha : table.entryName name mesh with
  | ok declared => exact ⟨declared, rfl⟩
  | error error => simp [run_declareInPlace_of_error ha] at h

theorem run_eq_self_of_run_eq_error (h : ((declareInPlace name mesh).run table).1 = .error error) :
    ((declareInPlace name mesh).run table).2 = table := by
  cases ha : table.entryName name mesh with
  | ok declared => simp [run_declareInPlace_of_ok ha] at h
  | error error => rw [run_declareInPlace_of_error ha]

theorem declare_eq_ok_iff : table.declare name mesh = .ok next ↔
    ∃ declared, table.entryName name mesh = .ok declared ∧ table.push declared mesh = next := by
  cases h : table.entryName name mesh with
  | ok declared => simp [declare, run_declareInPlace_of_ok h, Except.map]
  | error error => simp [declare, run_declareInPlace_of_error h, Except.map]

theorem entryName_eq_ok_iff : table.entryName name mesh = .ok declared ↔
    declaredName name = .ok declared ∧ table.position? declared = none ∧
      table.conflict? mesh.deviceCount = none := by
  simp only [entryName, bind_eq_ok_iff, exists_require_eq_ok_iff]
  constructor
  case mp =>
    rintro ⟨declared, hn, hp, h⟩
    split at h
    case h_1 => contradiction
    case h_2 hc =>
      cases h
      exact ⟨hn, hp, hc⟩
  case mpr =>
    rintro ⟨hn, hp, hc⟩
    exact ⟨declared, hn, hp, by rw [hc]; rfl⟩

end Declare

section Lookup

theorem get?_push_self : (table.push name mesh).get? name = some mesh := by
  simp [get?]

-- What is found stays where it is, as names are not declared twice.
theorem get?_push_of_some {key : String} (hn : table.position? name = none) (h : table.get? key = some other) :
    (table.push name mesh).get? key = some other := by
  obtain ⟨i, hi, hm⟩ := Option.bind_eq_some_iff.mp h
  have hne : key ≠ name := by
    rintro rfl
    simp [hn] at hi
  obtain ⟨entry, he, rfl⟩ := Option.map_eq_some_iff.mp hm
  have hlt : i < table.meshes.length := (List.getElem?_eq_some_iff.mp he).choose
  simp [get?, hne, hi, List.getElem?_append_left hlt, he]

theorem resolve_symbol_eq_ok_iff : table.resolve (.symbol name) = .ok mesh ↔ table.get? name = some mesh := by
  rw [resolve]
  cases table.get? name <;> simp

theorem resolve_push (hn : table.position? name = none) (h : table.resolve ref = .ok other) :
    (table.push name mesh).resolve ref = .ok other := by
  cases ref with
  | literal mesh => exact h
  | symbol key =>
    rw [resolve_symbol_eq_ok_iff] at h ⊢
    exact get?_push_of_some hn h

theorem resolve_declare (h : table.declare name mesh = .ok next) (hr : table.resolve ref = .ok other) :
    next.resolve ref = .ok other := by
  obtain ⟨declared, ha, rfl⟩ := declare_eq_ok_iff.mp h
  exact resolve_push (entryName_eq_ok_iff.mp ha).right.left hr

end Lookup

section WellFormed

-- The names of a table are in order, and so are the numbers of devices of its meshes.
structure WellFormed (table : MeshTable) : Prop where
  distinct   : (table.meshes.map (·.1)).Nodup
  named      : ∀ entry ∈ table.meshes, entry.1 ≠ "" ∧ ∀ c ∈ entry.1.toList, isBlank c = false
  positioned : ∀ name i, table.position? name = some i ↔ (table.meshes.map (·.1))[i]? = some name
  single     : (table.positions.map (·.1)).Nodup
  counted    : ∀ entry ∈ table.meshes, ∀ other ∈ table.meshes, entry.2.deviceCount = other.2.deviceCount ∨
    entry.2.deviceCount = 1 ∨ other.2.deviceCount = 1

theorem getElem?_concat_eq_some_iff {α : Type} {items : List α} {a b : α} {i : Nat} :
    (items ++ [a])[i]? = some b ↔ items[i]? = some b ∨ i = items.length ∧ a = b := by
  grind

theorem wellFormed_empty : ({} : MeshTable).WellFormed := by
  constructor <;> simp [position?]

theorem conflict?_eq_none_iff {count : Nat} : table.conflict? count = none ↔
    ∀ entry ∈ table.meshes, count = entry.2.deviceCount ∨ count = 1 ∨ entry.2.deviceCount = 1 := by
  rw [conflict?, List.find?_eq_none]
  refine forall₂_congr fun entry _ => ?_
  grind

namespace WellFormed

theorem position?_eq_none_iff (h : table.WellFormed) :
    table.position? name = none ↔ name ∉ table.meshes.map (·.1) := by
  rw [Option.eq_none_iff_forall_ne_some, List.mem_iff_getElem?, not_exists]
  exact forall_congr' fun i => not_congr (h.positioned name i)

-- No mesh is found by a name with white space in it.
theorem get?_eq_none_of_isBlank (h : table.WellFormed) {c : Char} (hc : c ∈ name.toList) (hb : isBlank c) :
    table.get? name = none := by
  have hn : name ∉ table.meshes.map (·.1) := by
    intro hm
    obtain ⟨entry, he, rfl⟩ := List.mem_map.mp hm
    simp [(h.named entry he).right c hc] at hb
  rw [get?, h.position?_eq_none_iff.mpr hn, Option.bind_none]

theorem push (h : table.WellFormed) (ha : table.entryName name mesh = .ok declared) :
    (table.push declared mesh).WellFormed := by
  obtain ⟨hdeclared, hn, hc⟩ := entryName_eq_ok_iff.mp ha
  obtain ⟨-, hname⟩ := declaredName_eq_ok_iff.mp hdeclared
  have hcount := conflict?_eq_none_iff.mp hc
  have hnew := h.position?_eq_none_iff.mp hn
  constructor
  case distinct =>
    rw [meshes_push, List.map_append, List.nodup_append]
    refine ⟨h.distinct, List.nodup_singleton _, ?_⟩
    rintro key hk _ hs rfl
    obtain rfl := List.mem_singleton.mp hs
    exact hnew hk
  case named =>
    rw [meshes_push, List.forall_mem_append, List.forall_mem_singleton]
    exact ⟨h.named, hname⟩
  case positioned =>
    intro key i
    rw [position?_push, meshes_push, List.map_append, List.map_singleton]
    rw [getElem?_concat_eq_some_iff, List.length_map]
    split
    case isTrue hk =>
      subst hk
      have hnone : (table.meshes.map (·.1))[i]? ≠ some key := fun hi => hnew (List.mem_of_getElem? hi)
      simp only [hnone, Option.some.injEq, false_or, and_true, eq_comm]
    case isFalse hk => simp [h.positioned key i, Ne.symm hk]
  case single =>
    refine List.nodup_cons.mpr ⟨fun hm => ?_, h.single⟩
    obtain ⟨entry, he, hk⟩ := List.mem_map.mp hm
    simpa [hk] using List.lookup_eq_none_iff.mp hn entry he
  case counted =>
    simp only [meshes_push, List.forall_mem_append, List.forall_mem_singleton]
    refine ⟨fun entry he => ⟨h.counted entry he, ?_⟩, hcount, .inl trivial⟩
    exact (hcount entry he).imp Eq.symm Or.symm

end WellFormed

end WellFormed

section Calls

-- Declares meshes one after the other. A call that is refused does not keep the others from being made.
def declareAll (calls : List (String × Mesh)) : StateM MeshTable (List (Except Error Unit)) :=
  calls.mapM fun call => declareInPlace call.1 call.2

-- The calls that were not refused.
def accepted (calls : List (String × Mesh)) (results : List (Except Error Unit)) : List (String × Mesh) :=
  ((calls.zip results).filter (·.2.isOk)).map (·.1)

-- The entry of a table that a call makes.
def Enters (call entry : String × Mesh) : Prop :=
  declaredName call.1 = .ok entry.1 ∧ call.2 = entry.2

theorem run_declareAll_cons {call : String × Mesh} : (declareAll (call :: calls)).run table =
    (((declareInPlace call.1 call.2).run table).1 ::
        ((declareAll calls).run ((declareInPlace call.1 call.2).run table).2).1,
      ((declareAll calls).run ((declareInPlace call.1 call.2).run table).2).2) := by
  simp [declareAll]
  rfl

theorem run_declareAll_append : ((declareAll (calls ++ later)).run table).2 =
    ((declareAll later).run ((declareAll calls).run table).2).2 := by
  induction calls generalizing table with
  | nil => rfl
  | cons call calls ih => rw [List.cons_append, run_declareAll_cons, run_declareAll_cons, ih]

-- By induction on the calls: what each accepted mesh keeps holds after all of them.
theorem declareAll_keeps {P : MeshTable → Prop}
    (hpush : ∀ table name mesh declared, P table → table.entryName name mesh = .ok declared →
      P (table.push declared mesh))
    (h : P table) : P ((declareAll calls).run table).2 := by
  induction calls generalizing table with
  | nil => exact h
  | cons call calls ih =>
    rw [run_declareAll_cons]
    apply ih
    cases ha : table.entryName call.1 call.2 with
    | ok declared =>
      rw [run_declareInPlace_of_ok ha]
      exact hpush table call.1 call.2 declared h ha
    | error error =>
      rw [run_declareInPlace_of_error ha]
      exact h

theorem wellFormed_declareAll (h : table.WellFormed) : ((declareAll calls).run table).2.WellFormed :=
  declareAll_keeps (fun _ _ _ _ h ha => h.push ha) h

theorem resolve_declareAll (h : table.resolve ref = .ok other) :
    ((declareAll calls).run table).2.resolve ref = .ok other :=
  declareAll_keeps (P := fun table => table.resolve ref = .ok other)
    (fun _ _ _ _ h ha => resolve_push (entryName_eq_ok_iff.mp ha).right.left h) h

theorem length_declareAll : ((declareAll calls).run table).1.length = calls.length := by
  induction calls generalizing table with
  | nil => rfl
  | cons call calls ih => rw [run_declareAll_cons, List.length_cons, List.length_cons, ih]

-- The calls that are accepted put their meshes behind those that the table has, in their order.
theorem meshes_declareAll (table : MeshTable) (calls : List (String × Mesh)) :
    ∃ entries, ((declareAll calls).run table).2.meshes = table.meshes ++ entries ∧
      List.Forall₂ Enters (accepted calls ((declareAll calls).run table).1) entries := by
  induction calls generalizing table with
  | nil => exact ⟨[], (List.append_nil _).symm, .nil⟩
  | cons call calls ih =>
    rw [run_declareAll_cons]
    cases ha : table.entryName call.1 call.2 with
    | ok declared =>
      obtain ⟨entries, hm, he⟩ := ih (table.push declared call.2)
      have henters : Enters call (declared, call.2) := ⟨(entryName_eq_ok_iff.mp ha).left, rfl⟩
      rw [run_declareInPlace_of_ok ha]
      refine ⟨(declared, call.2) :: entries, ?_, .cons henters he⟩
      rw [hm, meshes_push, List.append_assoc, List.singleton_append]
    | error error =>
      rw [run_declareInPlace_of_error ha]
      exact ih table

-- A new table after any calls: its names and numbers of devices are in order, it has the meshes of the calls that
-- were not refused, and one that is refused changes nothing.
theorem declareAll_invariant (calls : List (String × Mesh)) :
    let outcome := (declareAll calls).run {}
    outcome.2.WellFormed ∧ outcome.1.length = calls.length ∧
      List.Forall₂ Enters (accepted calls outcome.1) outcome.2.meshes ∧
      ∀ name mesh error, ((declareInPlace name mesh).run outcome.2).1 = .error error →
        ((declareInPlace name mesh).run outcome.2).2 = outcome.2 := by
  intro outcome
  obtain ⟨entries, hm, he⟩ := meshes_declareAll {} calls
  refine ⟨wellFormed_declareAll wellFormed_empty, length_declareAll, ?_, fun name mesh error hr => ?_⟩
  case refine_1 => rwa [hm]
  case refine_2 => exact run_eq_self_of_run_eq_error hr

def pair : Mesh :=
  ⟨[⟨"a", 2⟩], []⟩

def quad : Mesh :=
  ⟨[⟨"b", 4⟩], []⟩

theorem declareAll_invariant_refusals :
    let calls := [("mesh", pair), (" @mesh", quad), ("one", .maximal 7), ("my mesh", pair)]
    let outcome := (declareAll calls).run {}
    outcome = ([.ok (), .error (.repeatedMesh "mesh"), .ok (), .error (.badMeshName "my mesh")],
        ⟨[("mesh", pair), ("one", .maximal 7)], [("one", 1), ("mesh", 0)]⟩) ∧
      List.Forall₂ Enters [("mesh", pair), ("one", .maximal 7)] outcome.2.meshes ∧
      ((declareInPlace "quad" quad).run outcome.2).1 = .error (.deviceCountConflict "quad" 4 "mesh" 2) ∧
      ((declareInPlace "quad" quad).run outcome.2).2 = outcome.2 := by
  intro calls outcome
  have hrefused : ((declareInPlace "quad" quad).run outcome.2).1 =
      .error (.deviceCountConflict "quad" 4 "mesh" 2) := by
    rfl
  obtain ⟨-, -, henters, hkept⟩ := declareAll_invariant calls
  exact ⟨rfl, henters, hrefused, hkept "quad" quad _ hrefused⟩

-- A declared mesh is found from then on by the name that it was declared under. That name is the one in the
-- reference as well, if there was no white space at the ends of the name that was given, and only then.
theorem resolve_ofName_declared (calls later : List (String × Mesh))
    (h : ((declareInPlace name mesh).run ((declareAll calls).run {}).2).1 = .ok ()) :
    let table := ((declareAll (calls ++ (name, mesh) :: later)).run {}).2
    (table.resolve (.ofName name) = .ok mesh ↔ Trimmed name.toList) ∧
      (¬Trimmed name.toList → ∃ other, MeshRef.ofName name = .symbol other ∧
        table.resolve (.ofName name) = .error (.unknownMesh other)) ∧
      ∃ declared, declaredName name = .ok declared ∧ table.resolve (.symbol declared) = .ok mesh := by
  intro table
  have hw : table.WellFormed := wellFormed_declareAll wellFormed_empty
  obtain ⟨declared, hdeclared, hr⟩ : ∃ declared, declaredName name = .ok declared ∧
      table.resolve (.symbol declared) = .ok mesh := by
    obtain ⟨declared, ha⟩ := exists_entryName_of_run_eq_ok h
    refine ⟨declared, (entryName_eq_ok_iff.mp ha).left, ?_⟩
    simp only [table, run_declareAll_append, run_declareAll_cons, run_declareInPlace_of_ok ha]
    exact resolve_declareAll (resolve_symbol_eq_ok_iff.mpr get?_push_self)
  have hmissing (ht : ¬Trimmed name.toList) : ∃ other, MeshRef.ofName name = .symbol other ∧
      table.resolve (.ofName name) = .error (.unknownMesh other) := by
    obtain ⟨c, hc, hb⟩ := MeshRef.exists_blank_withoutAt ht
    have hnone : table.get? (String.ofList (MeshRef.withoutAt name.toList)) = none :=
      hw.get?_eq_none_of_isBlank (by rwa [String.toList_ofList]) hb
    exact ⟨_, rfl, by rw [MeshRef.ofName, resolve, hnone]⟩
  refine ⟨⟨fun hm => ?_, fun ht => ?_⟩, hmissing, declared, hdeclared, hr⟩
  case refine_1 =>
    by_contra ht
    obtain ⟨other, -, he⟩ := hmissing ht
    simp [he] at hm
  case refine_2 =>
    obtain ⟨rfl, -⟩ := declaredName_eq_ok_iff.mp hdeclared
    rwa [ht.trimBlank_eq] at hr

theorem resolve_ofName_declared_behindAt :
    let calls := [("one", .maximal 7)]
    let later := [("mesh", .maximal 3), ("@@mesh", .maximal 5)]
    ((declareInPlace "@mesh" pair).run ((declareAll calls).run {}).2).1 = .ok () ∧
      ((declareAll (calls ++ ("@mesh", pair) :: later)).run {}).2.resolve (.ofName "@mesh") = .ok pair := by
  intro calls later
  have hdeclared : ((declareInPlace "@mesh" pair).run ((declareAll calls).run {}).2).1 = .ok () := by rfl
  have htrimmed : Trimmed "@mesh".toList := by
    constructor <;> rintro c ⟨⟩ <;> rfl
  obtain ⟨hresolve, -⟩ := resolve_ofName_declared calls later hdeclared
  exact ⟨hdeclared, hresolve.mpr htrimmed⟩

-- The blank at the front is left out of the name that is declared, but not of the one that is looked up.
theorem resolve_ofName_declared_not_blankFront :
    ((declareInPlace " mesh" pair).run {}).1 = .ok () ∧
      ((declareAll [(" mesh", pair)]).run {}).2.resolve (.ofName " mesh") = .error (.unknownMesh " mesh") := by
  constructor <;> rfl

end Calls

end MeshTable

end MeshSharding
