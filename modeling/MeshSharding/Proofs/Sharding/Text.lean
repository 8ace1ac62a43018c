import MeshSharding.Proofs.Mesh.Table
import MeshSharding.Proofs.Text.Reading
import MeshSharding.Proofs.Verify.Operand

namespace MeshSharding

open Text

variable {r s : List Char}

section Axes

theorem SubAxis.toList_text (sub : SubAxis) :
    sub.text.toList = '(' :: (sub.preSize.repr.toList ++ ')' :: sub.size.repr.toList) := by
  simp [text, toString, -Nat.toList_repr]

theorem SubAxis.readable : Readable SubAxis.text Char.isDigit := by
  intro a b r s hr hs h
  simp only [toList_text, List.cons_append, List.append_assoc, List.cons.injEq, true_and] at h
  obtain ⟨hpre, h⟩ := readable_repr _ _ _ _ (apart_cons.mpr rfl) (apart_cons.mpr rfl) h
  obtain ⟨hsize, hrest⟩ := readable_repr _ _ _ _ hr hs (List.cons_inj_right _ |>.mp h)
  exact ⟨by cases a; cases b; simp_all, hrest⟩

-- Behind a whole axis there may be no colon, which begins a sub-axis.
def AxisRef.runs (c : Char) : Bool :=
  c = ':' || c.isDigit

theorem AxisRef.toList_text (axis : AxisRef) :
    axis.text.toList = (quoted axis.name).toList ++ suffixed ':' SubAxis.text axis.part := by
  cases hpart : axis.part <;> simp [text, hpart, toString, suffixed]

theorem AxisRef.readable : Readable AxisRef.text AxisRef.runs := by
  intro a b r s hr hs h
  obtain ⟨name, part⟩ := a
  obtain ⟨name', part'⟩ := b
  simp only [toList_text, List.append_assoc] at h
  obtain ⟨rfl, hpart⟩ := closed_quoted _ _ _ _ (by simp) (by simp) h
  obtain ⟨rfl, hrest⟩ := suffixed_inj SubAxis.readable rfl (by simp +contextual [runs]) hr hs hpart
  exact ⟨rfl, hrest⟩

theorem AxisRef.start (axis : AxisRef) : ∃ cs, axis.text.toList = '"' :: cs := by
  simp [toList_text, toList_quoted]

theorem AxisRef.listed {close : Char} (hr : runs close = false) (hne : close ≠ ',') (hq : close ≠ '"') :
    Listed AxisRef.text AxisRef.runs close where
  readable := readable
  comma    := rfl
  closing  := hr
  ne       := hne
  start a  := ⟨'"', (start a).choose, (start a).choose_spec, hq.symm⟩

-- A list of axes as it is written for replicated ones.
theorem AxisRef.closed_listText : Closed AxisRef.listText :=
  closed_inBraces (listed rfl (by decide) (by decide))

end Axes

section Dims

-- An axis of a dimension, or the mark of an open one.
def itemText : Option AxisRef → String
  | some axis => axis.text
  | none      => "?"

theorem readable_itemText : Readable itemText AxisRef.runs := by
  have hmark (axis : AxisRef) (r s : List Char) : axis.text.toList ++ r ≠ '?' :: s := by
    obtain ⟨cs, hcs⟩ := axis.start
    simp [hcs]
  intro a b r s hr hs h
  cases a with
  | none =>
    cases b with
    | none   => exact ⟨rfl, by simpa [itemText] using h⟩
    | some b => exact absurd h.symm (hmark b s r)
  | some a =>
    cases b with
    | none   => exact absurd h (hmark a r s)
    | some b =>
      obtain ⟨rfl, hrest⟩ := AxisRef.readable a b r s hr hs h
      exact ⟨rfl, hrest⟩

theorem listed_itemText : Listed itemText AxisRef.runs '\x7d' where
  readable := readable_itemText
  comma    := rfl
  closing  := rfl
  ne       := by decide
  start a  := by
    cases a with
    | none   => exact ⟨'?', [], rfl, by decide⟩
    | some a => exact ⟨'"', a.start.choose, a.start.choose_spec, by decide⟩

namespace DimSharding

def items (dim : DimSharding) : List (Option AxisRef) :=
  dim.axes.map some ++ if dim.closed then [] else [none]

theorem items_inj {a b : DimSharding} (h : a.items = b.items) : a.axes = b.axes ∧ a.closed = b.closed := by
  have haxes (dim : DimSharding) : dim.items.filterMap id = dim.axes := by
    cases hc : dim.closed <;> simp [items, hc, List.filterMap_map]
  have hclosed (dim : DimSharding) : none ∈ dim.items ↔ dim.closed = false := by
    cases hc : dim.closed <;> simp [items, hc]
  refine ⟨by rw [← haxes a, h, haxes b], Bool.eq_iff_iff.mpr ?_⟩
  have hmark := (hclosed a).symm.trans (h ▸ hclosed b)
  simpa using not_congr hmark

-- Behind a dimension without a priority there may be no letter that begins one.
def runs (c : Char) : Bool :=
  c = 'p' || c.isDigit

theorem toList_text (dim : DimSharding) : dim.text.toList =
    (inBraces (dim.items.map itemText)).toList ++ suffixed 'p' Nat.repr dim.priority := by
  have hitems : dim.axes.map AxisRef.text ++ (if dim.isOpen then ["?"] else []) = dim.items.map itemText := by
    cases hc : dim.closed <;> simp [items, isOpen, hc, itemText]
  cases hp : dim.priority <;> simp [text, hitems, hp, toString, suffixed, -Nat.toList_repr]

theorem readable : Readable text runs := by
  intro a b r s hr hs h
  obtain ⟨axes, closed, priority⟩ := a
  obtain ⟨axes', closed', priority'⟩ := b
  simp only [toList_text, List.append_assoc] at h
  obtain ⟨hitems, hpriority⟩ := closed_inBraces listed_itemText _ _ _ _ (by simp) (by simp) h
  obtain ⟨rfl, rfl⟩ := items_inj hitems
  obtain ⟨rfl, hrest⟩ := suffixed_inj readable_repr rfl (by simp +contextual [runs]) hr hs hpriority
  exact ⟨rfl, hrest⟩

theorem listed : Listed text runs ']' where
  readable := readable
  comma    := rfl
  closing  := rfl
  ne       := by decide
  start a  := by simp [toList_text, inBraces]

end DimSharding

end Dims

section Meshes

theorem MeshAxis.toList_text (axis : MeshAxis) :
    axis.text.toList = (quoted axis.name).toList ++ '=' :: axis.size.repr.toList := by
  simp [text, toString, -Nat.toList_repr]

theorem MeshAxis.readable : Readable MeshAxis.text Char.isDigit := by
  intro a b r s hr hs h
  obtain ⟨name, size⟩ := a
  obtain ⟨name', size'⟩ := b
  simp only [toList_text, List.append_assoc, List.cons_append] at h
  obtain ⟨rfl, hsize⟩ := closed_quoted _ _ _ _ (by simp) (by simp) h
  obtain ⟨rfl, hrest⟩ := readable_repr _ _ _ _ hr hs (List.cons_inj_right _ |>.mp hsize)
  exact ⟨rfl, hrest⟩

theorem MeshAxis.listed : Listed MeshAxis.text Char.isDigit ']' where
  readable := readable
  comma    := rfl
  closing  := rfl
  ne       := by decide
  start a  := by simp [toList_text, toList_quoted]

theorem listed_repr : Listed Nat.repr Char.isDigit ']' where
  readable := readable_repr
  comma    := rfl
  closing  := rfl
  ne       := by decide
  start n  := by
    obtain ⟨c, cs, hc, hdigit⟩ := exists_digit n
    refine ⟨c, cs, hc, ?_⟩
    rintro rfl
    contradiction

theorem Mesh.toList_text (mesh : Mesh) : mesh.text.toList = '<' :: ((inBrackets (mesh.axes.map MeshAxis.text)).toList ++
    ((if mesh.deviceIds = [] then "" else ", device_ids=" ++ inBrackets (mesh.deviceIds.map Nat.repr)).toList ++
      ['>'])) := by
  simp [text, toString]

theorem Mesh.closed_text : Closed Mesh.text := by
  intro a b r s _ _ h
  obtain ⟨axes, ids⟩ := a
  obtain ⟨axes', ids'⟩ := b
  simp only [toList_text, List.cons_append, List.append_assoc, List.cons.injEq, true_and] at h
  obtain ⟨rfl, hids⟩ := closed_inBrackets MeshAxis.listed _ _ _ _ (by simp) (by simp) h
  obtain ⟨rfl, hrest⟩ := trailing_inj (closed_inBrackets listed_repr) (by simp) hids
  exact ⟨rfl, hrest⟩

-- The mesh is written out in place, or its name is without white space.
def MeshRef.Unspaced : MeshRef → Prop
  | symbol name => ∀ c ∈ name.toList, isBlank c = false
  | literal _   => True

namespace MeshTable

theorem unspaced_of_declaredName {name declared : String} (h : declaredName name = .ok declared) :
    (MeshRef.symbol declared).Unspaced :=
  (declaredName_eq_ok_iff.mp h).right.right

-- No other names can be declared.
theorem unspaced_of_declare {table next : MeshTable} {name : String} {mesh : Mesh}
    (h : table.declare name mesh = .ok next) (ht : ∀ entry ∈ table.meshes, (MeshRef.symbol entry.1).Unspaced) :
    ∀ entry ∈ next.meshes, (MeshRef.symbol entry.1).Unspaced := by
  obtain ⟨declared, ha, rfl⟩ := declare_eq_ok_iff.mp h
  have hnew := unspaced_of_declaredName (entryName_eq_ok_iff.mp ha).left
  exact List.forall_mem_append.mpr ⟨ht, List.forall_mem_singleton.mpr hnew⟩

end MeshTable

-- The name ends at the comma before the first white space.
theorem MeshRef.text_inj {a b : MeshRef} (ha : a.Unspaced) (hb : b.Unspaced)
    (h : a.text.toList ++ ',' :: ' ' :: r = b.text.toList ++ ',' :: ' ' :: s) : a = b ∧ r = s := by
  cases a with
  | symbol name =>
    cases b with
    | symbol name' =>
      simp only [text, toString, String.toList_append, List.append_assoc, List.append_cancel_left_eq] at h
      have hword (name : String) (hn : (symbol name).Unspaced) (r : List Char) :
          (name.toList ++ [','] ++ ' ' :: r).takeWhile (fun c => !isBlank c) = name.toList ++ [','] := by
        refine takeWhile_append (List.forall_mem_append.mpr ⟨fun c hc => ?_, ?_⟩) (apart_cons.mpr rfl)
        · simp [hn c hc]
        · exact List.forall_mem_singleton.mpr rfl
      rw [List.append_cons, List.append_cons name'.toList] at h
      have hname : name.toList ++ [','] = name'.toList ++ [','] := by
        rw [← hword name ha r, h, hword name' hb s]
      obtain rfl := String.toList_inj.mp (List.append_cancel_right hname)
      exact ⟨rfl, by simpa using h⟩
    | literal mesh' => simp [text, toString] at h
  | literal mesh =>
    cases b with
    | symbol name'  => simp [text, toString] at h
    | literal mesh' =>
      simp only [text, toString, String.toList_append, List.append_assoc, List.append_cancel_left_eq] at h
      obtain ⟨rfl, hrest⟩ := Mesh.closed_text _ _ _ _ (by simp) (by simp) h
      exact ⟨rfl, by simpa using hrest⟩

end Meshes

theorem Sharding.toList_text (sharding : Sharding) : sharding.text.toList = '<' :: (sharding.mesh.text.toList ++
    ',' :: ' ' :: ((inBrackets (sharding.dims.map DimSharding.text)).toList ++
      ((if sharding.replicated = [] then "" else ", replicated=" ++ AxisRef.listText sharding.replicated).toList ++
        ['>']))) := by
  simp [text, toString]

-- Shardings with the same text are the same.
theorem Sharding.text_eq_iff {a b : Sharding} (ha : a.mesh.Unspaced) (hb : b.mesh.Unspaced) :
    a.text = b.text ↔ a = b := by
  refine ⟨fun h => ?_, congrArg text⟩
  obtain ⟨mesh, dims, replicated⟩ := a
  obtain ⟨mesh', dims', replicated'⟩ := b
  have h := congrArg String.toList h
  simp only [toList_text, List.cons.injEq, true_and] at h
  obtain ⟨rfl, hdims⟩ := MeshRef.text_inj ha hb h
  obtain ⟨rfl, hreplicated⟩ := closed_inBrackets DimSharding.listed _ _ _ _ (by simp) (by simp) hdims
  obtain ⟨rfl, -⟩ := trailing_inj AxisRef.closed_listText (by simp) hreplicated
  rfl

-- A sub-axis, and an axis with a name that looks like one.
theorem Sharding.text_eq_iff_sub :
    let part : Sharding := ⟨.symbol "mesh", [{ axes := [.sub "x" 1 2], closed := false }], []⟩
    let whole : Sharding := ⟨.symbol "mesh", [{ axes := [.whole "x\":(1)2"], closed := false }], []⟩
    part.mesh.Unspaced ∧ whole.mesh.Unspaced ∧ part.text ≠ whole.text := by
  intro part whole
  have hmesh : (MeshRef.symbol "mesh").Unspaced := by simp [MeshRef.Unspaced, isBlank]
  have hp : part.mesh.Unspaced := hmesh
  have hw : whole.mesh.Unspaced := hmesh
  exact ⟨hp, hw, fun h => absurd ((text_eq_iff hp hw).mp h) (by decide)⟩

end MeshSharding
