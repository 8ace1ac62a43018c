import MeshSharding.Program.Printer
import MeshSharding.Proofs.Nesting.Body
import MeshSharding.Proofs.Text.Reading

namespace MeshSharding

-- Both counters have come at least as far.
instance : Preorder Counters where
  le k l              := k.arguments ≤ l.arguments ∧ k.results ≤ l.results
  le_refl _           := ⟨le_refl _, le_refl _⟩
  le_trans _ _ _ h h' := ⟨h.left.trans h'.left, h.right.trans h'.right⟩

theorem Counters.le_iff {k l : Counters} : k ≤ l ↔ k.arguments ≤ l.arguments ∧ k.results ≤ l.results :=
  Iff.rfl

namespace ValueName

open Text

-- The name is given out while the counters go on from the one state to the other.
def Between (k l : Counters) : ValueName → Prop
  | argument n          => k.arguments ≤ n ∧ n < l.arguments
  | result n | part n _ => k.results ≤ n ∧ n < l.results

variable {a b : ValueName} {k l k' l' : Counters} {n i : Nat}

theorem Between.mono (h : a.Between k l) (hk : k' ≤ k) (hl : l ≤ l') : a.Between k' l' := by
  rw [Counters.le_iff] at hk hl
  cases a <;> simp only [Between] at h ⊢ <;> omega

theorem Between.not_later (h : a.Between k l) (hl : l ≤ k') : ¬ a.Between k' l' := by
  rw [Counters.le_iff] at hl
  cases a <;> simp only [Between] at h ⊢ <;> omega

section Text

theorem toList_text_argument : (argument n).text.toList = '%' :: 'a' :: 'r' :: 'g' :: (n.repr.toList ++ []) := by
  simp [text, toString, -Nat.toList_repr]

theorem toList_text_result : (result n).text.toList = '%' :: (n.repr.toList ++ []) := by
  simp [text, toString, -Nat.toList_repr]

theorem toList_text_part : (part n i).text.toList = '%' :: (n.repr.toList ++ '#' :: i.repr.toList) := by
  simp [text, toString, -Nat.toList_repr]

-- What is written for a number begins with a digit.
theorem repr_append_ne {c : Char} {r s : List Char} (hc : c.isDigit = false) : n.repr.toList ++ r ≠ c :: s := by
  obtain ⟨d, ds, hd, hdigit⟩ := exists_digit n
  rw [hd, List.cons_append]
  intro h
  simp [(List.cons.inj h).left, hc] at hdigit

theorem text_inj (h : a.text = b.text) : a = b := by
  have h := congrArg String.toList h
  have hletter {n : Nat} {r s : List Char} : n.repr.toList ++ r ≠ 'a' :: s := repr_append_ne (by decide)
  have hend : Apart Char.isDigit [] := by simp
  have hindex (i : Nat) : Apart Char.isDigit ('#' :: i.repr.toList) := by simp
  cases a <;> cases b <;>
    simp only [toList_text_argument, toList_text_result, toList_text_part, List.cons.injEq, true_and] at h
  case argument.argument => exact congrArg argument (readable_repr _ _ _ _ hend hend h).left
  case result.result     => exact congrArg result (readable_repr _ _ _ _ hend hend h).left
  case part.part         =>
    obtain ⟨rfl, hrest⟩ := readable_repr _ _ _ _ (hindex _) (hindex _) h
    exact congrArg (part _) (readable_repr _ _ [] [] hend hend (by simpa using hrest)).left
  case result.part       => cases (readable_repr _ _ _ _ hend (hindex _) h).right
  case part.result       => cases (readable_repr _ _ _ _ (hindex _) hend h).right
  case argument.result | argument.part => exact absurd h.symm hletter
  case result.argument | part.argument => exact absurd h hletter

theorem text_ne_unknown (a : ValueName) : a.text ≠ "%<unknown>" := by
  intro h
  have h := congrArg String.toList h
  have hmark {n : Nat} {r s : List Char} : n.repr.toList ++ r ≠ '<' :: s := repr_append_ne (by decide)
  cases a with
  | argument n => simp [toList_text_argument] at h
  | result n   => exact hmark (List.cons.inj (toList_text_result.symm.trans h)).right
  | part n i   => exact hmark (List.cons.inj (toList_text_part.symm.trans h)).right

end Text

end ValueName

namespace ValueNames

-- No name is given out twice.
def Distinct (names : ValueNames) : Prop :=
  (names.map Prod.snd).Nodup

variable {names other : ValueNames} {v w : ValueId} {a : ValueName}

theorem Distinct.append (h : names.Distinct) (h' : other.Distinct)
    (hd : ∀ v w a, (v, a) ∈ names → (w, a) ∉ other) : Distinct (names ++ other) := by
  rw [Distinct, List.map_append]
  refine List.nodup_append.mpr ⟨h, h', ?_⟩
  rintro a ha _ hb rfl
  obtain ⟨⟨v, _⟩, hv, rfl⟩ := List.mem_map.mp ha
  obtain ⟨⟨w, _⟩, hw, rfl⟩ := List.mem_map.mp hb
  exact hd v w _ hv hw

theorem Distinct.inj (h : names.Distinct) (hv : (v, a) ∈ names) (hw : (w, a) ∈ names) : v = w :=
  congrArg Prod.fst (List.inj_on_of_nodup_map h hv hw rfl)

theorem mem_of_name? (h : names.name? v = some a) : (v, a) ∈ names := by
  simp only [name?, Option.map_eq_some_iff] at h
  obtain ⟨⟨w, _⟩, hfind, rfl⟩ := h
  obtain rfl : w = v := by simpa using List.find?_some hfind
  exact List.mem_of_find?_eq_some hfind

theorem exists_name? (h : (v, a) ∈ names) : ∃ b, names.name? v = some b := by
  have hfind : (names.find? (·.1 = v)).isSome := List.find?_isSome.mpr ⟨_, h, by simp⟩
  obtain ⟨entry, he⟩ := Option.isSome_iff_exists.mp hfind
  exact ⟨entry.2, by rw [name?, he, Option.map_some]⟩

end ValueNames

namespace Program

-- The values that a block defines.
def ownValues (p : Program) (b : BlockId) : List ValueId :=
  (p.block b).arguments ++ (p.block b).operations.flatMap fun o => (p.op o).results

variable {p : Program} {o : OpId} {os : List OpId} {v w : ValueId} {vs : List ValueId} {b c d : BlockId}
  {a : ValueName} {k l : Counters} {n m depth number : Nat}

section Own

-- Values that are named one after the other.
theorem mapIdx_values {name : Nat → ValueName} : (vs.mapIdx fun i v => (v, name i)).map Prod.fst = vs := by
  simp [List.mapIdx_eq_ofFn, List.map_ofFn, Function.comp_def]

theorem mapIdx_distinct {name : Nat → ValueName} (h : name.Injective) :
    ValueNames.Distinct (vs.mapIdx fun i v => (v, name i)) := by
  rw [ValueNames.Distinct, List.mapIdx_eq_ofFn, List.map_ofFn, List.nodup_ofFn]
  exact fun i j he => Fin.ext (h he)

theorem resultNames_values : (resultNames number vs).map Prod.fst = vs := by
  unfold resultNames
  split <;> simp [mapIdx_values]

theorem resultNames_distinct : (resultNames number vs).Distinct := by
  unfold resultNames
  split
  case h_3 => exact mapIdx_distinct fun i j h => (ValueName.part.inj h).right
  all_goals simp [ValueNames.Distinct]

-- The number of the next operation with results, behind one with these.
def numberBehind (number : Nat) (results : List ValueId) : Nat :=
  if results.isEmpty then number else number + 1

theorem le_numberBehind : number ≤ numberBehind number vs := by
  unfold numberBehind
  split <;> omega

-- Results have the number of their operation.
theorem between_resultNames (h : (v, a) ∈ resultNames number vs) :
    a.Between ⟨n, number⟩ ⟨m, numberBehind number vs⟩ := by
  have hm : v ∈ (resultNames number vs).map Prod.fst := List.mem_map_of_mem h
  rw [resultNames_values] at hm
  have hnext : numberBehind number vs = number + 1 := if_neg (by simpa using List.ne_nil_of_mem hm)
  rw [hnext]
  unfold resultNames at h
  split at h
  case h_1 => contradiction
  case h_2 =>
    obtain ⟨rfl, rfl⟩ := Prod.mk.inj (List.mem_singleton.mp h)
    simp [ValueName.Between]
  case h_3 =>
    obtain ⟨i, hi, he⟩ := List.mem_mapIdx.mp h
    obtain ⟨-, rfl⟩ := Prod.mk.inj he
    simp [ValueName.Between]

theorem opNames_cons : p.opNames number (o :: os) =
    (resultNames number (p.op o).results ++ (p.opNames (numberBehind number (p.op o).results) os).1,
      (p.opNames (numberBehind number (p.op o).results) os).2) :=
  rfl

theorem opNames_values : (p.opNames number os).1.map Prod.fst = os.flatMap fun o => (p.op o).results := by
  induction os generalizing number with
  | nil          => rfl
  | cons o os ih => rw [opNames_cons, List.map_append, resultNames_values, ih, List.flatMap_cons]

theorem opNames_le : number ≤ (p.opNames number os).2 := by
  induction os generalizing number with
  | nil          => exact le_refl _
  | cons o os ih => exact le_numberBehind.trans ih

theorem between_opNames (h : (v, a) ∈ (p.opNames number os).1) :
    a.Between ⟨n, number⟩ ⟨m, (p.opNames number os).2⟩ := by
  induction os generalizing number with
  | nil          => contradiction
  | cons o os ih =>
    rw [opNames_cons] at h ⊢
    obtain h | h := List.mem_append.mp h
    · exact (between_resultNames h).mono (le_refl _) ⟨le_refl m, opNames_le⟩
    · exact (ih h).mono ⟨le_refl n, le_numberBehind⟩ (le_refl _)

theorem opNames_distinct : (p.opNames number os).1.Distinct := by
  induction os generalizing number with
  | nil          => exact List.nodup_nil
  | cons o os ih =>
    rw [opNames_cons]
    refine resultNames_distinct.append ih fun v w a hv hw => ?_
    have hbefore : a.Between ⟨0, number⟩ ⟨0, _⟩ := between_resultNames hv
    exact hbefore.not_later (le_refl _) (between_opNames (m := 0) hw)

theorem ownNames_values : (p.ownNames k b).1.map Prod.fst = p.ownValues b := by
  simp [ownNames, ownValues, mapIdx_values, opNames_values]

theorem ownNames_le : k ≤ (p.ownNames k b).2 :=
  ⟨Nat.le_add_right _ _, opNames_le⟩

theorem between_ownNames (h : (v, a) ∈ (p.ownNames k b).1) : a.Between k (p.ownNames k b).2 := by
  obtain h | h := List.mem_append.mp h
  · obtain ⟨i, hi, he⟩ := List.mem_mapIdx.mp h
    obtain ⟨-, rfl⟩ := Prod.mk.inj he
    simpa [ValueName.Between, ownNames] using hi
  · exact between_opNames h

theorem ownNames_distinct : (p.ownNames k b).1.Distinct := by
  refine ValueNames.Distinct.append ?_ opNames_distinct fun v w a hv hw => ?_
  · exact mapIdx_distinct fun i j h => Nat.add_left_cancel (ValueName.argument.inj h)
  · obtain ⟨i, _, he⟩ := List.mem_mapIdx.mp hv
    obtain ⟨-, rfl⟩ := Prod.mk.inj he
    -- No argument is named by a counter that stands still.
    have hnone := between_opNames (n := 0) (m := 0) hw
    exact absurd hnone.right (Nat.not_lt_zero _)

end Own

section Nested

-- The block is named from these counters on.
inductive Numbered (p : Program) : Counters → BlockId → Prop
  | body : Numbered p {} entry
  | region {k : Counters} {b c : BlockId} {o : OpId} : Numbered p k b → o ∈ (p.block b).operations →
      c ∈ (p.op o).regions → Numbered p (p.ownNames k b).2 c

theorem Numbered.exists_below (h : p.Numbered k b) : ∃ n, p.Below entry n b := by
  induction h with
  | body => exact ⟨0, .here⟩
  | region _ ho hc ih =>
    obtain ⟨n, hn⟩ := ih
    exact ⟨n + 1, .step hn ho hc⟩

-- What is nested in a block comes after it.
theorem Numbered.exists_later (h : p.Numbered k b) (hc : p.Below b (n + 1) c) :
    ∃ l, p.Numbered l c ∧ (p.ownNames k b).2 ≤ l := by
  induction n generalizing c with
  | zero =>
    cases hc with
    | step hb ho hc =>
      cases hb
      exact ⟨_, h.region ho hc, le_refl _⟩
  | succ n ih =>
    cases hc with
    | step hd ho hc =>
      obtain ⟨l, hl, hle⟩ := ih hd
      exact ⟨_, hl.region ho hc, hle.trans ownNames_le⟩

theorem Valid.entry_notMem_regions (hv : p.Valid) (h : p.Numbered k b) (ho : o ∈ (p.block b).operations) :
    entry ∉ (p.op o).regions := by
  intro he
  obtain ⟨n, hn⟩ := h.exists_below
  have hround := hn.step ho he
  exact hv.sound.rooted.not_below (hv.shallow _ _ hround) hround

theorem Valid.numbered_unique (hv : p.Valid) (h : p.Numbered k b) (h' : p.Numbered l b) : k = l := by
  induction h generalizing l with
  | body =>
    cases h' with
    | body           => rfl
    | region h ho he => exact absurd he (hv.entry_notMem_regions h ho)
  | region h ho hc ih =>
    cases h' with
    | body             => exact absurd hc (hv.entry_notMem_regions h ho)
    | region h' hu hc' =>
      obtain rfl := hv.sound.wellFormed.around_unique ho hc hu hc'
      rw [ih h']

theorem exists_numbered (hk : p.Numbered k b) (h : (v, a) ∈ p.blockNames depth k b) :
    ∃ l c, p.Numbered l c ∧ (v, a) ∈ (p.ownNames l c).1 := by
  induction depth generalizing k b with
  | zero => contradiction
  | succ depth ih =>
    obtain h | h := List.mem_append.mp h
    · exact ⟨k, b, hk, h⟩
    · obtain ⟨c, hc, h⟩ := List.mem_flatMap.mp h
      obtain ⟨o, ho, hc⟩ := List.mem_flatMap.mp hc
      exact ih (hk.region ho hc) h

-- Names are given to all values of the blocks that are met.
theorem exists_mem_blockNames (h : p.Below b n c) (hn : n < depth) (hv : v ∈ p.ownValues c) :
    ∃ a, (v, a) ∈ p.blockNames depth k b := by
  induction depth generalizing k b n with
  | zero => contradiction
  | succ depth ih =>
    cases n with
    | zero =>
      cases h
      rw [← ownNames_values (k := k)] at hv
      obtain ⟨⟨w, a⟩, ha, rfl⟩ := List.mem_map.mp hv
      exact ⟨a, List.mem_append_left _ ha⟩
    | succ n =>
      obtain ⟨o, ho, d, hd, h⟩ := h.exists_head
      obtain ⟨a, ha⟩ := ih h (Nat.lt_of_succ_lt_succ hn)
      exact ⟨a, List.mem_append_right _ (List.mem_flatMap.mpr ⟨d, List.mem_flatMap.mpr ⟨o, ho, hd⟩, ha⟩)⟩

end Nested

section Printed

-- The name of a value in the text of the program.
def printedName (p : Program) (v : ValueId) : String :=
  ValueNames.nameText p.names.reverse v

-- The value belongs to the block of the operation or to one around it.
def DefinedAround (p : Program) (o : OpId) (v : ValueId) : Prop :=
  p.Holds v ∧ ∃ n, p.Below (p.definingBlock v) n (p.op o).block

-- There is one way up from a block.
theorem WellFormed.below_total (hp : p.WellFormed) (hc : p.Below c n b) (hd : p.Below d m b) :
    ∃ i, p.Below c i d ∨ p.Below d i c := by
  induction hc generalizing m with
  | here => exact ⟨m, .inr hd⟩
  | step hc ho hb ih =>
    cases hd with
    | here            => exact ⟨_, .inl (hc.step ho hb)⟩
    | step hd hu hb' =>
      obtain rfl := hp.around_unique ho hb hu hb'
      exact ih hd

theorem WellFormed.definingBlock_of_mem (hp : p.WellFormed) (h : v ∈ p.ownValues b) : p.definingBlock v = b := by
  obtain h | h := List.mem_append.mp h
  · exact hp.definingBlock_of_argument h
  · obtain ⟨o, ho, hr⟩ := List.mem_flatMap.mp h
    exact (hp.definingBlock_of_result hr).trans (hp.members b o ho).right

theorem Holds.mem_ownValues (hp : p.Reachable) (hr : p.Rooted) (h : p.Holds v) :
    p.definingBlock v ∈ p.nested ∧ v ∈ p.ownValues (p.definingBlock v) := by
  have hwf := hp.wellFormed
  obtain ⟨b, hb, ha⟩ | ⟨o, ho, hres⟩ := h
  · rw [hwf.definingBlock_of_argument ha]
    exact ⟨hb, List.mem_append_left _ ha⟩
  · obtain ⟨hb, hm⟩ := hwf.block_nested ((hp.mem_walk_iff hr).mpr ho)
    rw [hwf.definingBlock_of_result hres]
    exact ⟨hb, List.mem_append_right _ (List.mem_flatMap.mpr ⟨o, hm, hres⟩)⟩

theorem Holds.exists_name (hp : p.Reachable) (hr : p.Rooted) (h : p.Holds v) :
    ∃ a, (v, a) ∈ p.names ∧ p.printedName v = a.text := by
  obtain ⟨hb, hv⟩ := h.mem_ownValues hp hr
  obtain ⟨n, hn, hb⟩ := mem_nested_iff.mp hb
  obtain ⟨a, ha⟩ : ∃ a, (v, a) ∈ p.names := exists_mem_blockNames hb hn hv
  obtain ⟨a, hname⟩ := ValueNames.exists_name? (List.mem_reverse.mpr ha)
  refine ⟨a, List.mem_reverse.mp (ValueNames.mem_of_name? hname), ?_⟩
  rw [printedName, ValueNames.nameText, hname]

-- A block that is nested in another one begins after that has ended.
theorem Valid.not_below_of_same_name (hv : p.Valid) (hk : p.Numbered k b) (hl : p.Numbered l c)
    (hva : (v, a) ∈ (p.ownNames k b).1) (hwa : (w, a) ∈ (p.ownNames l c).1) : ¬ p.Below b (n + 1) c := by
  intro h
  obtain ⟨l', hl', hle⟩ := hk.exists_later h
  obtain rfl := hv.numbered_unique hl hl'
  exact (between_ownNames hva).not_later hle (between_ownNames hwa)

theorem Valid.eq_of_same_name (hv : p.Valid) (hva : (v, a) ∈ p.names) (hwa : (w, a) ∈ p.names)
    (hb : p.Below (p.definingBlock v) n d) (hc : p.Below (p.definingBlock w) m d) : v = w := by
  have hp := hv.sound.wellFormed
  obtain ⟨k, b, hk, hva⟩ := exists_numbered .body hva
  obtain ⟨l, c, hl, hwa⟩ := exists_numbered .body hwa
  rw [hp.definingBlock_of_mem (ownNames_values ▸ List.mem_map_of_mem hva)] at hb
  rw [hp.definingBlock_of_mem (ownNames_values ▸ List.mem_map_of_mem hwa)] at hc
  obtain ⟨i, hi⟩ := hp.below_total hb hc
  cases i with
  | succ i =>
    obtain h | h := hi
    · exact absurd h (hv.not_below_of_same_name hk hl hva hwa)
    · exact absurd h (hv.not_below_of_same_name hl hk hwa hva)
  | zero =>
    obtain rfl : b = c := by
      obtain h | h := hi <;> cases h <;> rfl
    obtain rfl := hv.numbered_unique hk hl
    exact ownNames_distinct.inj hva hwa

-- What an operation sees is defined around it.
theorem WellFormed.below_of_inScope (hp : p.WellFormed) (h : p.InScope o v) :
    ∃ n, p.Below (p.definingBlock v) n (p.op o).block := by
  induction h with
  | argument ho ha =>
    rw [hp.definingBlock_of_argument ha, (hp.members _ _ ho).right]
    exact ⟨0, .here⟩
  | result hs hr =>
    rw [hp.definingBlock_of_before hs hr]
    exact ⟨0, .here⟩
  | outer ho _ hr _ hs ih =>
    obtain ⟨n, hn⟩ := ih
    rw [(hp.members _ _ ho).right]
    exact ⟨n + 1, hn.step (hp.mem_operations_of_inScope hs) hr⟩

-- In a program that is accepted, all values are named, and values that are defined around an operation have different
-- names. Each printed operand then stands for one of the values that the operation sees, and for no other one.
-- Regions that lie side by side count from the same numbers, but no operation sees the values of both.
theorem printed_names_unambiguous (hp : p.Reachable) (hv : p.verify = .ok ()) :
    (∀ v, p.Holds v → p.printedName v ≠ "%<unknown>") ∧
    ∀ o, p.isLive o →
      (∀ v ∈ (p.op o).operands, p.printedName v ≠ "%<unknown>") ∧
      (∀ v w, p.DefinedAround o v → p.DefinedAround o w → p.printedName v = p.printedName w → v = w) ∧
      ∀ v ∈ (p.op o).operands, p.InScope o v ∧ ∃! w, p.InScope o w ∧ p.printedName w = p.printedName v := by
  have hwf := hp.wellFormed
  have hvalid := ((verify_iff hwf).mp hv).left
  have hnamed (v : ValueId) (h : p.Holds v) : p.printedName v ≠ "%<unknown>" := by
    obtain ⟨a, -, ha⟩ := h.exists_name hp hvalid.sound.rooted
    exact ha ▸ a.text_ne_unknown
  refine ⟨hnamed, fun o ho => ?_⟩
  have ho := (hp.mem_walk_iff hvalid.sound.rooted).mpr ho
  have hdistinct (v w : ValueId) (hv : p.DefinedAround o v) (hw : p.DefinedAround o w)
      (h : p.printedName v = p.printedName w) : v = w := by
    obtain ⟨a, ha, hva⟩ := hv.left.exists_name hp hvalid.sound.rooted
    obtain ⟨b, hb, hwb⟩ := hw.left.exists_name hp hvalid.sound.rooted
    obtain rfl : a = b := ValueName.text_inj (hva.symm.trans (h.trans hwb))
    obtain ⟨n, hn⟩ := hv.right
    obtain ⟨m, hm⟩ := hw.right
    exact hvalid.eq_of_same_name ha hb hn hm
  have hscope {v : ValueId} (h : p.InScope o v) : p.DefinedAround o v :=
    ⟨hvalid.holds_of_inScope ho h, hwf.below_of_inScope h⟩
  refine ⟨fun v h => hnamed v (hvalid.holds_operand ho h), hdistinct, fun v h => ?_⟩
  have hseen := hvalid.sound.scope o ho v h
  exact ⟨hseen, v, ⟨hseen, rfl⟩, fun w hw => hdistinct w v (hscope hw.left) (hscope hseen) hw.right⟩

-- Two regions that lie side by side, after an operation with two results in front of them.
def siblingRegions? : Option Program :=
  build "main" [
    .argument ⟨[8], .f32⟩ none,
    .region [⟨[8], .f32⟩],
    .region [⟨[8], .f32⟩],
    .append ⟨1⟩ (.generic ⟨"split", false⟩ [⟨1⟩] [⟨[8], .f32⟩, ⟨[8], .f32⟩] []),
    .append ⟨1⟩ (.terminator [⟨4⟩]),
    .append ⟨2⟩ (.terminator [⟨2⟩]),
    .append entry (.generic ⟨"case", false⟩ [⟨0⟩] [⟨[8], .f32⟩] [⟨1⟩, ⟨2⟩]),
    .append entry (.terminator [⟨5⟩])]

def siblingRegions : Program :=
  siblingRegions?.get (by rfl)

theorem printed_names_unambiguous_siblingRegions :
    let p := siblingRegions
    p.Reachable ∧ p.verify = .ok () ∧ p.isLive ⟨1⟩ ∧
      p.printedName ⟨1⟩ = "%arg1" ∧ p.printedName ⟨2⟩ = "%arg1" ∧ p.printedName ⟨4⟩ = "%1#1" ∧
      ∀ w, p.InScope ⟨1⟩ w → p.printedName w = "%1#1" → w = ⟨4⟩ := by
  intro p
  have hp : p.Reachable := build_reachable (Option.some_get _).symm
  have hv : p.verify = .ok () := by rfl
  have hlive : p.isLive ⟨1⟩ := by rfl
  have hname : p.printedName ⟨4⟩ = "%1#1" := by decide
  obtain ⟨hseen, w, -, hunique⟩ := ((printed_names_unambiguous hp hv).right ⟨1⟩ hlive).right.right ⟨4⟩ (by decide)
  refine ⟨hp, hv, hlive, by decide, by decide, hname, fun x hx h => ?_⟩
  rw [hunique x ⟨hx, h.trans hname.symm⟩, hunique ⟨4⟩ ⟨hseen, rfl⟩]

end Printed

end Program

end MeshSharding
