import Mathlib.Data.List.Basic
import MeshSharding.Text.Quoted

namespace MeshSharding.Text

-- The text does not begin with one of the characters.
def Apart (runs : Char → Bool) (rest : List Char) : Prop :=
  ∀ c ∈ rest.head?, runs c = false

@[simp]
theorem apart_nil {runs : Char → Bool} : Apart runs [] := by
  simp [Apart]

@[simp]
theorem apart_cons {runs : Char → Bool} {c : Char} {rest : List Char} :
    Apart runs (c :: rest) ↔ runs c = false := by
  simp [Apart]

theorem Apart.mono {runs other : Char → Bool} {rest : List Char} (h : Apart runs rest)
    (hrun : ∀ c, other c → runs c) : Apart other rest := by
  intro c hc
  by_contra ho
  have hc := h c hc
  simp [hrun c (by simpa using ho)] at hc

-- A text of such characters ends where the rest begins.
theorem takeWhile_append {runs : Char → Bool} {text rest : List Char} (ht : ∀ c ∈ text, runs c) (h : Apart runs rest) :
    (text ++ rest).takeWhile runs = text := by
  rw [List.takeWhile_append_of_pos ht]
  cases rest with
  | nil         => simp
  | cons c rest => simp [apart_cons.mp h]

-- What was written, and what follows, can be told from the text, if the rest begins with none of the characters:
-- behind a number no digit may follow.
def Readable {α : Type} (write : α → String) (runs : Char → Bool) : Prop :=
  ∀ a b r s, Apart runs r → Apart runs s → (write a).toList ++ r = (write b).toList ++ s → a = b ∧ r = s

-- Such a text ends by itself.
abbrev Closed {α : Type} (write : α → String) : Prop :=
  Readable write fun _ => false

@[simp]
theorem apart_false {rest : List Char} : Apart (fun _ => false) rest := by
  simp [Apart]

variable {α : Type} {write : α → String} {runs : Char → Bool}

section Numbers

theorem isDigit_of_mem_repr {n : Nat} {c : Char} (h : c ∈ n.repr.toList) : c.isDigit :=
  Nat.isDigit_of_mem_toDigits (by decide) (by decide) (Nat.toList_repr ▸ h)

theorem readable_repr : Readable Nat.repr Char.isDigit := by
  intro n m r s hr hs h
  have hd : n.repr.toList = m.repr.toList := by
    rw [← takeWhile_append (fun _ => isDigit_of_mem_repr) hr, h, takeWhile_append (fun _ => isDigit_of_mem_repr) hs]
  have hn : n = m := by
    rw [Nat.toList_repr, Nat.toList_repr] at hd
    rw [← Nat.ofDigitChars_ten_toDigits (n := n), hd, Nat.ofDigitChars_ten_toDigits]
  subst hn
  exact ⟨rfl, List.append_cancel_left h⟩

theorem exists_digit (n : Nat) : ∃ c cs, n.repr.toList = c :: cs ∧ c.isDigit := by
  cases h : n.repr.toList with
  | nil       => simp [Nat.toDigits_ne_nil] at h
  | cons c cs => exact ⟨c, cs, rfl, isDigit_of_mem_repr (h ▸ List.mem_cons_self)⟩

end Numbers

section Quoted

-- A character of a name is not the quote at its end.
theorem escapeChar_append_ne {c : Char} {r s : List Char} : escapeChar c ++ r ≠ '"' :: s := by
  rw [escapeChar]
  split <;> simp_all

theorem escapeChar_append_inj {c d : Char} {r s : List Char} (h : escapeChar c ++ r = escapeChar d ++ s) :
    c = d ∧ r = s := by
  simp only [escapeChar] at h
  split at h <;> split at h <;> grind

theorem escape_inj {cs ds r s : List Char}
    (h : cs.flatMap escapeChar ++ '"' :: r = ds.flatMap escapeChar ++ '"' :: s) : cs = ds ∧ r = s := by
  induction cs generalizing ds with
  | nil =>
    cases ds with
    | nil       => simpa using h
    | cons d ds =>
      rw [List.flatMap_cons, List.append_assoc] at h
      exact absurd h.symm escapeChar_append_ne
  | cons c cs ih =>
    cases ds with
    | nil       =>
      rw [List.flatMap_cons, List.append_assoc] at h
      exact absurd h escapeChar_append_ne
    | cons d ds =>
      simp only [List.flatMap_cons, List.append_assoc] at h
      obtain ⟨rfl, htail⟩ := escapeChar_append_inj h
      obtain ⟨rfl, hr⟩ := ih htail
      exact ⟨rfl, hr⟩

theorem toList_quoted (s : String) : (quoted s).toList = '"' :: s.toList.flatMap escapeChar ++ ['"'] := by
  simp [quoted, escape]

theorem closed_quoted : Closed quoted := by
  intro a b r s _ _ h
  simp only [toList_quoted, List.cons_append, List.append_assoc, List.cons.injEq, true_and, List.nil_append] at h
  obtain ⟨h, hr⟩ := escape_inj h
  exact ⟨String.toList_inj.mp h, hr⟩

end Quoted

section Lists

theorem toList_commaSeparated_cons (item : String) (items : List String) :
    (commaSeparated (item :: items)).toList = item.toList ++ items.flatMap fun s => ',' :: ' ' :: s.toList := by
  induction items generalizing item with
  | nil               => simp [commaSeparated]
  | cons next items ih =>
    simp only [commaSeparated, String.toList_intercalate, List.map_cons] at ih ⊢
    rw [List.intercalate_cons_cons, ih next]
    simp

variable {close : Char}

-- A list of such texts between brackets: no item runs on from the comma or the closing bracket behind it, or begins
-- with the closing one.
structure Listed (write : α → String) (runs : Char → Bool) (close : Char) : Prop where
  readable : Readable write runs
  comma    : runs ',' = false
  closing  : runs close = false
  ne       : close ≠ ','
  start    : ∀ a, ∃ c cs, (write a).toList = c :: cs ∧ c ≠ close

variable (h : Listed write runs close)
include h

theorem Listed.apart (as : List α) (r : List Char) :
    Apart runs ((as.flatMap fun a => ',' :: ' ' :: (write a).toList) ++ close :: r) := by
  cases as <;> simp [h.comma, h.closing]

-- What follows the first item.
theorem Listed.tail_inj {as bs : List α} {r s : List Char}
    (he : (as.flatMap fun a => ',' :: ' ' :: (write a).toList) ++ close :: r =
      (bs.flatMap fun b => ',' :: ' ' :: (write b).toList) ++ close :: s) : as = bs ∧ r = s := by
  induction as generalizing bs with
  | nil =>
    cases bs with
    | nil       => simpa using he
    | cons b bs => simp [h.ne] at he
  | cons a as ih =>
    cases bs with
    | nil       => simp [h.ne.symm] at he
    | cons b bs =>
      simp only [List.flatMap_cons, List.cons_append, List.append_assoc, List.cons.injEq, true_and] at he
      obtain ⟨rfl, htail⟩ := h.readable a b _ _ (h.apart as r) (h.apart bs s) he
      obtain ⟨rfl, hr⟩ := ih htail
      exact ⟨rfl, hr⟩

theorem Listed.ne_close (a : α) (as : List α) (r s : List Char) :
    (commaSeparated ((a :: as).map write)).toList ++ r ≠ close :: s := by
  obtain ⟨c, cs, hc, hne⟩ := h.start a
  simp [toList_commaSeparated_cons, hc, hne]

theorem Listed.inj {as bs : List α} {r s : List Char}
    (he : (commaSeparated (as.map write)).toList ++ close :: r = (commaSeparated (bs.map write)).toList ++ close :: s) :
    as = bs ∧ r = s := by
  cases as with
  | nil =>
    cases bs with
    | nil       => simpa using he
    | cons b bs => exact absurd he.symm (h.ne_close b bs _ _)
  | cons a as =>
    cases bs with
    | nil       => exact absurd he (h.ne_close a as _ _)
    | cons b bs =>
      simp only [List.map_cons, toList_commaSeparated_cons, List.flatMap_map, List.append_assoc] at he
      obtain ⟨rfl, htail⟩ := h.readable a b _ _ (h.apart as r) (h.apart bs s) he
      obtain ⟨rfl, hr⟩ := h.tail_inj htail
      exact ⟨rfl, hr⟩

end Lists

theorem closed_inBraces (h : Listed write runs '\x7d') : Closed fun as : List α => inBraces (as.map write) := by
  intro as bs r s _ _ he
  exact h.inj (by simpa [inBraces] using he)

theorem closed_inBrackets (h : Listed write runs ']') : Closed fun as : List α => inBrackets (as.map write) := by
  intro as bs r s _ _ he
  exact h.inj (by simpa [inBrackets] using he)

-- A part that may be missing, behind a mark.
def suffixed (mark : Char) (write : α → String) : Option α → List Char
  | some a => mark :: (write a).toList
  | none   => []

-- It can be told whether the part is there, if the rest does not begin with the mark.
theorem suffixed_inj {mark : Char} {outer : Char → Bool} (hw : Readable write runs) (hmark : outer mark)
    (hrun : ∀ c, runs c → outer c) {a b : Option α} {r s : List Char} (hr : Apart outer r) (hs : Apart outer s)
    (h : suffixed mark write a ++ r = suffixed mark write b ++ s) : a = b ∧ r = s := by
  cases a with
  | none =>
    cases b with
    | none   => exact ⟨rfl, h⟩
    | some b =>
      rw [show r = _ from h] at hr
      simp [suffixed, hmark] at hr
  | some a =>
    cases b with
    | none   =>
      rw [show s = _ from h.symm] at hs
      simp [suffixed, hmark] at hs
    | some b =>
      obtain ⟨rfl, hrest⟩ := hw a b r s (hr.mono hrun) (hs.mono hrun) (List.cons_inj_right _ |>.mp h)
      exact ⟨rfl, hrest⟩

-- A part at the end that is left out if there is nothing to list.
theorem trailing_inj {label : String} {write : List α → String} (hw : Closed write)
    (hl : ∃ c cs, label.toList = c :: cs ∧ c ≠ '>') {as bs : List α} {r s : List Char}
    (h : (if as = [] then "" else label ++ write as).toList ++ '>' :: r =
      (if bs = [] then "" else label ++ write bs).toList ++ '>' :: s) : as = bs ∧ r = s := by
  obtain ⟨c, cs, hc, hne⟩ := hl
  split at h <;> split at h
  case isTrue.isTrue ha hb  => simpa [ha, hb] using h
  case isTrue.isFalse       => simp [hc, hne.symm] at h
  case isFalse.isTrue       => simp [hc, hne] at h
  case isFalse.isFalse      =>
    simp only [String.toList_append, List.append_assoc, List.append_cancel_left_eq] at h
    obtain ⟨rfl, h⟩ := hw as bs _ _ (by simp) (by simp) h
    exact ⟨rfl, by simpa using h⟩

end MeshSharding.Text
