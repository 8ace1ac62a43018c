import Mathlib
import MeshSharding.Error

namespace MeshSharding

theorem isOk_iff {ε : Type} {x : Except ε Unit} : x.isOk ↔ x = .ok () := by
  cases x <;> simp [Except.isOk, Except.toBool]

theorem bind_eq_ok_iff {ε α β : Type} {x : Except ε α} {f : α → Except ε β} {b : β} :
    (x >>= f) = .ok b ↔ ∃ a, x = .ok a ∧ f a = .ok b := by
  cases x <;> simp [bind, Except.bind]

theorem check_bind_eq_ok_iff {ε α : Type} {check : Except ε Unit} {f : Unit → Except ε α} {a : α} :
    (check >>= f) = .ok a ↔ check = .ok () ∧ f () = .ok a :=
  bind_eq_ok_iff.trans ⟨fun ⟨_, h⟩ => h, fun h => ⟨(), h⟩⟩

theorem forM_eq_ok_iff {ε α : Type} {check : α → Except ε Unit} {items : List α} :
    items.forM check = .ok () ↔ ∀ a ∈ items, check a = .ok () := by
  induction items with
  | nil => simp [pure, Except.pure]
  | cons a items ih =>
    have hcons : (a :: items).forM check = check a >>= fun _ => items.forM check := rfl
    rw [hcons, check_bind_eq_ok_iff, List.forall_mem_cons, ih]

theorem exists_require_eq_ok_iff {condition : Prop} [Decidable condition] {error : Error} {P : Unit → Prop} :
    (∃ u, require condition error = .ok u ∧ P u) ↔ condition ∧ P () := by
  constructor
  · rintro ⟨⟨⟩, h, hp⟩
    exact ⟨require_eq_ok_iff.mp h, hp⟩
  · rintro ⟨h, hp⟩
    exact ⟨(), require_eq_ok_iff.mpr h, hp⟩

end MeshSharding
