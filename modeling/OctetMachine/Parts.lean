/-! What a whole tells of its parts: the result of a computation in steps of the steps that may fail,
and a list of what stands on both sides of one of its members. -/
namespace OctetMachine

section Steps

variable {ε α β : Type} {x : Except ε α} {e : ε} {b : β}

theorem ok_bind_iff {k : α → Except ε β} :
    (x >>= k) = .ok b ↔ ∃ a, x = .ok a ∧ k a = .ok b := by
  cases x <;> simp [Bind.bind, Except.bind]

theorem error_bind_iff {k : α → Except ε β} :
    (x >>= k) = .error e ↔ x = .error e ∨ ∃ a, x = .ok a ∧ k a = .error e := by
  cases x <;> simp [Bind.bind, Except.bind]

theorem ok_map_iff {f : α → β} : x.map f = .ok b ↔ ∃ a, x = .ok a ∧ f a = b := by
  cases x <;> simp [Except.map]

theorem error_map_iff {f : α → β} : x.map f = .error e ↔ x = .error e := by
  cases x <;> simp [Except.map]

theorem exists_ok_map_iff {f : α → β} : (∃ b, x.map f = .ok b) ↔ ∃ a, x = .ok a := by
  cases x <;> simp [Except.map]

end Steps

theorem eq_take_append_cons_drop {α : Type} {xs : List α} {k : Nat} {x : α}
    (found : xs[k]? = some x) : xs = xs.take k ++ x :: xs.drop (k + 1) := by
  obtain ⟨inside, rfl⟩ := List.getElem?_eq_some_iff.mp found
  rw [List.getElem_cons_drop, List.take_append_drop]

end OctetMachine
