import Mathlib.Data.List.Nodup

/- The lock lists that ByteEager's and Nano's commits and rollbacks walk.

   A release loop at entry `i` of a list of locks with no repeats has released
   the entries before `i` and still holds the suffix from `i`: the entry at
   `i` is in that suffix, and not in the suffix after it. -/
namespace Rstm

theorem mem_drop_of_getElem? {l : List Nat} {i L : Nat} (h : l[i]? = some L) : L ∈ l.drop i := by
  obtain ⟨hi, rfl⟩ := List.getElem?_eq_some_iff.mp h
  rw [List.drop_eq_getElem_cons hi]
  exact List.mem_cons_self _ _

theorem mem_drop_iff_of_getElem? {l : List Nat} {i L : Nat} (h : l[i]? = some L) (x : Nat) :
    x ∈ l.drop i ↔ x = L ∨ x ∈ l.drop (i + 1) := by
  obtain ⟨hi, rfl⟩ := List.getElem?_eq_some_iff.mp h
  rw [List.drop_eq_getElem_cons hi, List.mem_cons]

theorem drop_of_getElem?_none {l : List Nat} {i : Nat} (h : l[i]? = none) : l.drop i = [] :=
  List.drop_eq_nil_of_le (List.getElem?_eq_none_iff.mp h)

theorem not_mem_drop_succ {l : List Nat} (hn : l.Nodup) {i L : Nat} (h : l[i]? = some L) :
    L ∉ l.drop (i + 1) := by
  obtain ⟨hi, rfl⟩ := List.getElem?_eq_some_iff.mp h
  have := (List.drop_sublist i l).nodup hn
  rw [List.drop_eq_getElem_cons hi] at this
  exact (List.nodup_cons.mp this).1

end Rstm
