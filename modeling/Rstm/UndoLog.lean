import Rstm.Memory

/- `stm::UndoLog`, the in-place-update log of ByteEager (src/libstm/types.cpp).

   An entry holds a word's bytes before a write, under the write's mask.
   `UndoLog::undo(exception, len)` replays the log newest first and, when an
   exception object is registered, filters each entry against it: the bytes of
   the entry inside `[exception, exception + len)` are cleared from its mask
   (`ByteLoggingUndoLogEntry::filterSlow`), and an entry left with no byte is
   skipped. `UndoLogEntry::undo` and the fast path `filter` are in UndoLog.hpp,
   which is not in src/; they are modelled from the spec (4.2).

   Correspondence (C++ ↔ Lean):
     `UndoLogEntry`                          ↔ `UndoLogEntry`
     `ByteLoggingUndoLogEntry::filterSlow`   ↔ `UndoLogEntry.filterSlow`
     `ByteLoggingUndoLogEntry::filter`       ↔ `UndoLogEntry.filter`
     `UndoLog::undo(exception, len)`         ↔ `undoLog`

   What is proved: an entry's filtered undo is the identity off its word, and
   on its word keeps exactly the bytes in the range (`filteredUndo_self`). -/
namespace Rstm

/-- `UndoLogEntry` (byte logging): the bytes `val` of the word `addr` before a write, under
    `mask`. -/
structure UndoLogEntry where
  addr : Nat
  val : Word
  mask : Word

/-- Modelled from the spec: `UndoLogEntry::undo` is not in src/; the logged bytes go back
    under the mask. -/
def UndoLogEntry.undo (e : UndoLogEntry) (m : Mem) : Mem := m.doMaskedWrite e.addr e.val e.mask

/-- Byte `k` of the word lies in `[lower, upper)`. -/
def UndoLogEntry.inRange (e : UndoLogEntry) (lower upper : Nat) (k : Fin 8) : Prop :=
  lower ≤ 8 * e.addr + k.val ∧ 8 * e.addr + k.val < upper

instance (e : UndoLogEntry) (lower upper : Nat) (k : Fin 8) :
    Decidable (e.inRange lower upper k) :=
  inferInstanceAs (Decidable (_ ∧ _))

/-- `ByteLoggingUndoLogEntry::filterSlow(lower, upper)`: `true` when the whole entry is
    protected; otherwise the entry with its protected bytes cleared from the mask, and
    `true` when no byte is left. -/
def UndoLogEntry.filterSlow (e : UndoLogEntry) (lower upper : Nat) : Bool × UndoLogEntry :=
  if lower ≤ 8 * e.addr ∧ 8 * e.addr + 8 < upper then (true, e)
  else
    let e' := { e with mask := fun k => if e.inRange lower upper k then 0#8 else e.mask k }
    (decide (∀ k, e'.mask k = 0#8), e')

/-- Modelled from the spec: `ByteLoggingUndoLogEntry::filter` is not in src/; an entry whose
    word does not meet the range is kept whole, and any other goes to `filterSlow`. -/
def UndoLogEntry.filter (e : UndoLogEntry) (lower upper : Nat) : Bool × UndoLogEntry :=
  if 8 * e.addr + 8 ≤ lower ∨ upper ≤ 8 * e.addr then (false, e) else e.filterSlow lower upper

/-- `UndoLog::undo(exception, len)`: the log newest first; with an exception object, each
    entry filtered against `[exception, exception + len)`. -/
def undoLog (log : List UndoLogEntry) (exception len : Nat) (m : Mem) : Mem :=
  if exception = 0 then log.foldr (fun e m => e.undo m) m
  else
    log.foldr (fun e m =>
      let r := e.filter exception (exception + len)
      if r.1 then m else r.2.undo m) m

/-! ## One entry -/

theorem UndoLogEntry.undo_of_ne {e : UndoLogEntry} {m : Mem} {b : Nat} (h : b / 8 ≠ e.addr) :
    e.undo m b = m b :=
  Mem.doMaskedWrite_of_ne h

theorem Mem.doMaskedWrite_self (m : Mem) (a : Nat) (val mask : Word) (k : Fin 8) :
    m.doMaskedWrite a val mask (8 * a + k.val) = maskedWrite (m.load a) val mask k := by
  have h1 : (8 * a + k.val) / 8 = a := by omega
  have h2 : (8 * a + k.val) % 8 = k.val := by omega
  simp only [Mem.doMaskedWrite, Mem.store, h1, h2, if_true, Word.getByte_fin]

theorem maskedWrite_of_mask_zero {old val mask : Word} {k : Fin 8} (h : mask k = 0#8) :
    maskedWrite old val mask k = old k := by
  simp only [maskedWrite, h, BitVec.not_zero, BitVec.and_allOnes, BitVec.and_zero, BitVec.or_zero]

/-- The filtered undo of an entry, as `UndoLog::undo` runs it. -/
def UndoLogEntry.filteredUndo (e : UndoLogEntry) (lower upper : Nat) (m : Mem) : Mem :=
  let r := e.filter lower upper
  if r.1 then m else r.2.undo m

/-- On its own word, the filtered undo of an entry keeps the bytes in the range and writes
    the logged bytes under the mask everywhere else. -/
theorem UndoLogEntry.filteredUndo_self (e : UndoLogEntry) (lower upper : Nat) (m : Mem)
    (k : Fin 8) : e.filteredUndo lower upper m (8 * e.addr + k.val) =
      if e.inRange lower upper k then m (8 * e.addr + k.val)
      else maskedWrite (m.load e.addr) e.val e.mask k := by
  simp only [filteredUndo, filter]
  by_cases hd : 8 * e.addr + 8 ≤ lower ∨ upper ≤ 8 * e.addr
  · have hk : ¬e.inRange lower upper k := by simp only [inRange]; omega
    simp only [hd, if_true, hk, if_false, Bool.false_eq_true, undo, Mem.doMaskedWrite_self]
  · simp only [hd, if_false, filterSlow]
    by_cases ht : lower ≤ 8 * e.addr ∧ 8 * e.addr + 8 < upper
    · have hk : e.inRange lower upper k := by simp only [inRange]; omega
      simp [ht, hk]
    · simp only [ht, if_false, undo]
      by_cases hk : e.inRange lower upper k
      · split_ifs
        · simp [hk]
        · rw [Mem.doMaskedWrite_self, maskedWrite_of_mask_zero (by simp [hk])]; rfl
      · split_ifs with hz
        · have hz' := of_decide_eq_true hz k
          simp only [hk, if_false] at hz' ⊢
          rw [maskedWrite_of_mask_zero hz']; rfl
        · simp [Mem.doMaskedWrite_self, hk]

theorem UndoLogEntry.filteredUndo_of_ne {e : UndoLogEntry} {lower upper : Nat} {m : Mem} {b : Nat}
    (h : b / 8 ≠ e.addr) : e.filteredUndo lower upper m b = m b := by
  simp only [filteredUndo, filter, filterSlow]
  split_ifs <;> first | rfl | exact Mem.doMaskedWrite_of_ne h

theorem UndoLogEntry.undo_self (e : UndoLogEntry) (m : Mem) (k : Fin 8) :
    e.undo m (8 * e.addr + k.val) = maskedWrite (m.load e.addr) e.val e.mask k :=
  Mem.doMaskedWrite_self m e.addr e.val e.mask k

end Rstm
