import Mathlib.Logic.Function.Basic

/- Memory as the STM runtime sees it.

   Memory is byte-addressed. A word (`uintptr_t`, eight bytes on x86-64) is
   the byte array that the byte-logging unions of the code overlay on it
   (`byte_val`, `byte_mask`), least significant byte first. A word pointer
   (`uintptr_t*`) is a word index: word `a` is the bytes `8a .. 8a+7`, so every
   word access is aligned, as the C++ type requires, and two words either are
   the same or share no byte.

   Correspondence (C++ ↔ Lean):
     `*addr`                               ↔ `Mem.load`
     `STM_DO_MASKED_WRITE(addr, v, mask)`  ↔ `Mem.doMaskedWrite`
     `(old & ~mask) | (v & mask)`          ↔ `maskedWrite`
     `__builtin_memcpy(dst, &value, n)`    ↔ `Mem.memcpy`
     `value >> (8 * k)`                    ↔ `shiftBytes` -/
namespace Rstm

/-- A byte of memory. -/
abbrev Byte := BitVec 8

/-- A machine word as its eight bytes, least significant first. -/
abbrev Word := Fin 8 → Byte

/-- Byte-addressed memory. -/
abbrev Mem := Nat → Byte

/-- `(old & ~mask) | (val & mask)`: the bits of `val` under `mask` over `old`. -/
def maskedWrite (old val mask : Word) : Word :=
  fun k => (old k &&& ~~~mask k) ||| (val k &&& mask k)

/-- `m1 | m2` on masks. -/
def maskOr (m1 m2 : Word) : Word := fun k => m1 k ||| m2 k

/-- The all-zero word. -/
def zeroWord : Word := fun _ => 0#8

/-- Byte `k` of a word, and `0` past its last byte. -/
def Word.getByte (w : Word) (k : Nat) : Byte := if h : k < 8 then w ⟨k, h⟩ else 0

/-- `value >> (8 * k)` on a little-endian word. -/
def shiftBytes (v : Word) (k : Nat) : Word := fun i => v.getByte (i.val + k)

/-- `*addr` for the word pointer `a`. -/
def Mem.load (m : Mem) (a : Nat) : Word := fun k => m (8 * a + k.val)

/-- `*addr = w` for the word pointer `a`. -/
def Mem.store (m : Mem) (a : Nat) (w : Word) : Mem :=
  fun b => if b / 8 = a then w.getByte (b % 8) else m b

/-- `STM_DO_MASKED_WRITE(addr, val, mask)`. -/
def Mem.doMaskedWrite (m : Mem) (a : Nat) (val mask : Word) : Mem :=
  m.store a (maskedWrite (m.load a) val mask)

/-- `__builtin_memcpy(dst, &w, n)`: the first `n` bytes of `w` to `dst`. -/
def Mem.memcpy (m : Mem) (dst : Nat) (w : Word) (n : Nat) : Mem :=
  fun b => if dst ≤ b ∧ b < dst + n then w.getByte (b - dst) else m b

/-! ## Bytes of words -/

@[simp] theorem Word.getByte_fin (w : Word) (k : Fin 8) : w.getByte k.val = w k := by
  simp [Word.getByte, k.isLt]

theorem Word.getByte_of_le {w : Word} {k : Nat} (h : 8 ≤ k) : w.getByte k = 0 := by
  simp [Word.getByte, show ¬k < 8 by omega]

@[simp] theorem maskedWrite_apply (old val mask : Word) (k : Fin 8) :
    maskedWrite old val mask k = (old k &&& ~~~mask k) ||| (val k &&& mask k) := rfl

@[simp] theorem maskOr_apply (m1 m2 : Word) (k : Fin 8) : maskOr m1 m2 k = m1 k ||| m2 k := rfl

theorem maskedWrite_zero (old val : Word) : maskedWrite old val zeroWord = old := by
  funext k; simp only [maskedWrite, zeroWord, BitVec.not_zero, BitVec.and_allOnes, BitVec.and_zero,
    BitVec.or_zero]

/-- Two masked writes to one byte are one write of the merged value under the union of
    the masks. -/
theorem Byte.merge_merge (y v1 m1 v2 m2 : Byte) :
    (((y &&& ~~~m1) ||| (v1 &&& m1)) &&& ~~~m2) ||| (v2 &&& m2) =
      (y &&& ~~~(m1 ||| m2)) ||| (((v1 &&& ~~~m2) ||| (v2 &&& m2)) &&& (m1 ||| m2)) := by
  ext i; simp; cases y.getLsbD i <;> cases v1.getLsbD i <;> cases m1.getLsbD i <;>
    cases v2.getLsbD i <;> cases m2.getLsbD i <;> simp

theorem Byte.merge_restore (x v k : Byte) : (((x &&& ~~~k) ||| (v &&& k)) &&& ~~~k) ||| (x &&& k) = x := by
  ext i; simp; cases x.getLsbD i <;> cases k.getLsbD i <;> simp

theorem Byte.merge_self (x k : Byte) : (x &&& ~~~k) ||| (x &&& k) = x := by
  ext i; simp; cases x.getLsbD i <;> cases k.getLsbD i <;> simp

/-- Writing back the bytes a masked write replaced restores the word. -/
theorem maskedWrite_restore (x v mask : Word) : maskedWrite (maskedWrite x v mask) x mask = x :=
  funext fun k => Byte.merge_restore (x k) (v k) (mask k)

/-- Two masked writes to one word are one write of the merged value under the
    union of the masks: the later write wins on the bits it covers. -/
theorem maskedWrite_maskedWrite (x v1 m1 v2 m2 : Word) :
    maskedWrite (maskedWrite x v1 m1) v2 m2 =
      maskedWrite x (maskedWrite v1 v2 m2) (maskOr m1 m2) :=
  funext fun k => Byte.merge_merge (x k) (v1 k) (m1 k) (v2 k) (m2 k)

theorem Word.getByte_mod (w : Word) (b : Nat) :
    w.getByte (b % 8) = w ⟨b % 8, Nat.mod_lt _ (by decide)⟩ :=
  Word.getByte_fin w ⟨b % 8, _⟩

/-! ## Loads and stores -/

@[simp] theorem Mem.load_apply (m : Mem) (a : Nat) (k : Fin 8) : m.load a k = m (8 * a + k.val) :=
  rfl

theorem Mem.store_apply (m : Mem) (a : Nat) (w : Word) (b : Nat) :
    m.store a w b = if b / 8 = a then w.getByte (b % 8) else m b := rfl

theorem Mem.store_of_ne {m : Mem} {a b : Nat} {w : Word} (h : b / 8 ≠ a) : m.store a w b = m b := by
  simp [Mem.store, h]

@[simp] theorem Mem.load_store_self (m : Mem) (a : Nat) (w : Word) : (m.store a w).load a = w := by
  funext k
  have h1 : (8 * a + k.val) / 8 = a := by omega
  have h2 : (8 * a + k.val) % 8 = k.val := by omega
  simp [Mem.store, h1, h2]

theorem Mem.load_store_of_ne {m : Mem} {a a' : Nat} {w : Word} (h : a' ≠ a) :
    (m.store a w).load a' = m.load a' := by
  funext k
  exact Mem.store_of_ne (by omega)

theorem Mem.apply_eq_load (m : Mem) (b : Nat) : m b = (m.load (b / 8)).getByte (b % 8) := by
  have h : b % 8 < 8 := Nat.mod_lt _ (by decide)
  simp [Word.getByte, h, Mem.load, Nat.div_add_mod]

theorem Mem.ext_load {m m' : Mem} (h : ∀ a, m.load a = m'.load a) : m = m' :=
  funext fun b => by rw [Mem.apply_eq_load m, Mem.apply_eq_load m', h]

theorem Mem.doMaskedWrite_apply (m : Mem) (a : Nat) (val mask : Word) (b : Nat) :
    m.doMaskedWrite a val mask b = if b / 8 = a then
      (m b &&& ~~~mask.getByte (b % 8)) ||| (val.getByte (b % 8) &&& mask.getByte (b % 8))
      else m b := by
  simp only [Mem.doMaskedWrite, Mem.store_apply, Word.getByte_mod, maskedWrite_apply, Mem.load_apply]
  split
  · next h => subst h; rw [Nat.div_add_mod]
  · rfl

theorem Mem.doMaskedWrite_of_ne {m : Mem} {a b : Nat} {val mask : Word} (h : b / 8 ≠ a) :
    m.doMaskedWrite a val mask b = m b :=
  Mem.store_of_ne h

theorem Mem.load_doMaskedWrite_of_ne {m : Mem} {a a' : Nat} {val mask : Word} (h : a' ≠ a) :
    (m.doMaskedWrite a val mask).load a' = m.load a' :=
  Mem.load_store_of_ne h

theorem Mem.load_doMaskedWrite_self (m : Mem) (a : Nat) (v mask : Word) :
    (m.doMaskedWrite a v mask).load a = maskedWrite (m.load a) v mask :=
  Mem.load_store_self _ _ _

theorem Mem.doMaskedWrite_load_self (m : Mem) (a : Nat) (mask : Word) :
    m.doMaskedWrite a (m.load a) mask = m := by
  funext b
  rw [Mem.doMaskedWrite_apply]
  split
  · next hb => rw [← hb, ← Mem.apply_eq_load]; exact Byte.merge_self _ _
  · rfl

theorem Mem.memcpy_of_not_mem {m : Mem} {dst b n : Nat} {w : Word} (h : ¬(dst ≤ b ∧ b < dst + n)) :
    m.memcpy dst w n b = m b := by
  simp [Mem.memcpy, h]

end Rstm
