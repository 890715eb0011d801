import Rstm.Memory
import Mathlib.Algebra.Group.Nat.Basic

/- `stm::WriteSet`, the redo log (src/libstm/types.cpp).

   A write set is a list of entries, one per word written, with an
   open-addressed hash index over their addresses. An index slot is current
   when its `version` is the write set's; `reset` clears the index in O(1) by
   bumping the version, and zeroes it only when the version would wrap.

   src/ holds the constructor, `doubleIndexLength`, `rebuild`, `resize`,
   `reset_internal` and `rollback`; their definitions here follow it line by
   line. `insert`, `find`, `reset`, `writeback`, `hash`, `index_t` and the
   entry methods live in WriteSet.hpp, which is not in src/: those are
   modelled from the spec (4.1) and say so. `hash` is a parameter, a function
   of the index length and the address.

   Sizes (`size_t`) are `Nat`: no list or index of 2^63 entries can be
   allocated, so no size wraps. The 32-bit `int` shift in
   `doubleIndexLength` is modelled as C++ computes it (`indexLength`): at
   `shift = 1` it gives `INT_MIN`, sign-extended to `size_t`, and at
   `shift = 0` it shifts an `int` by its width, which is undefined
   (`Stop.undefined`).

   Correspondence (C++ ↔ Lean):
     `WriteSet::index_t`                ↔ `IndexT`
     `WriteSetEntry`                    ↔ `WriteSetEntry`
     `WriteSet`                         ↔ `WriteSet`
     `WriteSet::doubleIndexLength`      ↔ `doubleIndexLength`
     `WriteSet::WriteSet`               ↔ `WriteSet.new`
     `WriteSet::rebuild`                ↔ `WriteSet.rebuild`
     `WriteSet::resize`                 ↔ `WriteSet.resize`
     `WriteSet::reset_internal`         ↔ `WriteSet.resetInternal`
     `WriteSet::rollback`               ↔ `WriteSet.rollback`
     the probing `while` loops          ↔ `probe` -/
namespace Rstm

/-- `WriteSet::index_t`: one slot of the hash index. -/
structure IndexT where
  version : Nat
  address : Nat
  index : Nat
  deriving DecidableEq, Repr

/-- Modelled from the spec: `index_t`'s constructor is not in src/; a fresh slot
    carries version 0, which is never current (versions start at 1). -/
def IndexT.fresh : IndexT := ⟨0, 0, 0⟩

/-- `WriteSetEntry` (byte logging): the bytes of `val` under `mask`, for the word `addr`. -/
structure WriteSetEntry where
  addr : Nat
  val : Word
  mask : Word

/-- Modelled from the spec: `WriteSetEntry::update` is not in src/; a repeat write to
    the same word is merged under its mask and the masks are joined. -/
def WriteSetEntry.update (e rhs : WriteSetEntry) : WriteSetEntry :=
  { e with val := maskedWrite e.val rhs.val rhs.mask, mask := maskOr e.mask rhs.mask }

/-- `stm::WriteSet`. `list` is the `lsize` live entries of the list array. -/
structure WriteSet where
  index : Nat → IndexT
  shift : Nat
  ilength : Nat
  version : Nat
  list : List WriteSetEntry
  capacity : Nat

/-- `lsize`: the number of live entries. -/
def WriteSet.lsize (ws : WriteSet) : Nat := ws.list.length

/-- How a write-set operation ends when it does not return: an `assert` stops the
    process, a probe loop meets no free slot and never ends, or the code reaches
    undefined behaviour and the run has no defined continuation. -/
inductive Stop where
  | assert (msg : String)
  | loops
  | undefined
  deriving DecidableEq, Repr

/-! ## Index length -/

/-- `1 << (8 * sizeof(uint32_t) - shift)` for `shift ≥ 1`: an `int` shift, widened to
    `size_t`. At `shift = 1` it is `INT_MIN`, sign-extended. -/
def indexLength (shift : Nat) : Nat := ((1#32 <<< (32 - shift)).signExtend 64).toNat

/-- The message of the assertion in `doubleIndexLength`. -/
def indexTooLarge : String := "ERROR: the writeset doesn't support an index this large"

/-- `WriteSet::doubleIndexLength` on `shift`: the new `(shift, ilength)`. From `shift = 1`
    the assertion passes and `1 << 32` shifts an `int` by its width: undefined. -/
def doubleIndexLength : Nat → Except Stop (Nat × Nat)
  | 0 => .error (.assert indexTooLarge)
  | 1 => .error .undefined
  | s + 2 => .ok (s + 1, indexLength (s + 1))

/-- The constructor's loop `while (ilength < 3 * initial_capacity) doubleIndexLength();`
    from `(shift, ilength)`, one `doubleIndexLength` per pass. -/
def sizeIndex (target : Nat) : Nat → Nat → Except Stop (Nat × Nat)
  | 0, ilength => if ilength < target then .error (.assert indexTooLarge) else .ok (0, ilength)
  | 1, ilength => if ilength < target then .error .undefined else .ok (1, ilength)
  | s + 2, ilength =>
    if ilength < target then sizeIndex target (s + 1) (indexLength (s + 1)) else .ok (s + 2, ilength)

/-- `WriteSet::WriteSet(initial_capacity)`: version 1, an index of at least three slots
    per entry of capacity, an empty list. -/
def WriteSet.new (initialCapacity : Nat) : Except Stop WriteSet :=
  (sizeIndex (3 * initialCapacity) 32 0).map fun p =>
    { index := fun _ => .fresh, shift := p.1, ilength := p.2, version := 1, list := [],
      capacity := initialCapacity }

/-! ## Probing -/

/-- A probe loop of the index from slot `h`, `(h + 1) % ilength` at each step, until a
    slot satisfies `stop`; `none` when the `fuel` slots visited all fail it. With
    `fuel = ilength` every slot is visited once, so `none` is the loop never ending. -/
def probe (index : Nat → IndexT) (ilength : Nat) (stop : IndexT → Bool) : Nat → Nat → Option Nat
  | 0, _ => none
  | n + 1, h => if stop (index h) then some h else probe index ilength stop n ((h + 1) % ilength)

variable (hash : Nat → Nat → Nat)

/-- The insertion loop of `rebuild`: entry `i` of the list goes to the first slot on
    its probe path that is not current. -/
def reindex (ilength version : Nat) : List WriteSetEntry → Nat → (Nat → IndexT) →
    Except Stop (Nat → IndexT)
  | [], _, index => .ok index
  | l :: ls, i, index =>
    match probe index ilength (fun s => s.version != version) ilength (hash ilength l.addr) with
    | none => .error .loops
    | some h => reindex ilength version ls (i + 1) (Function.update index h ⟨version, l.addr, i⟩)

/-- `WriteSet::rebuild`: double the index and insert every entry again. -/
def WriteSet.rebuild (ws : WriteSet) : Except Stop WriteSet :=
  if ws.version = 0 then .error (.assert "ERROR: the version should *never* be 0")
  else
    (doubleIndexLength ws.shift).bind fun p =>
      (reindex hash p.2 ws.version ws.list 0 fun _ => .fresh).map fun index =>
        { ws with index, shift := p.1, ilength := p.2 }

/-- `WriteSet::resize`: double the capacity of the list array, keeping its entries. -/
def WriteSet.resize (ws : WriteSet) : WriteSet := { ws with capacity := 2 * ws.capacity }

/-- `WriteSet::reset_internal`: zero the index and restart the version at 1. -/
def WriteSet.resetInternal (ws : WriteSet) : WriteSet :=
  { ws with index := fun _ => .fresh, version := 1 }

/-- Modelled from the spec: `VERSION_MAX` is not in src/; the version "would wrap" past
    the largest `size_t`. -/
def versionMax : Nat := 2 ^ 64 - 1

/-- Modelled from the spec: `WriteSet::reset` is not in src/. Empty the list; bump the
    version, or, when it would wrap, `reset_internal`. -/
def WriteSet.reset (ws : WriteSet) : WriteSet :=
  if ws.version = versionMax then { ws.resetInternal with list := [] }
  else { ws with list := [], version := ws.version + 1 }

/-- The slot of the probe path of `a` where an insert or a find stops: a slot that is
    not current, or a current slot holding `a`. -/
def WriteSet.probeFor (ws : WriteSet) (a : Nat) : Option Nat :=
  probe ws.index ws.ilength (fun s => s.version != ws.version || s.address == a) ws.ilength
    (hash ws.ilength a)

/-- The end of an insert that appended: double the list when it is full, and rebuild the
    index at the constructor's load factor (`3 * lsize` reaching `ilength`). -/
def WriteSet.grow (ws : WriteSet) : Except Stop WriteSet :=
  let ws := if ws.lsize = ws.capacity then ws.resize else ws
  if ws.ilength ≤ 3 * ws.lsize then ws.rebuild hash else .ok ws

/-- Modelled from the spec: `WriteSet::insert` is not in src/. If the index holds the
    address, merge into its entry in place; else append the entry, index it, and `grow`. -/
def WriteSet.insert (ws : WriteSet) (e : WriteSetEntry) : Except Stop WriteSet :=
  match ws.probeFor hash e.addr with
  | none => .error .loops
  | some h =>
    if (ws.index h).version = ws.version then
      .ok { ws with list := ws.list.modify (fun l => l.update e) (ws.index h).index }
    else
      WriteSet.grow hash { ws with
        list := ws.list ++ [e]
        index := Function.update ws.index h ⟨ws.version, e.addr, ws.lsize⟩ }

/-- Modelled from the spec: `WriteSet::find` is not in src/. On a hit, merge the logged
    bytes into the caller's value and answer `true`. -/
def WriteSet.find (ws : WriteSet) (e : WriteSetEntry) : Bool × WriteSetEntry :=
  match ws.probeFor hash e.addr with
  | some h =>
    if (ws.index h).version = ws.version then
      match ws.list[(ws.index h).index]? with
      | some l => (true, { e with val := maskedWrite e.val l.val l.mask })
      | none => (false, e)
    else (false, e)
  | none => (false, e)

/-- Modelled from the spec: `WriteSet::writeback` is not in src/. Each entry, in list
    order, written to memory under its mask. -/
def WriteSet.writeback (ws : WriteSet) (m : Mem) : Mem :=
  ws.list.foldl (fun m l => m.doMaskedWrite l.addr l.val l.mask) m

/-- Modelled from the spec: `WriteSetEntry::rollback` is not in src/. The caller's
    comment says it writes the entry back where the entry lies in `[lower, upper)`: the
    bytes of the word inside the range, under the mask. -/
def WriteSetEntry.rollback (l : WriteSetEntry) (lower upper : Nat) (m : Mem) : Mem :=
  fun b =>
    if b / 8 = l.addr ∧ lower ≤ b ∧ b < upper then
      (maskedWrite (m.load l.addr) l.val l.mask).getByte (b % 8)
    else m b

/-- `WriteSet::rollback(exception, len)`: nothing when `len` is 0, else every entry
    written back inside `[exception, exception + len)`. -/
def WriteSet.rollback (ws : WriteSet) (exception len : Nat) (m : Mem) : Mem :=
  if len = 0 then m
  else ws.list.foldl (fun m l => l.rollback exception (exception + len) m) m

/-- Each pass of the constructor's loop is one `doubleIndexLength`. -/
theorem sizeIndex_eq (target shift ilength : Nat) :
    sizeIndex target shift ilength =
      if ilength < target then (doubleIndexLength shift).bind fun p => sizeIndex target p.1 p.2
      else .ok (shift, ilength) := by
  match shift with
  | 0 => simp only [sizeIndex, doubleIndexLength]; split <;> rfl
  | 1 => simp only [sizeIndex, doubleIndexLength]; split <;> rfl
  | s + 2 => simp only [sizeIndex, doubleIndexLength]; split <;> rfl

end Rstm
