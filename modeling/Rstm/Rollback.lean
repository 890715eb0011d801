import Rstm.UndoLog
import Rstm.WriteSet.Invariant

/- The two ways an attempt's writes are discarded.

   ByteEager writes in place: before each masked write its barrier logs the
   word's bytes (`UndoLogEntry(addr, *addr, mask)`), and rollback replays the
   log newest first through `UndoLog::undo(except, len)`, which keeps the bytes
   of the thrown object. Nano writes nothing until commit: its writes go to the
   redo log (`WriteSet::insert`), and rollback only writes the part of the log
   that lies in the thrown object (`WriteSet::rollback(except, len)`).

   What is proved:
     1. `eagerRollback_apply` — ByteEager's rollback leaves memory as it was
        before the attempt on every byte outside the thrown range and as the
        writes left it inside; "no range" is `except = NULL`, as `UndoLog::undo`
        tests it.
     2. `applyWrites_eq_writeback` — the writes applied in place are the redo
        log written back: a later write wins on the bits it covers.
     3. `lazyWrites_ok`, `lazyRollback_apply` — Nano's barriers always fill
        the redo log (no insert stops), and its rollback does the same as (1)
        where "no range" is `len = 0`, as `WriteSet::rollback` tests it.
     4. `rollback_paths_agree` — the two agree whenever the two tests agree:
        for every thrown object a caller registers, since `tmabort` clears it
        to `(NULL, 0)` and `setThrownObject` records an object's address.
        Only a `NULL` object with a nonzero length tells them apart. -/
namespace Rstm

/-- A masked word write: the word, the value, the mask. -/
abbrev WordWrite := Nat × Word × Word

/-- Memory with the writes applied in order. -/
def applyWrites (W : List WordWrite) (m : Mem) : Mem :=
  W.foldl (fun m w => m.doMaskedWrite w.1 w.2.1 w.2.2) m

/-- ByteEager's barriers over the writes: log the word's bytes, then write in place
    (`undo_log.insert(UndoLogEntry(addr, *addr, mask))`, `STM_DO_MASKED_WRITE`). -/
def eagerWrites : List WordWrite → Mem → List UndoLogEntry → Mem × List UndoLogEntry
  | [], m, log => (m, log)
  | (a, v, k) :: W, m, log => eagerWrites W (m.doMaskedWrite a v k) (log ++ [⟨a, m.load a, k⟩])

/-- ByteEager's rollback of the attempt: `STM_UNDO(tx->undo_log, except, len)`. -/
def eagerRollback (W : List WordWrite) (m : Mem) (exc len : Nat) : Mem :=
  undoLog (eagerWrites W m []).2 exc len (eagerWrites W m []).1

/-- Nano's barriers over the writes: each goes to the redo log. -/
def lazyWrites (hash : Nat → Nat → Nat) : List WordWrite → WriteSet → Except Stop WriteSet
  | [], ws => .ok ws
  | (a, v, k) :: W, ws => (ws.insert hash ⟨a, v, k⟩).bind (lazyWrites hash W)

/-- The thrown range `[exc, exc + len)`: none when `exc` is `NULL` or `len` is 0. -/
def InThrown (exc len b : Nat) : Prop := exc ≠ 0 ∧ exc ≤ b ∧ b < exc + len

instance (exc len b : Nat) : Decidable (InThrown exc len b) :=
  inferInstanceAs (Decidable (_ ∧ _))

/-! ## ByteEager -/

/-- The log ByteEager's barriers fill over the writes, from memory `m`. -/
def undoEntries : List WordWrite → Mem → List UndoLogEntry
  | [], _ => []
  | (a, v, k) :: W, m => ⟨a, m.load a, k⟩ :: undoEntries W (m.doMaskedWrite a v k)

@[simp] theorem applyWrites_cons (a : Nat) (v k : Word) (W : List WordWrite) (m : Mem) :
    applyWrites ((a, v, k) :: W) m = applyWrites W (m.doMaskedWrite a v k) := rfl

theorem eagerWrites_eq : ∀ (W : List WordWrite) (m : Mem) (log : List UndoLogEntry),
    eagerWrites W m log = (applyWrites W m, log ++ undoEntries W m)
  | [], _, _ => by simp [eagerWrites, applyWrites, undoEntries]
  | (a, v, k) :: W, m, log => by simp [eagerWrites, eagerWrites_eq W, undoEntries]

/-- One entry of `UndoLog::undo(exception, len)`. -/
def undoStep (exc len : Nat) (e : UndoLogEntry) (m : Mem) : Mem :=
  if exc = 0 then e.undo m else e.filteredUndo exc (exc + len) m

theorem undoLog_eq (log : List UndoLogEntry) (exc len : Nat) (m : Mem) :
    undoLog log exc len m = log.foldr (undoStep exc len) m := by
  unfold undoLog undoStep
  split <;> simp_all [UndoLogEntry.filteredUndo]

theorem undoEntries_apply (exc len : Nat) : ∀ (W : List WordWrite) (m : Mem) (b : Nat),
    (undoEntries W m).foldr (undoStep exc len) (applyWrites W m) b =
      if InThrown exc len b then applyWrites W m b else m b
  | [], m, b => by simp [undoEntries, applyWrites]
  | (a, v, k) :: W, m, b => by
    have ih := undoEntries_apply exc len W (m.doMaskedWrite a v k)
    rw [undoEntries, List.foldr_cons, applyWrites_cons]
    generalize (undoEntries W _).foldr (undoStep exc len) _ = X at ih ⊢
    by_cases hb : b / 8 = a
    · obtain ⟨j, hj, rfl⟩ : ∃ j < 8, b = 8 * a + j := ⟨b % 8, Nat.mod_lt _ (by decide), by omega⟩
      have hXj : X (8 * a + j) = if InThrown exc len (8 * a + j) then
          applyWrites W (m.doMaskedWrite a v k) (8 * a + j)
          else maskedWrite (m.load a) v k ⟨j, hj⟩ := by
        rw [ih, ← Mem.doMaskedWrite_self m a v k ⟨j, hj⟩]
      rw [undoStep]
      by_cases he : exc = 0
      · have hn : ¬InThrown exc len (8 * a + j) := fun h => h.1 he
        rw [if_pos he, if_neg hn, UndoLogEntry.undo_self (⟨a, m.load a, k⟩ : UndoLogEntry) X ⟨j, hj⟩]
        simp only [maskedWrite_apply, Mem.load_apply]
        rw [hXj, if_neg hn]
        exact Byte.merge_restore _ _ _
      · rw [if_neg he, UndoLogEntry.filteredUndo_self (⟨a, m.load a, k⟩ : UndoLogEntry) _ _ X ⟨j, hj⟩]
        simp only [UndoLogEntry.inRange]
        by_cases hr : exc ≤ 8 * a + j ∧ 8 * a + j < exc + len
        · have ht : InThrown exc len (8 * a + j) := ⟨he, hr⟩
          rw [if_pos hr, hXj, if_pos ht, if_pos ht]
        · have hn : ¬InThrown exc len (8 * a + j) := fun h => hr h.2
          rw [if_neg hr, if_neg hn]
          simp only [maskedWrite_apply, Mem.load_apply]
          rw [hXj, if_neg hn]
          exact Byte.merge_restore _ _ _
    · have hstep : undoStep exc len ⟨a, m.load a, k⟩ X b = X b := by
        unfold undoStep
        split
        · exact UndoLogEntry.undo_of_ne hb
        · exact UndoLogEntry.filteredUndo_of_ne hb
      rw [hstep, ih, Mem.doMaskedWrite_of_ne hb]

/-- ByteEager's rollback: the thrown range as the writes left it, every other byte as it
    was before the attempt. -/
theorem eagerRollback_apply (W : List WordWrite) (m : Mem) (exc len b : Nat) :
    eagerRollback W m exc len b = if InThrown exc len b then applyWrites W m b else m b := by
  rw [eagerRollback, eagerWrites_eq, undoLog_eq, List.nil_append]
  exact undoEntries_apply exc len W m b

/-! ## Nano -/

/-- `WriteSet::writeback`'s loop on a list of entries. -/
def writebackList (l : List WriteSetEntry) (m : Mem) : Mem :=
  l.foldl (fun m l => m.doMaskedWrite l.addr l.val l.mask) m

/-- `WriteSet::rollback`'s loop on a list of entries. -/
def rollbackList (l : List WriteSetEntry) (lower upper : Nat) (m : Mem) : Mem :=
  l.foldl (fun m l => l.rollback lower upper m) m

/-- The redo log Nano's barriers build over the writes, in the list model. -/
def redoContent (W : List WordWrite) (l : List WriteSetEntry) : List WriteSetEntry :=
  W.foldl (fun l w => absInsert l ⟨w.1, w.2.1, w.2.2⟩) l

/-- Byte `b` of the entry's word written over the byte `y` under the entry's mask. -/
def WriteSetEntry.byteOver (x : WriteSetEntry) (b : Nat) (y : Byte) : Byte :=
  (y &&& ~~~x.mask.getByte (b % 8)) ||| (x.val.getByte (b % 8) &&& x.mask.getByte (b % 8))

/-- Byte `b` once the entry of its word in `l`, if any, is written over `y`. -/
def logByte (l : List WriteSetEntry) (b : Nat) (y : Byte) : Byte :=
  match l.find? (fun x => x.addr == b / 8) with
  | some x => x.byteOver b y
  | none => y

theorem WriteSet.rollback_eq (ws : WriteSet) (exc len : Nat) (m : Mem) :
    ws.rollback exc len m = if len = 0 then m else rollbackList ws.list exc (exc + len) m := rfl

theorem WriteSetEntry.doMaskedWrite_apply (x : WriteSetEntry) (m : Mem) (b : Nat) :
    m.doMaskedWrite x.addr x.val x.mask b = if b / 8 = x.addr then x.byteOver b (m b) else m b :=
  Mem.doMaskedWrite_apply m x.addr x.val x.mask b

theorem WriteSetEntry.rollback_apply (x : WriteSetEntry) (lower upper : Nat) (m : Mem) (b : Nat) :
    x.rollback lower upper m b =
      if b / 8 = x.addr ∧ lower ≤ b ∧ b < upper then x.byteOver b (m b) else m b := by
  simp only [WriteSetEntry.rollback, byteOver, Word.getByte_mod, maskedWrite_apply, Mem.load_apply]
  split
  · next h => rw [← h.1, Nat.div_add_mod]
  · rfl

theorem logByte_cons (x : WriteSetEntry) (l : List WriteSetEntry) (b : Nat) (y : Byte) :
    logByte (x :: l) b y = if b / 8 = x.addr then x.byteOver b y else logByte l b y := by
  by_cases h : b / 8 = x.addr
  · simp [logByte, h]
  · simp [logByte, h, Ne.symm h]

theorem logByte_of_forall_ne {l : List WriteSetEntry} {b : Nat} (h : ∀ x ∈ l, x.addr ≠ b / 8)
    (y : Byte) : logByte l b y = y := by
  rw [logByte, List.find?_eq_none.mpr fun x hx => by simpa using h x hx]

theorem writebackList_apply : ∀ (l : List WriteSetEntry), (l.map (·.addr)).Nodup →
    ∀ (m : Mem) (b : Nat), writebackList l m b = logByte l b (m b)
  | [], _, _, _ => rfl
  | x :: xs, hn, m, b => by
    rw [List.map_cons, List.nodup_cons] at hn
    rw [writebackList, List.foldl_cons, ← writebackList, writebackList_apply xs hn.2,
      WriteSetEntry.doMaskedWrite_apply, logByte_cons]
    by_cases hx : b / 8 = x.addr
    · rw [if_pos hx, if_pos hx, logByte_of_forall_ne]
      intro y hy hyb
      exact hn.1 (List.mem_map.mpr ⟨y, hy, hyb.trans hx⟩)
    · rw [if_neg hx, if_neg hx]

theorem rollbackList_apply : ∀ (l : List WriteSetEntry), (l.map (·.addr)).Nodup →
    ∀ (lower upper : Nat) (m : Mem) (b : Nat),
      rollbackList l lower upper m b = if lower ≤ b ∧ b < upper then logByte l b (m b) else m b
  | [], _, _, _, _, _ => by simp [rollbackList, logByte]
  | x :: xs, hn, lower, upper, m, b => by
    rw [List.map_cons, List.nodup_cons] at hn
    rw [rollbackList, List.foldl_cons, ← rollbackList, rollbackList_apply xs hn.2,
      WriteSetEntry.rollback_apply, logByte_cons]
    by_cases hx : b / 8 = x.addr
    · have hxs : ∀ y ∈ xs, y.addr ≠ b / 8 := fun y hy hyb =>
        hn.1 (List.mem_map.mpr ⟨y, hy, hyb.trans hx⟩)
      by_cases hr : lower ≤ b ∧ b < upper <;> simp [hx, hr, logByte_of_forall_ne hxs]
    · simp only [hx, false_and, if_false]

theorem logByte_absInsert (l : List WriteSetEntry) (e : WriteSetEntry) (b : Nat) (y : Byte) :
    logByte (absInsert l e) b y =
      if b / 8 = e.addr then e.byteOver b (logByte l b y) else logByte l b y := by
  unfold absInsert
  by_cases hany : l.any (fun x => x.addr == e.addr)
  · have hp : ((fun x : WriteSetEntry => x.addr == b / 8) ∘
        fun x => if x.addr = e.addr then x.update e else x) = fun x => x.addr == b / 8 := by
      funext x; by_cases hx : x.addr = e.addr <;> simp [hx, WriteSetEntry.update]
    rw [if_pos hany]
    simp only [logByte, List.find?_map, hp]
    by_cases he : b / 8 = e.addr
    · obtain ⟨x, hx⟩ : ∃ x, l.find? (fun x => x.addr == b / 8) = some x :=
        Option.isSome_iff_exists.mp (List.find?_isSome.mpr (by simpa [← he] using hany))
      have hxa : x.addr = e.addr := (by simpa using List.find?_some hx : x.addr = b / 8).trans he
      rw [if_pos he, hx, Option.map_some', if_pos hxa]
      simp only [WriteSetEntry.byteOver, WriteSetEntry.update, Word.getByte_mod, maskedWrite_apply,
        maskOr_apply]
      exact (Byte.merge_merge _ _ _ _ _).symm
    · rw [if_neg he]
      cases hx : l.find? (fun x => x.addr == b / 8) with
      | none => rfl
      | some x =>
        have hxa : x.addr ≠ e.addr := fun h =>
          he ((by simpa using List.find?_some hx : x.addr = b / 8).symm.trans h)
        rw [Option.map_some', if_neg hxa]
  · have hl : ∀ x ∈ l, x.addr ≠ e.addr := fun x hx h =>
      hany (List.any_eq_true.mpr ⟨x, hx, by simp [h]⟩)
    rw [if_neg hany]
    simp only [logByte, List.find?_append, List.find?_singleton]
    by_cases he : b / 8 = e.addr
    · rw [List.find?_eq_none.mpr fun x hx => by simpa [he] using hl x hx, if_pos he]
      simp [he]
    · rw [if_neg he]
      cases l.find? (fun x => x.addr == b / 8) <;> simp [Ne.symm he]

theorem absInsert_nodup {l : List WriteSetEntry} (hn : (l.map (·.addr)).Nodup) (e : WriteSetEntry) :
    ((absInsert l e).map (·.addr)).Nodup := by
  unfold absInsert
  split
  · rw [List.map_map]
    convert hn using 2
    funext x; by_cases hx : x.addr = e.addr <;> simp [hx, WriteSetEntry.update]
  · next hany =>
    rw [List.map_append, List.nodup_append]
    exact ⟨hn, by simp, by simpa [List.disjoint_singleton] using hany⟩

theorem writeback_absInsert {l : List WriteSetEntry} (hn : (l.map (·.addr)).Nodup)
    (e : WriteSetEntry) (m : Mem) :
    writebackList (absInsert l e) m = (writebackList l m).doMaskedWrite e.addr e.val e.mask := by
  funext b
  rw [writebackList_apply _ (absInsert_nodup hn e), WriteSetEntry.doMaskedWrite_apply,
    writebackList_apply _ hn, logByte_absInsert]

theorem applyWrites_writeback (m : Mem) : ∀ (W : List WordWrite) (l : List WriteSetEntry),
    (l.map (·.addr)).Nodup → applyWrites W (writebackList l m) = writebackList (redoContent W l) m
  | [], _, _ => rfl
  | (a, v, k) :: W, l, hn => by
    rw [applyWrites_cons, ← writeback_absInsert hn ⟨a, v, k⟩]
    exact applyWrites_writeback m W _ (absInsert_nodup hn _)

/-- The writes applied in place are the redo log written back. -/
theorem applyWrites_eq_writeback (W : List WordWrite) (m : Mem) :
    applyWrites W m = writebackList (redoContent W []) m :=
  applyWrites_writeback m W [] List.nodup_nil

section Lazy
variable {hash : Nat → Nat → Nat}

theorem absInsert_length_le (l : List WriteSetEntry) (e : WriteSetEntry) :
    (absInsert l e).length ≤ l.length + 1 := by
  unfold absInsert; split <;> simp

/-- Nano's barriers fill the redo log without stopping, from any write set with the invariant,
    as long as three index slots per entry fit below the overflowed length `indexLength 1`:
    no insert meets a rebuild at `shift = 1`. -/
theorem lazyWrites_ok (hlt : ∀ n a, 0 < n → hash n a < n) : ∀ (W : List WordWrite) (ws : WriteSet),
    ws.Inv hash → 3 * (ws.lsize + W.length) < indexLength 1 →
      ∃ ws', lazyWrites hash W ws = .ok ws' ∧ ws'.Inv hash ∧ ws'.list = redoContent W ws.list
  | [], ws, hI, _ => ⟨ws, rfl, hI, rfl⟩
  | (a, v, k) :: W, ws, hI, hW => by
    simp only [List.length_cons] at hW
    rcases insert_total hI hlt ⟨a, v, k⟩ with ⟨ws₁, h₁, hI₁, hl₁⟩ | ⟨-, h1, hle⟩
    · have hlen : ws₁.lsize ≤ ws.lsize + 1 := by
        rw [WriteSet.lsize, hl₁]; exact absInsert_length_le _ _
      obtain ⟨ws', h, hI', hl'⟩ := lazyWrites_ok hlt W ws₁ hI₁ (by omega)
      refine ⟨ws', by rw [lazyWrites, h₁]; exact h, hI', ?_⟩
      rw [hl', hl₁]; rfl
    · rw [hI.ilength_eq, h1] at hle; omega

/-- Nano's rollback: the part of the writes inside the thrown range, written back over memory
    the attempt left untouched; no range when `len` is 0. -/
theorem lazyRollback_apply {ws : WriteSet} (hI : ws.Inv hash) {W : List WordWrite}
    (hl : ws.list = redoContent W []) (m : Mem) (exc len b : Nat) :
    ws.rollback exc len m b =
      if len ≠ 0 ∧ exc ≤ b ∧ b < exc + len then applyWrites W m b else m b := by
  rw [WriteSet.rollback_eq, applyWrites_eq_writeback, writebackList_apply _ (by rw [← hl]; exact hI.nodup)]
  by_cases hlen : len = 0
  · simp [hlen]
  · rw [if_neg hlen, rollbackList_apply _ hI.nodup, hl]
    simp [hlen]

/-- ByteEager's and Nano's rollbacks leave the same memory whenever their two tests for "no
    thrown object" agree (`exc ≠ NULL` or `len = 0`): the thrown range as the writes left it,
    every other byte as it was before the attempt. Nano's barriers fill the redo log from any
    empty write set without stopping. -/
theorem rollback_paths_agree (hlt : ∀ n a, 0 < n → hash n a < n) {ws₀ : WriteSet}
    (hI : ws₀.Inv hash) (hempty : ws₀.list = []) {W : List WordWrite}
    (hW : 3 * W.length < 2 ^ 64 - 2 ^ 31) (m : Mem) {exc len : Nat} (hR : exc ≠ 0 ∨ len = 0) :
    ∃ ws, lazyWrites hash W ws₀ = .ok ws ∧ ws.rollback exc len m = eagerRollback W m exc len ∧
      ∀ b, eagerRollback W m exc len b = if InThrown exc len b then applyWrites W m b else m b := by
  obtain ⟨ws, hws, hI', hl⟩ := lazyWrites_ok hlt W ws₀ hI (by simpa [WriteSet.lsize, hempty] using hW)
  rw [hempty] at hl
  refine ⟨ws, hws, funext fun b => ?_, eagerRollback_apply W m exc len⟩
  have hiff : (len ≠ 0 ∧ exc ≤ b ∧ b < exc + len) ↔ InThrown exc len b := by
    unfold InThrown; omega
  rw [lazyRollback_apply hI' hl, eagerRollback_apply]
  exact if_congr hiff rfl rfl

/-- One full write of word 1 from the constructor's write set, rolled back against the thrown
    range `[12, 20)`, which cuts the word. -/
theorem rollback_paths_agree_cut :
    (⟨fun _ => .fresh, 30, 4, 1, [], 1⟩ : WriteSet).Inv (fun n a => a % n) ∧
    lazyWrites (fun n a => a % n) [(1, fun _ => 1#8, fun _ => 255#8)]
        ⟨fun _ => .fresh, 30, 4, 1, [], 1⟩ =
      .ok ⟨Function.update (fun _ => .fresh) 1 ⟨1, 1, 0⟩, 30, 4, 1,
        [⟨1, fun _ => 1#8, fun _ => 255#8⟩], 2⟩ ∧
    ∃ ws, lazyWrites (fun n a => a % n) [(1, fun _ => 1#8, fun _ => 255#8)]
        ⟨fun _ => .fresh, 30, 4, 1, [], 1⟩ = .ok ws ∧
      ws.rollback 12 8 (fun _ => 0#8) =
        eagerRollback [(1, fun _ => 1#8, fun _ => 255#8)] (fun _ => 0#8) 12 8 ∧
      ∀ b, eagerRollback [(1, fun _ => 1#8, fun _ => 255#8)] (fun _ => 0#8) 12 8 b =
        if InThrown 12 8 b then applyWrites [(1, fun _ => 1#8, fun _ => 255#8)] (fun _ => 0#8) b
        else 0#8 :=
  have hI : (⟨fun _ => .fresh, 30, 4, 1, [], 1⟩ : WriteSet).Inv (fun n a => a % n) :=
    (new_inv (le_refl 1) rfl).1
  ⟨hI, rfl, rollback_paths_agree (fun n a h => Nat.mod_lt a h) hI rfl (by decide) _
    (.inl (by decide))⟩

end Lazy

end Rstm
