import Rstm.ByteEager.Exclusion
import Rstm.ByteEager.Runs

/- What ByteEager's reads return, and its serializability without `release`.

   The committed memory is the initial memory with the writes of the committed
   attempts applied in commit order (`committed`). The pending writes of an
   attempt are those of its ghost log that are neither committed nor undone
   (`Thread.pendingWrites`); they match its pending undo-log entries one for
   one, each entry holding the word as the writes before it left it (`UndoOk`).
   Only an owner writes a bucket, so every word holds the committed memory with
   its owner's pending writes applied (`MemOk`). A read therefore returns the
   committed value or the reader's own write, in every run whose rollbacks
   restore what they undo: aborts, and rollbacks with an empty thrown range.

   Without `release` a thread keeps every bucket its attempt has used until it
   commits or rolls back (`SerialOk`), and no other attempt commits a write to
   one of them meanwhile. Each attempt's log is then what the attempt gives run
   alone on the committed memory, and at its commit it joins the committed
   memory: the committed attempts, run one at a time in commit order, make
   every read they made (`byteEager_isolation`). A rollback with a thrown range
   leaves the rolled-back bytes of the range in place, and another attempt can
   read them and commit (`thrown_range_read`). -/
namespace Rstm.ByteEager

/-! ## Memory -/

theorem applyWrites_append (W₁ W₂ : List WordWrite) (m : Mem) :
    applyWrites (W₁ ++ W₂) m = applyWrites W₂ (applyWrites W₁ m) := by
  simp [applyWrites, List.foldl_append]

@[simp] theorem applyWrites_nil (m : Mem) : applyWrites [] m = m := rfl

theorem load_applyWrites_of_ne {a : Nat} :
    ∀ {W : List WordWrite} (m : Mem), (∀ w ∈ W, w.1 ≠ a) → (applyWrites W m).load a = m.load a
  | [], _, _ => rfl
  | (b, v, k) :: W, m, h => by
    rw [applyWrites_cons, load_applyWrites_of_ne _ fun w hw => h w (List.mem_cons_of_mem _ hw),
      Mem.load_doMaskedWrite_of_ne (h _ (List.mem_cons_self _ _)).symm]

theorem load_applyWrites_congr {a : Nat} :
    ∀ (W : List WordWrite) {m m' : Mem}, m.load a = m'.load a →
      (applyWrites W m).load a = (applyWrites W m').load a
  | [], _, _, h => h
  | (b, v, k) :: W, m, m', h => by
    refine load_applyWrites_congr W ?_
    by_cases hb : a = b
    · subst hb; simp only [Mem.load_doMaskedWrite_self, h]
    · rw [Mem.load_doMaskedWrite_of_ne hb, Mem.load_doMaskedWrite_of_ne hb, h]

theorem undoStep_of_empty {exc len : Nat} (h : exc = 0 ∨ len = 0) (e : UndoLogEntry) (m : Mem) :
    undoStep exc len e m = e.undo m := by
  funext b
  unfold undoStep
  split
  · rfl
  · by_cases hb : b / 8 = e.addr
    · obtain ⟨k, rfl⟩ : ∃ k : Fin 8, b = 8 * e.addr + k.val :=
        ⟨⟨b % 8, Nat.mod_lt _ (by decide)⟩, by simp only; omega⟩
      have hk : ¬e.inRange exc (exc + len) k := by simp only [UndoLogEntry.inRange]; omega
      rw [UndoLogEntry.filteredUndo_self, if_neg hk, UndoLogEntry.undo_self]
    · rw [UndoLogEntry.filteredUndo_of_ne hb, UndoLogEntry.undo_of_ne hb]

/-! ## Logs -/

/-- The word an event reads or writes. -/
def Event.addr : Event → Nat
  | .read a _ | .write a _ _ => a

/-- The write an event makes, if it makes one. -/
def Event.toWrite : Event → Option WordWrite
  | .read _ _ => none
  | .write a v mask => some (a, v, mask)

/-- The writes of a log, in order. -/
def writesOf (evs : List Event) : List WordWrite := evs.filterMap Event.toWrite

/-- One event of an attempt run alone: a read must see what memory holds. -/
def Event.run (m : Mem) : Event → Option Mem
  | .read a v => if m.load a = v then some m else none
  | .write a v mask => some (m.doMaskedWrite a v mask)

/-- An attempt run alone from `m`: `none` if a read sees something else than it logged. -/
def runAlone (m : Mem) (evs : List Event) : Option Mem := evs.foldlM Event.run m

/-- The attempts run one at a time in order from `m`. -/
def runSerial (m : Mem) (hist : List (List Event)) : Option Mem := hist.foldlM runAlone m

@[simp] theorem writesOf_nil : writesOf [] = [] := rfl

@[simp] theorem writesOf_append (evs evs' : List Event) :
    writesOf (evs ++ evs') = writesOf evs ++ writesOf evs' := List.filterMap_append _ _ _

@[simp] theorem writesOf_read (a : Nat) (v : Word) : writesOf [.read a v] = [] := rfl

@[simp] theorem writesOf_write (a : Nat) (v mask : Word) :
    writesOf [.write a v mask] = [(a, v, mask)] := rfl

theorem runAlone_append (m : Mem) (evs : List Event) (e : Event) :
    runAlone m (evs ++ [e]) = (runAlone m evs).bind fun m' => Event.run m' e := by
  simp [runAlone, List.foldlM_append]

/-- The log is what the attempt gives run alone from `m`. -/
def Consistent (m : Mem) (evs : List Event) : Prop := runAlone m evs = some (applyWrites (writesOf evs) m)

theorem Consistent.nil (m : Mem) : Consistent m [] := rfl

theorem consistent_read_cons {m : Mem} {a : Nat} {v : Word} {evs : List Event} :
    Consistent m (.read a v :: evs) ↔ m.load a = v ∧ Consistent m evs := by
  simp only [Consistent, runAlone, List.foldlM_cons, Event.run, writesOf, List.filterMap_cons,
    Event.toWrite]
  split_ifs with h <;> simp [h]

theorem consistent_write_cons {m : Mem} {a : Nat} {v mask : Word} {evs : List Event} :
    Consistent m (.write a v mask :: evs) ↔ Consistent (m.doMaskedWrite a v mask) evs := by
  simp only [Consistent, runAlone, List.foldlM_cons, Event.run, writesOf, List.filterMap_cons,
    Event.toWrite, applyWrites_cons]
  exact Iff.rfl

theorem Consistent.read {m : Mem} {evs : List Event} (h : Consistent m evs) {a : Nat} {v : Word}
    (hv : (applyWrites (writesOf evs) m).load a = v) : Consistent m (evs ++ [.read a v]) := by
  rw [Consistent, runAlone_append, h]
  simp [Event.run, hv]

theorem Consistent.write {m : Mem} {evs : List Event} (h : Consistent m evs) (a : Nat)
    (v mask : Word) : Consistent m (evs ++ [.write a v mask]) := by
  rw [Consistent, runAlone_append, h]
  simp [Event.run, applyWrites_append]

theorem Consistent.congr : ∀ {evs : List Event} {m m' : Mem},
    (∀ e ∈ evs, m.load e.addr = m'.load e.addr) → Consistent m evs → Consistent m' evs
  | [], _, _, _, _ => rfl
  | .read a v :: evs, m, m', hm, h => by
    rw [consistent_read_cons] at h ⊢
    exact ⟨(hm _ (List.mem_cons_self _ _)).symm.trans h.1,
      h.2.congr fun e he => hm e (List.mem_cons_of_mem _ he)⟩
  | .write a v mask :: evs, m, m', hm, h => by
    rw [consistent_write_cons] at h ⊢
    exact h.congr fun e he => load_applyWrites_congr [(a, v, mask)] (hm e (List.mem_cons_of_mem _ he))

/-! ## What a step does to an attempt -/

/-- The writes of the attempt that are neither committed nor undone: those of its log; the first
    `n` while the rollback walks down to `n`; none once `commit` is called or the undo is done. -/
def Thread.pendingWrites (th : Thread) : List WordWrite :=
  match th.pc with
  | .undo _ _ n => (writesOf th.events).take n
  | .commitRo _ | .commitRwOwners _ | .commitRwReaders _ | .rollbackOwners _ | .rollbackReaders _ =>
    []
  | _ => writesOf th.events

section Effect
variable (lockOf : Nat → Nat)

/-- What one step of `t` does to memory, the committed attempts and `t`'s attempt. -/
inductive Effect (s s' : State) (t : Slot) : Prop
  /-- Memory, the committed attempts and the pending writes stay; the log gains at most a read
      of memory's value. -/
  | keep (hm : s'.mem = s.mem) (hh : s'.history = s.history)
      (hp : (s'.threads t).pending = (s.threads t).pending)
      (hw : (s'.threads t).pendingWrites = (s.threads t).pendingWrites)
      (he : (s'.threads t).events = (s.threads t).events ∨
        ∃ a, (s'.threads t).events = (s.threads t).events ++ [.read a (s.mem.load a)])
  /-- An in-place write, after a drain or on the fast path of an owner. -/
  | write (a : Nat) (v mask : Word) (hm : s'.mem = s.mem.doMaskedWrite a v mask)
      (hh : s'.history = s.history) (ho : ∀ L, (s'.locks L).owner = (s.locks L).owner)
      (hp : (s'.threads t).pending = (s.threads t).pending ++ [⟨a, s.mem.load a, mask⟩])
      (hw : (s'.threads t).pendingWrites = (s.threads t).pendingWrites ++ [(a, v, mask)])
      (he : (s'.threads t).events = (s.threads t).events ++ [.write a v mask])
      (hpc : (s.threads t).pc.drain = some (a, 16) ∨
        (s.threads t).pc = .idle ∧ (s.locks (lockOf a)).owner = t.val + 1)
  /-- One entry of the undo, the newest not yet undone. -/
  | undo (exc len n : Nat) (e : UndoLogEntry) (hpc : (s.threads t).pc = .undo exc len (n + 1))
      (hl : (s.threads t).undoLog[n]? = some e) (hm : s'.mem = undoStep exc len e s.mem)
      (hh : s'.history = s.history) (ho : ∀ L, (s'.locks L).owner = (s.locks L).owner)
      (hp : (s'.threads t).pending = (s.threads t).undoLog.take n)
      (hw : (s'.threads t).pendingWrites = (writesOf (s.threads t).events).take n)
      (he : (s'.threads t).events = (s.threads t).events)
  /-- `commit`: the log joins the committed attempts. -/
  | commit (hpc : (s.threads t).pc = .idle) (hm : s'.mem = s.mem)
      (hh : s'.history = s.history ++ [(s.threads t).events])
      (ho : ∀ L, (s'.locks L).owner = (s.locks L).owner)
      (hp : (s'.threads t).pending = []) (hw : (s'.threads t).pendingWrites = [])
      (he : (s'.threads t).events = [])
  /-- The start of a rollback, called or on an abort. -/
  | rollback (exc len : Nat) (hm : s'.mem = s.mem) (hh : s'.history = s.history)
      (hp : (s.threads t).pending = (s.threads t).undoLog)
      (hw : (s.threads t).pendingWrites = writesOf (s.threads t).events)
      (hp' : (s'.threads t).pending = (s.threads t).undoLog)
      (hw' : (s'.threads t).pendingWrites =
        (writesOf (s.threads t).events).take (s.threads t).undoLog.length)
      (he : (s'.threads t).events = (s.threads t).events)
  /-- The end of a commit or a rollback. -/
  | finish (hm : s'.mem = s.mem) (hh : s'.history = s.history)
      (hp : (s.threads t).pending = []) (hw : (s.threads t).pendingWrites = [])
      (hpc' : (s'.threads t).pc = .idle)
      (hl : (s'.threads t).undoLog = [] ∨
        (∃ i, (s.threads t).pc = .commitRo i) ∧ (s'.threads t).undoLog = (s.threads t).undoLog)
      (he : (s'.threads t).events = [] ∨
        (∃ i, (s.threads t).pc = .commitRo i ∨ (s.threads t).pc = .commitRwReaders i) ∧
          (s'.threads t).events = (s.threads t).events)

theorem Effect.keepSet {s s₀ : State} {t : Slot} (th' : Thread) (hm : s₀.mem = s.mem)
    (hh : s₀.history = s.history) (hp : th'.pending = (s.threads t).pending)
    (hw : th'.pendingWrites = (s.threads t).pendingWrites) (he : th'.events = (s.threads t).events) :
    Effect lockOf s (s₀.setThread t th') t :=
  .keep hm hh (by simpa using hp) (by simpa using hw) (.inl (by simpa using he))

theorem Effect.abort {s s₀ : State} {t : Slot} (th : Thread) (hm : s₀.mem = s.mem)
    (hh : s₀.history = s.history) (hl : th.undoLog = (s.threads t).undoLog)
    (he : th.events = (s.threads t).events) (hp : (s.threads t).pending = (s.threads t).undoLog)
    (hw : (s.threads t).pendingWrites = writesOf (s.threads t).events) :
    Effect lockOf s (s₀.setThread t th.abort) t :=
  .rollback 0 0 hm hh hp hw (by simp [Thread.pending, Thread.abort, hl])
    (by simp [Thread.pendingWrites, Thread.abort, hl, he]) (by simpa [Thread.abort] using he)

theorem effect_next (s : State) (t : Slot)
    (hn : ∀ exc len n, (s.threads t).pc = .undo exc len n → n ≤ (s.threads t).undoLog.length) :
    Effect lockOf s (next lockOf s t) t := by
  cases hpc : (s.threads t).pc <;> simp only [next, hpc]
  case idle => exact .keep rfl rfl rfl rfl (.inl rfl)
  case readSet | readCheck | readDrop | commitRwOwners | rollbackOwners =>
    -- the program counter moves, perhaps with a reader byte or an owner
    (try split_ifs) <;> (try split) <;> exact .keepSet lockOf _ rfl rfl
      (by simp [Thread.pending, hpc]) (by simp [Thread.pendingWrites, hpc]) rfl
  case readVersion op a _ =>
    split_ifs
    · exact .keepSet lockOf _ rfl rfl (by cases op <;> simp [Thread.pending, hpc])
        (by cases op <;> simp [Thread.pendingWrites, hpc]) rfl
    · exact .abort lockOf _ rfl rfl rfl rfl (by simp [Thread.pending, hpc])
        (by simp [Thread.pendingWrites, hpc])
    · exact .keepSet lockOf _ rfl rfl (by cases op <;> simp [Thread.pending, hpc])
        (by cases op <;> simp [Thread.pendingWrites, hpc]) rfl
  case readValue a =>
    exact .keep rfl rfl (by simp [Thread.pending, hpc]) (by simp [Thread.pendingWrites, hpc])
      (.inr ⟨a, by simp⟩)
  case readWait | writeDrain =>
    -- a timeout aborts; otherwise the loop goes on
    split_ifs
    · exact .abort lockOf _ rfl rfl rfl rfl (by simp [Thread.pending, hpc])
        (by simp [Thread.pendingWrites, hpc])
    all_goals
      exact .keepSet lockOf _ rfl rfl (by simp [Thread.pending, hpc])
        (by simp [Thread.pendingWrites, hpc]) rfl
  case writeCas =>
    split_ifs
    · exact .abort lockOf _ rfl rfl rfl rfl (by simp [Thread.pending, hpc])
        (by simp [Thread.pendingWrites, hpc])
    · exact .keepSet lockOf _ rfl rfl (by simp [Thread.pending, hpc])
        (by simp [Thread.pendingWrites, hpc]) rfl
    · exact .abort lockOf _ rfl rfl rfl rfl (by simp [Thread.pending, hpc])
        (by simp [Thread.pendingWrites, hpc])
    · exact .keepSet lockOf _ rfl rfl (by simp [Thread.pending, hpc])
        (by simp [Thread.pendingWrites, hpc]) rfl
  case writeBump op a v mask =>
    have hd : (s.threads t).pc.drain = some (a, 16) := by simp [hpc, Pc.drain]
    cases op
    case reserve =>
      -- `write_reserve` logs the word and writes it back unchanged
      exact .write a (s.mem.load a) mask (by simp [Mem.doMaskedWrite_load_self]) rfl
        (owner_update s rfl) (by simp [Thread.pending, hpc]) (by simp [Thread.pendingWrites, hpc])
        (by simp) (.inl hd)
    all_goals
      exact .write a v mask (by simp) rfl (owner_update s rfl) (by simp [Thread.pending, hpc])
        (by simp [Thread.pendingWrites, hpc]) (by simp) (.inl hd)
  case commitRo i =>
    split
    · exact .keepSet lockOf _ rfl rfl (by simp [Thread.pending, hpc])
        (by simp [Thread.pendingWrites, hpc]) rfl
    · exact .finish rfl rfl (by simp [Thread.pending, hpc]) (by simp [Thread.pendingWrites, hpc])
        (by simp) (.inr ⟨⟨i, hpc⟩, by simp⟩) (.inr ⟨⟨i, .inl hpc⟩, by simp⟩)
  case commitRwReaders i =>
    split
    · exact .keepSet lockOf _ rfl rfl (by simp [Thread.pending, hpc])
        (by simp [Thread.pendingWrites, hpc]) rfl
    · exact .finish rfl rfl (by simp [Thread.pending, hpc]) (by simp [Thread.pendingWrites, hpc])
        (by simp) (.inl (by simp)) (.inr ⟨⟨i, .inr hpc⟩, by simp⟩)
  case undo exc len n =>
    have hlen := hn exc len n hpc
    rcases n with _ | n
    · -- the undo has reached the start of the log
      exact .keepSet lockOf _ rfl rfl (by simp [Thread.pending, hpc])
        (by simp [Thread.pendingWrites, hpc]) rfl
    · obtain ⟨e, he⟩ : ∃ e, (s.threads t).undoLog[n]? = some e :=
        ⟨_, List.getElem?_eq_getElem (by omega)⟩
      simp only [Nat.add_sub_cancel, he]
      exact .undo exc len n e hpc he rfl rfl (fun _ => rfl) (by simp [Thread.pending])
        (by simp [Thread.pendingWrites]) (by simp)
  case rollbackReaders =>
    split
    · exact .keepSet lockOf _ rfl rfl (by simp [Thread.pending, hpc])
        (by simp [Thread.pendingWrites, hpc]) rfl
    · exact .finish rfl rfl (by simp [Thread.pending, hpc]) (by simp [Thread.pendingWrites, hpc])
        (by simp) (.inl (by simp)) (.inl (by simp))

theorem effect_readEntry (s : State) (t : Slot) (hidle : (s.threads t).pc = .idle) (op : ReadOp)
    (a : Nat) : Effect lockOf s (readEntry lockOf s t op a) t := by
  unfold readEntry
  dsimp only
  split_ifs
  · cases op
    · exact .keep rfl rfl (by simp [Thread.pending, hidle]) (by simp [Thread.pendingWrites, hidle])
        (.inr ⟨a, by simp⟩)
    · exact .keep rfl rfl (by simp [Thread.pending, hidle]) (by simp [Thread.pendingWrites, hidle])
        (.inr ⟨a, by simp⟩)
    · exact .keep rfl rfl rfl rfl (.inl rfl)
  all_goals
    exact .keepSet lockOf _ rfl rfl (by simp [Thread.pending, hidle])
      (by simp [Thread.pendingWrites, hidle]) rfl

theorem effect_call (s : State) (t : Slot) (hidle : (s.threads t).pc = .idle) (c : Call) :
    Effect lockOf s (call lockOf s t c) t := by
  cases c with
  | read a =>
    simp only [call]
    split
    · exact effect_readEntry lockOf s t hidle _ a
    · split_ifs
      · exact .keep rfl rfl (by simp [Thread.pending, hidle])
          (by simp [Thread.pendingWrites, hidle]) (.inr ⟨a, by simp⟩)
      · exact effect_readEntry lockOf s t hidle _ a
  | readReserve a =>
    simp only [call]
    split_ifs
    · exact .keep rfl rfl rfl rfl (.inl rfl)
    · exact effect_readEntry lockOf s t hidle _ a
  | write a v mask =>
    simp only [call]
    split
    · exact .keepSet lockOf _ rfl rfl (by simp [Thread.pending, hidle])
        (by simp [Thread.pendingWrites, hidle]) rfl
    · split_ifs with ho
      · exact .write a v mask (by simp) rfl (fun _ => rfl) (by simp [Thread.pending, hidle])
          (by simp [Thread.pendingWrites, hidle]) (by simp) (.inr ⟨hidle, ho⟩)
      · exact .keepSet lockOf _ rfl rfl (by simp [Thread.pending, hidle])
          (by simp [Thread.pendingWrites, hidle]) rfl
  | writeReserve a mask =>
    simp only [call]
    split_ifs with ho
    · exact .write a (s.mem.load a) mask (by simp [Mem.doMaskedWrite_load_self]) rfl
        (fun _ => rfl) (by simp [Thread.pending, hidle]) (by simp [Thread.pendingWrites, hidle])
        (by simp) (.inr ⟨hidle, ho⟩)
    · exact .keepSet lockOf _ rfl rfl (by simp [Thread.pending, hidle])
        (by simp [Thread.pendingWrites, hidle]) rfl
  | release a =>
    simp only [call]
    split_ifs
    · exact .keep rfl rfl rfl rfl (.inl rfl)
    · exact .keep rfl rfl rfl rfl (.inl rfl)
  | commit =>
    simp only [call]
    exact .commit hidle rfl rfl (fun _ => rfl)
      (by cases (s.threads t).mode <;> simp [Thread.pending])
      (by cases (s.threads t).mode <;> simp [Thread.pendingWrites]) (by simp)
  | rollback exc len =>
    simp only [call]
    exact .rollback exc len rfl rfl (by simp [Thread.pending, hidle])
      (by simp [Thread.pendingWrites, hidle]) (by simp [Thread.pending])
      (by simp [Thread.pendingWrites]) (by simp)

/-- Every step, for the thread that takes it. -/
theorem effect_step (s : State) (act : Action)
    (hn : ∀ exc len n, (s.threads act.thread).pc = .undo exc len n →
      n ≤ (s.threads act.thread).undoLog.length) :
    Effect lockOf s (step lockOf s act) act.thread := by
  cases act with
  | call t c =>
    simp only [step, Action.thread]
    split
    · next hidle => exact effect_call lockOf s t hidle c
    · exact .keep rfl rfl rfl rfl (.inl rfl)
  | next t => exact effect_next lockOf s t hn

end Effect

/-! ## The committed memory and the pending writes -/

/-- The committed memory: `m` with the writes of the committed attempts, in commit order. -/
def committed (m : Mem) (s : State) : Mem := applyWrites (writesOf s.history.flatten) m

/-- A rollback called from between barriers restores all it undoes: no thrown object, or an
    empty thrown range. -/
def Action.emptyThrow : Action → Bool
  | .call _ (.rollback exc len) => exc == 0 || len == 0
  | _ => true

/-- Undo-log entries that match writes one for one: entry `k` logs, under the mask of write `k`,
    its word as `σ` and the writes before it left it. -/
def Matches (σ : Mem) (es : List UndoLogEntry) (ws : List WordWrite) : Prop :=
  es.length = ws.length ∧ ∀ k (e : UndoLogEntry) (w : WordWrite), es[k]? = some e → ws[k]? = some w →
    e = ⟨w.1, (applyWrites (ws.take k) σ).load w.1, w.2.2⟩

theorem Matches.nil (σ : Mem) : Matches σ [] [] := ⟨rfl, fun _ _ _ h => by simp at h⟩

/-- A write logged as ByteEager logs it: the word as `σ` and the earlier writes left it. -/
theorem Matches.append {σ : Mem} {es : List UndoLogEntry} {ws : List WordWrite} (h : Matches σ es ws)
    (w : WordWrite) : Matches σ (es ++ [⟨w.1, (applyWrites ws σ).load w.1, w.2.2⟩]) (ws ++ [w]) := by
  refine ⟨by simp [h.1], fun k e w' he hw => ?_⟩
  rcases Nat.lt_or_ge k es.length with hk | hk
  · rw [List.getElem?_append_left hk] at he
    rw [List.getElem?_append_left (h.1 ▸ hk)] at hw
    rw [List.take_append_of_le_length (h.1 ▸ hk.le)]
    exact h.2 k e w' he hw
  · rw [List.getElem?_append_right hk] at he
    rw [List.getElem?_append_right (h.1 ▸ hk)] at hw
    obtain ⟨j, rfl⟩ : ∃ j, k = es.length + j := ⟨k - es.length, by omega⟩
    rcases j with _ | j
    · simp only [Nat.add_zero, Nat.sub_self, List.getElem?_cons_zero, Option.some.injEq, h.1] at he hw
      subst he hw
      simp [h.1]
    · simp at he

theorem Matches.take {σ : Mem} {es : List UndoLogEntry} {ws : List WordWrite} (h : Matches σ es ws)
    (n : Nat) : Matches σ (es.take n) (ws.take n) := by
  refine ⟨by simp [h.1], fun k e w he hw => ?_⟩
  have hk : k < n := by
    by_contra hk
    simp [List.getElem?_take, hk] at he
  rw [List.getElem?_take_of_lt hk] at he hw
  rw [List.take_take, Nat.min_eq_left hk.le]
  exact h.2 k e w he hw

theorem Matches.congr {σ σ' : Mem} {es : List UndoLogEntry} {ws : List WordWrite}
    (h : Matches σ es ws) (hσ : ∀ w ∈ ws, σ'.load w.1 = σ.load w.1) : Matches σ' es ws := by
  refine ⟨h.1, fun k e w he hw => ?_⟩
  rw [h.2 k e w he hw, load_applyWrites_congr _ (hσ w (List.mem_iff_getElem?.mpr ⟨k, hw⟩)).symm]

theorem Matches.mem {σ : Mem} {es : List UndoLogEntry} {ws : List WordWrite} (h : Matches σ es ws)
    {w : WordWrite} (hw : w ∈ ws) : ∃ e ∈ es, e.addr = w.1 := by
  obtain ⟨k, hk⟩ := List.mem_iff_getElem?.mp hw
  obtain ⟨hlt, -⟩ := List.getElem?_eq_some_iff.mp hk
  obtain ⟨e, he⟩ : ∃ e, es[k]? = some e := ⟨_, List.getElem?_eq_getElem (h.1 ▸ hlt)⟩
  exact ⟨e, List.mem_iff_getElem?.mpr ⟨k, he⟩, by rw [h.2 k e w he hk]⟩

section Values
variable (lockOf : Nat → Nat)

/-- The pending undo-log entries match the pending writes. -/
def UndoOk (σ : Mem) (th : Thread) : Prop := Matches σ th.pending th.pendingWrites

/-- A commit has moved the log out; an undo walks down from within the log and restores all
    it undoes. -/
structure PcOk (th : Thread) : Prop where
  clear : ∀ i, th.pc = .commitRo i ∨ th.pc = .commitRwOwners i ∨ th.pc = .commitRwReaders i →
    th.events = []
  undo : ∀ exc len n, th.pc = .undo exc len n → n ≤ th.undoLog.length ∧ (exc = 0 ∨ len = 0)

theorem pcOk_next {s : State} {t : Slot} (h : PcOk (s.threads t)) :
    PcOk ((next lockOf s t).threads t) := by
  obtain ⟨hc, hu⟩ := h
  cases hpc : (s.threads t).pc <;> simp only [next, hpc] <;> (try split_ifs) <;> (try split) <;>
    refine ⟨fun i hi => ?_, fun exc len n hn => ?_⟩ <;>
    simp only [State.setThread_threads, State.setLock_threads, Function.update_same, Thread.abort,
      reduceCtorEq, false_or, or_false, Pc.undo.injEq, Pc.commitRo.injEq, Pc.commitRwOwners.injEq,
      Pc.commitRwReaders.injEq] at * <;> simp_all
  -- one undo step walks down from within the log
  omega

theorem pcOk_call {s : State} {t : Slot} (h : PcOk (s.threads t)) (hidle : (s.threads t).pc = .idle)
    (c : Call) (hc : (Action.call t c).emptyThrow = true) : PcOk ((call lockOf s t c).threads t) := by
  cases c with
  | rollback exc len =>
    exact ⟨by simp [call], fun _ _ _ hn => by
      simp only [call, State.setThread_threads, Function.update_same, Pc.undo.injEq] at hn
      obtain ⟨rfl, rfl, rfl⟩ := hn
      exact ⟨by simp [call], by simpa [Action.emptyThrow] using hc⟩⟩
  | commit => exact ⟨fun _ _ => by simp [call], fun _ _ _ hn => by cases h : (s.threads t).mode <;> simp [call, h] at hn⟩
  | _ =>
    obtain ⟨hcl, hu⟩ := h
    simp only [call, readEntry]
    (try split) <;> (try split) <;> (try split) <;> constructor <;> simp_all

theorem pcOk_step {s : State} (h : ∀ t, PcOk (s.threads t)) (act : Action) (hact : act.emptyThrow = true)
    (t : Slot) : PcOk ((step lockOf s act).threads t) := by
  by_cases ht : t = act.thread
  · subst ht
    cases act with
    | call t c =>
      simp only [step, Action.thread]
      split
      · next hidle => exact pcOk_call lockOf (h t) hidle c hact
      · exact h t
    | next t => exact pcOk_next lockOf (h t)
  · rw [(frame_step lockOf s act).threads t ht]
    exact h t

/-- Every word holds the committed memory with its owner's pending writes. -/
structure MemOk (σ : Mem) (s : State) : Prop where
  owned : ∀ (t : Slot) a, (s.locks (lockOf a)).owner = t.val + 1 →
    s.mem.load a = (applyWrites (s.threads t).pendingWrites σ).load a
  free : ∀ a, (∀ t : Slot, (s.locks (lockOf a)).owner ≠ t.val + 1) → s.mem.load a = σ.load a

/-- What the values reads return rest on, in a run from memory `m`. -/
structure ValueInv (m : Mem) (s : State) : Prop where
  excl : ExclInv lockOf s
  reading : ∀ u, Reading lockOf s u
  pc : ∀ t, PcOk (s.threads t)
  undo : ∀ t, UndoOk (committed m s) (s.threads t)
  mem : MemOk lockOf (committed m s) s

theorem committed_of_history {m : Mem} {s s' : State} (h : s'.history = s.history) :
    committed m s' = committed m s := by
  rw [committed, h, committed]

theorem committed_append {m : Mem} {s s' : State} {evs : List Event}
    (h : s'.history = s.history ++ [evs]) :
    committed m s' = applyWrites (writesOf evs) (committed m s) := by
  simp [committed, h, applyWrites_append]

/-- A pending write is to a bucket its writer owns and no one else holds a read of. -/
theorem ValueInv.pendingWrite {m : Mem} {s : State} (h : ValueInv lockOf m s) {t : Slot}
    {w : WordWrite} (hw : w ∈ (s.threads t).pendingWrites) :
    (s.locks (lockOf w.1)).owner = t.val + 1 ∧ Unread lockOf s t (lockOf w.1) := by
  obtain ⟨e, he, hea⟩ := (h.undo t).mem hw
  rw [← hea]
  exact (h.excl.2 t).pending e he

theorem ValueInv.load_pending {m : Mem} {s : State} (h : ValueInv lockOf m s) {t : Slot} {a : Nat}
    (ha : (s.locks (lockOf a)).owner ≠ t.val + 1) (σ : Mem) :
    (applyWrites (s.threads t).pendingWrites σ).load a = σ.load a :=
  load_applyWrites_of_ne σ fun _ hw hwa => ha (hwa ▸ (h.pendingWrite lockOf hw).1)

/-- A step of `t` that changes neither memory, nor the committed attempts, nor a pending write,
    whatever it does to owners: it takes a free bucket, where it has no pending write, or
    releases one in a commit or rollback, where it has none. -/
theorem MemOk.frame {m : Mem} {s s' : State} {t : Slot} (h : ValueInv lockOf m s)
    (hf : Frame t s s') (hm : s'.mem = s.mem) (hσ : committed m s' = committed m s)
    (hw : ∀ u, (s'.threads u).pendingWrites = (s.threads u).pendingWrites) :
    MemOk lockOf (committed m s') s' := by
  have ht := (h.excl.1 t).1
  rw [hσ]
  refine ⟨fun u a ha => ?_, fun a ha => ?_⟩
  · rw [hm, hw]
    by_cases hu : u = t
    · subst hu
      rcases hf.owner (lockOf a) with ho | ⟨h0, -⟩ | ⟨h0, -⟩
      · exact h.mem.owned u a (ho ▸ ha)
      · -- a free bucket taken: no pending write of `u` there
        rw [h.mem.free a fun v hv => by omega, h.load_pending lockOf (by omega)]
      · omega
    · exact h.mem.owned u a ((hf.owner_iff lockOf ht hu _).mp ha)
  · rw [hm]
    by_cases ho : ∃ v : Slot, (s.locks (lockOf a)).owner = v.val + 1
    · obtain ⟨v, hv⟩ := ho
      have hvt : v = t := by
        by_contra hvt
        exact ha v ((hf.owner_iff lockOf ht hvt _).mpr hv)
      subst hvt
      rcases hf.owner (lockOf a) with ho | ⟨h0, -⟩ | ⟨-, i, hpc, -⟩
      · exact absurd (ho ▸ hv) (ha v)
      · omega
      · -- released in a commit or rollback, past the undo
        rw [h.mem.owned v a hv]
        rcases hpc with hpc | hpc <;> simp [Thread.pendingWrites, hpc]
    · exact h.mem.free a fun v hv => ho ⟨v, hv⟩

theorem MemOk.write {m : Mem} {s s' : State} {t : Slot} {a : Nat} {v mask : Word}
    (h : ValueInv lockOf m s) (hm : s'.mem = s.mem.doMaskedWrite a v mask)
    (hσ : committed m s' = committed m s) (ho : ∀ L, (s'.locks L).owner = (s.locks L).owner)
    (hoa : (s.locks (lockOf a)).owner = t.val + 1)
    (hw : (s'.threads t).pendingWrites = (s.threads t).pendingWrites ++ [(a, v, mask)])
    (hwo : ∀ u, u ≠ t → (s'.threads u).pendingWrites = (s.threads u).pendingWrites) :
    MemOk lockOf (committed m s') s' := by
  rw [hσ]
  refine ⟨fun u a' ha => ?_, fun a' ha => ?_⟩
  · rw [ho] at ha
    by_cases hu : u = t
    · subst hu
      rw [hm, hw, applyWrites_append, applyWrites_cons, applyWrites_nil]
      by_cases ha' : a' = a
      · subst ha'
        rw [Mem.load_doMaskedWrite_self, Mem.load_doMaskedWrite_self, h.mem.owned u a' ha]
      · rw [Mem.load_doMaskedWrite_of_ne ha', Mem.load_doMaskedWrite_of_ne ha', h.mem.owned u a' ha]
    · have ha' : a' ≠ a := fun he => hu (Fin.ext (by subst he; omega))
      rw [hm, hwo u hu, Mem.load_doMaskedWrite_of_ne ha', h.mem.owned u a' ha]
  · rw [ho] at ha
    have ha' : a' ≠ a := fun he => ha t (he ▸ hoa)
    rw [hm, Mem.load_doMaskedWrite_of_ne ha', h.mem.free a' ha]

theorem MemOk.undo {m : Mem} {s s' : State} {t : Slot} {exc len n : Nat} {e : UndoLogEntry}
    (h : ValueInv lockOf m s) (hpc : (s.threads t).pc = .undo exc len (n + 1))
    (hl : (s.threads t).undoLog[n]? = some e) (hm : s'.mem = undoStep exc len e s.mem)
    (hσ : committed m s' = committed m s) (ho : ∀ L, (s'.locks L).owner = (s.locks L).owner)
    (hw : (s'.threads t).pendingWrites = (writesOf (s.threads t).events).take n)
    (hwo : ∀ u, u ≠ t → (s'.threads u).pendingWrites = (s.threads u).pendingWrites) :
    MemOk lockOf (committed m s') s' := by
  obtain ⟨hn, hexc⟩ := (h.pc t).undo _ _ _ hpc
  have hpend : (s.threads t).pending = (s.threads t).undoLog.take (n + 1) := by
    simp [Thread.pending, hpc]
  have hpw : (s.threads t).pendingWrites = (writesOf (s.threads t).events).take (n + 1) := by
    simp [Thread.pendingWrites, hpc]
  have hen : (s.threads t).pending[n]? = some e := by
    rw [hpend, List.getElem?_take_of_lt (Nat.lt_succ_self n), hl]
  -- the write `e` logs, the last pending one
  obtain ⟨w, hwn⟩ : ∃ w, (s.threads t).pendingWrites[n]? = some w := by
    have hlen := (h.undo t).1
    rw [hpend, hpw, List.length_take, List.length_take] at hlen
    exact ⟨_, List.getElem?_eq_getElem (by rw [hpw, List.length_take]; omega)⟩
  have hsplit : (s.threads t).pendingWrites = (s'.threads t).pendingWrites ++ [w] := by
    rw [hw, hpw, List.take_succ, ← List.getElem?_take_of_lt (Nat.lt_succ_self n), ← hpw, hwn]
    rfl
  have he : e = ⟨w.1, (applyWrites (s'.threads t).pendingWrites (committed m s)).load w.1, w.2.2⟩ := by
    rw [(h.undo t).2 n e w hen hwn, hpw, List.take_take, Nat.min_eq_left (Nat.le_succ n), hw]
  have hoe := ((h.excl.2 t).pending e (List.mem_iff_getElem?.mpr ⟨n, hen⟩)).1
  rw [undoStep_of_empty hexc] at hm
  rw [hσ]
  refine ⟨fun u a ha => ?_, fun a ha => ?_⟩
  · rw [ho] at ha
    by_cases ha' : a = e.addr
    · -- the undone word: the write of `e` is taken back
      have hu : u = t := Fin.ext (by subst ha'; omega)
      subst hu ha'
      rw [hm, UndoLogEntry.undo, Mem.load_doMaskedWrite_self, h.mem.owned u _ ha, hsplit,
        applyWrites_append, applyWrites_cons, applyWrites_nil]
      subst he
      simp only [Mem.load_doMaskedWrite_self]
      exact maskedWrite_restore _ _ _
    · rw [hm, UndoLogEntry.undo, Mem.load_doMaskedWrite_of_ne ha', h.mem.owned u a ha]
      by_cases hu : u = t
      · subst hu
        have hwa : w.1 ≠ a := fun hwa => ha' (by rw [he, hwa])
        rw [hsplit, applyWrites_append, applyWrites_cons, applyWrites_nil,
          Mem.load_doMaskedWrite_of_ne (Ne.symm hwa)]
      · rw [hwo u hu]
  · rw [ho] at ha
    have ha' : a ≠ e.addr := fun he => ha t (he ▸ hoe)
    rw [hm, UndoLogEntry.undo, Mem.load_doMaskedWrite_of_ne ha', h.mem.free a ha]

/-- `commit`: the attempt's writes, all in place in buckets it owns, join the committed memory. -/
theorem MemOk.commit {m : Mem} {s s' : State} {t : Slot} (h : ValueInv lockOf m s)
    (hpc : (s.threads t).pc = .idle) (hm : s'.mem = s.mem)
    (hh : s'.history = s.history ++ [(s.threads t).events])
    (ho : ∀ L, (s'.locks L).owner = (s.locks L).owner) (hw : (s'.threads t).pendingWrites = [])
    (hwo : ∀ u, u ≠ t → (s'.threads u).pendingWrites = (s.threads u).pendingWrites) :
    MemOk lockOf (committed m s') s' := by
  have hσ : committed m s' = applyWrites (s.threads t).pendingWrites (committed m s) := by
    rw [committed_append hh]
    simp [Thread.pendingWrites, hpc]
  have hoff : ∀ a, (s.locks (lockOf a)).owner ≠ t.val + 1 →
      (committed m s').load a = (committed m s).load a := fun a ha => by
    rw [hσ, h.load_pending lockOf ha]
  refine ⟨fun u a ha => ?_, fun a ha => ?_⟩
  · rw [ho] at ha
    by_cases hu : u = t
    · subst hu
      rw [hm, hw, applyWrites_nil, hσ, h.mem.owned u a ha]
    · have hat : (s.locks (lockOf a)).owner ≠ t.val + 1 := fun h' =>
        hu (Fin.ext (by omega))
      rw [hm, hwo u hu, h.mem.owned u a ha, load_applyWrites_congr _ (hoff a hat).symm]
  · rw [ho] at ha
    rw [hm, h.mem.free a ha, hoff a (ha t)]

theorem ValueInv.finish {m : Mem} {s s' : State} {t : Slot} (h : ValueInv lockOf m s)
    (hpc' : (s'.threads t).pc = .idle)
    (hl : (s'.threads t).undoLog = [] ∨
      (∃ i, (s.threads t).pc = .commitRo i) ∧ (s'.threads t).undoLog = (s.threads t).undoLog)
    (he : (s'.threads t).events = [] ∨
      (∃ i, (s.threads t).pc = .commitRo i ∨ (s.threads t).pc = .commitRwReaders i) ∧
        (s'.threads t).events = (s.threads t).events) :
    (s'.threads t).pending = [] ∧ (s'.threads t).pendingWrites = [] := by
  have hl' : (s'.threads t).undoLog = [] := by
    rcases hl with hl | ⟨⟨i, hi⟩, hl⟩
    · exact hl
    · -- `commit_ro` runs in the read-only mode, with an empty undo log
      rw [hl]
      exact ((h.excl.1 t).1.ro ((h.excl.1 t).2 i hi)).1
  have he' : (s'.threads t).events = [] := by
    rcases he with he | ⟨⟨i, hi⟩, he⟩
    · exact he
    · rw [he]
      exact (h.pc t).clear i (hi.imp_right .inr)
  simp [Thread.pending, Thread.pendingWrites, hpc', hl', he']

/-- Only a commit changes the committed memory, and only on the committer's buckets. -/
theorem Effect.committed_load {m : Mem} {s s' : State} {t : Slot} (he : Effect lockOf s s' t)
    (h : ValueInv lockOf m s) {a : Nat} (ha : (s.locks (lockOf a)).owner ≠ t.val + 1) :
    (committed m s').load a = (committed m s).load a := by
  cases he with
  | commit hpc _ hh =>
    rw [committed_append hh, show writesOf (s.threads t).events = (s.threads t).pendingWrites by
      simp [Thread.pendingWrites, hpc], h.load_pending lockOf ha]
  | keep _ hh | write _ _ _ _ hh | undo _ _ _ _ _ _ _ hh | rollback _ _ _ hh | finish _ hh =>
    rw [committed_of_history hh]

theorem valueInv_step {m : Mem} {s : State} (h : ValueInv lockOf m s) (act : Action)
    (hact : act.emptyThrow = true) : ValueInv lockOf m (step lockOf s act) := by
  have hf := frame_step lockOf s act
  have heff := effect_step lockOf s act fun exc len n hn => ((h.pc _).undo exc len n hn).1
  have hwo : ∀ u, u ≠ act.thread →
      ((step lockOf s act).threads u).pendingWrites = (s.threads u).pendingWrites :=
    fun u hu => by rw [hf.threads u hu]
  refine ⟨exclInv_step lockOf h.excl act, reading_step lockOf h.reading act,
    pcOk_step lockOf h.pc act hact, fun u => ?_, ?_⟩
  · by_cases hu : u = act.thread
    · subst hu
      have hu := h.undo act.thread
      cases heff with
      | keep _ hh hp hw =>
        rwa [UndoOk, hp, hw, committed_of_history hh]
      | write a v mask _ hh _ hp hw _ hpc =>
        have hoa := hpc.elim (fun hd => ((h.excl.2 _).drain a 16 hd).1) (·.2)
        rw [UndoOk, hp, hw, committed_of_history hh, h.mem.owned _ a hoa]
        exact hu.append (a, v, mask)
      | undo exc len n e hpc _ _ hh _ hp hw =>
        have hm := hu.take n
        simp only [Thread.pending, Thread.pendingWrites, hpc, List.take_take,
          Nat.min_eq_left (Nat.le_succ n)] at hm
        rwa [UndoOk, hp, hw, committed_of_history hh]
      | commit _ _ _ _ hp hw => rw [UndoOk, hp, hw]; exact .nil _
      | rollback _ _ _ hh hp hw hp' hw' =>
        have hlen := hu.1
        rw [hp, hw] at hlen
        rw [UndoOk, hp', hw', hlen, List.take_length, ← hp, ← hw, committed_of_history hh]
        exact hu
      | finish _ _ _ _ hpc' hl he =>
        obtain ⟨hp, hw⟩ := h.finish lockOf hpc' hl he
        rw [UndoOk, hp, hw]
        exact .nil _
    · rw [UndoOk, hf.threads u hu]
      exact (h.undo u).congr fun w hw => heff.committed_load lockOf h fun ho => hu (Fin.ext (by
        have := (h.pendingWrite lockOf hw).1
        omega))
  · cases heff with
    | keep hm hh _ hw =>
      exact .frame lockOf h hf hm (committed_of_history hh) fun u => by
        by_cases hu : u = act.thread
        · subst hu; exact hw
        · exact hwo u hu
    | write a v mask hm hh ho _ hw _ hpc =>
      exact .write lockOf h hm (committed_of_history hh) ho
        (hpc.elim (fun hd => ((h.excl.2 _).drain a 16 hd).1) (·.2)) hw hwo
    | undo exc len n e hpc hl hm hh ho _ hw => exact .undo lockOf h hpc hl hm (committed_of_history hh) ho hw hwo
    | commit hpc hm hh ho _ hw => exact .commit lockOf h hpc hm hh ho hw hwo
    | rollback _ _ hm hh hp hw _ hw' =>
      exact .frame lockOf h hf hm (committed_of_history hh) fun u => by
        by_cases hu : u = act.thread
        · subst hu
          have hlen := (h.undo act.thread).1
          rw [hp, hw] at hlen
          rw [hw', hlen, List.take_length, hw]
        · exact hwo u hu
    | finish hm hh _ hw hpc' hl he =>
      exact .frame lockOf h hf hm (committed_of_history hh) fun u => by
        by_cases hu : u = act.thread
        · subst hu; rw [(h.finish lockOf hpc' hl he).2, hw]
        · exact hwo u hu

theorem valueInv_init (m : Mem) : ValueInv lockOf m (init m) where
  excl := exclInv_reachable lockOf ⟨m, [], rfl⟩
  reading := reading_reachable lockOf ⟨m, [], rfl⟩
  pc _ := ⟨fun _ h => by simp [init, Thread.init] at h, fun _ _ _ h => by simp [init, Thread.init] at h⟩
  undo _ := by simpa [UndoOk, init, Thread.init, Thread.pending, Thread.pendingWrites] using Matches.nil m
  mem := ⟨fun _ _ h => by simp [init, Bytelock.free] at h, fun _ _ => by simp [init, committed]⟩

theorem valueInv_exec {m : Mem} {s : State} (h : ValueInv lockOf m s) :
    ∀ as : List Action, (∀ a ∈ as, a.emptyThrow = true) → ValueInv lockOf m (exec lockOf s as)
  | [], _ => h
  | a :: as, has => valueInv_exec (valueInv_step lockOf h a (has a (List.mem_cons_self _ _))) as
      fun b hb => has b (List.mem_cons_of_mem _ hb)

/-- A read returns the committed value of the word, with the reader's own pending writes: no
    write of another attempt that is not committed. -/
theorem ValueInv.read {m : Mem} {s : State} (h : ValueInv lockOf m s) (act : Action) {u : Slot}
    {a : Nat} {w : Word}
    (hr : ((step lockOf s act).threads u).events = (s.threads u).events ++ [.read a w]) :
    w = (applyWrites (s.threads u).pendingWrites (committed m s)).load a := by
  obtain ⟨rfl, hheld, -⟩ := read_step lockOf (h.reading u) act hr
  by_cases ho : ∃ t : Slot, (s.locks (lockOf a)).owner = t.val + 1
  · obtain ⟨t, ht⟩ := ho
    by_cases htu : t = u
    · subst htu; exact h.mem.owned t a ht
    · -- another owner, still draining: it has no pending write in the bucket
      have hH : HoldsRead lockOf s u (lockOf a) := hheld.resolve_right fun h' =>
        htu (Fin.ext (by omega))
      have hne : ∀ w ∈ (s.threads t).pendingWrites, w.1 ≠ a := fun w hw hwa =>
        (h.pendingWrite lockOf hw).2 u (Ne.symm htu) (hwa ▸ hH)
      rw [h.mem.owned t a ht, load_applyWrites_of_ne _ hne,
        h.load_pending lockOf fun h' => htu (Fin.ext (by omega))]
  · push_neg at ho
    rw [h.mem.free a ho, h.load_pending lockOf (ho u)]

end Values

/-! ## Serializability without `release` -/

/-- The attempt is open: not yet committed, and not past its undo. -/
def Pc.live : Pc → Bool
  | .commitRo _ | .commitRwOwners _ | .commitRwReaders _ | .rollbackOwners _ | .rollbackReaders _ =>
    false
  | _ => true

/-- No `release`, and every rollback called from between barriers restores all it undoes. -/
def Action.plain : Action → Bool
  | .call _ (.release _) => false
  | a => a.emptyThrow

theorem Action.emptyThrow_of_plain {a : Action} (h : a.plain = true) : a.emptyThrow = true := by
  cases a with
  | call t c => cases c <;> simp_all [Action.plain]
  | next t => rfl

section Serial
variable (lockOf : Nat → Nat)

/-- `t` holds bucket `L`: it owns it, or holds a read of it. -/
def Held (s : State) (t : Slot) (L : Nat) : Prop :=
  (s.locks L).owner = t.val + 1 ∨ HoldsRead lockOf s t L

/-- An attempt opens only with an empty log, or at the end of a commit, whose log is empty. -/
theorem live_step (s : State) (act : Action)
    (h : ((step lockOf s act).threads act.thread).pc.live = true) :
    (s.threads act.thread).pc.live = true ∨ ((step lockOf s act).threads act.thread).events = [] ∨
      (∃ i, (s.threads act.thread).pc = .commitRo i ∨ (s.threads act.thread).pc = .commitRwReaders i) ∧
        ((step lockOf s act).threads act.thread).events = (s.threads act.thread).events := by
  cases act with
  | call t c =>
    simp only [step, Action.thread] at h ⊢
    split at h
    · next hidle => simp [hidle, Pc.live]
    · simp_all
  | next t =>
    simp only [step, Action.thread] at h ⊢
    revert h
    cases hpc : (s.threads t).pc <;> simp only [next, hpc] <;> (try split_ifs) <;> (try split) <;>
      simp only [State.setThread_threads, State.setLock_threads, Function.update_same, Pc.live,
        Thread.abort, hpc] <;> simp

/-- A step of `t` between two open points of its attempt keeps every bucket `t` holds, but the
    one its read loop works on. -/
theorem held_next {s : State} {t : Slot} {L : Nat} (h : Held lockOf s t L)
    (hloop : ∀ a, (s.threads t).pc.readLoop = some a → lockOf a ≠ L)
    (hl : (s.threads t).pc.live = true) (hl' : ((next lockOf s t).threads t).pc.live = true) :
    Held lockOf (next lockOf s t) t L := by
  revert h hl'
  unfold next
  dsimp only
  split <;> (try split_ifs) <;> (try split) <;>
    simp_all [Held, HoldsRead, Pc.live, Pc.testing, Pc.readLoop, Thread.abort, Bytelock.setReader,
      Function.update_apply]
  all_goals split_ifs <;> simp_all

theorem Held.of_locks {s s' : State} {t : Slot} {L : Nat} (h : Held lockOf s t L)
    (hl : s'.locks = s.locks) (ht : (s'.threads t).pc.testing = none) : Held lockOf s' t L := by
  simp only [Held, HoldsRead, hl, ht] at h ⊢
  exact h.imp_right fun h' => ⟨h'.1, by simp⟩

theorem call_locks {s : State} {t : Slot} (hidle : (s.threads t).pc = .idle) (c : Call)
    (hc : ∀ x, c ≠ .release x) :
    (call lockOf s t c).locks = s.locks ∧ ((call lockOf s t c).threads t).pc.testing = none := by
  cases c <;> simp only [call, readEntry] <;> (try split) <;> (try split) <;> (try split) <;>
    simp_all [Pc.testing]

/-- A step of `t` between two open points of its attempt, other than `release`, keeps every
    bucket `t` holds, but the one its read loop works on. -/
theorem held_step {s : State} (act : Action) (hact : act.plain = true) {L : Nat}
    (h : Held lockOf s act.thread L)
    (hloop : ∀ a, (s.threads act.thread).pc.readLoop = some a → lockOf a ≠ L)
    (hl : (s.threads act.thread).pc.live = true)
    (hl' : ((step lockOf s act).threads act.thread).pc.live = true) :
    Held lockOf (step lockOf s act) act.thread L := by
  cases act with
  | call t c =>
    simp only [step, Action.thread] at h ⊢
    split
    · next hidle =>
      obtain ⟨hlk, ht⟩ := call_locks lockOf hidle c fun x hx => by simp [hx, Action.plain] at hact
      exact h.of_locks lockOf hlk ht
    · exact h
  | next t => exact held_next lockOf h hloop hl hl'

theorem Frame.held_iff {u t : Slot} {s s' : State} (hf : Frame u s s') (hu : ThreadOk lockOf s u)
    (ht : t ≠ u) (L : Nat) : Held lockOf s' t L ↔ Held lockOf s t L := by
  rw [Held, Held, hf.owner_iff lockOf hu ht, hf.holdsRead_iff lockOf ht]

theorem ThreadOk.owner_ne_of_ro {s : State} {t : Slot} (h : ThreadOk lockOf s t)
    (hidle : (s.threads t).pc = .idle) (hro : (s.threads t).mode = .ro) (L : Nat) :
    (s.locks L).owner ≠ t.val + 1 := fun ho => by
  have hw := (h.ro hro).2
  simp only [roLocks, hidle] at hw
  simpa [hw] using (h.owner L).mp ho

theorem loop_next {s : State} {t : Slot} {a : Nat}
    (h : ((next lockOf s t).threads t).pc.readLoop = some a) :
    (s.threads t).pc.readLoop = some a ∧ ((next lockOf s t).threads t).events = (s.threads t).events := by
  revert h
  cases hpc : (s.threads t).pc <;> simp only [next, hpc] <;> (try split_ifs) <;> (try split) <;>
    simp only [State.setThread_threads, State.setLock_threads, Function.update_same, Pc.readLoop,
      Thread.abort, hpc] <;> simp

theorem loop_call {s : State} {t : Slot} (hl : ThreadOk lockOf s t) (hidle : (s.threads t).pc = .idle)
    (c : Call) {a : Nat} (h : ((call lockOf s t c).threads t).pc.readLoop = some a) :
    ((call lockOf s t c).threads t).events = (s.threads t).events ∧ ¬Held lockOf s t (lockOf a) := by
  have hro := hl.owner_ne_of_ro lockOf hidle
  revert h
  cases c <;> simp only [call, readEntry] <;> (try split) <;> (try split) <;> (try split) <;>
    simp_all [Pc.readLoop, Held, HoldsRead, Pc.testing]
  all_goals rintro rfl; simp_all

theorem loop_step {s : State} (hl : ListsInv lockOf s) (act : Action) {a : Nat}
    (h : ((step lockOf s act).threads act.thread).pc.readLoop = some a) :
    ((step lockOf s act).threads act.thread).events = (s.threads act.thread).events ∧
      ((s.threads act.thread).pc.readLoop = some a ∨
        (s.threads act.thread).pc = .idle ∧ ¬Held lockOf s act.thread (lockOf a)) := by
  cases act with
  | call t c =>
    simp only [Action.thread] at h ⊢
    by_cases hidle : (s.threads t).pc = .idle
    · rw [step_call_of_idle lockOf hidle] at h ⊢
      obtain ⟨he, hn⟩ := loop_call lockOf (hl t).1 hidle c h
      exact ⟨he, .inr ⟨hidle, hn⟩⟩
    · rw [step_call_of_ne_idle lockOf hidle] at h ⊢
      exact ⟨rfl, .inl h⟩
  | next t =>
    obtain ⟨hloop, he⟩ := loop_next lockOf h
    exact ⟨he, .inl hloop⟩

/-- A step of `t` changes the committed memory only on words of buckets no other thread holds. -/
theorem Effect.committed_load_held {m : Mem} {s s' : State} {t u : Slot} (he : Effect lockOf s s' t)
    (h : ValueInv lockOf m s) (hu : u ≠ t) {a : Nat} (ha : Held lockOf s u (lockOf a)) :
    (committed m s').load a = (committed m s).load a := by
  cases he with
  | commit hpc _ hh =>
    rw [committed_append hh, show writesOf (s.threads t).events = (s.threads t).pendingWrites by
      simp [Thread.pendingWrites, hpc]]
    refine load_applyWrites_of_ne _ fun w hw hwa => ?_
    obtain ⟨ho, hun⟩ := h.pendingWrite lockOf hw
    rw [hwa] at ho hun
    rcases ha with ha | ha
    · exact hu (Fin.ext (by omega))
    · exact hun u hu ha
  | keep _ hh | write _ _ _ _ hh | undo _ _ _ _ _ _ _ hh | rollback _ _ _ hh | finish _ hh =>
    rw [committed_of_history hh]

/-- What one step of `t` does to its log, as the serial order sees it. -/
inductive LogStep (m : Mem) (s s' : State) (t : Slot) : Prop
  /-- The log is emptied: a commit, or the end of a rollback. -/
  | clear (he : (s'.threads t).events = [])
  /-- The log is kept, and so is the committed memory. -/
  | keep (hσ : committed m s' = committed m s) (he : (s'.threads t).events = (s.threads t).events)
  /-- A read returns. -/
  | read (a : Nat) (w : Word) (hσ : committed m s' = committed m s)
      (he : (s'.threads t).events = (s.threads t).events ++ [.read a w])
  /-- An in-place write to a bucket `t` owns. -/
  | write (a : Nat) (v mask : Word) (hσ : committed m s' = committed m s)
      (he : (s'.threads t).events = (s.threads t).events ++ [.write a v mask])
      (ho : (s'.locks (lockOf a)).owner = t.val + 1)

theorem logStep_step {m : Mem} {s : State} (h : ValueInv lockOf m s) (act : Action) :
    LogStep lockOf m s (step lockOf s act) act.thread := by
  cases effect_step lockOf s act fun exc len n hn => ((h.pc _).undo exc len n hn).1 with
  | keep _ hh _ _ he =>
    rcases he with he | ⟨a, he⟩
    · exact .keep (committed_of_history hh) he
    · exact .read a _ (committed_of_history hh) he
  | write a v mask _ hh ho _ _ he hpc =>
    refine .write a v mask (committed_of_history hh) he ?_
    rw [ho]
    exact hpc.elim (fun hd => ((h.excl.2 _).drain a 16 hd).1) (·.2)
  | undo _ _ _ _ _ _ _ hh _ _ _ he | rollback _ _ _ hh _ _ _ _ he =>
    exact .keep (committed_of_history hh) he
  | commit _ _ _ _ _ _ he => exact .clear he
  | finish _ _ _ _ _ _ he =>
    refine .clear ?_
    rcases he with he | ⟨⟨i, hi⟩, he⟩
    · exact he
    · rw [he]
      exact (h.pc _).clear i (hi.imp_right .inr)

/-- What the serial order rests on, for thread `t`: its open attempt holds every bucket it has
    used, but the one its read loop works on, and its log is what it gives run alone on the
    committed memory `σ`. -/
structure SerialOk (σ : Mem) (s : State) (t : Slot) : Prop where
  held : (s.threads t).pc.live = true → ∀ e ∈ (s.threads t).events, Held lockOf s t (lockOf e.addr)
  loop : ∀ a, (s.threads t).pc.readLoop = some a → ∀ e ∈ (s.threads t).events,
    lockOf e.addr ≠ lockOf a
  consistent : (s.threads t).pc.live = true → Consistent σ (s.threads t).events

theorem SerialOk.nil {σ : Mem} {s : State} {t : Slot} (h : (s.threads t).events = []) :
    SerialOk lockOf σ s t :=
  ⟨fun _ e he => by simp [h] at he, fun _ _ e he => by simp [h] at he, fun _ => h ▸ .nil σ⟩

/-- The serializability invariant of a run from memory `m`. -/
structure SerialInv (m : Mem) (s : State) : Prop where
  value : ValueInv lockOf m s
  threads : ∀ t, SerialOk lockOf (committed m s) s t
  /-- The committed attempts run one at a time make their reads and leave the committed memory. -/
  history : runSerial m s.history = some (committed m s)

/-- Another thread's step keeps `u`'s attempt: it commits no write to a bucket `u` holds. -/
theorem SerialInv.other {m : Mem} {s : State} (h : SerialInv lockOf m s) (act : Action) {u : Slot}
    (hu : u ≠ act.thread) :
    SerialOk lockOf (committed m (step lockOf s act)) (step lockOf s act) u := by
  have hf := frame_step lockOf s act
  have heff := effect_step lockOf s act fun exc len n hn => ((h.value.pc _).undo exc len n hn).1
  have hS := h.threads u
  refine ⟨fun hl e he => ?_, fun a ha => ?_, fun hl => ?_⟩ <;> rw [hf.threads u hu] at *
  · exact (hf.held_iff lockOf (h.value.excl.1 _).1 hu _).mpr (hS.held hl e he)
  · exact hS.loop a ha
  · exact (hS.consistent hl).congr fun e he =>
      (heff.committed_load_held lockOf h.value hu (hS.held hl e he)).symm

/-- A step of `t` keeps its attempt: every bucket it has used stays held, and the log grows by
    a read of what the attempt sees or a write. -/
theorem SerialInv.self {m : Mem} {s : State} (h : SerialInv lockOf m s) (act : Action)
    (hact : act.plain = true) :
    SerialOk lockOf (committed m (step lockOf s act)) (step lockOf s act) act.thread := by
  have hS := h.threads act.thread
  have hloop : ∀ a, ((step lockOf s act).threads act.thread).pc.readLoop = some a →
      ∀ e ∈ ((step lockOf s act).threads act.thread).events, lockOf e.addr ≠ lockOf a :=
    fun a ha e he => by
      obtain ⟨hev, hpc | ⟨hidle, hn⟩⟩ := loop_step lockOf h.value.excl.1 act ha <;> rw [hev] at he
      · exact hS.loop a hpc e he
      · exact fun hL => hn (hL ▸ hS.held (by simp [hidle, Pc.live]) e he)
  by_cases hl' : ((step lockOf s act).threads act.thread).pc.live = false
  · exact ⟨fun h' => by simp [hl'] at h', hloop, fun h' => by simp [hl'] at h'⟩
  rw [Bool.not_eq_false] at hl'
  rcases live_step lockOf s act hl' with hl | he | ⟨⟨i, hi⟩, he⟩
  · -- the attempt stays open
    have hold : ∀ e ∈ (s.threads act.thread).events,
        Held lockOf (step lockOf s act) act.thread (lockOf e.addr) := fun e he =>
      held_step lockOf act hact (hS.held hl e he) (fun a ha => (hS.loop a ha e he).symm) hl hl'
    cases logStep_step lockOf h.value act with
    | clear he => exact .nil lockOf he
    | keep hσ he =>
      refine ⟨fun _ => he ▸ hold, hloop, fun _ => ?_⟩
      rw [hσ, he]
      exact hS.consistent hl
    | read a w hσ he =>
      obtain ⟨-, hH, hpc⟩ := read_step lockOf (h.value.reading _) act he
      have hw : writesOf (s.threads act.thread).events = (s.threads act.thread).pendingWrites := by
        rcases hpc with hpc | hpc <;> simp [Thread.pendingWrites, hpc]
      refine ⟨fun _ e he' => ?_, hloop, fun _ => ?_⟩
      · rw [he, List.mem_append, List.mem_singleton] at he'
        rcases he' with he' | rfl
        · exact hold e he'
        · exact held_step lockOf act hact hH.symm
            (fun a' ha' => by rcases hpc with hpc | hpc <;> simp [hpc, Pc.readLoop] at ha') hl hl'
      · rw [hσ, he]
        exact (hS.consistent hl).read (by rw [hw]; exact (h.value.read lockOf act he).symm)
    | write a v mask hσ he ho =>
      refine ⟨fun _ e he' => ?_, hloop, fun _ => ?_⟩
      · rw [he, List.mem_append, List.mem_singleton] at he'
        rcases he' with he' | rfl
        · exact hold e he'
        · exact .inl ho
      · rw [hσ, he]
        exact (hS.consistent hl).write a v mask
  · exact .nil lockOf he
  · -- the end of a commit: the log moved out at the call
    exact .nil lockOf (he.trans ((h.value.pc _).clear i (hi.imp_right .inr)))

theorem runSerial_append (m : Mem) (hist : List (List Event)) (evs : List Event) :
    runSerial m (hist ++ [evs]) = (runSerial m hist).bind fun σ => runAlone σ evs := by
  simp [runSerial, List.foldlM_append]

/-- At a commit the attempt, consistent with the committed memory, runs alone to the new
    committed memory. -/
theorem SerialInv.history_step {m : Mem} {s : State} (h : SerialInv lockOf m s) (act : Action) :
    runSerial m (step lockOf s act).history = some (committed m (step lockOf s act)) := by
  cases effect_step lockOf s act fun exc len n hn => ((h.value.pc _).undo exc len n hn).1 with
  | commit hpc _ hh =>
    rw [hh, runSerial_append, h.history, committed_append hh]
    exact (h.threads act.thread).consistent (by simp [hpc, Pc.live])
  | keep _ hh | write _ _ _ _ hh | undo _ _ _ _ _ _ _ hh | rollback _ _ _ hh | finish _ hh =>
    rw [hh, h.history, committed_of_history hh]

theorem serialInv_step {m : Mem} {s : State} (h : SerialInv lockOf m s) (act : Action)
    (hact : act.plain = true) : SerialInv lockOf m (step lockOf s act) where
  value := valueInv_step lockOf h.value act (Action.emptyThrow_of_plain hact)
  threads u := if hu : u = act.thread then hu ▸ h.self lockOf act hact else h.other lockOf act hu
  history := h.history_step lockOf act

theorem serialInv_init (m : Mem) : SerialInv lockOf m (init m) where
  value := valueInv_init lockOf m
  threads _ := .nil lockOf rfl
  history := by simp [init, committed, runSerial]

theorem serialInv_exec {m : Mem} {s : State} (h : SerialInv lockOf m s) :
    ∀ as : List Action, (∀ a ∈ as, a.plain = true) → SerialInv lockOf m (exec lockOf s as)
  | [], _ => h
  | a :: as, has => serialInv_exec (serialInv_step lockOf h a (has a (List.mem_cons_self _ _))) as
      fun b hb => has b (List.mem_cons_of_mem _ hb)

theorem ValueInv.mem_eq {m : Mem} {s : State} (h : ValueInv lockOf m s)
    (hq : ∀ t, (s.threads t).pc = .idle ∧ (s.threads t).events = []) : s.mem = committed m s :=
  Mem.ext_load fun a => by
    by_cases ho : ∃ t : Slot, (s.locks (lockOf a)).owner = t.val + 1
    · obtain ⟨t, ht⟩ := ho
      rw [h.mem.owned t a ht]
      simp [Thread.pendingWrites, hq t]
    · push_neg at ho
      exact h.mem.free a ho

/-- ByteEager's isolation, for every lock table and initial memory, over every run: a write in
    place that is neither committed nor undone is to a bucket its writer owns and no other thread
    holds a read of; in runs whose rollbacks restore all they undo, every read returns the
    committed value of the word with the reader's own pending writes; and in runs that also never
    call `release`, the committed attempts run one at a time in commit order make every read they
    made and leave the committed memory. -/
theorem byteEager_isolation (m : Mem) (as : List Action) :
    (∀ t, ∀ e ∈ ((exec lockOf (init m) as).threads t).pending,
      ((exec lockOf (init m) as).locks (lockOf e.addr)).owner = t.val + 1 ∧
        Unread lockOf (exec lockOf (init m) as) t (lockOf e.addr)) ∧
    ((∀ a ∈ as, a.emptyThrow = true) → ∀ (act : Action) (u : Slot) (a : Nat) (w : Word),
      ((step lockOf (exec lockOf (init m) as) act).threads u).events =
        ((exec lockOf (init m) as).threads u).events ++ [.read a w] →
      w = (applyWrites ((exec lockOf (init m) as).threads u).pendingWrites
        (committed m (exec lockOf (init m) as))).load a) ∧
    ((∀ a ∈ as, a.plain = true) →
      runSerial m (exec lockOf (init m) as).history = some (committed m (exec lockOf (init m) as))) :=
  ⟨pending_exclusive lockOf ⟨m, as, rfl⟩,
    fun has act _ _ _ hr => (valueInv_exec lockOf (valueInv_init lockOf m) as has).read lockOf act hr,
    fun has => (serialInv_exec lockOf (serialInv_init lockOf m) as has).history⟩

/-- Without `release` and thrown ranges, once every attempt has committed or rolled back, memory
    is what the committed attempts give run one at a time in commit order. -/
theorem quiescent_serial (m : Mem) (as : List Action) (has : ∀ a ∈ as, a.plain = true)
    (hq : ∀ t, ((exec lockOf (init m) as).threads t).pc = .idle ∧
      ((exec lockOf (init m) as).threads t).events = []) :
    runSerial m (exec lockOf (init m) as).history = some (exec lockOf (init m) as).mem := by
  have h := serialInv_exec lockOf (serialInv_init lockOf m) as has
  rw [h.history, h.value.mem_eq lockOf hq]

end Serial

set_option maxRecDepth 4000 in
theorem writeCommit_quiescent :
    runSerial (fun _ => 0#8) (oneBucket (writeCommit fun _ => 1#8)).history =
      some (oneBucket (writeCommit fun _ => 1#8)).mem :=
  quiescent_serial (fun _ => 0) (fun _ => 0#8) _ (by decide) (by decide)

/-- Thread 1 writes 1 to word 0 and commits, and thread 0 reads word 0: the read returns the
    committed 1, and the committed attempt runs alone to the committed memory. -/
theorem writeCommit_isolation :
    (oneBucket (writeCommit (fun _ => 1#8) ++ readZero.take 4)).mem.load 0 =
      (applyWrites ((oneBucket (writeCommit (fun _ => 1#8) ++ readZero.take 4)).threads 0).pendingWrites
        (committed (fun _ => 0#8) (oneBucket (writeCommit (fun _ => 1#8) ++ readZero.take 4)))).load 0 ∧
    runSerial (fun _ => 0#8) (oneBucket (writeCommit fun _ => 1#8)).history =
      some (committed (fun _ => 0#8) (oneBucket (writeCommit fun _ => 1#8))) :=
  ⟨(byteEager_isolation (fun _ => 0) (fun _ => 0#8) _).2.1 (by decide) (.next 0) 0 0 _ rfl,
    (byteEager_isolation (fun _ => 0) (fun _ => 0#8) _).2.2 (by decide)⟩

/-! ## A thrown range keeps a rolled-back write -/

/-- Thread 0 writes `v` to word 1 and rolls back with word 1 as the thrown object; thread 1 then
    reads word 1 and commits. -/
def thrownRead (v : Word) : List Action :=
  [.call 0 (.write 1 v fun _ => 255#8), .next 0] ++ List.replicate 16 (.next 0) ++
    [.next 0, .call 0 (.rollback 8 8), .next 0, .next 0, .next 0, .next 0, .next 0] ++
    [.call 1 (.read 1), .next 1, .next 1, .next 1, .next 1, .call 1 .commit]

/-- A rollback with a thrown range leaves the rolled-back write to the range in place: after
    thread 0's rollback, thread 1 reads word 1 as 1, a value no committed attempt wrote, and
    commits; run alone from the initial memory, its attempt would read 0. -/
theorem thrown_range_read :
    ((oneBucket (thrownRead fun _ => 1#8)).threads 0).pc = .idle ∧
    (∃ w, (oneBucket (thrownRead fun _ => 1#8)).history = [[.read 1 w]] ∧ ∀ k, w k = 1#8) ∧
    runSerial (fun _ => 0#8) (oneBucket (thrownRead fun _ => 1#8)).history = none :=
  ⟨rfl, ⟨_, rfl, by decide⟩, rfl⟩

end Rstm.ByteEager
