import Rstm.Rollback

/- ByteEager (src/libstm/algs/byteeager.cpp): bytelocks with versioning, eager
   acquire, in-place update and timeouts, as a transition system over all
   threads.

   A state is the bytelock table, memory, and every thread's `TxThread` fields
   with its program counter. An action is a thread calling a barrier, a commit
   or a rollback from between barriers (`Action.call`), or a thread inside one
   taking its next atomic step (`Action.next`). Each step makes one access to
   shared data (a reader byte, `owner`, `version`, one `uint32_t` of the drain,
   a memory word) together with the thread-private work around it: its lock
   lists, undo log, dispatch mode and loop counters. Where the code accesses
   several shared locations that, at that point, no other thread writes or
   reads, they share one step:
     - the successful CAS on `owner` with the `w_bytelocks` insert, the clearing
       of the thread's own reader byte and the version test that follow it
       (only the owner writes `version` or reads a reader byte of the lock);
     - `++version` with the undo-log insert and the masked write after the
       drain, and the fast-path write of an owner (no other thread reads or
       writes the bucket's words while the owner holds it drained).
   A conflict abort (`tx->abort()`) runs the rollback with no thrown object:
   `tmabort` clears it first (src/libitm2stm). A rollback called from between
   barriers (a restart or a cancel-and-throw) may carry any thrown range.

   `bytelock_t` is not in src/. Its fields are modelled from the spec (2): an
   `owner` word, one reader byte per thread, a 32-bit `version` and one
   `reader_version` per thread. The reader array has 64 bytes, as the drain
   reads it (16 `uint32_t` words), so threads are the slots `0 .. 63` with id
   `slot + 1`. `get_bytelock` is a parameter `lockOf`, from a word address to
   a bucket. The timeouts are the x86 values.

   Each thread also carries a ghost log of the reads and writes of its current
   attempt, and the state the ghost list of committed attempts in commit order;
   no step reads them.

   Correspondence (C++ ↔ Lean):
     `bytelock_t`                    ↔ `Bytelock`
     `TxThread` (ByteEager's fields) ↔ `Thread`
     the dispatch pointers           ↔ `Thread.mode`
     `read_ro`, `read_rw`, `read_reserve` entry ↔ `call` on `Call.read`,
                                       `Call.readReserve`, then `readEntry`
     their retry loop                ↔ `Pc.readSet` .. `Pc.readWait`
     `write_ro`, `write_rw`, `write_reserve` ↔ `call` on `Call.write`,
                                       `Call.writeReserve`, then
                                       `Pc.writeCas`, `Pc.writeDrain`, `Pc.writeBump`
     `release`                       ↔ `call` on `Call.release`
     `commit_ro`, `commit_rw`        ↔ `call` on `Call.commit`, then `Pc.commitRo`,
                                       `Pc.commitRwOwners`, `Pc.commitRwReaders`
     `rollback`                      ↔ `Pc.undo`, `Pc.rollbackOwners`, `Pc.rollbackReaders`
     `tx->abort()`                   ↔ `Thread.abort` -/
namespace Rstm.ByteEager

/-- `READ_TIMEOUT` (x86). -/
def readTimeout : Nat := 32

/-- `ACQUIRE_TIMEOUT` (x86). -/
def acquireTimeout : Nat := 128

/-- `DRAIN_TIMEOUT` (x86). -/
def drainTimeout : Nat := 256

/-- A thread's slot in the reader array; its id is `slot + 1`. -/
abbrev Slot := Fin 64

/-- Modelled from the spec: `bytelock_t` is not in src/. -/
structure Bytelock where
  owner : Nat
  reader : Slot → Bool
  version : Nat
  readerVersion : Slot → Nat

/-- A bytelock as the table starts: free, unread, version 0. -/
def Bytelock.free : Bytelock := ⟨0, fun _ => false, 0, fun _ => 0⟩

/-- `lock_alias[i] != 0`: one of the four reader bytes of word `i` is set. -/
def Bytelock.readerWord (l : Bytelock) (i : Nat) : Bool :=
  (List.finRange 64).any fun u => u.val / 4 == i && l.reader u

/-- Which dispatch pointers are installed: the read-only or the read-write variants. -/
inductive Mode where
  | ro
  | rw
  deriving DecidableEq, Repr

/-- `read_ro`, `read_rw` or `read_reserve`. -/
inductive ReadOp where
  | ro
  | rw
  | reserve
  deriving DecidableEq, Repr

/-- `write_ro`, `write_rw` or `write_reserve`. -/
inductive WriteOp where
  | ro
  | rw
  | reserve
  deriving DecidableEq, Repr

/-- Where a thread is: between barriers, or at a step of a barrier, commit or rollback. -/
inductive Pc where
  | idle
  | readSet (op : ReadOp) (a tries : Nat)
  | readCheck (op : ReadOp) (a tries : Nat)
  | readVersion (op : ReadOp) (a tries : Nat)
  | readValue (a : Nat)
  | readDrop (op : ReadOp) (a tries : Nat)
  | readWait (op : ReadOp) (a tries : Nat)
  | writeCas (op : WriteOp) (a : Nat) (v mask : Word) (tries : Nat)
  | writeDrain (op : WriteOp) (a : Nat) (v mask : Word) (i tries : Nat)
  | writeBump (op : WriteOp) (a : Nat) (v mask : Word)
  | commitRo (i : Nat)
  | commitRwOwners (i : Nat)
  | commitRwReaders (i : Nat)
  | undo (exc len n : Nat)
  | rollbackOwners (i : Nat)
  | rollbackReaders (i : Nat)
  deriving DecidableEq

/-- A read or a masked write of the current attempt (ghost). -/
inductive Event where
  | read (a : Nat) (v : Word)
  | write (a : Nat) (v mask : Word)
  deriving DecidableEq

/-- ByteEager's fields of `TxThread`, with the program counter and the ghost event log. -/
structure Thread where
  pc : Pc
  mode : Mode
  rBytelocks : List Nat
  wBytelocks : List Nat
  undoLog : List UndoLogEntry
  events : List Event

/-- A thread before its first transaction. -/
def Thread.init : Thread := ⟨.idle, .ro, [], [], [], []⟩

/-- `tx->abort()`: the rollback, with no thrown object, from the newest undo-log entry. -/
def Thread.abort (th : Thread) : Thread := { th with pc := .undo 0 0 th.undoLog.length }

/-- The bytelock table, memory, the threads, and the ghost list of committed attempts. -/
structure State where
  locks : Nat → Bytelock
  mem : Mem
  threads : Slot → Thread
  history : List (List Event)

/-- Every bytelock free, every thread idle, memory `m`. -/
def init (m : Mem) : State := ⟨fun _ => .free, m, fun _ => .init, []⟩

/-- What a thread between barriers calls. -/
inductive Call where
  | read (a : Nat)
  | write (a : Nat) (v mask : Word)
  | readReserve (a : Nat)
  | writeReserve (a : Nat) (mask : Word)
  | release (a : Nat)
  | commit
  | rollback (exc len : Nat)

/-- A thread calls from between barriers, or takes its next step inside one. -/
inductive Action where
  | call (t : Slot) (c : Call)
  | next (t : Slot)

/-! ## Updates -/

def State.setThread (s : State) (t : Slot) (th : Thread) : State :=
  { s with threads := Function.update s.threads t th }

def State.setLock (s : State) (L : Nat) (l : Bytelock) : State :=
  { s with locks := Function.update s.locks L l }

def Bytelock.setReader (l : Bytelock) (t : Slot) (b : Bool) : Bytelock :=
  { l with reader := Function.update l.reader t b }

/-- `reader[me] = 0; reader_version[me] = 0`, as commit and rollback release a read lock. -/
def Bytelock.clear (l : Bytelock) (t : Slot) : Bytelock :=
  { l with
    reader := Function.update l.reader t false
    readerVersion := Function.update l.readerVersion t 0 }

section Step
variable (lockOf : Nat → Nat)

/-- The start of a read barrier past its owner test: a held read lock returns at once;
    otherwise the bucket joins `r_bytelocks` unless a version is recorded, and the retry
    loop begins. -/
def readEntry (s : State) (t : Slot) (op : ReadOp) (a : Nat) : State :=
  let th := s.threads t
  let l := s.locks (lockOf a)
  if l.reader t then
    match op with
    | .reserve => s
    | _ => s.setThread t { th with events := th.events ++ [Event.read a (s.mem.load a)] }
  else
    s.setThread t { th with
      rBytelocks := if l.readerVersion t = 0 then th.rBytelocks ++ [lockOf a] else th.rBytelocks
      pc := .readSet op a 0 }

/-- A thread between barriers enters one, commits, or rolls back. -/
def call (s : State) (t : Slot) : Call → State
  | .read a =>
    let th := s.threads t
    match th.mode with
    | .ro => readEntry lockOf s t .ro a
    | .rw =>
      if (s.locks (lockOf a)).owner = t.val + 1 then
        s.setThread t { th with events := th.events ++ [Event.read a (s.mem.load a)] }
      else readEntry lockOf s t .rw a
  | .readReserve a =>
    if (s.locks (lockOf a)).owner = t.val + 1 then s else readEntry lockOf s t .reserve a
  | .write a v mask =>
    let th := s.threads t
    match th.mode with
    | .ro => s.setThread t { th with pc := .writeCas .ro a v mask 0 }
    | .rw =>
      if (s.locks (lockOf a)).owner = t.val + 1 then
        { s with mem := s.mem.doMaskedWrite a v mask }.setThread t { th with
          undoLog := th.undoLog ++ [UndoLogEntry.mk a (s.mem.load a) mask]
          events := th.events ++ [Event.write a v mask] }
      else s.setThread t { th with pc := .writeCas .rw a v mask 0 }
  | .writeReserve a mask =>
    let th := s.threads t
    if (s.locks (lockOf a)).owner = t.val + 1 then
      s.setThread t { th with
        undoLog := th.undoLog ++ [UndoLogEntry.mk a (s.mem.load a) mask]
        events := th.events ++ [Event.write a (s.mem.load a) mask] }
    else s.setThread t { th with pc := .writeCas .reserve a zeroWord mask 0 }
  | .release a =>
    let l := s.locks (lockOf a)
    if l.owner ≠ t.val + 1 then s.setLock (lockOf a) (l.setReader t false) else s
  | .commit =>
    let th := s.threads t
    { s with history := s.history ++ [th.events] }.setThread t { th with
      events := []
      pc := match th.mode with
        | .ro => .commitRo 0
        | .rw => .commitRwOwners 0 }
  | .rollback exc len =>
    let th := s.threads t
    s.setThread t { th with pc := .undo exc len th.undoLog.length }

/-- The next step of a thread inside a barrier, a commit or a rollback. -/
def next (s : State) (t : Slot) : State :=
  let th := s.threads t
  match th.pc with
  | .idle => s
  | .readSet op a tries =>
    (s.setLock (lockOf a) ((s.locks (lockOf a)).setReader t true)).setThread t
      { th with pc := .readCheck op a tries }
  | .readCheck op a tries =>
    if (s.locks (lockOf a)).owner = 0 then s.setThread t { th with pc := .readVersion op a tries }
    else s.setThread t { th with pc := .readDrop op a tries }
  | .readVersion op a _ =>
    let l := s.locks (lockOf a)
    let ret : Pc := match op with
      | .reserve => .idle
      | _ => .readValue a
    if l.readerVersion t = 0 then
      (s.setLock (lockOf a) { l with readerVersion := Function.update l.readerVersion t l.version })
        |>.setThread t { th with pc := ret }
    else if l.readerVersion t ≠ l.version then s.setThread t th.abort
    else s.setThread t { th with pc := ret }
  | .readValue a =>
    s.setThread t { th with pc := .idle, events := th.events ++ [Event.read a (s.mem.load a)] }
  | .readDrop op a tries =>
    (s.setLock (lockOf a) ((s.locks (lockOf a)).setReader t false)).setThread t
      { th with pc := .readWait op a tries }
  | .readWait op a tries =>
    if (s.locks (lockOf a)).owner ≠ 0 then
      if readTimeout < tries + 1 then s.setThread t th.abort
      else s.setThread t { th with pc := .readWait op a (tries + 1) }
    else s.setThread t { th with pc := .readSet op a tries }
  | .writeCas op a v mask tries =>
    let l := s.locks (lockOf a)
    if l.owner = 0 then
      let th' := { th with wBytelocks := th.wBytelocks ++ [lockOf a] }
      let s' := s.setLock (lockOf a) { l.setReader t false with owner := t.val + 1 }
      if l.readerVersion t ≠ 0 ∧ l.readerVersion t ≠ l.version then s'.setThread t th'.abort
      else s'.setThread t { th' with pc := .writeDrain op a v mask 0 0 }
    else if acquireTimeout < tries + 1 then s.setThread t th.abort
    else s.setThread t { th with pc := .writeCas op a v mask (tries + 1) }
  | .writeDrain op a v mask i tries =>
    if (s.locks (lockOf a)).readerWord i then
      if drainTimeout < tries + 1 then s.setThread t th.abort
      else s.setThread t { th with pc := .writeDrain op a v mask i (tries + 1) }
    else if i + 1 < 16 then s.setThread t { th with pc := .writeDrain op a v mask (i + 1) 0 }
    else s.setThread t { th with pc := .writeBump op a v mask }
  | .writeBump op a v mask =>
    let l := s.locks (lockOf a)
    let s' := s.setLock (lockOf a) { l with version := (l.version + 1) % 2 ^ 32 }
    let th' := { th with pc := .idle, undoLog := th.undoLog ++ [UndoLogEntry.mk a (s.mem.load a) mask] }
    match op with
    | .ro =>
      { s' with mem := s.mem.doMaskedWrite a v mask }.setThread t
        { th' with mode := .rw, events := th.events ++ [Event.write a v mask] }
    | .rw =>
      { s' with mem := s.mem.doMaskedWrite a v mask }.setThread t
        { th' with events := th.events ++ [Event.write a v mask] }
    | .reserve =>
      s'.setThread t { th' with
        mode := if th.wBytelocks.length = 1 then .rw else th.mode
        events := th.events ++ [Event.write a (s.mem.load a) mask] }
  | .commitRo i =>
    match th.rBytelocks[i]? with
    | some L => (s.setLock L ((s.locks L).clear t)).setThread t { th with pc := .commitRo (i + 1) }
    | none => s.setThread t { th with pc := .idle, rBytelocks := [] }
  | .commitRwOwners i =>
    match th.wBytelocks[i]? with
    | some L =>
      (s.setLock L { (s.locks L) with owner := 0 }).setThread t { th with pc := .commitRwOwners (i + 1) }
    | none => s.setThread t { th with pc := .commitRwReaders 0 }
  | .commitRwReaders i =>
    match th.rBytelocks[i]? with
    | some L =>
      (s.setLock L ((s.locks L).clear t)).setThread t { th with pc := .commitRwReaders (i + 1) }
    | none =>
      s.setThread t
        { th with pc := .idle, mode := .ro, rBytelocks := [], wBytelocks := [], undoLog := [] }
  | .undo exc len n =>
    match n, th.undoLog[n - 1]? with
    | n + 1, some e =>
      { s with mem := undoStep exc len e s.mem }.setThread t { th with pc := .undo exc len n }
    | _, _ => s.setThread t { th with pc := .rollbackOwners 0 }
  | .rollbackOwners i =>
    match th.wBytelocks[i]? with
    | some L =>
      (s.setLock L { (s.locks L) with owner := 0 }).setThread t { th with pc := .rollbackOwners (i + 1) }
    | none => s.setThread t { th with pc := .rollbackReaders 0 }
  | .rollbackReaders i =>
    match th.rBytelocks[i]? with
    | some L =>
      (s.setLock L ((s.locks L).clear t)).setThread t { th with pc := .rollbackReaders (i + 1) }
    | none =>
      s.setThread t { th with
        pc := .idle, mode := .ro, rBytelocks := [], wBytelocks := [], undoLog := [], events := [] }

/-- One action: a call only from between barriers, a next step only from inside one. -/
def step (s : State) : Action → State
  | .call t c =>
    match (s.threads t).pc with
    | .idle => call lockOf s t c
    | _ => s
  | .next t => next lockOf s t

theorem step_call_of_idle {s : State} {t : Slot} (h : (s.threads t).pc = .idle) (c : Call) :
    step lockOf s (.call t c) = call lockOf s t c := by
  simp [step, h]

theorem step_call_of_ne_idle {s : State} {t : Slot} (h : (s.threads t).pc ≠ .idle) (c : Call) :
    step lockOf s (.call t c) = s := by
  cases hpc : (s.threads t).pc <;> simp_all [step]

/-- The actions in order. -/
def exec (s : State) (as : List Action) : State := as.foldl (step lockOf) s

/-- A state some run reaches from a fresh table and any memory. -/
def Reachable (s : State) : Prop := ∃ m as, exec lockOf (init m) as = s

/-! ## Frame: what a step of one thread leaves to the others -/

@[simp] theorem State.setThread_threads (s : State) (t : Slot) (th : Thread) :
    (s.setThread t th).threads = Function.update s.threads t th := rfl

@[simp] theorem State.setThread_locks (s : State) (t : Slot) (th : Thread) :
    (s.setThread t th).locks = s.locks := rfl

@[simp] theorem State.setThread_mem (s : State) (t : Slot) (th : Thread) :
    (s.setThread t th).mem = s.mem := rfl

@[simp] theorem State.setLock_locks (s : State) (L : Nat) (l : Bytelock) :
    (s.setLock L l).locks = Function.update s.locks L l := rfl

@[simp] theorem State.setLock_threads (s : State) (L : Nat) (l : Bytelock) :
    (s.setLock L l).threads = s.threads := rfl

@[simp] theorem State.setLock_mem (s : State) (L : Nat) (l : Bytelock) :
    (s.setLock L l).mem = s.mem := rfl

/-- `t` releases the write lock on `L` at this step of its commit or rollback. -/
def Releases (th : Thread) (L : Nat) : Prop :=
  ∃ i, (th.pc = .commitRwOwners i ∨ th.pc = .rollbackOwners i) ∧ th.wBytelocks[i]? = some L

/-- What a step of thread `t` leaves to the others: their records, reader bytes and recorded
    versions; an `owner` changes only from 0 to `t`'s id, or back to 0 where `t` releases. -/
structure Frame (t : Slot) (s s' : State) : Prop where
  threads : ∀ u, u ≠ t → s'.threads u = s.threads u
  reader : ∀ u, u ≠ t → ∀ L, (s'.locks L).reader u = (s.locks L).reader u
  readerVersion : ∀ u, u ≠ t → ∀ L, (s'.locks L).readerVersion u = (s.locks L).readerVersion u
  owner : ∀ L, (s'.locks L).owner = (s.locks L).owner ∨
    ((s.locks L).owner = 0 ∧ (s'.locks L).owner = t.val + 1) ∨
    ((s'.locks L).owner = 0 ∧ Releases (s.threads t) L)

theorem Frame.refl (t : Slot) (s : State) : Frame t s s :=
  ⟨fun _ _ => rfl, fun _ _ _ => rfl, fun _ _ _ => rfl, fun _ => .inl rfl⟩

/-- A step that changes only `t`'s record, one bytelock and memory, under the conditions
    `Frame` puts on the bytelock. -/
theorem Frame.update {t : Slot} {s : State} (m : Mem) (th : Thread) (L : Nat) (l : Bytelock)
    (hr : ∀ u, u ≠ t → l.reader u = (s.locks L).reader u)
    (hv : ∀ u, u ≠ t → l.readerVersion u = (s.locks L).readerVersion u)
    (ho : l.owner = (s.locks L).owner ∨ ((s.locks L).owner = 0 ∧ l.owner = t.val + 1) ∨
      (l.owner = 0 ∧ Releases (s.threads t) L)) :
    Frame t s ({ s with mem := m }.setLock L l |>.setThread t th) := by
  refine ⟨fun u hu => by simp [Function.update_noteq hu], fun u hu L' => ?_,
    fun u hu L' => ?_, fun L' => ?_⟩ <;> by_cases hL : L' = L
  · subst hL; simp [hr u hu]
  · simp [Function.update_noteq hL]
  · subst hL; simp [hv u hu]
  · simp [Function.update_noteq hL]
  · subst hL; simpa using ho
  · simp [Function.update_noteq hL]

theorem Frame.setThread {t : Slot} {s : State} (m : Mem) (th : Thread) :
    Frame t s ({ s with mem := m }.setThread t th) :=
  ⟨fun u hu => by simp [Function.update_noteq hu], fun _ _ _ => rfl, fun _ _ _ => rfl,
    fun _ => .inl rfl⟩

theorem frame_next (s : State) (t : Slot) : Frame t s (next lockOf s t) := by
  have hset : ∀ (L : Nat) (b : Bool), ∀ u, u ≠ t →
      ((s.locks L).setReader t b).reader u = (s.locks L).reader u := fun L b u hu => by
    simp [Bytelock.setReader, Function.update_noteq hu]
  have hclear : ∀ L th, Frame t s ((s.setLock L ((s.locks L).clear t)).setThread t th) :=
    fun L th => .update s.mem th L _ (fun u hu => by simp [Bytelock.clear, Function.update_noteq hu])
      (fun u hu => by simp [Bytelock.clear, Function.update_noteq hu]) (.inl rfl)
  cases hpc : (s.threads t).pc <;> simp only [next, hpc]
  case idle => exact .refl t s
  case readSet | readDrop => exact .update s.mem _ _ _ (hset _ _) (fun _ _ => rfl) (.inl rfl)
  case readCheck | readValue | readWait | writeDrain => (try split_ifs) <;> exact .setThread s.mem _
  case readVersion =>
    split_ifs
    · exact .update s.mem _ _ _ (fun _ _ => rfl)
        (fun u hu => by simp [Function.update_noteq hu]) (.inl rfl)
    all_goals exact .setThread s.mem _
  case writeCas =>
    split_ifs with h0
    · exact .update s.mem _ _ _ (hset _ false) (fun _ _ => rfl) (.inr (.inl ⟨h0, rfl⟩))
    · exact .update s.mem _ _ _ (hset _ false) (fun _ _ => rfl) (.inr (.inl ⟨h0, rfl⟩))
    all_goals exact .setThread s.mem _
  case writeBump op a v mask =>
    have h := fun m th => Frame.update (t := t) (s := s) m th (lockOf a)
      { (s.locks (lockOf a)) with version := ((s.locks (lockOf a)).version + 1) % 2 ^ 32 }
      (fun _ _ => rfl) (fun _ _ => rfl) (.inl rfl)
    cases op
    · exact h (s.mem.doMaskedWrite a v mask) _
    · exact h (s.mem.doMaskedWrite a v mask) _
    · exact h s.mem _
  case commitRo | commitRwReaders | rollbackReaders =>
    split
    · exact hclear _ _
    · exact .setThread s.mem _
  case commitRwOwners i | rollbackOwners i =>
    split
    · next L hL =>
      exact .update s.mem _ L { (s.locks L) with owner := 0 } (fun _ _ => rfl)
        (fun _ _ => rfl) (.inr (.inr ⟨rfl, i, by simp [hpc], hL⟩))
    · exact .setThread s.mem _
  case undo =>
    split
    · exact .setThread _ _
    · exact .setThread s.mem _

theorem Frame.of_eq {t : Slot} {s s' : State} (th : Thread) (hl : s'.locks = s.locks)
    (ht : s'.threads = s.threads) : Frame t s (s'.setThread t th) :=
  ⟨fun u hu => by simp [Function.update_noteq hu, ht], fun _ _ _ => by rw [State.setThread_locks, hl],
    fun _ _ _ => by rw [State.setThread_locks, hl], fun _ => .inl (by rw [State.setThread_locks, hl])⟩

theorem Frame.clearReader (t : Slot) (s : State) (L : Nat) :
    Frame t s (s.setLock L ((s.locks L).setReader t false)) := by
  refine ⟨fun _ _ => rfl, fun u hu L' => ?_, fun u _ L' => ?_, fun L' => .inl ?_⟩
  · by_cases hL : L' = L <;> simp [hL, Bytelock.setReader, Function.update_noteq hu]
  · by_cases hL : L' = L <;> simp [hL, Bytelock.setReader]
  · by_cases hL : L' = L <;> simp [hL, Bytelock.setReader]

theorem frame_readEntry (s : State) (t : Slot) (op : ReadOp) (a : Nat) :
    Frame t s (readEntry lockOf s t op a) := by
  unfold readEntry
  dsimp only
  split
  · split
    · exact .refl t s
    · exact .setThread s.mem _
  · exact .setThread s.mem _

theorem frame_call (s : State) (t : Slot) (c : Call) : Frame t s (call lockOf s t c) := by
  cases c with
  | read a =>
    simp only [call]
    split
    · exact frame_readEntry lockOf s t _ a
    · split
      · exact .setThread s.mem _
      · exact frame_readEntry lockOf s t _ a
  | readReserve a =>
    simp only [call]
    split
    · exact .refl t s
    · exact frame_readEntry lockOf s t _ a
  | write a v mask =>
    simp only [call]
    split
    · exact .setThread s.mem _
    · split
      · exact .setThread _ _
      · exact .setThread s.mem _
  | writeReserve a mask =>
    simp only [call]
    split
    · exact .setThread s.mem _
    · exact .setThread s.mem _
  | release a =>
    simp only [call]
    split
    · exact .clearReader t s _
    · exact .refl t s
  | commit => exact .of_eq _ rfl rfl
  | rollback exc len => exact .setThread s.mem _

/-- The thread an action moves. -/
def Action.thread : Action → Slot
  | .call t _ => t
  | .next t => t

theorem frame_step (s : State) (a : Action) : Frame a.thread s (step lockOf s a) := by
  cases a with
  | call t c =>
    simp only [step, Action.thread]
    split
    · exact frame_call lockOf s t c
    · exact .refl t s
  | next t => exact frame_next lockOf s t

theorem Reachable.step {s : State} (h : Reachable lockOf s) (a : Action) :
    Reachable lockOf (step lockOf s a) := by
  obtain ⟨m, as, rfl⟩ := h
  exact ⟨m, as ++ [a], by simp [exec, List.foldl_append]⟩

/-- An invariant of every reachable state: it holds initially and each step keeps it. -/
theorem Reachable.induction {P : State → Prop} (h0 : ∀ m, P (init m))
    (hs : ∀ s a, Reachable lockOf s → P s → P (ByteEager.step lockOf s a)) {s : State}
    (h : Reachable lockOf s) : P s := by
  obtain ⟨m, as, rfl⟩ := h
  suffices ∀ s, Reachable lockOf s → P s → P (exec lockOf s as) from this _ ⟨m, [], rfl⟩ (h0 m)
  induction as with
  | nil => exact fun _ _ hp => hp
  | cons a as ih => exact fun s hr hp => ih _ (hr.step lockOf a) (hs s a hr hp)

end Step

end Rstm.ByteEager
