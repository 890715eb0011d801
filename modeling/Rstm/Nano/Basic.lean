import Rstm.Rollback

/- Nano (src/libstm/algs/nano.cpp): orecs with value-based validation, a
   quadratic read-set revalidation and a lazy redo log, as a transition system
   over all threads.

   A state is the orec table, memory, and every thread's `TxThread` fields with
   its program counter. As for ByteEager, an action is a thread calling from
   between barriers (`Action.call`) or taking its next atomic step inside a
   barrier, a commit or a rollback (`Action.next`), and each step makes one
   access to shared data: an orec word, a memory word. Two merges:
     - the successful CAS of `commit_rw` with the store to `o->p` and the
       `locks` insert after it: only the holder of an orec reads or writes its
       `p`;
     - the failed-sample path of `read_ro`: its extra read of `o->v` decides
       only whether to spin before the retry, so the retry follows at once.
   `tx->abort()` runs the rollback with no thrown object; a rollback called
   from between barriers may carry any thrown range.

   `orec_t`, `id_version_t`, `nanorec_t`, `get_nanorec` and `my_lock` are not
   in src/. An orec is modelled from the spec (2) as a 64-bit word `v`, whose
   most significant bit is the lock bit, and the slot `p`; `my_lock` is the
   lock bit over the thread's id. Thread ids `t + 1` fill the 63-bit id field,
   so distinct threads have distinct `my_lock` words. `get_nanorec` is a
   parameter `orecOf`. The redo log is the write set's list in its list model
   (`absInsert`, `absFind`): every run of write-set operations returns the
   content of the list model and finds what it finds, short of a rebuild
   past the overflowed index length (`writeSet_ops_inv`). The RAW merge of
   `read_rw` (RedoRAWUtils.hpp, not in src/) follows the spec (4.5).

   Each thread also carries ghost fields no step reads: the words its attempt
   has read from memory, the value each read found, the memory at the
   instant of the last validated sample or commit CAS, and the value of each
   orec at the thread's last CAS of it.

   Correspondence (C++ ↔ Lean):
     `orec_t`                        ↔ `Orec`
     `nanorec_t`                     ↔ `Nanorec`
     `TxThread` (Nano's fields)      ↔ `Thread`
     `read_ro`, `read_rw`            ↔ `call` on `Call.read`, then `Pc.readSample` ..
                                       `Pc.readValidate`
     `write_ro`, `write_rw`          ↔ `call` on `Call.write`
     `commit_ro`                     ↔ `call` on `Call.commit` in the read-only mode
     `commit_rw`                     ↔ `call` on `Call.commit`, then `Pc.commitAcquire` ..
                                       `Pc.commitRelease`
     `rollback`                      ↔ `Pc.rollbackWrites`, `Pc.rollbackRelease`
     `tx->abort()`                   ↔ `Thread.abort` -/
namespace Rstm.Nano

/-- The lock bit of `id_version_t`, the most significant bit of a 64-bit word. -/
def lockBit : Nat := 2 ^ 63

/-- `ivt.fields.lock`, on an orec word (below `2 ^ 64`). -/
def locked (v : Nat) : Bool := decide (lockBit ≤ v)

/-- The largest thread id index: ids `t + 1` run over `1 .. 2 ^ 63 - 1`, the 63-bit id field. -/
def maxTid : Nat := 2 ^ 63 - 2

/-- A thread; its id is `t + 1`. -/
abbrev Tid := Fin (maxTid + 1)

/-- Modelled from the spec: `my_lock` is not in src/; the lock bit over the thread's id. -/
def myLock (t : Tid) : Nat := lockBit + (t.val + 1)

/-- Modelled from the spec: `orec_t` is not in src/; the word `v` and the saved version `p`. -/
structure Orec where
  v : Nat
  p : Nat

/-- Modelled from the spec: `nanorec_t` is not in src/; an orec and the version read from it. -/
structure Nanorec where
  o : Nat
  v : Nat

/-- Which dispatch pointers are installed. -/
inductive Mode where
  | ro
  | rw
  deriving DecidableEq, Repr

/-- `read_ro`, or `read_rw`, which merges its redo log over what `read_ro` returns. -/
inductive ReadOp where
  | ro
  | rw
  deriving DecidableEq, Repr

/-- Where a thread is: between barriers, or at a step of a read, commit or rollback. -/
inductive Pc where
  | idle
  | readSample (op : ReadOp) (a : Nat)
  | readValue (op : ReadOp) (a ivt : Nat)
  | readCheck (op : ReadOp) (a ivt : Nat) (tmp : Word)
  | readValidate (op : ReadOp) (a : Nat) (tmp : Word) (i : Nat)
  | commitAcquire (i : Nat)
  | commitCas (i ivt : Nat)
  | commitValidate (i : Nat)
  | commitWriteback (i : Nat)
  | commitRelease (i : Nat)
  | rollbackWrites (exc len i : Nat)
  | rollbackRelease (i : Nat)

/-- Nano's fields of `TxThread`, with the program counter and the ghost fields. -/
structure Thread where
  pc : Pc
  mode : Mode
  nanorecs : List Nanorec
  writes : List WriteSetEntry
  locks : List Nat
  /-- Ghost: the word and the value of each read of the attempt, one per `nanorecs` entry. -/
  reads : List (Nat × Word)
  /-- Ghost: memory at the last successful second sample or commit CAS. -/
  snap : Mem
  /-- Ghost: the word each orec held at this thread's last CAS of it. -/
  casFrom : Nat → Nat

/-- A thread before its first transaction. -/
def Thread.init : Thread := ⟨.idle, .ro, [], [], [], [], fun _ => 0#8, fun _ => 0⟩

/-- `tx->abort()`: the rollback with no thrown object. -/
def Thread.abort (th : Thread) : Thread := { th with pc := .rollbackWrites 0 0 0 }

/-- The end of a commit or rollback: every list reset, the read-only mode back. -/
def Thread.reset (th : Thread) : Thread :=
  { th with pc := .idle, mode := .ro, nanorecs := [], writes := [], locks := [], reads := [] }

@[simp] theorem Thread.abort_pc (th : Thread) : th.abort.pc = .rollbackWrites 0 0 0 := rfl
@[simp] theorem Thread.abort_mode (th : Thread) : th.abort.mode = th.mode := rfl
@[simp] theorem Thread.abort_nanorecs (th : Thread) : th.abort.nanorecs = th.nanorecs := rfl
@[simp] theorem Thread.abort_writes (th : Thread) : th.abort.writes = th.writes := rfl
@[simp] theorem Thread.abort_locks (th : Thread) : th.abort.locks = th.locks := rfl
@[simp] theorem Thread.abort_reads (th : Thread) : th.abort.reads = th.reads := rfl
@[simp] theorem Thread.abort_snap (th : Thread) : th.abort.snap = th.snap := rfl
@[simp] theorem Thread.abort_casFrom (th : Thread) : th.abort.casFrom = th.casFrom := rfl

@[simp] theorem Thread.reset_pc (th : Thread) : th.reset.pc = .idle := rfl
@[simp] theorem Thread.reset_mode (th : Thread) : th.reset.mode = .ro := rfl
@[simp] theorem Thread.reset_nanorecs (th : Thread) : th.reset.nanorecs = [] := rfl
@[simp] theorem Thread.reset_writes (th : Thread) : th.reset.writes = [] := rfl
@[simp] theorem Thread.reset_locks (th : Thread) : th.reset.locks = [] := rfl
@[simp] theorem Thread.reset_reads (th : Thread) : th.reset.reads = [] := rfl
@[simp] theorem Thread.reset_snap (th : Thread) : th.reset.snap = th.snap := rfl
@[simp] theorem Thread.reset_casFrom (th : Thread) : th.reset.casFrom = th.casFrom := rfl

/-- The orec table, memory and the threads. -/
structure State where
  orecs : Nat → Orec
  mem : Mem
  threads : Tid → Thread

/-- Every orec at version 0, every thread idle, memory `m`. -/
def init (m : Mem) : State := ⟨fun _ => ⟨0, 0⟩, m, fun _ => .init⟩

/-- What a thread between barriers calls. -/
inductive Call where
  | read (a : Nat)
  | write (a : Nat) (v mask : Word)
  | commit
  | rollback (exc len : Nat)

/-- A thread calls from between barriers, or takes its next step inside a barrier. -/
inductive Action where
  | call (t : Tid) (c : Call)
  | next (t : Tid)

/-! ## Updates -/

def State.setThread (s : State) (t : Tid) (th : Thread) : State :=
  { s with threads := Function.update s.threads t th }

def State.setOrec (s : State) (n : Nat) (o : Orec) : State :=
  { s with orecs := Function.update s.orecs n o }

@[simp] theorem State.setThread_threads (s : State) (t : Tid) (th : Thread) :
    (s.setThread t th).threads = Function.update s.threads t th := rfl

@[simp] theorem State.setThread_self (s : State) (t : Tid) (th : Thread) :
    (s.setThread t th).threads t = th := Function.update_same _ _ _

@[simp] theorem State.setThread_orecs (s : State) (t : Tid) (th : Thread) :
    (s.setThread t th).orecs = s.orecs := rfl

@[simp] theorem State.setThread_mem (s : State) (t : Tid) (th : Thread) :
    (s.setThread t th).mem = s.mem := rfl

@[simp] theorem State.setOrec_orecs (s : State) (n : Nat) (o : Orec) :
    (s.setOrec n o).orecs = Function.update s.orecs n o := rfl

@[simp] theorem State.setOrec_threads (s : State) (n : Nat) (o : Orec) :
    (s.setOrec n o).threads = s.threads := rfl

@[simp] theorem State.setOrec_mem (s : State) (n : Nat) (o : Orec) :
    (s.setOrec n o).mem = s.mem := rfl

section Step
variable (orecOf : Nat → Nat)

/-- A thread between barriers enters a read, logs a write, commits or rolls back. -/
def call (s : State) (t : Tid) : Call → State
  | .read a =>
    let th := s.threads t
    s.setThread t { th with pc := .readSample (match th.mode with | .ro => .ro | .rw => .rw) a }
  | .write a v mask =>
    let th := s.threads t
    s.setThread t { th with writes := absInsert th.writes ⟨a, v, mask⟩, mode := .rw }
  | .commit =>
    let th := s.threads t
    match th.mode with
    | .ro => s.setThread t { th with nanorecs := [], reads := [] }
    | .rw => s.setThread t { th with pc := .commitAcquire 0 }
  | .rollback exc len =>
    let th := s.threads t
    s.setThread t { th with pc := .rollbackWrites exc len 0 }

/-- What a read returns: `read_rw` merges the logged bytes of the word over the value read. -/
def readResult (th : Thread) (op : ReadOp) (a : Nat) (tmp : Word) : Word :=
  match op with
  | .ro => tmp
  | .rw => (absFind th.writes ⟨a, tmp, zeroWord⟩).2.val

/-- The next step of a thread inside a barrier, a commit or a rollback. -/
def next (s : State) (t : Tid) : State :=
  let th := s.threads t
  match th.pc with
  | .idle => s
  | .readSample op a => s.setThread t { th with pc := .readValue op a (s.orecs (orecOf a)).v }
  | .readValue op a ivt => s.setThread t { th with pc := .readCheck op a ivt (s.mem.load a) }
  | .readCheck op a ivt tmp =>
    let ivt2 := (s.orecs (orecOf a)).v
    if ivt = ivt2 ∧ !locked ivt then
      s.setThread t { th with
        nanorecs := th.nanorecs ++ [⟨orecOf a, ivt2⟩]
        reads := th.reads ++ [(a, tmp)]
        snap := s.mem
        pc := .readValidate op a tmp 0 }
    else s.setThread t { th with pc := .readSample op a }
  | .readValidate op a tmp i =>
    match th.nanorecs[i]? with
    | some r =>
      if (s.orecs r.o).v ≠ r.v then s.setThread t th.abort
      else s.setThread t { th with pc := .readValidate op a tmp (i + 1) }
    | none => s.setThread t { th with pc := .idle }
  | .commitAcquire i =>
    match th.writes[i]? with
    | some e =>
      let ivt := (s.orecs (orecOf e.addr)).v
      if ivt ≠ myLock t then
        if !locked ivt then s.setThread t { th with pc := .commitCas i ivt }
        else s.setThread t th.abort
      else s.setThread t { th with pc := .commitAcquire (i + 1) }
    | none => s.setThread t { th with pc := .commitValidate 0 }
  | .commitCas i ivt =>
    match th.writes[i]? with
    | some e =>
      let n := orecOf e.addr
      if (s.orecs n).v = ivt then
        (s.setOrec n ⟨myLock t, ivt⟩).setThread t { th with
          locks := th.locks ++ [n]
          snap := s.mem
          casFrom := Function.update th.casFrom n ivt
          pc := .commitAcquire (i + 1) }
      else s.setThread t th.abort
    | none => s.setThread t th.abort
  | .commitValidate i =>
    match th.nanorecs[i]? with
    | some r =>
      let ivt := (s.orecs r.o).v
      if ivt ≠ r.v ∧ (ivt ≠ myLock t ∨ r.v ≠ (s.orecs r.o).p) then s.setThread t th.abort
      else s.setThread t { th with pc := .commitValidate (i + 1) }
    | none => s.setThread t { th with pc := .commitWriteback 0 }
  | .commitWriteback i =>
    match th.writes[i]? with
    | some e =>
      { s with mem := s.mem.doMaskedWrite e.addr e.val e.mask }.setThread t
        { th with pc := .commitWriteback (i + 1) }
    | none => s.setThread t { th with pc := .commitRelease 0 }
  | .commitRelease i =>
    match th.locks[i]? with
    | some n =>
      (s.setOrec n { (s.orecs n) with v := ((s.orecs n).p + 1) % 2 ^ 64 }).setThread t
        { th with pc := .commitRelease (i + 1) }
    | none => s.setThread t th.reset
  | .rollbackWrites exc len i =>
    match len, th.writes[i]? with
    | 0, _ | _, none => s.setThread t { th with pc := .rollbackRelease 0 }
    | len, some e =>
      { s with mem := e.rollback exc (exc + len) s.mem }.setThread t
        { th with pc := .rollbackWrites exc len (i + 1) }
  | .rollbackRelease i =>
    match th.locks[i]? with
    | some n =>
      (s.setOrec n { (s.orecs n) with v := (s.orecs n).p }).setThread t
        { th with pc := .rollbackRelease (i + 1) }
    | none => s.setThread t th.reset

/-- One action: a call only from between barriers, a next step only from inside one. -/
def step (s : State) : Action → State
  | .call t c =>
    match (s.threads t).pc with
    | .idle => call s t c
    | _ => s
  | .next t => next orecOf s t

/-- The actions in order. -/
def exec (s : State) (as : List Action) : State := as.foldl (step orecOf) s

/-- A state some run reaches from a fresh orec table and any memory. -/
def Reachable (s : State) : Prop := ∃ m as, exec orecOf (init m) as = s

/-! ## Frame: what a step of one thread leaves to the others -/

/-- `t` writes the word `a` at this step: the writeback of an entry of `a`, or a rollback
    that writes back into a thrown range. -/
def WritesWord (th : Thread) (a : Nat) : Prop :=
  (∃ i e, th.pc = .commitWriteback i ∧ th.writes[i]? = some e ∧ e.addr = a) ∨
  (∃ exc len i, th.pc = .rollbackWrites exc len i ∧ len ≠ 0)

/-- `t`'s release loop writes `v` over the orec `n` at this step: `p + 1` in `commit_rw`, `p`
    in the rollback. -/
def ReleasesTo (th : Thread) (o : Orec) (n v : Nat) : Prop :=
  ∃ i, th.locks[i]? = some n ∧
    (th.pc = .commitRelease i ∧ v = (o.p + 1) % 2 ^ 64 ∨ th.pc = .rollbackRelease i ∧ v = o.p)

/-- What a step of thread `t` leaves to the others: their records; an orec changes only by
    `t`'s CAS of it at the version `t` sampled, or by `t`'s release of it, which keeps `p`;
    a memory word changes only where `t` writes it. -/
structure Frame (t : Tid) (s s' : State) : Prop where
  threads : ∀ u, u ≠ t → s'.threads u = s.threads u
  orecs : ∀ n, s'.orecs n = s.orecs n ∨
    (s'.orecs n = ⟨myLock t, (s.orecs n).v⟩ ∧ ∃ i, (s.threads t).pc = .commitCas i (s.orecs n).v) ∨
    (ReleasesTo (s.threads t) (s.orecs n) n (s'.orecs n).v ∧ (s'.orecs n).p = (s.orecs n).p)
  mem : ∀ a, s'.mem.load a = s.mem.load a ∨ WritesWord (s.threads t) a

theorem Frame.refl (t : Tid) (s : State) : Frame t s s :=
  ⟨fun _ _ => rfl, fun _ => .inl rfl, fun _ => .inl rfl⟩

theorem Frame.setThread {t : Tid} {s : State} (th : Thread) : Frame t s (s.setThread t th) :=
  ⟨fun u hu => by simp [Function.update_noteq hu], fun _ => .inl rfl, fun _ => .inl rfl⟩

theorem Frame.release {t : Tid} {s : State} {n : Nat} (th : Thread) {v : Nat}
    (hv : ReleasesTo (s.threads t) (s.orecs n) n v) :
    Frame t s ((s.setOrec n { (s.orecs n) with v := v }).setThread t th) := by
  refine ⟨fun u hu => by simp [Function.update_noteq hu], fun n' => ?_, fun _ => .inl rfl⟩
  by_cases h : n' = n
  · subst h; exact .inr (.inr ⟨by simpa using hv, by simp⟩)
  · exact .inl (by simp [Function.update_noteq h])

theorem Frame.write {t : Tid} {s : State} (th : Thread) (m : Mem)
    (hm : ∀ a, m.load a = s.mem.load a ∨ WritesWord (s.threads t) a) :
    Frame t s ({ s with mem := m }.setThread t th) :=
  ⟨fun u hu => by simp [Function.update_noteq hu], fun _ => .inl rfl, hm⟩

theorem frame_next (s : State) (t : Tid) : Frame t s (next orecOf s t) := by
  cases hpc : (s.threads t).pc <;> simp only [next, hpc]
  case idle => exact .refl t s
  case commitCas i ivt =>
    split
    · next e he =>
      split_ifs with hv
      · refine ⟨fun u hu => by simp [Function.update_noteq hu], fun n => ?_, fun _ => .inl rfl⟩
        by_cases h : n = orecOf e.addr
        · subst h; exact .inr (.inl ⟨by simp [hv], i, by rw [hpc, hv]⟩)
        · exact .inl (by simp [Function.update_noteq h])
      · exact .setThread _
    · exact .setThread _
  case commitWriteback i =>
    split
    · next e he =>
      refine .write _ _ fun a => ?_
      by_cases ha : a = e.addr
      · exact .inr (.inl ⟨i, e, hpc, he, ha.symm⟩)
      · exact .inl (Mem.load_doMaskedWrite_of_ne ha)
    · exact .setThread _
  case commitRelease i =>
    split
    · next n hn => exact .release _ ⟨i, hn, .inl ⟨hpc, rfl⟩⟩
    · exact .setThread _
  case rollbackWrites exc len i =>
    split
    · exact .setThread _
    · exact .setThread _
    · next len e hlen _ => exact .write _ _ fun _ => .inr (.inr ⟨exc, _, i, hpc, hlen⟩)
  case rollbackRelease i =>
    split
    · next n hn => exact .release _ ⟨i, hn, .inr ⟨hpc, rfl⟩⟩
    · exact .setThread _
  all_goals (try split) <;> (try split_ifs) <;> exact .setThread _

theorem frame_call (s : State) (t : Tid) (c : Call) : Frame t s (call s t c) := by
  cases c <;> simp only [call] <;> (try split) <;> exact .setThread _

/-- The thread an action belongs to. -/
def Action.thread : Action → Tid
  | .call t _ => t
  | .next t => t

theorem frame_step (s : State) (a : Action) : Frame a.thread s (step orecOf s a) := by
  cases a with
  | call t c =>
    simp only [step, Action.thread]
    split
    · exact frame_call s t c
    · exact .refl t s
  | next t => exact frame_next orecOf s t

theorem exec_threads_of_ne {s : State} {as : List Action} {u : Tid} (h : ∀ a ∈ as, a.thread ≠ u) :
    (exec orecOf s as).threads u = s.threads u := by
  induction as generalizing s with
  | nil => rfl
  | cons a as ih =>
    rw [exec, List.foldl_cons, ← exec, ih fun b hb => h b (List.mem_cons_of_mem _ hb),
      (frame_step orecOf s a).threads u (Ne.symm (h a (List.mem_cons_self _ _)))]

end Step

end Rstm.Nano
