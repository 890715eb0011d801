import Rstm.ByteEager.Locks
import Rstm.ByteEager.Progress

/- Runs of ByteEager: how long a barrier can spin, and what versioning detects.

   The CAS loop, each drain word and the wait inside the read loop count their
   own iterations and abort past their timeout (`spin_bounds`). The read
   loop's outer `while (true)` does not: `tries` grows only while the thread
   waits on `owner != 0`, and a writer that takes the bucket before the
   reader's owner test and releases it before the reader's first wait test
   sends the reader round again with `tries` unchanged. One writer committing
   a `write_ro` per pass does so forever (`read_loop_unbounded`).

   `reader_version == 0` is both "no version recorded" and a recorded version
   0, the version of a bucket no one has written. A read of such a bucket
   records nothing, so after a release and a write by another thread the same
   attempt reads the bucket again, records the new version and returns the
   new value (`version_zero_reread`). -/
namespace Rstm.ByteEager

/-! ## Spin bounds -/

/-- A run from zero memory with every word in bucket 0. -/
def oneBucket (as : List Action) : State := exec (fun _ => 0) (init fun _ => 0#8) as

/-- A write barrier's CAS loop. -/
def Pc.inCas : Pc → Bool
  | .writeCas .. => true
  | _ => false

/-- A write barrier's drain of reader word `i`. -/
def Pc.inDrain (i : Nat) : Pc → Bool
  | .writeDrain _ _ _ _ j _ => j == i
  | _ => false

/-- The failed attempts a spin loop still allows at `pc`: its timeout and the one that aborts,
    less the `tries` already counted. -/
def Pc.attemptsLeft : Pc → Nat
  | .writeCas _ _ _ _ tries => acquireTimeout + 1 - tries
  | .writeDrain _ _ _ _ _ tries => drainTimeout + 1 - tries
  | .readSet _ _ tries | .readCheck _ _ tries | .readVersion _ _ tries | .readDrop _ _ tries
  | .readWait _ _ tries => readTimeout + 1 - tries
  | _ => 0

/-- `attemptsLeft` inside the loop `inLoop`, and none outside it. -/
def loopLeft (inLoop : Pc → Bool) (pc : Pc) : Nat := if inLoop pc then pc.attemptsLeft else 0

theorem loopLeft_le (pc : Pc) :
    loopLeft Pc.inCas pc ≤ acquireTimeout + 1 ∧ (∀ i, loopLeft (Pc.inDrain i) pc ≤ drainTimeout + 1) ∧
      loopLeft (fun pc => pc.readLoop.isSome) pc ≤ readTimeout + 1 := by
  refine ⟨?_, fun i => ?_, ?_⟩ <;> unfold loopLeft <;> split_ifs with h <;>
    first
    | exact Nat.zero_le _
    | (cases pc <;> first | exact Nat.sub_le _ _ | exact (Bool.false_ne_true h).elim)

section Bounds
variable (lockOf : Nat → Nat)

/-- Each counted spin of a thread is within its timeout. -/
def Spins (th : Thread) : Prop :=
  match th.pc with
  | .readWait _ _ tries => tries ≤ readTimeout
  | .writeCas _ _ _ _ tries => tries ≤ acquireTimeout
  | .writeDrain _ _ _ _ _ tries => tries ≤ drainTimeout
  | .readSet _ _ tries | .readCheck _ _ tries | .readDrop _ _ tries => tries ≤ readTimeout
  | _ => True

theorem spins_next {s : State} {t : Slot} (h : Spins (s.threads t)) :
    Spins ((next lockOf s t).threads t) := by
  cases hpc : (s.threads t).pc <;> simp only [Spins, hpc] at h <;> simp only [next, hpc]
  case idle => simp [Spins, hpc]
  case readWait op a tries =>
    -- a wait that sees the owner counts a try, or aborts past the timeout
    split_ifs <;> simp [Spins, Thread.abort, readTimeout] at * <;> omega
  case writeCas op a v mask tries =>
    split_ifs <;> simp [Spins, Thread.abort, acquireTimeout] at *
    omega
  case writeDrain op a v mask i tries =>
    split_ifs <;> simp [Spins, Thread.abort, drainTimeout] at *
    omega
  -- every other step keeps `tries` or leaves the loops
  all_goals (repeat' split) <;> simp [Spins, Thread.abort, h, hpc]

theorem spins_step {s : State} (h : ∀ t, Spins (s.threads t)) (a : Action) (t : Slot) :
    Spins ((step lockOf s a).threads t) := by
  by_cases ht : t = a.thread
  · subst ht
    cases a with
    | call t c =>
      simp only [step, Action.thread]
      split
      · cases c <;> simp only [call, readEntry] <;> (try split) <;> (try split) <;> (try split) <;>
          simp only [State.setThread_threads, State.setLock_threads, Function.update_same, Spins] <;>
          first | exact h t | decide
      · exact h t
    | next t => exact spins_next lockOf (h t)
  · rw [(frame_step lockOf s a).threads t ht]; exact h t

theorem spins_reachable {s : State} (h : Reachable lockOf s) (t : Slot) : Spins (s.threads t) :=
  h.induction lockOf (P := fun s => ∀ t, Spins (s.threads t))
    (fun _ _ => by simp [init, Thread.init, Spins]) (fun _ a _ hs => spins_step lockOf hs a) t

/-- Whether `t`'s next step is a failed attempt of a spin loop: a CAS on an owned bucket, a poll
    of a reader word with a byte set, or a wait test that still sees an owner. -/
def spinFails (s : State) (t : Slot) : Bool :=
  match (s.threads t).pc with
  | .readWait _ a _ | .writeCas _ a _ _ _ => (s.locks (lockOf a)).owner != 0
  | .writeDrain _ a _ _ i _ => (s.locks (lockOf a)).readerWord i
  | _ => false

/-- The failed attempts `t` makes along `as` from `s` in the spin loop `inLoop`, up to the first
    action that finds it out of the loop. -/
def loopFailures (inLoop : Pc → Bool) (t : Slot) : State → List Action → Nat
  | _, [] => 0
  | s, a :: as =>
    if inLoop (s.threads t).pc then
      (if spinFails lockOf s t then nextSteps t [a] else 0) +
        loopFailures inLoop t (step lockOf s a) as
    else 0

/-- The run lemma of a spin loop: if each step of `t` in the loop spends an attempt on each
    failure, the failures along any run are at most the attempts left. Other threads' steps and
    `t`'s calls, which a thread inside a barrier ignores, leave `t` where it is. -/
theorem loopFailures_le (inLoop : Pc → Bool) (t : Slot) (hidle : inLoop .idle = false)
    (hnext : ∀ s : State, Spins (s.threads t) → inLoop (s.threads t).pc →
      (if spinFails lockOf s t then 1 else 0) + loopLeft inLoop ((next lockOf s t).threads t).pc ≤
        (s.threads t).pc.attemptsLeft) :
    ∀ (as : List Action) (s : State), (∀ u, Spins (s.threads u)) →
      loopFailures lockOf inLoop t s as ≤ loopLeft inLoop (s.threads t).pc := by
  intro as
  induction as with
  | nil => intro s _; exact Nat.zero_le _
  | cons a as ih =>
    intro s hs
    have ih' := ih (step lockOf s a) (spins_step lockOf hs a)
    simp only [loopFailures]
    by_cases hin : inLoop (s.threads t).pc
    · rw [if_pos hin, loopLeft, if_pos hin]
      have hne : (s.threads t).pc ≠ .idle := fun he => by simp [he, hidle] at hin
      by_cases hat : a = .next t
      · subst hat
        have := hnext s (hs t) hin
        have h1 : nextSteps t [.next t] = 1 := by simp [nextSteps]
        rw [h1]
        split_ifs at this ⊢ <;> exact (Nat.add_le_add_left ih' _).trans this
      · -- `t` stays where it is, and the action is not one of its next steps
        have hst : (step lockOf s a).threads t = s.threads t := by
          cases a with
          | call u c =>
            by_cases hu : u = t
            · subst hu; rw [step_call_of_ne_idle lockOf hne]
            · exact (frame_step lockOf s _).threads t (Ne.symm hu)
          | next u => exact (frame_step lockOf s _).threads t fun hu => hat (by simp [Action.thread, hu])
        have hn : nextSteps t [a] = 0 := by
          cases a with
          | call u c => rfl
          | next u => simpa [nextSteps] using fun hu => hat (by rw [hu])
        rw [hst, loopLeft, if_pos hin] at ih'
        simpa only [hn, ite_self, Nat.zero_add] using ih'
    · rw [if_neg hin]; exact Nat.zero_le _

/-- A CAS on an owned bucket counts a try, or aborts past `ACQUIRE_TIMEOUT`; a CAS on a free
    one leaves the loop. -/
theorem casLeft_next {s : State} {t : Slot} (hs : Spins (s.threads t)) (hin : (s.threads t).pc.inCas) :
    (if spinFails lockOf s t then 1 else 0) + loopLeft Pc.inCas ((next lockOf s t).threads t).pc ≤
      (s.threads t).pc.attemptsLeft := by
  cases hpc : (s.threads t).pc <;> simp only [hpc, Pc.inCas] at hin <;> try contradiction
  case writeCas op a v mask tries =>
    simp only [Spins, hpc] at hs
    simp only [next, spinFails, hpc]
    split_ifs <;> simp_all [loopLeft, Pc.inCas, Pc.attemptsLeft, Thread.abort, acquireTimeout] <;> omega

/-- A poll of word `i` that finds a reader byte counts a try, or aborts past `DRAIN_TIMEOUT`; one
    that finds none moves to the next word or to the version bump. -/
theorem drainLeft_next (i : Nat) {s : State} {t : Slot} (hs : Spins (s.threads t))
    (hin : (s.threads t).pc.inDrain i) :
    (if spinFails lockOf s t then 1 else 0) + loopLeft (Pc.inDrain i) ((next lockOf s t).threads t).pc ≤
      (s.threads t).pc.attemptsLeft := by
  cases hpc : (s.threads t).pc <;> simp only [hpc, Pc.inDrain] at hin <;> try contradiction
  case writeDrain op a v mask j tries =>
    simp only [Spins, hpc] at hs
    simp only [next, spinFails, hpc]
    split_ifs <;> simp_all [loopLeft, Pc.inDrain, Pc.attemptsLeft, Thread.abort, drainTimeout] <;> omega

/-- Inside a read barrier's retry loop only a wait that sees the owner counts a try, or aborts
    past `READ_TIMEOUT`; the other steps keep `tries`, and the version test leaves the loop. -/
theorem readLeft_next {s : State} {t : Slot} (hs : Spins (s.threads t))
    (hin : (s.threads t).pc.readLoop.isSome) :
    (if spinFails lockOf s t then 1 else 0) +
        loopLeft (fun pc => pc.readLoop.isSome) ((next lockOf s t).threads t).pc ≤
      (s.threads t).pc.attemptsLeft := by
  cases hpc : (s.threads t).pc <;> simp only [hpc, Pc.readLoop, Option.isSome_none] at hin <;>
    try contradiction
  all_goals
    simp only [Spins, hpc] at hs
    simp only [next, spinFails, hpc, Bool.false_eq_true, if_false, Nat.zero_add]
  case readWait op a tries =>
    split_ifs <;> simp_all [loopLeft, Pc.readLoop, Pc.attemptsLeft, Thread.abort, readTimeout] <;> omega
  case readVersion op a tries =>
    cases op <;> split_ifs <;> simp [loopLeft, Pc.readLoop, Thread.abort]
  all_goals (try split_ifs) <;> simp [loopLeft, Pc.readLoop, Pc.attemptsLeft]

/-- Every counted spin of ByteEager is bounded: along any run from a reachable state, a thread
    makes at most `ACQUIRE_TIMEOUT + 1` failed CAS attempts in one CAS loop, finds a reader byte
    in at most `DRAIN_TIMEOUT + 1` polls of one reader word, and sees the owner in at most
    `READ_TIMEOUT + 1` wait tests of one read barrier. -/
theorem spin_bounds {s : State} (h : Reachable lockOf s) (t : Slot) (as : List Action) :
    loopFailures lockOf Pc.inCas t s as ≤ acquireTimeout + 1 ∧
    (∀ i, loopFailures lockOf (Pc.inDrain i) t s as ≤ drainTimeout + 1) ∧
    loopFailures lockOf (fun pc => pc.readLoop.isSome) t s as ≤ readTimeout + 1 := by
  have hs := spins_reachable lockOf h
  obtain ⟨hc, hd, hr⟩ := loopLeft_le (s.threads t).pc
  exact ⟨(loopFailures_le lockOf _ t rfl (fun s hs hin => casLeft_next lockOf hs hin) as s hs).trans hc,
    fun i => (loopFailures_le lockOf _ t rfl (fun s hs hin => drainLeft_next lockOf i hs hin) as s hs).trans
      (hd i),
    (loopFailures_le lockOf _ t rfl (fun s hs hin => readLeft_next lockOf hs hin) as s hs).trans hr⟩

end Bounds

/-- Thread 1 takes bucket 0 for a write, and thread 0 starts a read of word 0. -/
def heldRead : List Action := [.call 1 (.write 0 zeroWord zeroWord), .next 1, .call 0 (.read 0)]

/-- The read bound is met: while thread 1 drains, thread 0's waits see its ownership thirty-three
    times, and the last of them aborts. -/
theorem spin_bounds_wait :
    Reachable (fun _ => 0) (oneBucket heldRead) ∧
    loopFailures (fun _ => 0) (fun pc => pc.readLoop.isSome) 0 (oneBucket heldRead)
      (List.replicate 40 (.next 0)) = readTimeout + 1 ∧
    (loopFailures (fun _ => 0) Pc.inCas 0 (oneBucket heldRead) (List.replicate 40 (.next 0)) ≤
        acquireTimeout + 1 ∧
      (∀ i, loopFailures (fun _ => 0) (Pc.inDrain i) 0 (oneBucket heldRead)
        (List.replicate 40 (.next 0)) ≤ drainTimeout + 1) ∧
      loopFailures (fun _ => 0) (fun pc => pc.readLoop.isSome) 0 (oneBucket heldRead)
        (List.replicate 40 (.next 0)) ≤ readTimeout + 1) :=
  ⟨⟨_, _, rfl⟩, by decide, spin_bounds (fun _ => 0) ⟨_, _, rfl⟩ 0 _⟩

/-! ## The read loop is not bounded -/

/-- The read barrier's retry loop at its top, with thread 1 idle and bucket 0 free. -/
structure LoopTop (s : State) : Prop where
  reader : (s.threads 0).pc = .readSet .ro 0 0
  writer : s.threads 1 = Thread.init
  owner : (s.locks 0).owner = 0
  readers : ∀ u, (s.locks 0).reader u = false
  version : (s.locks 0).readerVersion 1 = 0

theorem loopTop_iff {s : State} : LoopTop s ↔ (s.threads 0).pc = .readSet .ro 0 0 ∧
    s.threads 1 = Thread.init ∧ (s.locks 0).owner = 0 ∧ (∀ u, (s.locks 0).reader u = false) ∧
    (s.locks 0).readerVersion 1 = 0 :=
  ⟨fun ⟨a, b, c, d, e⟩ => ⟨a, b, c, d, e⟩, fun ⟨a, b, c, d, e⟩ => ⟨a, b, c, d, e⟩⟩

/-- One pass of thread 0's retry loop, against a `write_ro` and `commit_rw` of thread 1: thread
    1 takes the bucket, thread 0 sets its byte, sees the owner, drops its byte and starts to
    wait; thread 1 drains, writes and commits; thread 0's first wait test sees the bucket free
    and goes round again. -/
def pass (v mask : Word) : List Action :=
  [.call 1 (.write 0 v mask), .next 1, .next 0, .next 0, .next 0] ++ List.replicate 16 (.next 1) ++
  [.next 1, .call 1 .commit, .next 1, .next 1, .next 1, .next 0]

theorem readerWord_of_forall {l : Bytelock} (h : ∀ u, l.reader u = false) (i : Nat) :
    l.readerWord i = false := by
  simp [Bytelock.readerWord, h]

theorem loopTop_pass {s : State} (h : LoopTop s) (v mask : Word) :
    LoopTop (exec (fun _ => 0) s (pass v mask)) := by
  obtain ⟨h0, h1, ho, hr, hv⟩ := h
  simp only [pass, exec, List.replicate, List.cons_append, List.nil_append, List.foldl_cons,
    List.foldl_nil, loopTop_iff]
  simp [step, next, call, h0, h1, ho, hr, hv, Thread.init, readerWord_of_forall,
    Bytelock.setReader, Function.update_apply, State.setThread, State.setLock]

theorem exec_append (lockOf : Nat → Nat) (s : State) (as bs : List Action) :
    exec lockOf s (as ++ bs) = exec lockOf (exec lockOf s as) bs := by
  simp [exec, List.foldl_append]

/-- `read_ro`'s retry loop has no bound: for every `k`, thread 0 calls `read_ro` on word 0 and,
    after `k` passes of its loop (each one set-byte, owner test, drop and wait step, with
    `tries` still 0), is back at the top of the loop, neither returned nor aborted. -/
theorem read_loop_unbounded (k : Nat) :
    ((exec (fun _ => 0) (init fun _ => 0#8)
      (.call 0 (.read 0) :: (List.replicate k (pass zeroWord zeroWord)).flatten)).threads 0).pc =
      .readSet .ro 0 0 := by
  have h₀ : LoopTop (exec (fun _ => 0) (init fun _ => 0#8) [.call 0 (.read 0)]) :=
    ⟨rfl, rfl, rfl, fun _ => rfl, rfl⟩
  suffices ∀ k s, LoopTop s →
      LoopTop (exec (fun _ => 0) s (List.replicate k (pass zeroWord zeroWord)).flatten) from
    (this k _ h₀).reader
  intro k
  induction k with
  | zero => exact fun _ hs => hs
  | succ k ih =>
    intro s hs
    rw [List.replicate_succ, List.flatten_cons, exec_append]
    exact ih _ (loopTop_pass hs _ _)

/-! ## Version 0 -/

/-- Thread 0 reads word 0. -/
def readZero : List Action := [.call 0 (.read 0), .next 0, .next 0, .next 0, .next 0]

/-- Thread 1 writes `v` to word 0 (its CAS, drain, `++version` and write) and commits. -/
def writeCommit (v : Word) : List Action :=
  [.call 1 (.write 0 v fun _ => 255#8), .next 1] ++ List.replicate 16 (.next 1) ++
    [.next 1, .call 1 .commit, .next 1, .next 1, .next 1]

/-- Thread 0 reads word 0 and releases it; thread 1 writes 1 to it and commits. -/
def readThenWrite : List Action :=
  readZero ++ [.call 0 (.release 0)] ++ writeCommit fun _ => 1#8

/-- Versioning misses a write to a bucket first read at version 0: thread 0 reads word 0 as
    0 and releases it, thread 1 completes a write acquisition of the bucket (version 0 to 1)
    and commits 1, and thread 0's second read of the bucket in the same attempt returns 1
    instead of aborting. -/
theorem version_zero_reread :
    ((oneBucket readZero).locks 0).version = 0 ∧
    ((oneBucket readThenWrite).locks 0).version = 1 ∧
    ((oneBucket readThenWrite).threads 1).pc = .idle ∧
    ((oneBucket (readThenWrite ++ readZero)).threads 0).pc = .idle ∧
    ∃ v w, ((oneBucket (readThenWrite ++ readZero)).threads 0).events = [.read 0 v, .read 0 w] ∧
      v 0 = 0#8 ∧ w 0 = 1#8 :=
  ⟨rfl, rfl, rfl, rfl, _, _, rfl, rfl, rfl⟩

end Rstm.ByteEager
