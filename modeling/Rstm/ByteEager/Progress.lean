import Rstm.ByteEager.Basic

/- ByteEager's write barriers, commits and rollback never wait without bound. The write barrier's
   CAS loop gives up after `ACQUIRE_TIMEOUT` retries, its drain of each of the sixteen reader
   words after `DRAIN_TIMEOUT` polls, and both then abort; the commits and the rollback walk
   lists the thread owns. So a thread at any of their steps is between barriers again after a
   number of its own steps bounded by the timeouts and the lengths of its lists
   (`Thread.budget`), however the other threads' steps interleave with its own
   (`write_commit_wait_free`). The read barrier is not: its retry loop goes back to setting its
   reader byte each time it finds the owner gone, with no count. Only another thread's release
   empties `owner`, though, so every barrier is obstruction-free: a thread that runs alone is
   between barriers again within `soloBudget` of its steps (`barriers_obstruction_free`). -/
namespace Rstm.ByteEager

/-- At a step of a write barrier, a commit or the rollback. -/
def Pc.bounded : Pc → Bool
  | .writeCas .. | .writeDrain .. | .writeBump .. | .commitRo _ | .commitRwOwners _
  | .commitRwReaders _ | .undo .. | .rollbackOwners _ | .rollbackReaders _ => true
  | _ => false

/-- The steps the rollback `tx->abort()` starts still takes: one per undo-log entry, one per
    held write and read lock, and one to leave each loop. -/
def Thread.rollbackBudget (th : Thread) : Nat :=
  th.undoLog.length + th.wBytelocks.length + th.rBytelocks.length + 3

/-- An upper bound on the steps a thread at a step of a write barrier, a commit or the rollback
    still takes: the CAS retries left before `ACQUIRE_TIMEOUT`, the polls of each reader word left
    before `DRAIN_TIMEOUT`, the version bump, the rollback an abort starts, and the release
    loops. -/
def Thread.budget (th : Thread) : Nat :=
  match th.pc with
  | .writeCas _ _ _ _ tries =>
    acquireTimeout + 1 - tries + 16 * (drainTimeout + 2) + th.rollbackBudget + 4
  | .writeDrain _ _ _ _ i tries =>
    drainTimeout + 1 - tries + (15 - i) * (drainTimeout + 2) + th.rollbackBudget + 2
  | .writeBump .. => 1
  | .commitRo i | .commitRwReaders i | .rollbackReaders i => th.rBytelocks.length - i + 1
  | .commitRwOwners i | .rollbackOwners i =>
    th.wBytelocks.length - i + th.rBytelocks.length + 2
  | .undo _ _ n => n + th.wBytelocks.length + th.rBytelocks.length + 3
  | _ => 0

theorem Thread.budget_pos {th : Thread} (h : th.pc.bounded) : 0 < th.budget := by
  unfold Thread.budget; split <;> first | omega | simp_all [Pc.bounded]

/-- How many of the actions are next steps of `t`. -/
def nextSteps (t : Slot) (as : List Action) : Nat :=
  as.countP fun
    | .next u => decide (u = t)
    | .call .. => false

section Progress
variable (lockOf : Nat → Nat)

/-- Each step of a thread at a write barrier, a commit or the rollback spends some of its budget,
    and leaves it at one of them or between barriers. -/
theorem budget_next {s : State} {t : Slot} (h : (s.threads t).pc.bounded) :
    ((next lockOf s t).threads t).budget < (s.threads t).budget ∧
      (((next lockOf s t).threads t).pc.bounded ∨ ((next lockOf s t).threads t).pc = .idle) := by
  cases hpc : (s.threads t).pc <;> simp only [Pc.bounded, hpc] at h <;> try contradiction
  all_goals simp only [next, hpc]
  case writeCas op a v mask tries =>
    -- the CAS starts the drain, retries, or aborts into the rollback
    simp only [acquireTimeout, drainTimeout]
    split_ifs <;> simp [Thread.budget, Thread.rollbackBudget, Pc.bounded, Thread.abort, hpc,
      acquireTimeout, drainTimeout] <;> omega
  case writeDrain op a v mask i tries =>
    -- the poll retries, moves to the next word or to the bump, or aborts
    simp only [drainTimeout]
    split_ifs <;> simp [Thread.budget, Thread.rollbackBudget, Pc.bounded, Thread.abort, hpc,
      drainTimeout] <;> omega
  case writeBump op a v mask => cases op <;> simp [Thread.budget, Pc.bounded, hpc]
  case commitRo i | commitRwReaders i | rollbackReaders i | commitRwOwners i | rollbackOwners i =>
    -- a release loop frees one more held lock, or moves on once its list is done
    split
    · have := (List.getElem?_eq_some_iff.mp ‹_›).1
      simp [Thread.budget, Pc.bounded, hpc]; omega
    · simp [Thread.budget, Pc.bounded, hpc] <;> omega
  case undo exc len n =>
    -- one more undo-log entry written back, or the release of the write locks next
    split
    · simp [Thread.budget, Pc.bounded, hpc]
    · simp [Thread.budget, Pc.bounded, hpc]; omega

/-- Any action spends the budget of a thread at a write barrier, a commit or the rollback by what
    it counts among that thread's next steps: another thread's step and a call leave it alone. -/
theorem budget_step {s : State} {t : Slot} (h : (s.threads t).pc.bounded) (a : Action) :
    ((step lockOf s a).threads t).budget + nextSteps t [a] ≤ (s.threads t).budget ∧
      (((step lockOf s a).threads t).pc.bounded ∨ ((step lockOf s a).threads t).pc = .idle) := by
  have hne : (s.threads t).pc ≠ .idle := fun he => by simp [he, Pc.bounded] at h
  rcases eq_or_ne a.thread t with hat | hat
  · cases a with
    | call u c =>
      obtain rfl : u = t := hat
      simp [step_call_of_ne_idle lockOf hne, nextSteps, h]
    | next u =>
      obtain rfl : u = t := hat
      have := budget_next lockOf h
      simp only [step, nextSteps, List.countP_singleton, decide_True, if_true]
      exact ⟨by omega, this.2⟩
  · have hf := (frame_step lockOf s a).threads t (Ne.symm hat)
    have hn : nextSteps t [a] = 0 := by
      cases a <;> simp_all [nextSteps, Action.thread]
    simp [hf, hn, h]

/-- ByteEager's write barriers, commits and rollback are wait-free: a thread at any of their
    steps is between barriers again within any run in which it takes as many steps as its
    budget, whatever the other threads do. -/
theorem write_commit_wait_free {s : State} {t : Slot} (h : (s.threads t).pc.bounded)
    {as : List Action} (hn : (s.threads t).budget ≤ nextSteps t as) :
    ∃ k ≤ as.length, ((exec lockOf s (as.take k)).threads t).pc = .idle := by
  suffices ∀ (as : List Action) (s : State),
      ((s.threads t).pc.bounded ∨ (s.threads t).pc = .idle) →
        (s.threads t).budget ≤ nextSteps t as →
          ∃ k ≤ as.length, ((exec lockOf s (as.take k)).threads t).pc = .idle from
    this as s (.inl h) hn
  intro as
  induction as with
  | nil =>
    intro s hs hn
    refine ⟨0, le_rfl, hs.resolve_left fun hf => ?_⟩
    have := Thread.budget_pos hf
    simp [nextSteps] at hn; omega
  | cons a as ih =>
    intro s hs hn
    rcases hs with hf | hidle
    · have ⟨hb, hs'⟩ := budget_step lockOf hf a
      have hcount : nextSteps t (a :: as) = nextSteps t as + nextSteps t [a] := by
        simp only [nextSteps, List.countP_cons, List.countP_singleton, List.countP_nil, Nat.zero_add]
      obtain ⟨k, hk, hidle⟩ := ih (step lockOf s a) hs' (by omega)
      exact ⟨k + 1, by simp; omega, hidle⟩
    · exact ⟨0, Nat.zero_le _, hidle⟩

/-- Thread 0 enters a write barrier, and thread 1 another on the same word: thread 0's budget of
    steps ends its barrier, whether it acquires the lock or times out. -/
theorem write_commit_wait_free_write :
    let s := exec (fun _ => 0) (init (fun _ => 0)) [.call 0 (.write 0 (fun _ => 5) (fun _ => 255))]
    let as : List Action :=
      .call 1 (.write 0 (fun _ => 7) (fun _ => 255)) :: List.replicate 4264 (.next 0)
    (s.threads 0).pc.bounded ∧ (s.threads 0).budget ≤ nextSteps 0 as ∧
      ∃ k ≤ as.length, ((exec (fun _ => 0) s (as.take k)).threads 0).pc = .idle :=
  have h : ((exec (fun _ => 0) (init (fun _ => 0))
      [.call 0 (.write 0 (fun _ => 5) (fun _ => 255))]).threads 0).pc.bounded := rfl
  have hn : ((exec (fun _ => 0) (init (fun _ => 0))
      [.call 0 (.write 0 (fun _ => 5) (fun _ => 255))]).threads 0).budget ≤
      nextSteps 0 (.call 1 (.write 0 (fun _ => 7) (fun _ => 255)) :: List.replicate 4264 (.next 0)) := by
    rw [show ((exec (fun _ => 0) (init (fun _ => 0))
      [.call 0 (.write 0 (fun _ => 5) (fun _ => 255))]).threads 0).budget = 4264 from rfl]
    simp only [nextSteps, List.countP_cons, List.countP_replicate]
    decide
  ⟨h, hn, write_commit_wait_free (fun _ => 0) h hn⟩

/-! ## Running alone -/

/-- An upper bound on the steps a thread still takes when it runs alone. In a read barrier's
    retry loop it depends on the bucket's `owner`, which no step of the loop changes: a free
    bucket lets the read return, or abort on a moved version, after at most one more pass; an
    owned one sends it to the wait, which times out after `READ_TIMEOUT`. Elsewhere it is
    `Thread.budget`. -/
def soloBudget (s : State) (t : Slot) : Nat :=
  let th := s.threads t
  match th.pc with
  | .readSet _ a tries =>
    if (s.locks (lockOf a)).owner = 0 then th.rollbackBudget + 3
    else readTimeout + 1 - tries + th.rollbackBudget + 4
  | .readCheck _ a tries =>
    if (s.locks (lockOf a)).owner = 0 then th.rollbackBudget + 2
    else readTimeout + 1 - tries + th.rollbackBudget + 3
  | .readDrop _ a tries =>
    if (s.locks (lockOf a)).owner = 0 then th.rollbackBudget + 5
    else readTimeout + 1 - tries + th.rollbackBudget + 2
  | .readWait _ a tries =>
    if (s.locks (lockOf a)).owner = 0 then th.rollbackBudget + 4
    else readTimeout + 1 - tries + th.rollbackBudget + 1
  | .readVersion .. => th.rollbackBudget + 1
  | .readValue _ => 1
  | _ => th.budget

theorem soloBudget_eq_budget {s : State} {t : Slot}
    (h : (s.threads t).pc.bounded ∨ (s.threads t).pc = .idle) :
    soloBudget lockOf s t = (s.threads t).budget := by
  cases hpc : (s.threads t).pc <;> simp_all [soloBudget, Pc.bounded]

/-- Each step of a thread that runs alone spends some of its solo budget. -/
theorem soloBudget_next {s : State} {t : Slot} (h : (s.threads t).pc ≠ .idle) :
    soloBudget lockOf (next lockOf s t) t < soloBudget lockOf s t := by
  rcases Bool.eq_false_or_eq_true (s.threads t).pc.bounded with hb | hb
  · obtain ⟨hlt, hb'⟩ := budget_next lockOf hb
    rwa [soloBudget_eq_budget lockOf (.inl hb), soloBudget_eq_budget lockOf hb']
  · cases hpc : (s.threads t).pc <;> simp [Pc.bounded, hpc] at hb h <;> simp only [next, hpc]
    case readSet op a tries | readDrop op a tries =>
      -- setting or dropping the reader byte leaves `owner` as it is
      simp [soloBudget, Thread.rollbackBudget, Bytelock.setReader, hpc]
      split_ifs <;> omega
    case readCheck op a tries =>
      -- the owner test moves on to the version test, or to dropping the byte
      split_ifs with h0 <;> simp [soloBudget, Thread.rollbackBudget, hpc, h0]
    case readWait op a tries =>
      -- the wait goes round, counts a try, or aborts past `READ_TIMEOUT`
      have : readTimeout = 32 := rfl
      split_ifs <;> simp_all [soloBudget, Thread.budget, Thread.rollbackBudget, Thread.abort] <;> omega
    case readVersion op a tries =>
      -- the version test returns, or aborts into the rollback
      cases op <;> split_ifs <;> simp [soloBudget, Thread.budget, Thread.rollbackBudget, Thread.abort, hpc]
    case readValue a => simp [soloBudget, Thread.budget, hpc]

/-- ByteEager's barriers, commits and rollback are obstruction-free: from any state, a thread
    that runs alone is between barriers again within its solo budget of steps. -/
theorem barriers_obstruction_free (s : State) (t : Slot) :
    ∃ k ≤ soloBudget lockOf s t,
      ((exec lockOf s (List.replicate k (.next t))).threads t).pc = .idle := by
  by_cases hi : (s.threads t).pc = .idle
  · exact ⟨0, Nat.zero_le _, hi⟩
  · have hlt := soloBudget_next lockOf hi
    obtain ⟨k, hk, hidle⟩ := barriers_obstruction_free (next lockOf s t) t
    exact ⟨k + 1, by omega, hidle⟩
termination_by soloBudget lockOf s t

end Progress

end Rstm.ByteEager
