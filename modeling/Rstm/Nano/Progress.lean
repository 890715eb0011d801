import Rstm.Nano.Basic

/- `commit_rw` and Nano's rollback never wait on another thread. The acquire loop aborts on an
   orec another thread holds instead of spinning on it, the validation aborts on a moved orec,
   and the writeback and the release loops walk lists the thread owns. So a thread inside them
   is between barriers again after a number of its own steps bounded by the lengths of its
   lists (`Thread.budget`), however the other threads' steps interleave with its own
   (`commit_wait_free`). `read_ro` is not: its retry loop goes round for as long as the orec it
   samples moves or stays locked. It is not even obstruction-free: a thread that runs alone
   leaves every barrier within `soloBudget` of its steps unless its read samples an orec that is
   locked, and then it never leaves the loop, since only the holder's release unlocks the orec
   (`read_solo`). -/
namespace Rstm.Nano

/-- Inside `commit_rw` or the rollback. -/
def Pc.finishing : Pc → Bool
  | .commitAcquire _ | .commitCas .. | .commitValidate _ | .commitWriteback _ | .commitRelease _
  | .rollbackWrites .. | .rollbackRelease _ => true
  | _ => false

/-- An upper bound on the steps a thread inside `commit_rw` or the rollback still takes: per write
    an acquire step, a CAS and a writeback, per logged read a validation step, per lock a release,
    and one step to leave each loop. -/
def Thread.budget (th : Thread) : Nat :=
  match th.pc with
  | .commitAcquire i =>
    3 * (th.writes.length - i) + th.nanorecs.length + th.writes.length + th.locks.length + 4
  | .commitCas i _ =>
    3 * (th.writes.length - i) + th.nanorecs.length + th.writes.length + th.locks.length + 3
  | .commitValidate i => th.nanorecs.length - i + th.writes.length + th.locks.length + 3
  | .commitWriteback i | .rollbackWrites _ _ i => th.writes.length - i + th.locks.length + 2
  | .commitRelease i | .rollbackRelease i => th.locks.length - i + 1
  | _ => 0

theorem Thread.budget_pos {th : Thread} (h : th.pc.finishing) : 0 < th.budget := by
  unfold Thread.budget; split <;> first | omega | simp_all [Pc.finishing]

/-- How many of the actions are next steps of `t`. -/
def nextSteps (t : Tid) (as : List Action) : Nat :=
  as.countP fun
    | .next u => decide (u = t)
    | .call .. => false

section Progress
variable (orecOf : Nat → Nat)

/-- Each step of a thread inside `commit_rw` or the rollback spends some of its budget, and
    leaves it there or between barriers. -/
theorem budget_next {s : State} {t : Tid} (h : (s.threads t).pc.finishing) :
    ((next orecOf s t).threads t).budget < (s.threads t).budget ∧
      (((next orecOf s t).threads t).pc.finishing ∨ ((next orecOf s t).threads t).pc = .idle) := by
  cases hpc : (s.threads t).pc <;> simp only [Pc.finishing, hpc] at h <;> try contradiction
  all_goals simp only [next, hpc]
  case commitAcquire i | commitCas i _ | commitValidate i =>
    -- the acquire, the CAS and the validation move on, or abort into the rollback
    split
    · have := (List.getElem?_eq_some_iff.mp ‹_›).1
      split_ifs <;> simp [Thread.budget, Pc.finishing, hpc] <;> omega
    · simp [Thread.budget, Pc.finishing, hpc]; omega
  case commitWriteback i | commitRelease i | rollbackRelease i =>
    -- the writeback or a release handles one more entry, or moves on once its list is done
    split
    · have := (List.getElem?_eq_some_iff.mp ‹_›).1
      simp [Thread.budget, Pc.finishing, hpc]; omega
    · simp [Thread.budget, Pc.finishing, hpc] <;> omega
  case rollbackWrites exc len i =>
    -- a thrown range has one more entry written back; an empty one goes to the release
    split
    · simp [Thread.budget, Pc.finishing, hpc]; omega
    · simp [Thread.budget, Pc.finishing, hpc]; omega
    · have := (List.getElem?_eq_some_iff.mp ‹_›).1
      simp [Thread.budget, Pc.finishing, hpc]; omega

/-- Any action spends the budget of a thread inside `commit_rw` or the rollback by what it
    counts among that thread's next steps: another thread's step and a call leave it alone. -/
theorem budget_step {s : State} {t : Tid} (h : (s.threads t).pc.finishing) (a : Action) :
    ((step orecOf s a).threads t).budget + nextSteps t [a] ≤ (s.threads t).budget ∧
      (((step orecOf s a).threads t).pc.finishing ∨ ((step orecOf s a).threads t).pc = .idle) := by
  have hne : (s.threads t).pc ≠ .idle := fun he => by simp [he, Pc.finishing] at h
  rcases eq_or_ne a.thread t with hat | hat
  · cases a with
    | call u c =>
      obtain rfl : u = t := hat
      have hs : step orecOf s (.call u c) = s := by simp only [step]
      simp [hs, nextSteps, h]
    | next u =>
      obtain rfl : u = t := hat
      have := budget_next orecOf h
      simp only [step, nextSteps, List.countP_singleton, decide_True, if_true]
      exact ⟨by omega, this.2⟩
  · have hf := (frame_step orecOf s a).threads t (Ne.symm hat)
    have hn : nextSteps t [a] = 0 := by
      cases a <;> simp_all [nextSteps, Action.thread]
    simp [hf, hn, h]

/-- `commit_rw` and the rollback are wait-free: a thread inside them is between barriers again
    within any run in which it takes as many steps as its budget, whatever the other threads
    do. -/
theorem commit_wait_free {s : State} {t : Tid} (h : (s.threads t).pc.finishing) {as : List Action}
    (hn : (s.threads t).budget ≤ nextSteps t as) :
    ∃ k ≤ as.length, ((exec orecOf s (as.take k)).threads t).pc = .idle := by
  suffices ∀ (as : List Action) (s : State),
      ((s.threads t).pc.finishing ∨ (s.threads t).pc = .idle) →
        (s.threads t).budget ≤ nextSteps t as →
          ∃ k ≤ as.length, ((exec orecOf s (as.take k)).threads t).pc = .idle from
    this as s (.inl h) hn
  intro as
  induction as with
  | nil =>
    intro s hs hn
    refine ⟨0, le_rfl, hs.resolve_left fun hf => ?_⟩
    have := Thread.budget_pos hf
    simp [nextSteps] at hn; omega
  | cons a as ih =>
    intro s hs hn
    rcases hs with hf | hidle
    · have ⟨hb, hs'⟩ := budget_step orecOf hf a
      have hcount : nextSteps t (a :: as) = nextSteps t as + nextSteps t [a] := by
        simp only [nextSteps, List.countP_cons, List.countP_singleton, List.countP_nil, Nat.zero_add]
      obtain ⟨k, hk, hidle⟩ := ih (step orecOf s a) hs' (by omega)
      exact ⟨k + 1, by simp; omega, hidle⟩
    · exact ⟨0, Nat.zero_le _, hidle⟩

/-- Thread 0 commits a write while thread 1 reads the same word: eight steps of thread 0 end its
    commit. -/
theorem commit_wait_free_writer :
    let s := exec (fun _ => 0) (init (fun _ => 0))
      [.call 0 (.write 0 (fun _ => 5) (fun _ => 255)), .call 0 .commit]
    let as : List Action := [.next 0, .call 1 (.read 0), .next 0, .next 1, .next 0, .next 1, .next 0,
      .next 1, .next 0, .next 1, .next 0, .next 0, .next 0]
    (s.threads 0).pc.finishing ∧ (s.threads 0).budget ≤ nextSteps 0 as ∧
      ∃ k ≤ as.length, ((exec (fun _ => 0) s (as.take k)).threads 0).pc = .idle :=
  have h : ((exec (fun _ => 0) (init (fun _ => 0))
      [.call 0 (.write 0 (fun _ => 5) (fun _ => 255)), .call 0 .commit]).threads 0).pc.finishing := rfl
  have hn : ((exec (fun _ => 0) (init (fun _ => 0))
      [.call 0 (.write 0 (fun _ => 5) (fun _ => 255)), .call 0 .commit]).threads 0).budget ≤
      nextSteps 0 [.next 0, .call 1 (.read 0), .next 0, .next 1, .next 0, .next 1, .next 0,
        .next 1, .next 0, .next 1, .next 0, .next 0, .next 0] := by decide
  ⟨h, hn, commit_wait_free (fun _ => 0) h hn⟩

/-! ## Running alone -/

/-- The word a read's retry loop works on, until its two samples of the orec agree unlocked. -/
def Pc.retrying : Pc → Option Nat
  | .readSample _ a | .readValue _ a _ | .readCheck _ a _ _ => some a
  | _ => none

/-- No read of `t` is retrying on a word whose orec is locked. -/
def Unblocked (s : State) (t : Tid) : Prop :=
  ∀ a, (s.threads t).pc.retrying = some a → locked (s.orecs (orecOf a)).v = false

/-- An upper bound on the steps an unblocked thread still takes when it runs alone. A read
    samples the orec, reads the word, samples the orec again, and validates its read set; a first
    sample older than the orec's current value costs one more pass. Elsewhere it is
    `Thread.budget`. -/
def soloBudget (s : State) (t : Tid) : Nat :=
  let th := s.threads t
  let rest := th.nanorecs.length + th.writes.length + th.locks.length + 4
  match th.pc with
  | .readSample .. => rest + 3
  | .readValue _ a ivt => if ivt = (s.orecs (orecOf a)).v then rest + 2 else rest + 5
  | .readCheck _ a ivt _ =>
    if ivt = (s.orecs (orecOf a)).v ∧ !locked ivt then rest + 1 else rest + 4
  | .readValidate _ _ _ i => th.nanorecs.length - i + th.writes.length + th.locks.length + 3
  | _ => th.budget

theorem soloBudget_eq_budget {s : State} {t : Tid}
    (h : (s.threads t).pc.finishing ∨ (s.threads t).pc = .idle) :
    soloBudget orecOf s t = (s.threads t).budget := by
  cases hpc : (s.threads t).pc <;> simp_all [soloBudget, Pc.finishing]

/-- Each step of an unblocked thread that runs alone spends some of its solo budget and leaves it
    unblocked. -/
theorem soloBudget_next {s : State} {t : Tid} (h : (s.threads t).pc ≠ .idle)
    (hu : Unblocked orecOf s t) :
    soloBudget orecOf (next orecOf s t) t < soloBudget orecOf s t ∧
      Unblocked orecOf (next orecOf s t) t := by
  rcases Bool.eq_false_or_eq_true (s.threads t).pc.finishing with hf | hf
  · obtain ⟨hlt, hf'⟩ := budget_next orecOf hf
    refine ⟨by rwa [soloBudget_eq_budget orecOf (.inl hf), soloBudget_eq_budget orecOf hf'], ?_⟩
    intro a ha
    rcases hf' with hf' | hf' <;> cases hpc : ((next orecOf s t).threads t).pc <;>
      simp_all [Pc.retrying, Pc.finishing]
  · cases hpc : (s.threads t).pc <;> simp [Pc.finishing, hpc] at hf h <;> simp only [next, hpc]
    case readSample op a | readValue op a ivt =>
      -- the first sample and the data read: the orec is unlocked and stays so
      have hl := hu a (by rw [hpc]; rfl)
      refine ⟨?_, fun b hb => ?_⟩
      · simp only [soloBudget, hpc, State.setThread_self, State.setThread_orecs]
        split_ifs <;> simp_all
      · simp_all [Pc.retrying]
    case readCheck op a ivt tmp =>
      -- the second sample logs the read and starts the validation, or samples again
      have hl := hu a (by rw [hpc]; rfl)
      split_ifs with hc
      · exact ⟨by simp_all [soloBudget, Thread.budget]; omega, fun b hb => by simp [Pc.retrying] at hb⟩
      · exact ⟨by simp_all [soloBudget], fun b hb => by simp_all [Pc.retrying]⟩
    case readValidate op a tmp i =>
      -- the validation moves on, aborts, or returns
      refine ⟨?_, fun b => ?_⟩
      · split
        · have := (List.getElem?_eq_some_iff.mp ‹_›).1
          split_ifs <;> simp [soloBudget, Thread.budget, hpc] <;> omega
        · simp [soloBudget, Thread.budget, hpc]
      · split <;> (try split_ifs) <;> simp [Pc.retrying]

theorem solo_idle (s : State) (t : Tid) (hu : Unblocked orecOf s t) :
    ∃ k ≤ soloBudget orecOf s t, ((exec orecOf s (List.replicate k (.next t))).threads t).pc = .idle := by
  by_cases hi : (s.threads t).pc = .idle
  · exact ⟨0, Nat.zero_le _, hi⟩
  · obtain ⟨hlt, hu'⟩ := soloBudget_next orecOf hi hu
    obtain ⟨k, hk, hidle⟩ := solo_idle (next orecOf s t) t hu'
    exact ⟨k + 1, by omega, hidle⟩
termination_by soloBudget orecOf s t

/-- A step of a read retrying on a word whose orec is locked leaves it retrying on that word and
    the orecs as they were: the second sample equals the locked first one, or differs from it. -/
theorem retrying_next {s : State} {t : Tid} {a : Nat} (hpc : (s.threads t).pc.retrying = some a)
    (hl : locked (s.orecs (orecOf a)).v = true) :
    ((next orecOf s t).threads t).pc.retrying = some a ∧ (next orecOf s t).orecs = s.orecs := by
  cases h : (s.threads t).pc <;> simp only [Pc.retrying, h, Option.some.injEq, reduceCtorEq] at hpc <;>
    subst hpc
  case readCheck op b ivt tmp =>
    have hc : ¬(ivt = (s.orecs (orecOf b)).v ∧ locked ivt = false) := fun ⟨he, hf⟩ => by
      rw [he, hl] at hf; cases hf
    simp [next, h, hc, Pc.retrying]
  all_goals simp [next, h, Pc.retrying]

theorem solo_blocked {s : State} {t : Tid} {a : Nat} (hpc : (s.threads t).pc.retrying = some a)
    (hl : locked (s.orecs (orecOf a)).v = true) (k : Nat) :
    ((exec orecOf s (List.replicate k (.next t))).threads t).pc.retrying = some a := by
  induction k generalizing s with
  | zero => exact hpc
  | succ k ih =>
    obtain ⟨hpc', ho⟩ := retrying_next orecOf hpc hl
    exact ih hpc' (ho ▸ hl)

/-- From any state, a thread that runs alone is between barriers again within its solo budget
    of steps, unless a read of it is retrying on a word whose orec is locked: then it retries on
    that word forever. -/
theorem read_solo (s : State) (t : Tid) :
    (Unblocked orecOf s t → ∃ k ≤ soloBudget orecOf s t,
      ((exec orecOf s (List.replicate k (.next t))).threads t).pc = .idle) ∧
    (∀ a, (s.threads t).pc.retrying = some a → locked (s.orecs (orecOf a)).v = true →
      ∀ k, ((exec orecOf s (List.replicate k (.next t))).threads t).pc.retrying = some a) :=
  ⟨solo_idle orecOf s t, fun _ hpc hl k => solo_blocked orecOf hpc hl k⟩

/-- Thread 1 locks the orec of word 0 in its commit and stops there; thread 0 then reads word 0
    and, running alone, is still in the read's retry loop after a thousand steps. -/
theorem read_solo_held :
    let s := exec (fun _ => 0) (init (fun _ => 0)) [.call 1 (.write 0 (fun _ => 5) (fun _ => 255)),
      .call 1 .commit, .next 1, .next 1, .call 0 (.read 0)]
    (s.threads 0).pc.retrying = some 0 ∧ locked (s.orecs 0).v = true ∧
      ((exec (fun _ => 0) s (List.replicate 1000 (.next 0))).threads 0).pc.retrying = some 0 :=
  have h : ((exec (fun _ => 0) (init (fun _ => 0)) [.call 1 (.write 0 (fun _ => 5) (fun _ => 255)),
      .call 1 .commit, .next 1, .next 1, .call 0 (.read 0)]).threads 0).pc.retrying = some 0 := rfl
  have hl : locked ((exec (fun _ => 0) (init (fun _ => 0)) [.call 1 (.write 0 (fun _ => 5) (fun _ => 255)),
      .call 1 .commit, .next 1, .next 1, .call 0 (.read 0)]).orecs 0).v = true := rfl
  ⟨h, hl, (read_solo (fun _ => 0) _ 0).2 0 h hl 1000⟩

end Progress

end Rstm.Nano
