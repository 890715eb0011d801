import Rstm.ByteEager.Locks

/- Mutual exclusion in ByteEager: an in-place write that is neither committed
   nor undone lies in a bucket its writer owns and no other thread holds a read
   of, so no read barrier returns it.

   A reader holds a bucket from the step its owner test finds `owner == 0`,
   with its byte set, until it clears the byte (`HoldsRead`). After a writer's
   CAS a reader that sets its byte finds the owner and drops it, so holders can
   only be those that passed the test before the CAS. The drain finds the
   reader words empty one after the other: holders are left only in the words it
   has not passed, and none once it has passed word 15 (`Excl.drain`). Past the
   drain the writer's bucket stays unheld for as long as it owns it, outside a
   commit or rollback (`Excl.owned`). Every in-place write, after a drain or on
   the fast path of an owner, is therefore to an owned, unheld bucket
   (`Excl.pending`), and stays so until commit or undo.

   The invariant is per thread. A step of another thread can make only itself a
   holder, and only of a bucket with `owner == 0` (`holdsRead_step`), which no
   writer's bucket is. -/
namespace Rstm.ByteEager

/-- The address whose bucket a read loop is testing: its byte is set and the owner test has not
    passed yet. -/
def Pc.testing : Pc → Option Nat
  | .readCheck _ a _ | .readDrop _ a _ => some a
  | _ => none

/-- The address a read barrier reads once it returns, with its byte set and the owner test passed. -/
def Pc.reading : Pc → Option Nat
  | .readCheck _ a _ | .readVersion _ a _ | .readValue a => some a
  | _ => none

/-- The address of a write barrier past its CAS, and how many reader words its drain has found
    empty: 16 once it bumps the version. -/
def Pc.drain : Pc → Option (Nat × Nat)
  | .writeDrain _ a _ _ i _ => some (a, i)
  | .writeBump _ a _ _ => some (a, 16)
  | _ => none

/-- A commit or a rollback in progress. -/
def Pc.unwinding : Pc → Bool
  | .commitRo _ | .commitRwOwners _ | .commitRwReaders _ | .undo _ _ _ | .rollbackOwners _
  | .rollbackReaders _ => true
  | _ => false

/-- The in-place writes of the attempt that are neither committed nor undone: the undo log; the
    entries below `n` while the rollback walks down to `n`; none once `commit` is called or the
    undo is done. -/
def Thread.pending (th : Thread) : List UndoLogEntry :=
  match th.pc with
  | .undo _ _ n => th.undoLog.take n
  | .commitRo _ | .commitRwOwners _ | .commitRwReaders _ | .rollbackOwners _ | .rollbackReaders _ =>
    []
  | _ => th.undoLog

theorem Pc.unwinding_of_drain {pc : Pc} {a i : Nat} (h : pc.drain = some (a, i)) :
    pc.unwinding = false := by
  cases pc <;> simp_all [Pc.drain, Pc.unwinding]

@[simp] theorem Bytelock.setReader_owner (l : Bytelock) (t : Slot) (b : Bool) :
    (l.setReader t b).owner = l.owner := rfl

@[simp] theorem Bytelock.clear_owner (l : Bytelock) (t : Slot) : (l.clear t).owner = l.owner := rfl

theorem owner_update_apply (s : State) (L : Nat) (l : Bytelock) (L' : Nat) :
    (Function.update s.locks L l L').owner = if L' = L then l.owner else (s.locks L').owner := by
  by_cases hL : L' = L
  · subst hL; simp
  · simp [Function.update_noteq hL, hL]

theorem owner_update (s : State) {L : Nat} {l : Bytelock} (h : l.owner = (s.locks L).owner)
    (L' : Nat) : (Function.update s.locks L l L').owner = (s.locks L').owner := by
  rw [owner_update_apply]
  split <;> simp_all

theorem Bytelock.readerWord_eq_false {l : Bytelock} {i : Nat} (h : l.readerWord i = false)
    {u : Slot} (hu : l.reader u = true) : u.val / 4 ≠ i := by
  intro hi
  have : l.readerWord i = true := by
    simp only [Bytelock.readerWord, List.any_eq_true]
    exact ⟨u, List.mem_finRange u, by simp [hi, hu]⟩
  simp [this] at h

section Exclusion
variable (lockOf : Nat → Nat)

/-- `u` holds a read of bucket `L`: `reader[u] == 1` and `u` is past its owner test on `L`. -/
def HoldsRead (s : State) (u : Slot) (L : Nat) : Prop :=
  (s.locks L).reader u = true ∧ ∀ a, (s.threads u).pc.testing = some a → lockOf a ≠ L

/-- No thread but `t` holds a read of `L`. -/
def Unread (s : State) (t : Slot) (L : Nat) : Prop := ∀ u, u ≠ t → ¬HoldsRead lockOf s u L

/-- The exclusion invariant of thread `t` as a writer. -/
structure Excl (s : State) (t : Slot) : Prop where
  /-- A pending write is to a bucket `t` owns and no one else holds a read of. -/
  pending : ∀ e ∈ (s.threads t).pending,
    (s.locks (lockOf e.addr)).owner = t.val + 1 ∧ Unread lockOf s t (lockOf e.addr)
  /-- An owned bucket is unheld, except the one `t` drains and those of a commit or rollback. -/
  owned : ∀ L, (s.locks L).owner = t.val + 1 → Unread lockOf s t L ∨
    (s.threads t).pc.unwinding = true ∨ ∃ a i, (s.threads t).pc.drain = some (a, i) ∧ lockOf a = L
  /-- The drained bucket is owned, and its holders are in the reader words not yet passed. -/
  drain : ∀ a i, (s.threads t).pc.drain = some (a, i) →
    (s.locks (lockOf a)).owner = t.val + 1 ∧ ∀ u, u ≠ t → HoldsRead lockOf s u (lockOf a) → i ≤ u.val / 4

/-! ## Holders -/

theorem Frame.holdsRead_iff {t u : Slot} {s s' : State} (hf : Frame t s s') (hu : u ≠ t) (L : Nat) :
    HoldsRead lockOf s' u L ↔ HoldsRead lockOf s u L := by
  simp only [HoldsRead, hf.reader u hu, hf.threads u hu]

theorem Frame.unread_iff {t : Slot} {s s' : State} (hf : Frame t s s') (L : Nat) :
    Unread lockOf s' t L ↔ Unread lockOf s t L :=
  forall_congr' fun _ => imp_congr_right fun hu => not_congr (hf.holdsRead_iff lockOf hu L)

theorem reader_next {s : State} {u : Slot} {L : Nat} (h : ((next lockOf s u).locks L).reader u = true) :
    (s.locks L).reader u = true ∨ ∃ op a tries, (s.threads u).pc = .readSet op a tries ∧ lockOf a = L := by
  revert h
  cases hpc : (s.threads u).pc <;> simp only [next, hpc] <;> (try split_ifs) <;> (try split) <;>
    simp [Function.update_apply, Bytelock.setReader, Bytelock.clear] <;> (try split_ifs) <;> simp_all [and_assoc]

/-- A thread's own step makes it a holder only of a bucket whose owner test it passes. -/
theorem holdsRead_next {s : State} {u : Slot} {L : Nat} (h : HoldsRead lockOf (next lockOf s u) u L) :
    HoldsRead lockOf s u L ∨ (s.locks L).owner = 0 := by
  obtain ⟨hr, ht⟩ := h
  cases hpc : (s.threads u).pc
  case readCheck op a tries =>
    by_cases h0 : (s.locks (lockOf a)).owner = 0
    · by_cases hL : L = lockOf a
      · exact .inr (hL ▸ h0)
      · simp only [next, hpc, h0, if_true] at hr
        exact .inl ⟨by simpa using hr, by simpa [hpc, Pc.testing] using Ne.symm hL⟩
    · simp only [next, hpc, h0, if_false] at hr ht
      exact .inl ⟨by simpa using hr, by simpa [hpc, Pc.testing] using ht⟩
  case readDrop op a tries =>
    simp only [next, hpc] at hr
    by_cases hL : L = lockOf a
    · subst hL; simp [Bytelock.setReader] at hr
    · exact .inl ⟨by simpa [Function.update_noteq hL] using hr,
        by simpa [hpc, Pc.testing] using Ne.symm hL⟩
  case readSet op a tries =>
    simp only [next, hpc] at hr ht
    by_cases hL : L = lockOf a
    · exact absurd hL.symm (ht a (by simp [Pc.testing]))
    · exact .inl ⟨by simpa [Function.update_noteq hL] using hr, by simp [hpc, Pc.testing]⟩
  all_goals
    refine .inl ⟨?_, by simp [hpc, Pc.testing]⟩
    rcases reader_next lockOf hr with hr | ⟨_, _, _, h, -⟩
    · exact hr
    · simp [hpc] at h

theorem holdsRead_call {s : State} {u : Slot} {L : Nat} (hidle : (s.threads u).pc = .idle)
    (c : Call) (h : HoldsRead lockOf (call lockOf s u c) u L) : HoldsRead lockOf s u L := by
  refine ⟨?_, by simp [hidle, Pc.testing]⟩
  have hr := h.1
  revert hr
  -- only `release` writes a reader byte, and it clears one
  cases c <;> simp only [call, readEntry] <;> (try split) <;> (try split) <;> (try split) <;>
    simp [Function.update_apply, Bytelock.setReader]
  split_ifs <;> simp_all

/-- A step makes a holder only of a bucket with `owner == 0`. -/
theorem holdsRead_step {s : State} (a : Action) {u : Slot} {L : Nat}
    (h : HoldsRead lockOf (step lockOf s a) u L) : HoldsRead lockOf s u L ∨ (s.locks L).owner = 0 := by
  by_cases hu : u = a.thread
  · subst hu
    cases a with
    | call t c =>
      simp only [step, Action.thread] at h ⊢
      split at h
      · next hidle => exact .inl (holdsRead_call lockOf hidle c h)
      · exact .inl h
    | next t => exact holdsRead_next lockOf h
  · exact .inl (((frame_step lockOf s a).holdsRead_iff lockOf hu L).mp h)

/-! ## Steps of other threads -/

/-- A step of another thread keeps `t`'s invariant: it changes neither `t`'s record nor what `t`
    owns, and makes no one a holder of a bucket `t` owns. -/
theorem Excl.other {s s' : State} {t u : Slot} (h : Excl lockOf s t) (hf : Frame u s s')
    (hu : ThreadOk lockOf s u) (htu : t ≠ u)
    (hh : ∀ w L, HoldsRead lockOf s' w L → HoldsRead lockOf s w L ∨ (s.locks L).owner = 0) :
    Excl lockOf s' t := by
  have hth := hf.threads t htu
  have how := hf.owner_iff lockOf hu htu
  have hun : ∀ L, (s.locks L).owner = t.val + 1 → Unread lockOf s t L → Unread lockOf s' t L :=
    fun L ho hL w hw hH => (hh w L hH).elim (hL w hw) fun h0 => by omega
  refine ⟨fun e he => ?_, fun L hL => ?_, fun a i hd => ?_⟩
  · rw [hth] at he
    obtain ⟨ho, hL⟩ := h.pending e he
    exact ⟨(how _).mpr ho, hun _ ho hL⟩
  · rw [hth]
    have ho := (how L).mp hL
    exact (h.owned L ho).imp_left (hun L ho)
  · rw [hth] at hd
    obtain ⟨ho, hi⟩ := h.drain a i hd
    exact ⟨(how _).mpr ho, fun w hw hH => (hh w _ hH).elim (hi w hw) fun h0 => by omega⟩

/-! ## Steps of the thread itself -/

/-- A step of `t` that neither starts nor continues a drain: its pending writes are among the old
    ones, and what it owns stays owned and unheld unless it is in a commit or rollback. -/
theorem Excl.move {s s' : State} {t : Slot} (h : Excl lockOf s t) (hf : Frame t s s')
    (hpend : ∀ e ∈ (s'.threads t).pending, e ∈ (s.threads t).pending ∧
      ((s.locks (lockOf e.addr)).owner = t.val + 1 → (s'.locks (lockOf e.addr)).owner = t.val + 1))
    (hdrain : (s'.threads t).pc.drain = none)
    (hset : (s'.threads t).pc.unwinding = true ∨ ((s.threads t).pc.drain = none ∧
      (s.threads t).pc.unwinding = false ∧
      ∀ L, (s'.locks L).owner = t.val + 1 → (s.locks L).owner = t.val + 1)) :
    Excl lockOf s' t := by
  refine ⟨fun e he => ?_, fun L hL => ?_, fun a i hd => by simp [hdrain] at hd⟩
  · obtain ⟨he, hkeep⟩ := hpend e he
    obtain ⟨ho, hu⟩ := h.pending e he
    exact ⟨hkeep ho, (hf.unread_iff lockOf _).mpr hu⟩
  · rcases hset with hw | ⟨hd, hw, how⟩
    · exact .inr (.inl hw)
    · rcases h.owned L (how L hL) with hu | hw' | ⟨a, i, hd', -⟩
      · exact .inl ((hf.unread_iff lockOf L).mpr hu)
      · simp [hw] at hw'
      · simp [hd] at hd'

theorem Excl.keep {s s' : State} {t : Slot} (h : Excl lockOf s t) (hf : Frame t s s')
    (hown : ∀ L, (s'.locks L).owner = (s.locks L).owner)
    (hpend : ∀ e ∈ (s'.threads t).pending, e ∈ (s.threads t).pending)
    (hdrain : (s'.threads t).pc.drain = none)
    (hset : (s'.threads t).pc.unwinding = true ∨
      ((s.threads t).pc.drain = none ∧ (s.threads t).pc.unwinding = false)) :
    Excl lockOf s' t :=
  h.move lockOf hf (fun e he => ⟨hpend e he, fun ho => (hown _).trans ho⟩) hdrain
    (hset.imp_right fun ⟨h1, h2⟩ => ⟨h1, h2, fun L hL => (hown L).symm.trans hL⟩)

theorem Excl.free {s : State} {t : Slot} (hp : (s.threads t).pending = [])
    (ho : ∀ L, (s.locks L).owner ≠ t.val + 1) (hd : (s.threads t).pc.drain = none) :
    Excl lockOf s t :=
  ⟨fun e he => by simp [hp] at he, fun L hL => absurd hL (ho L), fun a i h => by simp [hd] at h⟩

/-- The successful CAS of `t` on the bucket of `a`, which starts its drain. -/
theorem Excl.acquire {s s' : State} {t : Slot} (h : Excl lockOf s t) (hf : Frame t s s') {a : Nat}
    (hpc : (s.threads t).pc.drain = none ∧ (s.threads t).pc.unwinding = false)
    (hown : ∀ L, (s'.locks L).owner = if L = lockOf a then t.val + 1 else (s.locks L).owner)
    (hpend : (s'.threads t).pending = (s.threads t).pending)
    (hd : (s'.threads t).pc.drain = some (a, 0)) : Excl lockOf s' t := by
  have hkeep : ∀ L, (s.locks L).owner = t.val + 1 → (s'.locks L).owner = t.val + 1 := fun L ho => by
    rw [hown]; split <;> simp [ho]
  refine ⟨fun e he => ?_, fun L hL => ?_, fun a' i hd' => ?_⟩
  · obtain ⟨ho, hu⟩ := h.pending e (hpend ▸ he)
    exact ⟨hkeep _ ho, (hf.unread_iff lockOf _).mpr hu⟩
  · by_cases hL' : L = lockOf a
    · exact .inr (.inr ⟨a, 0, hd, hL'.symm⟩)
    · rw [hown, if_neg hL'] at hL
      rcases h.owned L hL with hu | hw | ⟨_, _, hd', -⟩
      · exact .inl ((hf.unread_iff lockOf L).mpr hu)
      · simp [hpc.2] at hw
      · simp [hpc.1] at hd'
  · obtain ⟨rfl, rfl⟩ : a' = a ∧ i = 0 := by simpa [hd] using hd'.symm
    exact ⟨by simp [hown], fun _ _ _ => Nat.zero_le _⟩

/-- A step of the drain of `a` from word `i` to word `j`: every holder past word `i` is past `j`. -/
theorem Excl.advance {s : State} {t : Slot} (h : Excl lockOf s t) {a i j : Nat} (th' : Thread)
    (hd : (s.threads t).pc.drain = some (a, i)) (hd' : th'.pc.drain = some (a, j))
    (hpend : th'.pending = (s.threads t).pending)
    (hj : ∀ u : Slot, (s.locks (lockOf a)).reader u = true → i ≤ u.val / 4 → j ≤ u.val / 4) :
    Excl lockOf (s.setThread t th') t := by
  have hf : Frame t s (s.setThread t th') := .of_eq th' rfl rfl
  obtain ⟨ho, hi⟩ := h.drain a i hd
  refine ⟨fun e he => ?_, fun L hL => ?_, fun a' j' hd'' => ?_⟩
  · obtain ⟨ho, hu⟩ := h.pending e (by simpa [hpend] using he)
    exact ⟨ho, (hf.unread_iff lockOf _).mpr hu⟩
  · rcases h.owned L hL with hu | hw | ⟨a', i', hd'', hL'⟩
    · exact .inl ((hf.unread_iff lockOf L).mpr hu)
    · simp [Pc.unwinding_of_drain hd] at hw
    · obtain ⟨rfl, rfl⟩ : a = a' ∧ i = i' := by simpa [hd] using hd''
      exact .inr (.inr ⟨a, j, by simpa using hd', hL'⟩)
  · obtain ⟨rfl, rfl⟩ : a' = a ∧ j' = j := by simpa [hd'] using hd''.symm
    refine ⟨ho, fun u hu hH => ?_⟩
    have hH' := ((hf.holdsRead_iff lockOf hu _).mp hH)
    exact hj u hH'.1 (hi u hu hH')

/-- A step of `t` to between barriers that adds writes to one owned, unheld bucket. -/
theorem Excl.settle {s s' : State} {t : Slot} (h : Excl lockOf s t) (hf : Frame t s s') {a : Nat}
    (ha : (s.locks (lockOf a)).owner = t.val + 1 ∧ Unread lockOf s t (lockOf a))
    (hothers : ∀ L, (s.locks L).owner = t.val + 1 → L ≠ lockOf a → Unread lockOf s t L)
    (hidle : (s'.threads t).pc = .idle) (hown : ∀ L, (s'.locks L).owner = (s.locks L).owner)
    (hpend : ∀ e ∈ (s'.threads t).pending, e ∈ (s.threads t).pending ∨ e.addr = a) :
    Excl lockOf s' t := by
  refine ⟨fun e he => ?_, fun L hL => ?_, fun a' i hd => by simp [hidle, Pc.drain] at hd⟩
  · rcases hpend e he with he | he
    · obtain ⟨ho, hu⟩ := h.pending e he
      exact ⟨(hown _).trans ho, (hf.unread_iff lockOf _).mpr hu⟩
    · exact ⟨(hown _).trans (he ▸ ha.1), (hf.unread_iff lockOf _).mpr (he ▸ ha.2)⟩
  · rw [hown] at hL
    by_cases hL' : L = lockOf a
    · exact .inl ((hf.unread_iff lockOf L).mpr (hL' ▸ ha.2))
    · exact .inl ((hf.unread_iff lockOf L).mpr (hothers L hL hL'))

theorem Excl.unread_of_settled {s : State} {t : Slot} (h : Excl lockOf s t)
    (hd : (s.threads t).pc.drain = none) (hw : (s.threads t).pc.unwinding = false) {L : Nat}
    (hL : (s.locks L).owner = t.val + 1) : Unread lockOf s t L := by
  rcases h.owned L hL with hu | hw' | ⟨_, _, hd', -⟩
  · exact hu
  · simp [hw] at hw'
  · simp [hd] at hd'

/-- The version bump after a full drain: the bucket has no holder left. -/
theorem Excl.bump {s s' : State} {t : Slot} (h : Excl lockOf s t) (hf : Frame t s s') {a : Nat}
    (hd : (s.threads t).pc.drain = some (a, 16)) (hidle : (s'.threads t).pc = .idle)
    (hown : ∀ L, (s'.locks L).owner = (s.locks L).owner)
    (hpend : ∀ e ∈ (s'.threads t).pending, e ∈ (s.threads t).pending ∨ e.addr = a) :
    Excl lockOf s' t := by
  obtain ⟨ho, hi⟩ := h.drain a 16 hd
  refine h.settle lockOf hf ⟨ho, fun u hu hH => ?_⟩ (fun L hL hL' => ?_) hidle hown hpend
  · have := hi u hu hH
    omega
  · rcases h.owned L hL with hu | hw | ⟨a', i', hd', hL''⟩
    · exact hu
    · simp [Pc.unwinding_of_drain hd] at hw
    · obtain ⟨rfl, rfl⟩ : a = a' ∧ 16 = i' := by simpa [hd] using hd'
      exact absurd hL''.symm hL'

theorem Excl.keepSet {s s₀ : State} {t : Slot} (h : Excl lockOf s t) (th' : Thread)
    (hf : Frame t s (s₀.setThread t th')) (hown : ∀ L, (s₀.locks L).owner = (s.locks L).owner)
    (hpend : ∀ e ∈ th'.pending, e ∈ (s.threads t).pending) (hdrain : th'.pc.drain = none)
    (hset : th'.pc.unwinding = true ∨
      ((s.threads t).pc.drain = none ∧ (s.threads t).pc.unwinding = false)) :
    Excl lockOf (s₀.setThread t th') t :=
  h.keep lockOf hf hown (by simpa using hpend) (by simpa using hdrain) (by simpa using hset)

theorem excl_next {s : State} {t : Slot} (h : Excl lockOf s t) (hl : ThreadOk lockOf s t)
    (hc : CommitRoMode (s.threads t)) : Excl lockOf (next lockOf s t) t := by
  have hf := frame_next lockOf s t
  have hs : ∀ p : Pc, (s.threads t).pc = p → p.drain = none → p.unwinding = false →
      (s.threads t).pc.drain = none ∧ (s.threads t).pc.unwinding = false :=
    fun _ hp h1 h2 => hp ▸ ⟨h1, h2⟩
  cases hpc : (s.threads t).pc <;> simp only [next, hpc] at hf ⊢
  case idle => exact h
  case readSet op a tries | readDrop op a tries =>
    -- a reader byte moves; no owner does
    exact h.keepSet lockOf _ hf (owner_update s rfl) (by simp [Thread.pending, hpc]) rfl
      (.inr (hs _ hpc rfl rfl))
  case readCheck op a tries | readValue a =>
    (try split_ifs at hf ⊢) <;>
      exact h.keepSet lockOf _ hf (fun _ => rfl) (by simp [Thread.pending, hpc]) rfl
        (.inr (hs _ hpc rfl rfl))
  case readVersion op a _ =>
    split_ifs at hf ⊢
    · exact h.keepSet lockOf _ hf (owner_update s rfl) (by cases op <;> simp [Thread.pending, hpc])
        (by cases op <;> rfl) (.inr (hs _ hpc rfl rfl))
    · exact h.keepSet lockOf _ hf (fun _ => rfl) (by simp [Thread.pending, Thread.abort, hpc]) rfl
        (.inl rfl)
    · exact h.keepSet lockOf _ hf (fun _ => rfl) (by cases op <;> simp [Thread.pending, hpc])
        (by cases op <;> rfl) (.inr (hs _ hpc rfl rfl))
  case readWait op a tries =>
    split_ifs at hf ⊢
    · exact h.keepSet lockOf _ hf (fun _ => rfl) (by simp [Thread.pending, Thread.abort, hpc]) rfl
        (.inl rfl)
    all_goals
      exact h.keepSet lockOf _ hf (fun _ => rfl) (by simp [Thread.pending, hpc]) rfl
        (.inr (hs _ hpc rfl rfl))
  case writeCas op a v mask tries =>
    split_ifs at hf ⊢
    · -- the CAS succeeds but the version recorded by an earlier read is stale: abort
      refine h.move lockOf hf (fun e he => ⟨by simpa [Thread.pending, Thread.abort, hpc] using he,
        fun ho => ?_⟩) (by simp [Pc.drain, Thread.abort]) (.inl (by simp [Pc.unwinding, Thread.abort]))
      simp only [State.setThread_locks, State.setLock_locks, owner_update_apply]
      split <;> simp [ho]
    · exact h.acquire lockOf hf (a := a) (hs _ hpc rfl rfl) (fun L => by simp [owner_update_apply])
        (by simp [Thread.pending, hpc]) (by simp [Pc.drain])
    · exact h.keepSet lockOf _ hf (fun _ => rfl) (by simp [Thread.pending, Thread.abort, hpc]) rfl
        (.inl rfl)
    · exact h.keepSet lockOf _ hf (fun _ => rfl) (by simp [Thread.pending, hpc]) rfl
        (.inr (hs _ hpc rfl rfl))
  case writeDrain op a v mask i tries =>
    have hd : (s.threads t).pc.drain = some (a, i) := by simp [hpc, Pc.drain]
    split_ifs at hf ⊢ with hw _ hi
    · exact h.keepSet lockOf _ hf (fun _ => rfl) (by simp [Thread.pending, Thread.abort, hpc]) rfl
        (.inl rfl)
    · exact h.advance lockOf _ hd rfl (by simp [Thread.pending, hpc]) fun _ _ hi => hi
    all_goals
      exact h.advance lockOf _ hd rfl (by simp [Thread.pending, hpc]) fun u hu hi' => by
        have := Bytelock.readerWord_eq_false (by simpa using hw) hu
        omega
  case writeBump op a v mask =>
    have hd : (s.threads t).pc.drain = some (a, 16) := by simp [hpc, Pc.drain]
    cases op <;>
      exact h.bump lockOf hf hd (by simp) (owner_update s rfl) fun e he => by
        simp [Thread.pending, hpc] at he ⊢
        rcases he with he | rfl
        exacts [.inl he, .inr rfl]
  case commitRo i =>
    rcases hL : (s.threads t).rBytelocks[i]? with _ | L <;> simp only [hL] at hf ⊢
    · -- the end of `commit_ro`: a read-only attempt writes and owns nothing
      obtain ⟨hu, hw⟩ := hl.ro (hc i hpc)
      simp only [roLocks, hpc] at hw
      refine Excl.free lockOf (by simp [Thread.pending, hu]) (fun L hL' => ?_) (by simp [Pc.drain])
      simpa [hw] using (hl.owner L).mp hL'
    · exact h.keepSet lockOf _ hf (owner_update s rfl) (by simp [Thread.pending]) rfl (.inl rfl)
  case commitRwOwners i | rollbackOwners i =>
    rcases hL : (s.threads t).wBytelocks[i]? with _ | L <;> simp only [hL] at hf ⊢
    · exact h.keepSet lockOf _ hf (fun _ => rfl) (by simp [Thread.pending]) rfl (.inl rfl)
    · exact h.move lockOf hf (fun e he => by simp [Thread.pending] at he) (by simp [Pc.drain])
        (.inl (by simp [Pc.unwinding]))
  case commitRwReaders i | rollbackReaders i =>
    rcases hL : (s.threads t).rBytelocks[i]? with _ | L <;> simp only [hL] at hf ⊢
    · refine Excl.free lockOf (by simp [Thread.pending]) (fun L hL' => ?_) (by simp [Pc.drain])
      simpa [Thread.ownersDone, hpc] using (hl.owner L).mp hL'
    · exact h.keepSet lockOf _ hf (owner_update s rfl) (by simp [Thread.pending]) rfl (.inl rfl)
  case undo exc len n =>
    split
    · next n e _ =>
      exact h.keepSet lockOf _ (.setThread _ _) (fun _ => rfl) (fun e' he' => by
        simpa [Thread.pending, hpc] using (List.take_prefix_take_left _ (Nat.le_succ n)).subset he')
        rfl (.inl rfl)
    · exact h.keepSet lockOf _ (.of_eq _ rfl rfl) (fun _ => rfl) (by simp [Thread.pending]) rfl
        (.inl rfl)

theorem excl_readEntry {s : State} {t : Slot} (h : Excl lockOf s t)
    (hidle : (s.threads t).pc = .idle) (op : ReadOp) (a : Nat) :
    Excl lockOf (readEntry lockOf s t op a) t := by
  have hf := frame_readEntry lockOf s t op a
  have hs : (s.threads t).pc.drain = none ∧ (s.threads t).pc.unwinding = false := by
    simp [hidle, Pc.drain, Pc.unwinding]
  unfold readEntry at hf ⊢
  dsimp only at hf ⊢
  split_ifs at hf ⊢
  · cases op
    · exact h.keepSet lockOf _ hf (fun _ => rfl) (by simp [Thread.pending, hidle]) hs.1 (.inr hs)
    · exact h.keepSet lockOf _ hf (fun _ => rfl) (by simp [Thread.pending, hidle]) hs.1 (.inr hs)
    · exact h
  all_goals
    exact h.keepSet lockOf _ hf (fun _ => rfl) (by simp [Thread.pending, hidle]) rfl (.inr hs)

/-- The fast path of an owner, `write_rw` or `write_reserve` on a bucket it holds: the bucket
    is unheld since the thread is between barriers. -/
theorem Excl.fastWrite {s s' : State} {t : Slot} (h : Excl lockOf s t) (hf : Frame t s s')
    (hidle : (s.threads t).pc = .idle) {a : Nat} (ho : (s.locks (lockOf a)).owner = t.val + 1)
    (hidle' : (s'.threads t).pc = .idle) (hown : ∀ L, (s'.locks L).owner = (s.locks L).owner)
    (hpend : ∀ e ∈ (s'.threads t).pending, e ∈ (s.threads t).pending ∨ e.addr = a) :
    Excl lockOf s' t := by
  have hd : (s.threads t).pc.drain = none := by simp [hidle, Pc.drain]
  have hw : (s.threads t).pc.unwinding = false := by simp [hidle, Pc.unwinding]
  exact h.settle lockOf hf ⟨ho, h.unread_of_settled lockOf hd hw ho⟩
    (fun L hL _ => h.unread_of_settled lockOf hd hw hL) hidle' hown hpend

theorem excl_call {s : State} {t : Slot} (h : Excl lockOf s t) (hidle : (s.threads t).pc = .idle)
    (c : Call) : Excl lockOf (call lockOf s t c) t := by
  have hf := frame_call lockOf s t c
  have hs : (s.threads t).pc.drain = none ∧ (s.threads t).pc.unwinding = false := by
    simp [hidle, Pc.drain, Pc.unwinding]
  have hnew : ∀ (l : List UndoLogEntry) (a : Nat) (w mask : Word) e, e ∈ l ∨ e = ⟨a, w, mask⟩ →
      e ∈ l ∨ e.addr = a := fun l a w mask e he => he.imp_right fun he => by rw [he]
  cases c with
  | read a =>
    simp only [call] at hf ⊢
    cases hm : (s.threads t).mode <;> simp only [hm] at hf ⊢
    · exact excl_readEntry lockOf h hidle _ a
    · split_ifs at hf ⊢
      · exact h.keepSet lockOf _ hf (fun _ => rfl) (by simp [Thread.pending, hidle]) hs.1 (.inr hs)
      · exact excl_readEntry lockOf h hidle _ a
  | readReserve a =>
    simp only [call] at hf ⊢
    split_ifs at hf ⊢
    · exact h
    · exact excl_readEntry lockOf h hidle _ a
  | write a v mask =>
    simp only [call] at hf ⊢
    cases hm : (s.threads t).mode <;> simp only [hm] at hf ⊢
    · exact h.keepSet lockOf _ hf (fun _ => rfl) (by simp [Thread.pending, hidle]) rfl (.inr hs)
    · split_ifs at hf ⊢ with ho
      · exact h.fastWrite lockOf hf hidle ho (by simp [hidle]) (fun _ => rfl) fun e he =>
          by simpa [Thread.pending, hidle] using hnew _ _ _ _ e (by simpa [Thread.pending, hidle] using he)
      · exact h.keepSet lockOf _ hf (fun _ => rfl) (by simp [Thread.pending, hidle]) rfl (.inr hs)
  | writeReserve a mask =>
    simp only [call] at hf ⊢
    split_ifs at hf ⊢ with ho
    · exact h.fastWrite lockOf hf hidle ho (by simp [hidle]) (fun _ => rfl) fun e he =>
        by simpa [Thread.pending, hidle] using hnew _ _ _ _ e (by simpa [Thread.pending, hidle] using he)
    · exact h.keepSet lockOf _ hf (fun _ => rfl) (by simp [Thread.pending, hidle]) rfl (.inr hs)
  | release a =>
    simp only [call] at hf ⊢
    split_ifs at hf ⊢
    · exact h.keep lockOf hf (owner_update s rfl) (fun e he => he) (by simp [hidle, Pc.drain]) (.inr hs)
    · exact h
  | commit =>
    simp only [call] at hf ⊢
    cases hm : (s.threads t).mode <;> simp only [hm] at hf ⊢ <;>
      exact h.keepSet lockOf _ hf (fun _ => rfl) (by simp [Thread.pending]) rfl (.inl rfl)
  | rollback exc len =>
    exact h.keepSet lockOf _ hf (fun _ => rfl) (by simp [Thread.pending, hidle]) rfl (.inl rfl)

/-! ## Every reachable state -/

/-- The exclusion invariant of every thread, with the lock lists it rests on. -/
def ExclInv (s : State) : Prop := ListsInv lockOf s ∧ ∀ t, Excl lockOf s t

theorem exclInv_step {s : State} (h : ExclInv lockOf s) (a : Action) :
    ExclInv lockOf (step lockOf s a) := by
  refine ⟨listsInv_step lockOf h.1 a, fun t => ?_⟩
  by_cases ht : t = a.thread
  · subst ht
    cases a with
    | call t c =>
      simp only [step, Action.thread]
      split
      · next hidle => exact excl_call lockOf (h.2 t) hidle c
      · exact h.2 t
    | next t => exact excl_next lockOf (h.2 t) (h.1 t).1 (h.1 t).2
  · exact (h.2 t).other lockOf (frame_step lockOf s a) (h.1 a.thread).1 ht
      fun _ _ hH => holdsRead_step lockOf a hH

theorem exclInv_reachable {s : State} (h : Reachable lockOf s) : ExclInv lockOf s :=
  h.induction lockOf (P := ExclInv lockOf) (fun m => ⟨listsInv_init lockOf m, fun _ => Excl.free lockOf
    (by simp [init, Thread.init, Thread.pending]) (by simp [init, Bytelock.free])
    (by simp [init, Thread.init, Pc.drain])⟩) fun _ a _ hs => exclInv_step lockOf hs a

/-- Every in-place write that is neither committed nor undone is to a bucket its writer owns,
    and no other thread holds a read of that bucket. -/
theorem pending_exclusive {s : State} (h : Reachable lockOf s) (t : Slot) :
    ∀ e ∈ (s.threads t).pending, (s.locks (lockOf e.addr)).owner = t.val + 1 ∧
      Unread lockOf s t (lockOf e.addr) :=
  ((exclInv_reachable lockOf h).2 t).pending

/-! ## What a read returns -/

/-- A read barrier past its owner test keeps its byte set. -/
def Reading (s : State) (u : Slot) : Prop :=
  ∀ a, (s.threads u).pc.reading = some a → (s.locks (lockOf a)).reader u = true

theorem reading_next {s : State} {u : Slot} (h : Reading lockOf s u) :
    Reading lockOf (next lockOf s u) u := by
  unfold Reading next at *
  dsimp only
  split <;> (try split_ifs) <;> (try split) <;>
    simp_all [Pc.reading, Thread.abort, Bytelock.setReader, Function.update_apply]

theorem reading_call {s : State} {u : Slot} (hidle : (s.threads u).pc = .idle) (c : Call) :
    Reading lockOf (call lockOf s u c) u := by
  intro a ha
  cases c <;> simp only [call, readEntry] at ha <;> (try split at ha) <;> (try split at ha) <;>
    (try split at ha) <;> simp_all [Pc.reading]

theorem reading_step {s : State} (h : ∀ u, Reading lockOf s u) (act : Action) (u : Slot) :
    Reading lockOf (step lockOf s act) u := by
  by_cases hu : u = act.thread
  · subst hu
    cases act with
    | call t c =>
      simp only [step, Action.thread]
      split
      · next hidle => exact reading_call lockOf hidle c
      · exact h t
    | next t => exact reading_next lockOf (h t)
  · have hf := frame_step lockOf s act
    intro a ha
    rw [hf.reader u hu]
    exact h u a (by rwa [hf.threads u hu] at ha)

theorem reading_reachable {s : State} (h : Reachable lockOf s) (u : Slot) : Reading lockOf s u :=
  h.induction lockOf (P := fun s => ∀ u, Reading lockOf s u)
    (fun _ _ _ ha => by simp [init, Thread.init, Pc.reading] at ha)
    (fun _ a _ hs => reading_step lockOf hs a) u

/-- A step that returns a read of `a` to `u` returns memory's value, and `u` holds a read of the
    bucket or owns it. -/
theorem read_step {s : State} {u : Slot} (hr : Reading lockOf s u) (act : Action) {a : Nat}
    {w : Word} (h : ((step lockOf s act).threads u).events = (s.threads u).events ++ [.read a w]) :
    w = s.mem.load a ∧ (HoldsRead lockOf s u (lockOf a) ∨ (s.locks (lockOf a)).owner = u.val + 1) ∧
      ((s.threads u).pc = .idle ∨ (s.threads u).pc = .readValue a) := by
  by_cases hu : u = act.thread
  · cases act with
    | call t c =>
      simp only [Action.thread] at hu
      subst hu
      simp only [step] at h
      split at h
      · next hidle =>
        cases c <;> simp only [call, readEntry] at h <;> (try split at h) <;> (try split at h) <;>
          (try split at h) <;> simp at h <;> obtain ⟨rfl, rfl⟩ := h <;> simp_all [HoldsRead, Pc.testing]
      · simp at h
    | next t =>
      simp only [Action.thread] at hu
      subst hu
      simp only [step, next] at h
      split at h <;> (try split_ifs at h) <;> (try split at h) <;> simp [Thread.abort] at h
      next a' hpc =>
      obtain ⟨rfl, rfl⟩ := h
      exact ⟨rfl, .inl ⟨hr a' (by simp [hpc, Pc.reading]), by simp [hpc, Pc.testing]⟩, .inr hpc⟩
  · rw [(frame_step lockOf s act).threads u hu] at h
    simp at h

/-- No read barrier returns while another thread has an in-place write to the word's bucket that
    is neither committed nor undone: it returns memory's value, and every other thread's pending
    writes are to other buckets. -/
theorem read_not_pending {s : State} (h : Reachable lockOf s) (act : Action) {u : Slot} {a : Nat}
    {w : Word} (hr : ((step lockOf s act).threads u).events = (s.threads u).events ++ [.read a w]) :
    w = s.mem.load a ∧ ∀ t, t ≠ u → ∀ e ∈ (s.threads t).pending, lockOf e.addr ≠ lockOf a := by
  obtain ⟨hw, hheld, -⟩ := read_step lockOf (reading_reachable lockOf h u) act hr
  refine ⟨hw, fun t htu e he hL => ?_⟩
  obtain ⟨ho, hun⟩ := pending_exclusive lockOf h t e he
  rw [hL] at ho hun
  rcases hheld with hH | ho'
  · exact hun u (Ne.symm htu) hH
  · exact htu (Fin.ext (by omega))

/-- With one bucket per word: thread 1 writes 9s to word 1 in place and stays in its attempt,
    and thread 0's read of word 0 is one step from returning. -/
def readBesideWrite : State :=
  exec (fun a => a) (init fun _ => 0#8)
    (.call 1 (.write 1 (fun _ => 9#8) (fun _ => 255#8)) :: List.replicate 18 (.next 1) ++
      [.call 0 (.read 0), .next 0, .next 0, .next 0])

theorem read_not_pending_beside :
    Reachable (fun a => a) readBesideWrite ∧
    ((step (fun a => a) readBesideWrite (.next 0)).threads 0).events =
      (readBesideWrite.threads 0).events ++ [.read 0 (readBesideWrite.mem.load 0)] ∧
    (readBesideWrite.threads 1).pending.map (·.addr) = [1] ∧
    (readBesideWrite.mem.load 0 = readBesideWrite.mem.load 0 ∧
      ∀ t, t ≠ 0 → ∀ e ∈ (readBesideWrite.threads t).pending, e.addr ≠ 0) :=
  ⟨⟨_, _, rfl⟩, rfl, rfl, read_not_pending (fun a => a) ⟨_, _, rfl⟩ (.next 0) rfl⟩

end Exclusion

end Rstm.ByteEager
