import Rstm.Nano.Basic
import Rstm.LockList

/- The orec locks of Nano: who holds a locked orec, and what its `p` holds.

   A thread holds an orec exactly when the orec's word is the thread's
   `my_lock`, and the orecs it holds are the part of its `locks` list its
   release loop has not reached (`Thread.held`); `locks` has no repeats, and
   the `p` of each held orec is the unlocked word the thread's CAS replaced
   (`casFrom`). Outside `commit_rw` and the rollback the list is empty
   (`ThreadOk`).

   A locked orec word is a `my_lock`, or the lock bit alone: a release writes
   `p + 1`, and from `p = 2 ^ 63 - 1` that is `2 ^ 63`, a locked word with id
   0, which no thread holds (`OrecOk`). `orec_locks` puts the two together for
   every reachable state. -/
namespace Rstm.Nano

/-- How many entries of `locks` the commit or rollback has released. -/
def Thread.released (th : Thread) : Nat :=
  match th.pc with
  | .commitRelease i | .rollbackRelease i => i
  | _ => 0

/-- The orecs the thread holds: the part of `locks` its release loop has not reached. -/
def Thread.held (th : Thread) : List Nat := th.locks.drop th.released

/-- Between barriers or inside a read: no commit or rollback is running. -/
def Pc.outsideCommit : Pc → Bool
  | .idle | .readSample .. | .readValue .. | .readCheck .. | .readValidate .. => true
  | _ => false

/-! ## Lock words -/

theorem locked_eq_false_iff {v : Nat} : locked v = false ↔ v < lockBit := by
  simp [locked]

theorem lockBit_lt_myLock (t : Tid) : lockBit < myLock t := by
  unfold myLock; omega

theorem myLock_injective {t u : Tid} (h : myLock t = myLock u) : t = u :=
  Fin.ext (by unfold myLock at h; omega)

theorem ne_myLock_of_le {v : Nat} (h : v ≤ lockBit) (t : Tid) : v ≠ myLock t :=
  fun he => absurd (he ▸ lockBit_lt_myLock t) (by omega)

theorem release_le {p : Nat} (h : locked p = false) : (p + 1) % 2 ^ 64 ≤ lockBit := by
  rw [locked_eq_false_iff] at h
  unfold lockBit at h ⊢
  rw [Nat.mod_eq_of_lt (by omega)]; omega

section Locks
variable (orecOf : Nat → Nat)

/-- The lock invariant of thread `t`. -/
structure ThreadOk (s : State) (t : Tid) : Prop where
  owner : ∀ n, (s.orecs n).v = myLock t ↔ n ∈ (s.threads t).held
  nodup : (s.threads t).locks.Nodup
  prior : ∀ n ∈ (s.threads t).held,
    (s.orecs n).p = (s.threads t).casFrom n ∧ locked ((s.threads t).casFrom n) = false
  outside : (s.threads t).pc.outsideCommit → (s.threads t).locks = []
  cas : ∀ i ivt, (s.threads t).pc = .commitCas i ivt → locked ivt = false ∧
    ∀ e, (s.threads t).writes[i]? = some e → orecOf e.addr ∉ (s.threads t).locks

/-- A locked orec word is some thread's `my_lock`, or the lock bit alone. -/
def OrecOk (s : State) (n : Nat) : Prop :=
  locked (s.orecs n).v = true → (s.orecs n).v = lockBit ∨ ∃ t, (s.orecs n).v = myLock t

/-! ## Other threads -/

theorem ReleasesTo.held {th : Thread} {o : Orec} {n v : Nat} (h : ReleasesTo th o n v) :
    n ∈ th.held := by
  obtain ⟨i, hn, hpc⟩ := h
  have hr : th.released = i := by
    rcases hpc with ⟨hpc, -⟩ | ⟨hpc, -⟩ <;> simp [Thread.released, hpc]
  rw [Thread.held, hr]; exact mem_drop_of_getElem? hn

theorem ReleasesTo.value {th : Thread} {o : Orec} {n v : Nat} (h : ReleasesTo th o n v) :
    v = (o.p + 1) % 2 ^ 64 ∨ v = o.p := by
  obtain ⟨i, -, ⟨-, hv⟩ | ⟨-, hv⟩⟩ := h
  exacts [.inl hv, .inr hv]

theorem Frame.orec_ne {t : Tid} {s s' : State} (hf : Frame t s s') (ht : ThreadOk orecOf s t)
    {u : Tid} (hu : u ≠ t) {n : Nat} (hn : s'.orecs n ≠ s.orecs n) :
    (s.orecs n).v ≠ myLock u ∧ (s'.orecs n).v ≠ myLock u := by
  have hne : myLock t ≠ myLock u := fun h => hu (myLock_injective h).symm
  rcases hf.orecs n with h | ⟨h, i, hpc⟩ | ⟨hr, -⟩
  · exact absurd h hn
  · rw [h]
    exact ⟨ne_myLock_of_le (Nat.le_of_lt (locked_eq_false_iff.mp (ht.cas i _ hpc).1)) u, hne⟩
  · have hheld := hr.held
    have hp := (ht.prior n hheld).2
    rw [← (ht.prior n hheld).1] at hp
    refine ⟨((ht.owner n).mpr hheld).symm ▸ hne, ?_⟩
    rcases hr.value with hv | hv <;> rw [hv]
    · exact ne_myLock_of_le (release_le hp) u
    · exact ne_myLock_of_le (Nat.le_of_lt (locked_eq_false_iff.mp hp)) u

theorem ThreadOk.frame {t u : Tid} {s s' : State} (hf : Frame t s s') (ht : ThreadOk orecOf s t)
    (h : ThreadOk orecOf s u) (hu : u ≠ t) : ThreadOk orecOf s' u := by
  have hth := hf.threads u hu
  have hkeep : ∀ n ∈ (s.threads u).held, s'.orecs n = s.orecs n := fun n hn => by
    by_contra hne
    exact (hf.orec_ne orecOf ht hu hne).1 ((h.owner n).mpr hn)
  refine ⟨fun n => ?_, hth ▸ h.nodup, fun n hn => ?_, hth ▸ h.outside, hth ▸ h.cas⟩
  · rw [hth]
    by_cases hne : s'.orecs n = s.orecs n
    · rw [hne]; exact h.owner n
    · have := hf.orec_ne orecOf ht hu hne
      exact iff_of_false this.2 fun hn => this.1 ((h.owner n).mpr hn)
  · rw [hth] at hn ⊢
    rw [hkeep n hn]; exact h.prior n hn

theorem OrecOk.frame {t : Tid} {s s' : State} (hf : Frame t s s') (ht : ThreadOk orecOf s t)
    {n : Nat} (h : OrecOk s n) : OrecOk s' n := by
  rcases hf.orecs n with he | ⟨he, -⟩ | ⟨hr, -⟩
  · unfold OrecOk; rw [he]; exact h
  · exact fun _ => .inr ⟨t, by rw [he]⟩
  · have hheld := hr.held
    have hp := (ht.prior n hheld).2
    rw [← (ht.prior n hheld).1] at hp
    intro hl
    rcases hr.value with hv | hv <;> rw [hv] at hl ⊢
    · exact .inl (le_antisymm (release_le hp) (by simpa [locked] using hl))
    · exact absurd hl (by simp [hp])

/-! ## The thread's own steps -/

/-- A step of `t` that leaves its locks as they are: the same list, released as far, the
    same CAS record, and does not leave a commit or rollback for a read or for between
    barriers. -/
def Moves (th th' : Thread) : Prop :=
  th'.locks = th.locks ∧ th'.released = th.released ∧ th'.casFrom = th.casFrom ∧
    (th'.pc.outsideCommit = true → th.pc.outsideCommit = true)

theorem ThreadOk.move {s s' : State} {t : Tid} (h : ThreadOk orecOf s t) {th' : Thread}
    (ht : s'.threads t = th') (ho : s'.orecs = s.orecs) (hm : Moves (s.threads t) th')
    (hcas : ∀ i ivt, th'.pc = .commitCas i ivt → locked ivt = false ∧
      ∀ e, th'.writes[i]? = some e → orecOf e.addr ∉ th'.locks) :
    ThreadOk orecOf s' t := by
  obtain ⟨hl, hr, hc, hout⟩ := hm
  have hheld : th'.held = (s.threads t).held := by rw [Thread.held, hl, hr, Thread.held]
  refine ⟨fun n => ?_, ?_, fun n hn => ?_, fun hp => ?_, ht ▸ hcas⟩
  · rw [ho, ht, hheld]; exact h.owner n
  · rw [ht, hl]; exact h.nodup
  · rw [ht, hheld] at hn; rw [ho, ht, hc]; exact h.prior n hn
  · rw [ht] at hp ⊢; rw [hl]; exact h.outside (hout hp)

/-- `commit_rw`'s CAS of the orec of write `i` from `ivt` to `my_lock`: the orec joins `locks`,
    its `p` and `casFrom` take `ivt`. -/
theorem ThreadOk.acquire {s : State} {t : Tid} (h : ThreadOk orecOf s t) {i ivt : Nat}
    {e : WriteSetEntry} (hpc : (s.threads t).pc = .commitCas i ivt)
    (he : (s.threads t).writes[i]? = some e) {th' : Thread}
    (hl : th'.locks = (s.threads t).locks ++ [orecOf e.addr]) (hr : th'.released = 0)
    (hc : th'.casFrom = Function.update (s.threads t).casFrom (orecOf e.addr) ivt)
    (hout : th'.pc.outsideCommit = false) (hcas : ∀ i ivt, th'.pc ≠ .commitCas i ivt) :
    ThreadOk orecOf ((s.setOrec (orecOf e.addr) ⟨myLock t, ivt⟩).setThread t th') t := by
  obtain ⟨hunl, hnot⟩ := h.cas i ivt hpc
  have hnot := hnot e he
  have hr0 : (s.threads t).released = 0 := by simp [Thread.released, hpc]
  have hheld : th'.held = (s.threads t).held ++ [orecOf e.addr] := by
    rw [Thread.held, hl, hr, Thread.held, hr0]; rfl
  refine ⟨fun n => ?_, ?_, fun n hn => ?_, fun hp => by simp [hout] at hp,
    fun i ivt hp => absurd hp (by simpa using hcas i ivt)⟩
  · by_cases hn : n = orecOf e.addr
    · subst hn; simp [hheld]
    · simpa [Function.update_noteq hn, hheld, hn] using h.owner n
  · simpa [hl] using List.nodup_append.mpr ⟨h.nodup, List.nodup_singleton _,
      List.disjoint_singleton.mpr hnot⟩
  · by_cases hn' : n = orecOf e.addr
    · subst hn'; simp [hc, hunl]
    · have hn : n ∈ (s.threads t).held := by simpa [hheld, hn'] using hn
      simpa [Function.update_noteq hn', hc] using h.prior n hn

/-- A release loop at entry `i`, writing `v` over the orec there: `p + 1` in `commit_rw`,
    `p` in the rollback. -/
theorem ThreadOk.release {s : State} {t : Tid} (h : ThreadOk orecOf s t) {i n : Nat}
    (hr : (s.threads t).released = i) (hn : (s.threads t).locks[i]? = some n) {v : Nat}
    (hv : v = ((s.orecs n).p + 1) % 2 ^ 64 ∨ v = (s.orecs n).p) {th' : Thread}
    (hl : th'.locks = (s.threads t).locks) (hr' : th'.released = i + 1)
    (hc : th'.casFrom = (s.threads t).casFrom) (hout : th'.pc.outsideCommit = false)
    (hcas : ∀ i ivt, th'.pc ≠ .commitCas i ivt) :
    ThreadOk orecOf ((s.setOrec n { (s.orecs n) with v := v }).setThread t th') t := by
  have hheld : ∀ x, x ∈ (s.threads t).held ↔ x = n ∨ x ∈ th'.held := fun x => by
    rw [Thread.held, hr, mem_drop_iff_of_getElem? hn, Thread.held, hl, hr']
  have hnot : n ∉ th'.held := by
    rw [Thread.held, hl, hr']; exact not_mem_drop_succ h.nodup hn
  have hp := h.prior n ((hheld n).mpr (.inl rfl))
  refine ⟨fun x => ?_, by simpa [hl] using h.nodup, fun x hx => ?_,
    fun hp => by simp [hout] at hp, fun i ivt hp => absurd hp (by simpa using hcas i ivt)⟩
  · by_cases hx : x = n
    · subst hx
      refine iff_of_false ?_ (by simpa using hnot)
      rw [← hp.1] at hp
      rcases hv with hv | hv <;> simp only [Function.update_same, State.setOrec_orecs,
        State.setThread_orecs, hv]
      · exact ne_myLock_of_le (release_le hp.2) t
      · exact ne_myLock_of_le (Nat.le_of_lt (locked_eq_false_iff.mp hp.2)) t
    · simpa [Function.update_noteq hx, hheld x, hx] using h.owner x
  · have hx' : x ≠ n := fun he => hnot (he ▸ by simpa using hx)
    simpa [Function.update_noteq hx', hc] using h.prior x ((hheld x).mpr (.inr (by simpa using hx)))

/-- The end of a release loop: every orec released, the lists reset. -/
theorem ThreadOk.done {s : State} {t : Tid} (h : ThreadOk orecOf s t) {i : Nat}
    (hr : (s.threads t).released = i) (hn : (s.threads t).locks[i]? = none) :
    ThreadOk orecOf (s.setThread t (s.threads t).reset) t := by
  have hheld : (s.threads t).held = [] := by rw [Thread.held, hr]; exact drop_of_getElem?_none hn
  refine ⟨fun n => ?_, by simp [Thread.reset], fun n hn => by simp [Thread.reset, Thread.held] at hn,
    fun _ => by simp [Thread.reset], fun i ivt hp => by simp [Thread.reset] at hp⟩
  have := h.owner n
  simp only [hheld, List.not_mem_nil, iff_false] at this
  simpa [Thread.reset, Thread.held] using this

theorem threadOk_next {s : State} {t : Tid} (h : ThreadOk orecOf s t) :
    ThreadOk orecOf (next orecOf s t) t := by
  cases hpc : (s.threads t).pc <;> simp only [next, hpc]
  case idle => exact h
  case commitAcquire i =>
    split
    · next e he =>
      split_ifs with hv hl
      · refine h.move orecOf (State.setThread_self _ _ _) rfl
          (by simp [Moves, Thread.released, Pc.outsideCommit, hpc]) fun i' ivt' hp => ?_
        simp only [Pc.commitCas.injEq] at hp
        obtain ⟨rfl, rfl⟩ := hp
        refine ⟨by simpa using hl, fun e' he' hmem => hv ?_⟩
        rw [he] at he'; cases he'
        exact (h.owner _).mpr (by simpa [Thread.held, Thread.released, hpc] using hmem)
      all_goals
        exact h.move orecOf (State.setThread_self _ _ _) rfl
          (by simp [Moves, Thread.released, Pc.outsideCommit, Thread.abort, hpc]) (by simp [Thread.abort])
    · exact h.move orecOf (State.setThread_self _ _ _) rfl
        (by simp [Moves, Thread.released, Pc.outsideCommit, hpc]) (by simp)
  case commitCas i ivt =>
    split
    · next e he =>
      split_ifs
      · exact h.acquire orecOf hpc he rfl (by simp [Thread.released]) rfl
          (by simp [Pc.outsideCommit]) (by simp)
      · exact h.move orecOf (State.setThread_self _ _ _) rfl
          (by simp [Moves, Thread.released, Pc.outsideCommit, Thread.abort, hpc]) (by simp [Thread.abort])
    · exact h.move orecOf (State.setThread_self _ _ _) rfl
        (by simp [Moves, Thread.released, Pc.outsideCommit, Thread.abort, hpc]) (by simp [Thread.abort])
  case commitRelease i | rollbackRelease i =>
    split
    · next n hn =>
      exact h.release orecOf (by simp [Thread.released, hpc]) hn (by simp) rfl
        (by simp [Thread.released]) rfl (by simp [Pc.outsideCommit]) (by simp)
    · next hn => exact h.done orecOf (by simp [Thread.released, hpc]) hn
  all_goals
    (try split) <;> (try split_ifs) <;>
    exact h.move orecOf (State.setThread_self _ _ _) rfl
      (by simp [Moves, Thread.released, Pc.outsideCommit, Thread.abort, *]) (by simp [Thread.abort])

theorem threadOk_call {s : State} {t : Tid} (h : ThreadOk orecOf s t)
    (hpc : (s.threads t).pc = .idle) (c : Call) : ThreadOk orecOf (call s t c) t := by
  cases c <;> simp only [call] <;> (try split) <;>
    exact h.move orecOf (State.setThread_self _ _ _) rfl
      (by simp [Moves, Thread.released, Pc.outsideCommit, hpc]) (by simp [hpc])

/-! ## Runs -/

/-- The lock invariant of every thread and every orec. -/
def LocksInv (s : State) : Prop := (∀ t, ThreadOk orecOf s t) ∧ ∀ n, OrecOk s n

theorem locksInv_init (m : Mem) : LocksInv orecOf (init m) :=
  ⟨fun t => ⟨fun _ => by simp [init, Thread.init, Thread.held, (Nat.zero_lt_of_lt (lockBit_lt_myLock t)).ne], by simp [init, Thread.init],
    fun _ hn => by simp [init, Thread.init, Thread.held] at hn, fun _ => by simp [init, Thread.init],
    fun _ _ hp => by simp [init, Thread.init] at hp⟩, fun _ hl => by simp [init, locked, lockBit] at hl⟩

theorem locksInv_step {s : State} (h : LocksInv orecOf s) (a : Action) :
    LocksInv orecOf (step orecOf s a) := by
  have hf := frame_step orecOf s a
  have ht := h.1 a.thread
  refine ⟨fun u => ?_, fun n => (h.2 n).frame orecOf hf ht⟩
  by_cases hu : u = a.thread
  · subst hu
    cases a with
    | call t c =>
      simp only [step]
      split
      · next hpc => exact threadOk_call orecOf ht hpc c
      · exact ht
    | next t => exact threadOk_next orecOf ht
  · exact ThreadOk.frame orecOf hf ht (h.1 u) hu

theorem locksInv_reachable {s : State} (h : Reachable orecOf s) : LocksInv orecOf s := by
  obtain ⟨m, as, rfl⟩ := h
  suffices ∀ s, LocksInv orecOf s → LocksInv orecOf (exec orecOf s as) from
    this _ (locksInv_init orecOf m)
  induction as with
  | nil => exact fun _ hs => hs
  | cons a as ih => exact fun s hs => ih _ (locksInv_step orecOf hs a)

/-- Every locked orec of a reachable state is held by exactly one thread, inside `commit_rw` or
    its rollback, once in that thread's `locks`, with `p` the unlocked word its CAS replaced; or it
    is the lock bit alone, which is no thread's `my_lock`. A thread between barriers holds no
    orec. -/
theorem orec_locks {s : State} (h : Reachable orecOf s) (n : Nat) :
    (locked (s.orecs n).v = true → (s.orecs n).v = lockBit ∨
      ∃ t, (s.orecs n).v = myLock t ∧ (∀ u, (s.orecs n).v = myLock u → u = t) ∧
        (s.threads t).pc.outsideCommit = false ∧ (s.threads t).locks.count n = 1 ∧
        (s.orecs n).p = (s.threads t).casFrom n ∧ locked (s.orecs n).p = false) ∧
    ∀ t, (s.threads t).pc = .idle → (s.orecs n).v ≠ myLock t := by
  obtain ⟨hts, hos⟩ := locksInv_reachable orecOf h
  refine ⟨fun hl => ?_, fun t hpc hv => ?_⟩
  · refine (hos n hl).imp id fun ⟨t, ht⟩ => ⟨t, ht, fun u hu => myLock_injective (hu ▸ ht), ?_⟩
    have hheld := ((hts t).owner n).mp ht
    have hmem : n ∈ (s.threads t).locks := List.mem_of_mem_drop hheld
    have hp := (hts t).prior n hheld
    refine ⟨?_, List.count_eq_one_of_mem (hts t).nodup hmem, hp.1, hp.1 ▸ hp.2⟩
    by_contra hout
    simp only [Bool.not_eq_false] at hout
    simp [(hts t).outside hout] at hmem
  · have hheld := ((hts t).owner n).mp hv
    simp [(hts t).outside (by simp [hpc, Pc.outsideCommit]), Thread.held] at hheld

/-- Thread 0 past its CAS of orec 0 in `commit_rw`: orec 0 is its `my_lock`. -/
theorem orec_locks_cas :
    Reachable (fun _ => 0) (exec (fun _ => 0) (init fun _ => 0#8)
      [.call 0 (.write 0 zeroWord zeroWord), .call 0 .commit, .next 0, .next 0]) ∧
    let s := exec (fun _ => 0) (init fun _ => 0#8)
      [.call 0 (.write 0 zeroWord zeroWord), .call 0 .commit, .next 0, .next 0]
    (locked (s.orecs 0).v = true → (s.orecs 0).v = lockBit ∨
      ∃ t, (s.orecs 0).v = myLock t ∧ (∀ u, (s.orecs 0).v = myLock u → u = t) ∧
        (s.threads t).pc.outsideCommit = false ∧ (s.threads t).locks.count 0 = 1 ∧
        (s.orecs 0).p = (s.threads t).casFrom 0 ∧ locked (s.orecs 0).p = false) ∧
    ∀ t, (s.threads t).pc = .idle → (s.orecs 0).v ≠ myLock t :=
  ⟨⟨_, _, rfl⟩, orec_locks (fun _ => 0) ⟨_, _, rfl⟩ 0⟩

end Locks

/-! ## The carry into the lock bit -/

/-- One `write` and `commit_rw` of thread 0 to word 0: the CAS of orec 0, the writeback, the
    release to `p + 1`. -/
def commitPass (v mask : Word) : List Action :=
  [.call 0 (.write 0 v mask), .call 0 .commit] ++ List.replicate 8 (.next 0)

/-- Thread 0 between transactions, and orec 0 at `k`. -/
structure Quiet (s : State) (k : Nat) : Prop where
  version : (s.orecs 0).v = k
  pc : (s.threads 0).pc = .idle
  mode : (s.threads 0).mode = .ro
  nanorecs : (s.threads 0).nanorecs = []
  writes : (s.threads 0).writes = []
  locks : (s.threads 0).locks = []
  reads : (s.threads 0).reads = []

theorem quiet_commitPass {s : State} {k : Nat} (h : Quiet s k) (hk : k < lockBit) (v mask : Word) :
    Quiet (exec (fun _ => 0) s (commitPass v mask)) (k + 1) := by
  obtain ⟨h0, hpc, hm, hn, hw, hl, hr⟩ := h
  have hlk : (!locked k) = true := by simp [locked, hk]
  have hne : k ≠ myLock 0 := ne_myLock_of_le hk.le 0
  simp only [commitPass, exec, List.replicate, List.cons_append, List.nil_append, List.foldl_cons,
    List.foldl_nil]
  refine ⟨?_, ?_, ?_, ?_, ?_, ?_, ?_⟩
  all_goals simp [step, next, call, h0, hpc, hm, hn, hw, hl, hr, hlk, hne, absInsert, Thread.reset,
    Function.update_apply, State.setThread, State.setOrec]
  unfold lockBit at hk; omega

theorem quiet_commitPasses (v mask : Word) :
    ∀ k ≤ lockBit, Quiet (exec (fun _ => 0) (init fun _ => 0#8)
      (List.replicate k (commitPass v mask)).flatten) k
  | 0, _ => ⟨rfl, rfl, rfl, rfl, rfl, rfl, rfl⟩
  | k + 1, hk => by
    rw [List.replicate_succ', List.flatten_append, exec, List.foldl_append, ← exec, ← exec,
      List.flatten_singleton]
    exact quiet_commitPass (quiet_commitPasses v mask k (by omega)) (by omega) v mask

/-- The state after `2 ^ 63` commits of thread 0 to word 0, every word in orec 0. -/
def carried : State :=
  exec (fun _ => 0) (init fun _ => 0#8) (List.replicate lockBit (commitPass zeroWord zeroWord)).flatten

theorem carried_other {t : Tid} (ht : t ≠ 0) : carried.threads t = Thread.init := by
  rw [carried, exec_threads_of_ne (fun _ => 0) fun a ha => ?_]
  · rfl
  simp only [List.mem_flatten, List.mem_replicate, commitPass] at ha
  obtain ⟨l, ⟨-, rfl⟩, ha⟩ := ha
  simp only [List.cons_append, List.mem_cons, List.mem_replicate, List.nil_append] at ha
  rcases ha with rfl | rfl | ⟨-, rfl⟩ <;> exact Ne.symm ht

/-- `2 ^ 63` commits of one thread to one orec leave the orec locked, at `p + 1 = 2 ^ 63`, in a
    reachable state where no thread holds it: every thread is between barriers with nothing in
    `locks`, and the word is no thread's `my_lock`. -/
theorem release_carry_lock :
    Reachable (fun _ => 0) carried ∧ locked (carried.orecs 0).v = true ∧
      ∀ t, (carried.threads t).pc = .idle ∧ (carried.threads t).locks = [] ∧
        (carried.orecs 0).v ≠ myLock t := by
  have hq : Quiet carried lockBit := quiet_commitPasses zeroWord zeroWord lockBit le_rfl
  refine ⟨⟨_, _, rfl⟩, by simp [hq.version, locked], fun t => ?_⟩
  refine ⟨?_, ?_, by rw [hq.version]; exact ne_myLock_of_le le_rfl t⟩ <;> by_cases ht : t = 0
  · subst ht; exact hq.pc
  · rw [carried_other ht]; rfl
  · subst ht; exact hq.locks
  · rw [carried_other ht]; rfl

end Rstm.Nano
