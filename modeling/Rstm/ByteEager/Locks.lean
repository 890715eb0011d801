import Rstm.ByteEager.Basic
import Rstm.LockList

/- The lock lists of ByteEager: every bytelock a thread owns is in its
   `w_bytelocks`, every bytelock it reads or has a version recorded on is in its
   `r_bytelocks`, so commit and rollback, which walk the two lists, release
   everything the thread holds.

   The invariant is per thread (`ThreadOk`). While a commit or a rollback walks
   a list, what it holds is the part of the list it has not reached
   (`ownersDone`, `readersDone`). A step of another thread leaves a thread's
   part alone (`Frame`), so each step is checked for the thread that takes it
   only.

   In the read-only mode the undo log is empty, and `w_bytelocks` is empty
   except inside `write_ro` or `write_reserve` after its CAS, where it holds the
   barrier's bucket until the barrier ends (and switches to the read-write
   mode) or aborts (`ROEmpty`). -/
namespace Rstm.ByteEager

/-- How many entries of `w_bytelocks` the commit or rollback has released. -/
def Thread.ownersDone (th : Thread) : Nat :=
  match th.pc with
  | .commitRwOwners i | .rollbackOwners i => i
  | .commitRwReaders _ | .rollbackReaders _ => th.wBytelocks.length
  | _ => 0

/-- How many entries of `r_bytelocks` the commit or rollback has released. -/
def Thread.readersDone (th : Thread) : Nat :=
  match th.pc with
  | .commitRo i | .commitRwReaders i | .rollbackReaders i => i
  | _ => 0

/-- The address a read barrier's retry loop works on, up to its version test. -/
def Pc.readLoop : Pc → Option Nat
  | .readSet _ a _ | .readCheck _ a _ | .readVersion _ a _ | .readDrop _ a _ | .readWait _ a _ =>
    some a
  | _ => none

section Lists
variable (lockOf : Nat → Nat)

/-- The write locks a read-only thread may hold at `pc`: none, except inside a `write_ro` or
    `write_reserve` past its CAS (its own bucket) and in the rollback of such a barrier (at most
    that one). -/
def roLocks (pc : Pc) (wB : List Nat) : Prop :=
  match pc with
  | .writeCas op _ _ _ _ => op ≠ .rw ∧ wB = []
  | .writeDrain op a _ _ _ _ | .writeBump op a _ _ => op ≠ .rw ∧ wB = [lockOf a]
  | .undo _ _ _ | .rollbackOwners _ | .rollbackReaders _ => wB.length ≤ 1
  | _ => wB = []

/-- In the read-only mode: no undo log, and only the write locks `roLocks` allows. -/
def ROEmpty (th : Thread) : Prop :=
  th.mode = .ro → th.undoLog = [] ∧ roLocks lockOf th.pc th.wBytelocks

/-- The lock-list invariant of thread `t`. -/
structure ThreadOk (s : State) (t : Slot) : Prop where
  owner : ∀ L, (s.locks L).owner = t.val + 1 ↔
    L ∈ (s.threads t).wBytelocks.drop (s.threads t).ownersDone
  nodup : (s.threads t).wBytelocks.Nodup
  reader : ∀ L, (s.locks L).reader t = true →
    L ∈ (s.threads t).rBytelocks.drop (s.threads t).readersDone
  version : ∀ L, (s.locks L).readerVersion t ≠ 0 →
    L ∈ (s.threads t).rBytelocks.drop (s.threads t).readersDone
  loop : ∀ a, (s.threads t).pc.readLoop = some a → lockOf a ∈ (s.threads t).rBytelocks
  ro : ROEmpty lockOf (s.threads t)

/-! ## Other threads -/

theorem ThreadOk.of_eq {s s' : State} {t : Slot} (h : ThreadOk lockOf s t)
    (hl : s'.locks = s.locks) (ht : s'.threads t = s.threads t) : ThreadOk lockOf s' t := by
  obtain ⟨ho, hn, hr, hv, hlp, hm⟩ := h
  exact ⟨by rw [hl, ht]; exact ho, by rw [ht]; exact hn, by rw [hl, ht]; exact hr,
    by rw [hl, ht]; exact hv, by rw [ht]; exact hlp, by rw [ht]; exact hm⟩

theorem Frame.owner_iff {t u : Slot} {s s' : State} (hf : Frame t s s') (ht : ThreadOk lockOf s t)
    (hu : u ≠ t) (L : Nat) : (s'.locks L).owner = u.val + 1 ↔ (s.locks L).owner = u.val + 1 := by
  have hne : t.val + 1 ≠ u.val + 1 := fun h => hu (Fin.ext (by omega))
  rcases hf.owner L with h | ⟨h0, h1⟩ | ⟨h0, i, hpc, hL⟩
  · rw [h]
  · rw [h0, h1]; omega
  · have hdone : (s.threads t).ownersDone = i := by
      rcases hpc with hpc | hpc <;> simp [Thread.ownersDone, hpc]
    have ht' := (ht.owner L).mpr (hdone ▸ mem_drop_of_getElem? hL)
    rw [h0, ht']; omega

theorem ThreadOk.frame {t u : Slot} {s s' : State} (hf : Frame t s s') (ht : ThreadOk lockOf s t)
    (h : ThreadOk lockOf s u) (hu : u ≠ t) : ThreadOk lockOf s' u := by
  obtain ⟨ho, hn, hr, hv, hlp, hm⟩ := h
  have hth := hf.threads u hu
  refine ⟨fun L => ?_, by rw [hth]; exact hn, fun L => ?_, fun L => ?_, by rw [hth]; exact hlp,
    by rw [hth]; exact hm⟩
  · rw [hf.owner_iff lockOf ht hu, hth]; exact ho L
  · rw [hf.reader u hu, hth]; exact hr L
  · rw [hf.readerVersion u hu, hth]; exact hv L

/-! ## The thread's own steps -/

theorem ThreadOk.move {s s' : State} {t : Slot} (h : ThreadOk lockOf s t) (th' : Thread)
    (hl : s'.locks = s.locks) (ht : s'.threads t = th')
    (hw : th'.wBytelocks = (s.threads t).wBytelocks) (hr : th'.rBytelocks = (s.threads t).rBytelocks)
    (hod : th'.ownersDone = (s.threads t).ownersDone)
    (hrd : th'.readersDone = (s.threads t).readersDone)
    (hloop : ∀ a, th'.pc.readLoop = some a → lockOf a ∈ th'.rBytelocks)
    (hm : ROEmpty lockOf th') : ThreadOk lockOf s' t := by
  obtain ⟨ho, hn, hrd', hv, -, -⟩ := h
  subst ht
  refine ⟨fun L => ?_, by rw [hw]; exact hn, fun L => ?_, fun L => ?_, hloop, hm⟩
  · rw [hl, hw, hod]; exact ho L
  · rw [hl, hr, hrd]; exact hrd' L
  · rw [hl, hr, hrd]; exact hv L

theorem ROEmpty.update {th th' : Thread} (h : ROEmpty lockOf th) (hmo : th'.mode = th.mode)
    (hu : th'.undoLog = th.undoLog) (hw : th'.wBytelocks = th.wBytelocks)
    (hp : th.mode = .ro → roLocks lockOf th.pc th.wBytelocks → roLocks lockOf th'.pc th.wBytelocks) :
    ROEmpty lockOf th' := fun hro => by
  rw [hmo] at hro
  obtain ⟨h1, h2⟩ := h hro
  exact ⟨hu ▸ h1, hw ▸ hp hro h2⟩

theorem ThreadOk.goto {s s' : State} {t : Slot} (h : ThreadOk lockOf s t) (th' : Thread)
    (hl : s'.locks = s.locks) (ht : s'.threads t = th')
    (hw : th'.wBytelocks = (s.threads t).wBytelocks) (hr : th'.rBytelocks = (s.threads t).rBytelocks)
    (hmo : th'.mode = (s.threads t).mode) (hu : th'.undoLog = (s.threads t).undoLog)
    (hod : th'.ownersDone = (s.threads t).ownersDone)
    (hrd : th'.readersDone = (s.threads t).readersDone)
    (hloop : ∀ a, th'.pc.readLoop = some a → lockOf a ∈ th'.rBytelocks)
    (hp : (s.threads t).mode = .ro → roLocks lockOf (s.threads t).pc (s.threads t).wBytelocks →
      roLocks lockOf th'.pc (s.threads t).wBytelocks) : ThreadOk lockOf s' t :=
  h.move lockOf th' hl ht hw hr hod hrd hloop (h.ro.update lockOf hmo hu hw hp)

theorem ThreadOk.touch {s s' : State} {t : Slot} (h : ThreadOk lockOf s t) (th' : Thread)
    (ht : s'.threads t = th') (howner : ∀ L, (s'.locks L).owner = (s.locks L).owner)
    (hw : th'.wBytelocks = (s.threads t).wBytelocks)
    (hod : th'.ownersDone = (s.threads t).ownersDone)
    (hreader : ∀ L, (s'.locks L).reader t = true → L ∈ th'.rBytelocks.drop th'.readersDone)
    (hversion : ∀ L, (s'.locks L).readerVersion t ≠ 0 → L ∈ th'.rBytelocks.drop th'.readersDone)
    (hloop : ∀ a, th'.pc.readLoop = some a → lockOf a ∈ th'.rBytelocks)
    (hm : ROEmpty lockOf th') : ThreadOk lockOf s' t := by
  subst ht
  exact ⟨fun L => by rw [howner, hw, hod]; exact h.owner L, hw ▸ h.nodup, hreader, hversion,
    hloop, hm⟩

/-- The successful CAS of `t` on `L`: `owner := t`, `L` joins `w_bytelocks`, the reader
    byte of `t` is cleared. -/
theorem ThreadOk.acquire {s : State} {t : Slot} (h : ThreadOk lockOf s t) {L : Nat}
    (h0 : (s.locks L).owner = 0) (hod : (s.threads t).ownersDone = 0) (th' : Thread)
    (hw : th'.wBytelocks = (s.threads t).wBytelocks ++ [L])
    (hr : th'.rBytelocks = (s.threads t).rBytelocks) (hod' : th'.ownersDone = 0)
    (hrd : th'.readersDone = (s.threads t).readersDone) (hloop : th'.pc.readLoop = none)
    (hm : ROEmpty lockOf th') :
    ThreadOk lockOf
      ((s.setLock L { (s.locks L).setReader t false with owner := t.val + 1 }).setThread t th') t := by
  have hnot : L ∉ (s.threads t).wBytelocks := by
    intro hm'
    have := (h.owner L).mpr (by rw [hod]; exact hm')
    omega
  refine ⟨fun L' => ?_, ?_, fun L' hL' => ?_, fun L' hL' => ?_, by simp [hloop], by simpa using hm⟩
  · by_cases hLa : L' = L
    · subst hLa; simp [hw, hod']
    · simpa [Function.update_noteq hLa, hw, hod', hod, hLa] using h.owner L'
  · simpa [hw] using List.nodup_append.mpr ⟨h.nodup, List.nodup_singleton L,
      List.disjoint_singleton.mpr hnot⟩
  · by_cases hLa : L' = L
    · subst hLa; simp [Bytelock.setReader] at hL'
    · simpa [hr, hrd] using h.reader L' (by simpa [Function.update_noteq hLa] using hL')
  · by_cases hLa : L' = L
    · subst hLa; simpa [hr, hrd] using h.version L' (by simpa [Bytelock.setReader] using hL')
    · simpa [hr, hrd] using h.version L' (by simpa [Function.update_noteq hLa] using hL')

/-- A commit or rollback releasing entry `i` of `w_bytelocks`: `owner := 0`. -/
theorem ThreadOk.release {s : State} {t : Slot} (h : ThreadOk lockOf s t) {i L : Nat}
    (hod : (s.threads t).ownersDone = i) (hL : (s.threads t).wBytelocks[i]? = some L)
    (th' : Thread) (hw : th'.wBytelocks = (s.threads t).wBytelocks)
    (hr : th'.rBytelocks = (s.threads t).rBytelocks) (hod' : th'.ownersDone = i + 1)
    (hrd : th'.readersDone = (s.threads t).readersDone) (hloop : th'.pc.readLoop = none)
    (hm : ROEmpty lockOf th') :
    ThreadOk lockOf ((s.setLock L { (s.locks L) with owner := 0 }).setThread t th') t := by
  refine ⟨fun L' => ?_, by simpa [hw] using h.nodup, fun L' hL' => ?_, fun L' hL' => ?_,
    by simp [hloop], by simpa using hm⟩
  · by_cases hLa : L' = L
    · subst hLa; simpa [hw, hod'] using not_mem_drop_succ h.nodup hL
    · have := h.owner L'
      rw [hod, mem_drop_iff_of_getElem? hL] at this
      simpa [Function.update_noteq hLa, hw, hod', hLa] using this
  · have := h.reader L' (by by_cases hLa : L' = L <;> simp_all [Function.update_noteq])
    simpa [hr, hrd] using this
  · have := h.version L' (by by_cases hLa : L' = L <;> simp_all [Function.update_noteq])
    simpa [hr, hrd] using this

/-- A commit or rollback releasing entry `i` of `r_bytelocks`: its reader byte and version
    cleared. -/
theorem ThreadOk.unread {s : State} {t : Slot} (h : ThreadOk lockOf s t) {i L : Nat}
    (hrd : (s.threads t).readersDone = i) (hL : (s.threads t).rBytelocks[i]? = some L)
    (th' : Thread) (hw : th'.wBytelocks = (s.threads t).wBytelocks)
    (hr : th'.rBytelocks = (s.threads t).rBytelocks)
    (hod : th'.ownersDone = (s.threads t).ownersDone) (hrd' : th'.readersDone = i + 1)
    (hloop : th'.pc.readLoop = none) (hm : ROEmpty lockOf th') :
    ThreadOk lockOf ((s.setLock L ((s.locks L).clear t)).setThread t th') t := by
  refine h.touch lockOf th' (by simp) (fun L' => ?_) hw hod (fun L' hL' => ?_) (fun L' hL' => ?_)
    (by simp [hloop]) hm
  · by_cases hLa : L' = L
    · subst hLa; simp [Bytelock.clear]
    · simp [Function.update_noteq hLa]
  · by_cases hLa : L' = L
    · subst hLa; simp [Bytelock.clear] at hL'
    · have := h.reader L' (by simpa [Function.update_noteq hLa] using hL')
      rw [hrd, mem_drop_iff_of_getElem? hL] at this
      simpa [hr, hrd', hLa] using this
  · by_cases hLa : L' = L
    · subst hLa; simp [Bytelock.clear] at hL'
    · have := h.version L' (by simpa [Function.update_noteq hLa] using hL')
      rw [hrd, mem_drop_iff_of_getElem? hL] at this
      simpa [hr, hrd', hLa] using this

theorem ThreadOk.keep {s s' : State} {t : Slot} (h : ThreadOk lockOf s t) (th' : Thread)
    (ht : s'.threads t = th')
    (hl : ∀ L, (s'.locks L).owner = (s.locks L).owner ∧ (s'.locks L).reader t = (s.locks L).reader t ∧
      (s'.locks L).readerVersion t = (s.locks L).readerVersion t)
    (hw : th'.wBytelocks = (s.threads t).wBytelocks) (hr : th'.rBytelocks = (s.threads t).rBytelocks)
    (hod : th'.ownersDone = (s.threads t).ownersDone)
    (hrd : th'.readersDone = (s.threads t).readersDone)
    (hloop : th'.pc.readLoop = none) (hm : ROEmpty lockOf th') : ThreadOk lockOf s' t :=
  h.touch lockOf th' ht (fun L => (hl L).1) hw hod
    (fun L hL => by rw [hr, hrd]; exact h.reader L ((hl L).2.1 ▸ hL))
    (fun L hL => by rw [hr, hrd]; exact h.version L ((hl L).2.2 ▸ hL)) (by simp [hloop]) hm

/-- The last step of a commit or rollback that resets both lists: nothing is held. -/
theorem ThreadOk.finish {s : State} {t : Slot} (h : ThreadOk lockOf s t) {i : Nat}
    (hrd : (s.threads t).readersDone = i) (hnone : (s.threads t).rBytelocks[i]? = none)
    (hod : (s.threads t).ownersDone = (s.threads t).wBytelocks.length) (th' : Thread)
    (hw : th'.wBytelocks = []) (hu : th'.undoLog = [])
    (hpc : th'.pc = .idle) : ThreadOk lockOf (s.setThread t th') t := by
  have hnr : (s.threads t).rBytelocks.drop i = [] := drop_of_getElem?_none hnone
  have hnw : (s.threads t).wBytelocks.drop (s.threads t).ownersDone = [] := by
    rw [hod]; exact List.drop_length _
  refine ⟨fun L => ?_, by simp [hw], fun L hL => ?_, fun L hL => ?_, by simp [hpc, Pc.readLoop],
    fun _ => by simp [hu, hpc, hw, roLocks]⟩
  · simpa [hw, hnw] using h.owner L
  · simpa [hrd, hnr] using h.reader L (by simpa using hL)
  · simpa [hrd, hnr] using h.version L (by simpa using hL)

theorem ThreadOk.setPc {s : State} {t : Slot} (h : ThreadOk lockOf s t) (m : Mem) (p : Pc)
    (evs : List Event)
    (hod : ({ s.threads t with pc := p } : Thread).ownersDone = (s.threads t).ownersDone)
    (hrd : ({ s.threads t with pc := p } : Thread).readersDone = (s.threads t).readersDone)
    (hloop : ∀ a, p.readLoop = some a → lockOf a ∈ (s.threads t).rBytelocks)
    (hp : (s.threads t).mode = .ro → roLocks lockOf (s.threads t).pc (s.threads t).wBytelocks →
      roLocks lockOf p (s.threads t).wBytelocks) :
    ThreadOk lockOf ({ s with mem := m }.setThread t { s.threads t with pc := p, events := evs }) t :=
  h.goto lockOf { s.threads t with pc := p, events := evs } rfl (by simp) rfl rfl rfl rfl hod hrd hloop hp

theorem threadOk_next {s : State} {t : Slot} (h : ThreadOk lockOf s t) :
    ThreadOk lockOf (next lockOf s t) t := by
  have hro := h.ro
  cases hpc : (s.threads t).pc <;> simp only [next, hpc]
  case idle => exact h
  case readSet op a tries =>
    have hL := h.loop a (by simp [hpc, Pc.readLoop])
    refine h.touch lockOf { s.threads t with pc := .readCheck op a tries } (by simp) (fun L => ?_) rfl
      (by simp [Thread.ownersDone, hpc])
      (fun L hL' => ?_) (fun L hL' => ?_) (by simpa [Pc.readLoop] using hL)
      (hro.update lockOf rfl rfl rfl (by simp [roLocks, hpc]))
    · by_cases hLa : L = lockOf a
      · subst hLa; simp [Bytelock.setReader]
      · simp [Function.update_noteq hLa]
    · by_cases hLa : L = lockOf a
      · subst hLa; simpa [Thread.readersDone] using hL
      · have := h.reader L (by simpa [Function.update_noteq hLa] using hL')
        simpa [Thread.readersDone, hpc] using this
    · by_cases hLa : L = lockOf a
      · subst hLa; simpa [Thread.readersDone] using hL
      · have := h.version L (by simpa [Function.update_noteq hLa] using hL')
        simpa [Thread.readersDone, hpc] using this
  case readCheck op a tries | readWait op a tries =>
    -- the program counter moves inside the read loop, or out of it on an abort
    have hL := h.loop a (by simp [hpc, Pc.readLoop])
    split_ifs <;> (try unfold Thread.abort) <;> exact h.setPc lockOf _ _ _ (by simp [Thread.ownersDone, hpc])
      (by simp [Thread.readersDone, hpc]) (by simp [Pc.readLoop, hL]) (fun _ h' => by simp only [roLocks, hpc] at h' ⊢; simp [h'])
  case readVersion op a _ =>
    have hL := h.loop a (by simp [hpc, Pc.readLoop])
    split_ifs with h0
    · -- the first read of the bucket records its version
      refine h.touch lockOf _ rfl (fun L => ?_) (by simp)
        (by cases op <;> simp [Thread.ownersDone, hpc])
        (fun L hL' => ?_) (fun L hL' => ?_) (by cases op <;> simp [Pc.readLoop])
        (hro.update lockOf (by simp) (by simp) (by simp) (by cases op <;> simp [roLocks, hpc]))
      · by_cases hLa : L = lockOf a
        · subst hLa; simp
        · simp [Function.update_noteq hLa]
      · have := h.reader L (by by_cases hLa : L = lockOf a <;> simp_all [Function.update_noteq])
        cases op <;> simpa [Thread.readersDone, hpc] using this
      · by_cases hLa : L = lockOf a
        · subst hLa; cases op <;> simpa [Thread.readersDone] using hL
        · have := h.version L (by simpa [Function.update_noteq hLa] using hL')
          cases op <;> simpa [Thread.readersDone, hpc] using this
    all_goals
      cases op <;> (try unfold Thread.abort) <;> exact h.setPc lockOf _ _ _
        (by simp [Thread.ownersDone, hpc]) (by simp [Thread.readersDone, hpc]) (by simp [Pc.readLoop])
        (fun _ h' => by simp only [roLocks, hpc] at h' ⊢; simp [h'])
  case readValue a | writeDrain op a v mask i tries | undo exc len n =>
    (try split_ifs) <;> (try split) <;> (try unfold Thread.abort) <;> exact h.setPc lockOf _ _ _
      (by simp [Thread.ownersDone, hpc]) (by simp [Thread.readersDone, hpc]) (by simp [Pc.readLoop])
      (fun _ h' => by simp only [roLocks, hpc] at h' ⊢; simp [h'])
  case readDrop op a tries =>
    have hL := h.loop a (by simp [hpc, Pc.readLoop])
    refine h.touch lockOf _ rfl (fun L => ?_) (by simp) (by simp [Thread.ownersDone, hpc])
      (fun L hL' => ?_) (fun L hL' => ?_) (by simpa [Pc.readLoop] using hL)
      (hro.update lockOf (by simp) (by simp) (by simp) (by simp [roLocks, hpc]))
    · by_cases hLa : L = lockOf a
      · subst hLa; simp [Bytelock.setReader]
      · simp [Function.update_noteq hLa]
    · by_cases hLa : L = lockOf a
      · subst hLa; simp [Bytelock.setReader] at hL'
      · have := h.reader L (by simpa [Function.update_noteq hLa] using hL')
        simpa [Thread.readersDone, hpc] using this
    · by_cases hLa : L = lockOf a
      · subst hLa; simpa [Thread.readersDone] using hL
      · have := h.version L (by simpa [Function.update_noteq hLa] using hL')
        simpa [Thread.readersDone, hpc] using this
  case writeCas op a v mask tries =>
    have hod : (s.threads t).ownersDone = 0 := by simp [Thread.ownersDone, hpc]
    split_ifs with h0 hv
    · exact h.acquire lockOf h0 hod _ (by simp [Thread.abort]) (by simp [Thread.abort])
        (by simp [Thread.abort, Thread.ownersDone]) (by simp [Thread.abort, Thread.readersDone, hpc])
        (by simp [Thread.abort, Pc.readLoop])
        (fun hm => by
          obtain ⟨hu, hl⟩ := hro (by simpa [Thread.abort] using hm)
          simp only [roLocks, hpc] at hl
          exact ⟨by simpa [Thread.abort] using hu, by simp [Thread.abort, roLocks, hl.2]⟩)
    · refine h.acquire lockOf h0 hod _ (by simp) (by simp) (by simp [Thread.ownersDone])
        (by simp [Thread.readersDone, hpc]) (by simp [Pc.readLoop]) (fun hm => ?_)
      obtain ⟨hu, hl⟩ := hro (by simpa using hm)
      simp only [roLocks, hpc] at hl
      simpa [roLocks, hl.2] using ⟨hu, hl.1⟩
    all_goals
      try unfold Thread.abort
      exact h.setPc lockOf _ _ _ (by simp [Thread.ownersDone, hpc])
        (by simp [Thread.readersDone, hpc]) (by simp [Pc.readLoop]) (fun _ h' => by simp only [roLocks, hpc] at h' ⊢; simp [h'])
  case writeBump op a v mask =>
    -- `++version` changes no owner, reader byte or recorded version
    have hv : ∀ (x L : Nat),
        (Function.update s.locks (lockOf a) { s.locks (lockOf a) with version := x } L).owner =
          (s.locks L).owner ∧
        (Function.update s.locks (lockOf a) { s.locks (lockOf a) with version := x } L).reader t =
          (s.locks L).reader t ∧
        (Function.update s.locks (lockOf a) { s.locks (lockOf a) with version := x } L).readerVersion t =
          (s.locks L).readerVersion t := fun x L => by
      by_cases hLa : L = lockOf a
      · subst hLa; simp
      · simp [Function.update_noteq hLa]
    cases op <;> refine h.keep lockOf _ rfl (fun L => by simpa using hv _ L) (by simp) (by simp)
      (by simp [Thread.ownersDone, hpc]) (by simp [Thread.readersDone, hpc]) (by simp [Pc.readLoop])
      fun hm => ?_
    case ro => simp at hm
    case rw =>
      have := (hro (by simpa using hm)).2
      simp [roLocks, hpc] at this
    case reserve =>
      -- a reserve by a read-only thread holding one write lock switches to the read-write mode
      have hm' : (s.threads t).mode = .ro ∧ (s.threads t).wBytelocks.length ≠ 1 := by
        by_cases hlen : (s.threads t).wBytelocks.length = 1 <;> simp_all
      have := (hro hm'.1).2
      simp only [roLocks, hpc] at this
      exact absurd (by simp [this.2]) hm'.2
  case commitRo i =>
    split
    · next L hL =>
      exact h.unread lockOf (by simp [Thread.readersDone, hpc]) hL _ (by simp) (by simp)
        (by simp [Thread.ownersDone, hpc]) (by simp [Thread.readersDone]) (by simp [Pc.readLoop])
        (h.ro.update lockOf (by simp) (by simp) (by simp) (by simp [roLocks, hpc]))
    · next hnone =>
      have hnr := drop_of_getElem?_none hnone
      refine h.touch lockOf _ rfl (fun _ => rfl) (by simp) (by simp [Thread.ownersDone, hpc])
        (fun L hL => ?_) (fun L hL => ?_) (by simp [Pc.readLoop])
        (h.ro.update lockOf (by simp) (by simp) (by simp) (by simp [roLocks, hpc]))
      · simpa [Thread.readersDone, hpc, hnr] using h.reader L (by simpa using hL)
      · simpa [Thread.readersDone, hpc, hnr] using h.version L (by simpa using hL)
  case commitRwReaders i | rollbackReaders i =>
    split
    · next L hL =>
      exact h.unread lockOf (by simp [Thread.readersDone, hpc]) hL _ (by simp) (by simp)
        (by simp [Thread.ownersDone, hpc]) (by simp [Thread.readersDone]) (by simp [Pc.readLoop])
        (h.ro.update lockOf (by simp) (by simp) (by simp) (by simp [roLocks, hpc]))
    · next hnone =>
      exact h.finish lockOf (by simp [Thread.readersDone, hpc]) hnone
        (by simp [Thread.ownersDone, hpc]) _ rfl rfl rfl
  case commitRwOwners i | rollbackOwners i =>
    split
    · next L hL =>
      exact h.release lockOf (by simp [Thread.ownersDone, hpc]) hL _ (by simp) (by simp)
        (by simp [Thread.ownersDone]) (by simp [Thread.readersDone, hpc]) (by simp [Pc.readLoop])
        (h.ro.update lockOf (by simp) (by simp) (by simp) (by simp [roLocks, hpc]))
    · next hnone =>
      have hnw := drop_of_getElem?_none hnone
      refine ⟨fun L => ?_, by simpa using h.nodup, fun L hL => ?_, fun L hL => ?_,
        by simp [Pc.readLoop], h.ro.update lockOf (by simp) (by simp) (by simp)
          (by simp [roLocks, hpc])⟩
      · simpa [Thread.ownersDone, hpc, hnw] using h.owner L
      · simpa [Thread.readersDone, hpc] using h.reader L (by simpa using hL)
      · simpa [Thread.readersDone, hpc] using h.version L (by simpa using hL)

theorem threadOk_readEntry {s : State} {t : Slot} (h : ThreadOk lockOf s t)
    (hidle : (s.threads t).pc = .idle) (op : ReadOp) (a : Nat) :
    ThreadOk lockOf (readEntry lockOf s t op a) t := by
  unfold readEntry; dsimp only
  split
  · split
    · exact h
    · exact h.setPc lockOf _ _ _
        (by simp [Thread.ownersDone, hidle]) (by simp [Thread.readersDone, hidle])
        (by simp [Pc.readLoop, hidle]) (by simp [roLocks, hidle])
  · next hr =>
    have hsub : ∀ L, L ∈ (s.threads t).rBytelocks → L ∈
        (if (s.locks (lockOf a)).readerVersion t = 0 then (s.threads t).rBytelocks ++ [lockOf a]
          else (s.threads t).rBytelocks) := fun L hL => by split <;> simp [hL]
    refine h.touch lockOf _ rfl (fun _ => rfl) (by simp) (by simp [Thread.ownersDone, hidle])
      (fun L hL => ?_) (fun L hL => ?_) (fun a' ha' => ?_)
      (h.ro.update lockOf (by simp) (by simp) (by simp) (by simp [roLocks, hidle]))
    · simpa [Thread.readersDone] using hsub L (by simpa [Thread.readersDone, hidle] using h.reader L hL)
    · simpa [Thread.readersDone] using hsub L (by simpa [Thread.readersDone, hidle] using h.version L hL)
    · simp only [State.setThread_threads, Function.update_same, Pc.readLoop, Option.some.injEq] at ha' ⊢
      subst ha'
      split
      · simp
      · next hv => simpa [Thread.readersDone, hidle] using h.version (lockOf a) hv

theorem threadOk_call {s : State} {t : Slot} (h : ThreadOk lockOf s t)
    (hidle : (s.threads t).pc = .idle) (c : Call) : ThreadOk lockOf (call lockOf s t c) t := by
  have hro := h.ro
  have hnone : ∀ L, (s.threads t).mode = .ro → (s.locks L).owner ≠ t.val + 1 := fun L hm ho => by
    have hw : (s.threads t).wBytelocks = [] := by simpa [roLocks, hidle] using (hro hm).2
    have := (h.owner L).mp ho
    simp [Thread.ownersDone, hidle, hw] at this
  cases c with
  | read a =>
    simp only [call]
    split
    · exact threadOk_readEntry lockOf h hidle _ a
    · split
      · exact h.setPc lockOf _ _ _
          (by simp [Thread.ownersDone, hidle]) (by simp [Thread.readersDone, hidle])
          (by simp [Pc.readLoop, hidle]) (by simp [roLocks, hidle])
      · exact threadOk_readEntry lockOf h hidle _ a
  | readReserve a =>
    simp only [call]
    split
    · exact h
    · exact threadOk_readEntry lockOf h hidle _ a
  | write a v mask =>
    simp only [call]
    split
    · exact h.setPc lockOf _ _ _
        (by simp [Thread.ownersDone, hidle]) (by simp [Thread.readersDone, hidle])
        (by simp [Pc.readLoop]) (fun _ hl => by simpa [roLocks, hidle] using hl)
    · next hm =>
      split
      · exact h.move lockOf _ rfl rfl (by simp) (by simp) (by simp [Thread.ownersDone, hidle])
          (by simp [Thread.readersDone, hidle]) (by simp [Pc.readLoop, hidle]) (fun h' => by simp_all)
      · exact h.setPc lockOf _ _ _
          (by simp [Thread.ownersDone, hidle]) (by simp [Thread.readersDone, hidle])
          (by simp [Pc.readLoop]) (fun h' => by simp_all)
  | writeReserve a mask =>
    simp only [call]
    split
    · next ho =>
      exact h.move lockOf _ rfl rfl (by simp) (by simp) (by simp [Thread.ownersDone, hidle])
        (by simp [Thread.readersDone, hidle]) (by simp [Pc.readLoop, hidle])
        (fun hm => absurd ho (hnone _ (by simpa using hm)))
    · exact h.setPc lockOf _ _ _
        (by simp [Thread.ownersDone, hidle]) (by simp [Thread.readersDone, hidle])
        (by simp [Pc.readLoop]) (fun _ hl => by simpa [roLocks, hidle] using hl)
  | release a =>
    simp only [call]
    split
    · refine h.touch lockOf _ rfl (fun L => ?_) rfl rfl (fun L hL => ?_) (fun L hL => ?_)
        h.loop h.ro
      · by_cases hLa : L = lockOf a
        · subst hLa; simp [Bytelock.setReader]
        · simp [Function.update_noteq hLa]
      · by_cases hLa : L = lockOf a
        · subst hLa; simp [Bytelock.setReader] at hL
        · exact h.reader L (by simpa [Function.update_noteq hLa] using hL)
      · by_cases hLa : L = lockOf a
        · subst hLa; exact h.version _ (by simpa [Bytelock.setReader] using hL)
        · exact h.version L (by simpa [Function.update_noteq hLa] using hL)
    · exact h
  | commit =>
    simp only [call]
    split <;> exact h.goto lockOf _ rfl rfl (by simp) (by simp) (by simp) (by simp)
        (by simp [Thread.ownersDone, hidle]) (by simp [Thread.readersDone, hidle])
        (by simp [Pc.readLoop]) (fun _ hl => by simpa [roLocks, hidle] using hl)
  | rollback exc len =>
    simp only [call]
    exact h.setPc lockOf _ _ _
      (by simp [Thread.ownersDone, hidle]) (by simp [Thread.readersDone, hidle])
      (by simp [Pc.readLoop]) (fun _ h' => by simp only [roLocks, hidle] at h' ⊢; simp [h'])

/-- `commit_ro` runs only in the read-only mode. -/
def CommitRoMode (th : Thread) : Prop := ∀ i, th.pc = .commitRo i → th.mode = .ro

theorem commitRoMode_next {s : State} {t : Slot} (h : CommitRoMode (s.threads t)) :
    CommitRoMode ((next lockOf s t).threads t) := by
  intro i hi
  unfold next at hi ⊢
  dsimp only at hi ⊢
  split at hi <;> (try split_ifs at hi) <;> (try split at hi) <;> simp_all [Thread.abort, CommitRoMode]

theorem commitRoMode_call {s : State} {t : Slot} (hidle : (s.threads t).pc = .idle)
    (c : Call) : CommitRoMode ((call lockOf s t c).threads t) := by
  intro i hi
  cases c <;> simp only [call, readEntry] at hi ⊢ <;> (try split at hi) <;> (try split at hi) <;>
    (try split at hi) <;> simp_all

/-- The lock-list invariant of every thread. -/
def ListsInv (s : State) : Prop := ∀ t, ThreadOk lockOf s t ∧ CommitRoMode (s.threads t)

theorem listsInv_init (m : Mem) : ListsInv lockOf (init m) := fun _ =>
  ⟨⟨fun _ => by simp [init, Bytelock.free, Thread.init, Thread.ownersDone],
    by simp [init, Thread.init], fun _ h => by simp [init, Bytelock.free] at h,
    fun _ h => by simp [init, Bytelock.free] at h, fun _ h => by simp [init, Thread.init, Pc.readLoop] at h,
    fun _ => by simp [init, Thread.init, roLocks]⟩,
   fun _ h => by simp [init, Thread.init] at h⟩

theorem listsInv_step {s : State} (h : ListsInv lockOf s) (a : Action) :
    ListsInv lockOf (step lockOf s a) := by
  intro u
  by_cases hu : u = a.thread
  · subst hu
    cases a with
    | call t c =>
      simp only [step, Action.thread]
      split
      · next hidle => exact ⟨threadOk_call lockOf (h t).1 hidle c, commitRoMode_call lockOf hidle c⟩
      · exact h t
    | next t => exact ⟨threadOk_next lockOf (h t).1, commitRoMode_next lockOf (h t).2⟩
  · have hf := frame_step lockOf s a
    exact ⟨ThreadOk.frame lockOf hf (h a.thread).1 (h u).1 hu, by rw [hf.threads u hu]; exact (h u).2⟩

end Lists

end Rstm.ByteEager
