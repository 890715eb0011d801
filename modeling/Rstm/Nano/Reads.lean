import Rstm.Nano.Locks

/- What Nano's reads see: value-based validation against orec versions.

   Memory under an orec changes only in the writeback of the thread that holds
   it, and a holder that begins its writeback releases the orec to `p + 1`,
   never back to `p`. So the version an orec stands for (`version`, doubled:
   `2 v` unlocked, `2 p` while held before the writeback, `2 p + 1` from the
   writeback to the release) never decreases (`version_le_step`). A read
   logs `(o, v)` when it sees `o` unlocked at `v` twice around the data read;
   while `o` stands for `2 v` the word still holds the value read
   (`Valid`), and once it stands for more it never comes back (`Dead`).

   A rollback that writes back into a thrown range writes memory without
   holding the orec, so the results here are for runs whose rollbacks carry
   an empty range (`EmptyThrows`).

   Two consequences, with the ghost `snap` of the thread:
     - when `read_ro` returns, every word the attempt has read held the value
       read for it at the instant of the read's second sample
       (`read_opacity`);
     - when `commit_rw` reaches its writeback, every word the attempt has read
       held that value at the instant of its last CAS (`commit_reads_current`). -/
namespace Rstm.Nano

/-- Past `commit_rw`'s validation: its writeback and the release of its locks. -/
def Pc.writing : Pc → Bool
  | .commitWriteback _ | .commitRelease _ => true
  | _ => false

/-- The thread whose `my_lock` the word is, if any. -/
def holder (v : Nat) : Option Tid :=
  if h : lockBit < v ∧ v - lockBit - 1 < maxTid + 1 then some ⟨v - lockBit - 1, h.2⟩ else none

theorem holder_eq_some {v : Nat} {t : Tid} : holder v = some t ↔ v = myLock t := by
  unfold holder myLock
  split_ifs with h
  · simp only [Option.some.injEq, Fin.ext_iff]; omega
  · simp only [reduceCtorEq, false_iff]
    rintro rfl
    exact h ⟨by omega, by have := t.isLt; omega⟩

theorem holder_of_le {v : Nat} (h : v ≤ lockBit) : holder v = none := by
  unfold holder; rw [dif_neg (by omega)]

/-- The version the orec `o` stands for, doubled: `2 v` when unlocked, `2 p` while its holder
    has not begun its writeback, `2 p + 1` from then until the release, and `2 ^ 64` when the
    lock bit is left with no holder. -/
def version (s : State) (o : Nat) : Nat :=
  match holder (s.orecs o).v with
  | some u => 2 * (s.orecs o).p + if (s.threads u).pc.writing then 1 else 0
  | none => if locked (s.orecs o).v then 2 * lockBit else 2 * (s.orecs o).v

theorem version_of_unlocked {s : State} {o : Nat} (h : locked (s.orecs o).v = false) :
    version s o = 2 * (s.orecs o).v := by
  have hle := locked_eq_false_iff.mp h
  simp [version, holder_of_le hle.le, h]

theorem version_of_myLock {s : State} {o : Nat} {u : Tid} (h : (s.orecs o).v = myLock u) :
    version s o = 2 * (s.orecs o).p + if (s.threads u).pc.writing then 1 else 0 := by
  simp [version, holder_eq_some.mpr h]

theorem version_of_le {s : State} {o : Nat} (h : (s.orecs o).v ≤ lockBit) :
    version s o = 2 * (s.orecs o).v := by
  rcases h.lt_or_eq with h | h
  · exact version_of_unlocked (locked_eq_false_iff.mpr h)
  · simp [version, h, holder_of_le (le_refl lockBit), locked]

section Version
variable (orecOf : Nat → Nat)

theorem writing_next {s : State} {t : Tid} (hw : (s.threads t).pc.writing = true)
    (hheld : (s.threads t).held ≠ []) : ((next orecOf s t).threads t).pc.writing = true := by
  unfold next; dsimp only
  cases hpc : (s.threads t).pc <;> simp [hpc, Pc.writing] at hw
  case commitWriteback i => cases he : (s.threads t).writes[i]? <;> simp [he, Pc.writing]
  case commitRelease i =>
    cases hn : (s.threads t).locks[i]?
    · exact absurd (by rw [Thread.held, Thread.released, hpc]; exact drop_of_getElem?_none hn) hheld
    · simp [hn, Pc.writing]

theorem writing_step {s : State} (h : LocksInv orecOf s) (a : Action) {o : Nat}
    (ho : (s.orecs o).v = myLock a.thread) (hw : (s.threads a.thread).pc.writing = true) :
    ((step orecOf s a).threads a.thread).pc.writing = true := by
  have hheld : (s.threads a.thread).held ≠ [] :=
    List.ne_nil_of_mem (((h.1 a.thread).owner o).mp ho)
  cases a with
  | call t c =>
    simp only [Action.thread] at hw ⊢
    have hpc : (s.threads t).pc ≠ .idle := fun hpc => by simp [hpc, Pc.writing] at hw
    simpa [step, hpc] using hw
  | next t => exact writing_next orecOf hw hheld

/-- The version an orec stands for never decreases. -/
theorem version_le_step {s : State} (h : LocksInv orecOf s) (a : Action) (o : Nat) :
    version s o ≤ version (step orecOf s a) o := by
  have hf := frame_step orecOf s a
  have ht := h.1 a.thread
  rcases hf.orecs o with he | ⟨he, i, hpc⟩ | ⟨hr, hp⟩
  · unfold version; rw [he]
    split
    · next u hu =>
      by_cases hut : u = a.thread
      · subst hut
        have := writing_step orecOf h a (holder_eq_some.mp hu)
        split_ifs <;> simp_all
      · rw [hf.threads u hut]
    · exact le_rfl
  · rw [version_of_unlocked (ht.cas i _ hpc).1, version_of_myLock (by rw [he])]
    simp only [he]; omega
  · have hprior := ht.prior o hr.held
    have hpl : locked (s.orecs o).p = false := hprior.1 ▸ hprior.2
    have hunl := locked_eq_false_iff.mp hpl
    rw [version_of_myLock ((ht.owner o).mpr hr.held)]
    obtain ⟨i, -, ⟨hpc, hv⟩ | ⟨hpc, hv⟩⟩ := hr
    · rw [version_of_le (hv ▸ release_le hpl), hv,
        Nat.mod_eq_of_lt (by unfold lockBit at hunl; omega)]
      split_ifs <;> omega
    · rw [version_of_le (by rw [hv]; exact hunl.le), hv]
      simp [hpc, Pc.writing]

/-! ## Writers -/

/-- The orecs of the first `i` writes are in `locks`. -/
def Covered (writes : List WriteSetEntry) (locks : List Nat) (i : Nat) : Prop :=
  ∀ k < i, ∀ e, writes[k]? = some e → orecOf e.addr ∈ locks

/-- What `commit_rw` keeps on the way to its writeback: a non-empty redo log, and the orecs of
    the writes it has passed held; in the runs here a rollback writes nothing back. -/
def WriterAt (th : Thread) : Prop :=
  match th.pc with
  | .commitAcquire i | .commitCas i _ => th.writes ≠ [] ∧ Covered orecOf th.writes th.locks i
  | .commitValidate _ | .commitWriteback _ =>
    th.writes ≠ [] ∧ Covered orecOf th.writes th.locks th.writes.length
  | .rollbackWrites _ len _ => len = 0
  | _ => True

/-- A thread in the read-write mode has a non-empty redo log, and `WriterAt` holds. -/
structure WriterOk (th : Thread) : Prop where
  mode : th.mode = .rw → th.writes ≠ []
  pc : WriterAt orecOf th

/-- A rollback called from between barriers carries an empty thrown range. -/
def Action.EmptyThrow (a : Action) : Prop := ∀ t exc len, a = .call t (.rollback exc len) → len = 0

theorem Covered.mono {ws : List WriteSetEntry} {ls : List Nat} {i j : Nat}
    (h : Covered orecOf ws ls i) (hj : j ≤ i) : Covered orecOf ws ls j := fun k hk => h k (by omega)

theorem Covered.all {ws : List WriteSetEntry} {ls : List Nat} {i : Nat} (h : Covered orecOf ws ls i)
    (hi : ws[i]? = none) : Covered orecOf ws ls ws.length :=
  h.mono orecOf (List.getElem?_eq_none_iff.mp hi)

theorem writerOk_next {s : State} {t : Tid} (h : WriterOk orecOf (s.threads t))
    (ht : ThreadOk orecOf s t) : WriterOk orecOf ((next orecOf s t).threads t) := by
  obtain ⟨hm, hat⟩ := h
  cases hpc : (s.threads t).pc <;> simp only [hpc, WriterAt] at hat <;> simp only [next, hpc]
  case idle => exact ⟨hm, by simp [WriterAt, hpc]⟩
  case commitAcquire i =>
    obtain ⟨hne, hcov⟩ := hat
    split
    · next e he =>
      split_ifs with hv
      · exact ⟨by simpa using hm, by simpa [WriterAt] using ⟨hne, hcov⟩⟩
      · exact ⟨by simpa [Thread.abort] using hm, by simp [WriterAt, Thread.abort]⟩
      · refine ⟨by simpa using hm, ?_⟩
        simp only [State.setThread_self, WriterAt]
        refine ⟨hne, fun k hk e' he' => ?_⟩
        rcases Nat.lt_succ_iff_lt_or_eq.mp hk with hk | rfl
        · exact hcov k hk e' he'
        · rw [he] at he'; cases he'
          have := (ht.owner _).mp (not_not.mp hv)
          simpa [Thread.held, Thread.released, hpc] using this
    · next hn => exact ⟨by simpa using hm, by simpa [WriterAt] using ⟨hne, hcov.all orecOf hn⟩⟩
  case commitCas i ivt =>
    obtain ⟨hne, hcov⟩ := hat
    split
    · next e he =>
      split_ifs
      · refine ⟨by simpa using hm, ?_⟩
        simp only [State.setThread_self, WriterAt]
        refine ⟨hne, fun k hk e' he' => ?_⟩
        rcases Nat.lt_succ_iff_lt_or_eq.mp hk with hk | rfl
        · exact List.mem_append_left _ (hcov k hk e' he')
        · rw [he] at he'; cases he'; simp
      · exact ⟨by simpa [Thread.abort] using hm, by simp [WriterAt, Thread.abort]⟩
    · exact ⟨by simpa [Thread.abort] using hm, by simp [WriterAt, Thread.abort]⟩
  all_goals
    (try split) <;> (try split_ifs) <;>
    exact ⟨by simp_all [Thread.abort, Thread.reset], by simp_all [WriterAt, Thread.abort, Thread.reset]⟩

theorem absInsert_ne_nil (l : List WriteSetEntry) (e : WriteSetEntry) : absInsert l e ≠ [] := by
  unfold absInsert
  split
  · next h => simpa using List.ne_nil_of_mem (List.any_eq_true.mp h).choose_spec.1
  · simp

theorem writerOk_call {s : State} {t : Tid} (h : WriterOk orecOf (s.threads t))
    (hpc : (s.threads t).pc = .idle) (c : Call) (hc : (Action.call t c).EmptyThrow) :
    WriterOk orecOf ((call s t c).threads t) := by
  obtain ⟨hm, -⟩ := h
  cases c with
  | read x => exact ⟨by simpa [call] using hm, by simp [call, WriterAt]⟩
  | write x v mask => exact ⟨fun _ => by simpa [call] using absInsert_ne_nil _ _, by simp [call, WriterAt, hpc]⟩
  | commit =>
    simp only [call]
    split
    · next hmo => exact ⟨by simp [hmo], by simp [WriterAt, hpc]⟩
    · next hmo => exact ⟨fun _ => by simpa using hm hmo, by simp [WriterAt, hm hmo, Covered]⟩
  | rollback exc len => exact ⟨by simpa [call] using hm, by simpa [call, WriterAt] using hc t exc len rfl⟩

/-- The writer invariant of every thread, next to the lock invariant. -/
def WritersInv (s : State) : Prop := LocksInv orecOf s ∧ ∀ t, WriterOk orecOf (s.threads t)

theorem writersInv_step {s : State} (h : WritersInv orecOf s) {a : Action} (ha : a.EmptyThrow) :
    WritersInv orecOf (step orecOf s a) := by
  refine ⟨locksInv_step orecOf h.1 a, fun u => ?_⟩
  by_cases hu : u = a.thread
  · subst hu
    cases a with
    | call t c =>
      simp only [step]
      split
      · next hpc => exact writerOk_call orecOf (h.2 t) hpc c ha
      · exact h.2 t
    | next t => exact writerOk_next orecOf (h.2 t) (h.1.1 t)
  · rw [(frame_step orecOf s a).threads u hu]; exact h.2 u

/-- In these runs a word changes only under an orec whose holder is writing back. -/
theorem mem_step {s : State} (h : WritersInv orecOf s) (a : Action) {x : Nat}
    (hx : (step orecOf s a).mem.load x ≠ s.mem.load x) :
    version (step orecOf s a) (orecOf x) % 2 = 1 := by
  have hf := frame_step orecOf s a
  have ht := h.1.1 a.thread
  rcases hf.mem x with he | ⟨i, e, hpc, he, rfl⟩ | ⟨exc, len, i, hpc, hlen⟩
  · exact absurd he hx
  · have hat := (h.2 a.thread).pc
    simp only [WriterAt, hpc] at hat
    have hheld : orecOf e.addr ∈ (s.threads a.thread).held := by
      simpa [Thread.held, Thread.released, hpc] using
        hat.2 i (List.getElem?_eq_some_iff.mp he).1 e he
    have hv := (ht.owner _).mpr hheld
    have hkeep : (step orecOf s a).orecs (orecOf e.addr) = s.orecs (orecOf e.addr) := by
      rcases hf.orecs (orecOf e.addr) with h' | ⟨-, i', h'⟩ | ⟨⟨i', -, ⟨h', -⟩ | ⟨h', -⟩⟩, -⟩ <;>
        simp_all
    have hw := writing_step orecOf h.1 a hv (by simp [hpc, Pc.writing])
    rw [version_of_myLock (hkeep ▸ hv), if_pos hw]; omega
  · have hat := (h.2 a.thread).pc
    simp only [WriterAt, hpc] at hat
    exact absurd hat hlen

/-- What a step keeps for the reads: no orec's version goes down, and a word changes only
    under an orec at an odd version. -/
structure Keeps (s s' : State) : Prop where
  mono : ∀ o, version s o ≤ version s' o
  mem : ∀ x, s'.mem.load x ≠ s.mem.load x → version s' (orecOf x) % 2 = 1

theorem keeps_step {s : State} (h : WritersInv orecOf s) (a : Action) :
    Keeps orecOf s (step orecOf s a) :=
  ⟨version_le_step orecOf h.1 a, fun _ hx => mem_step orecOf h a hx⟩

end Version

/-! ## Reads -/

section Reads
variable (orecOf : Nat → Nat)

/-- The word `x`, read as `w` under version `v` of its orec: the orec stands for at least `v`,
    and while it stands for `v` exactly the word still holds `w`. -/
def Holds (s : State) (x v : Nat) (w : Word) : Prop :=
  2 * v ≤ version s (orecOf x) ∧ (version s (orecOf x) = 2 * v → s.mem.load x = w)

theorem Holds.keep {s s' : State} (hk : Keeps orecOf s s') {x v : Nat} {w : Word}
    (h : Holds orecOf s x v w) : Holds orecOf s' x v w := by
  obtain ⟨h1, h2⟩ := h
  have hle := hk.mono (orecOf x)
  refine ⟨h1.trans hle, fun he => ?_⟩
  have hw := h2 (by omega)
  by_contra hne
  have := hk.mem x (by rw [hw]; exact hne)
  omega

/-- Every read of the attempt held its value in `snap`, except reads from entry `i` on whose
    orec has moved past the logged version. -/
def Snapped (s : State) (th : Thread) (i : Nat) : Prop :=
  ∀ (j x : Nat) (w : Word) (r : Nanorec), th.reads[j]? = some (x, w) → th.nanorecs[j]? = some r →
    th.snap.load x = w ∨ i ≤ j ∧ 2 * r.v < version s r.o

theorem Snapped.keep {s s' : State} (hk : Keeps orecOf s s') {th : Thread} {i : Nat}
    (h : Snapped s th i) : Snapped s' th i :=
  fun j x w r hx hr => (h j x w r hx hr).imp id fun ⟨hj, hv⟩ => ⟨hj, hv.trans_le (hk.mono _)⟩

theorem Snapped.anti {s : State} {th : Thread} {i i' : Nat} (h : Snapped s th i) (hi : i' ≤ i) :
    Snapped s th i' :=
  fun j x w r hx hr => (h j x w r hx hr).imp id fun ⟨hj, hv⟩ => ⟨by omega, hv⟩

/-- Entry `i` of the read set validated: its orec still stands for the logged version. -/
theorem Snapped.next {s : State} {th : Thread} {i : Nat} {r : Nanorec} (h : Snapped s th i)
    (hr : th.nanorecs[i]? = some r) (hv : version s r.o = 2 * r.v) : Snapped s th (i + 1) := by
  intro j x w r' hx hr'
  refine (h j x w r' hx hr').imp id fun ⟨hj, hlt⟩ => ⟨?_, hlt⟩
  rcases Nat.eq_or_lt_of_le hj with rfl | hj
  · rw [hr] at hr'; cases hr'; omega
  · exact hj

/-- What the read steps owe at the thread's program counter. -/
def ReadAt (s : State) (th : Thread) : Prop :=
  match th.pc with
  | .readValue _ x ivt => locked ivt = false → 2 * ivt ≤ version s (orecOf x)
  | .readCheck _ x ivt tmp => locked ivt = false → Holds orecOf s x ivt tmp
  | .readValidate _ _ _ i | .commitValidate i => Snapped s th i
  | .commitAcquire _ | .commitCas _ _ => th.locks ≠ [] → Snapped s th 0
  | .commitWriteback _ => Snapped s th th.nanorecs.length
  | _ => True

/-- The read invariant of a thread: one orec entry per read, each read held under its logged
    version, and `ReadAt`. -/
structure ReadOk (s : State) (th : Thread) : Prop where
  length : th.reads.length = th.nanorecs.length
  logged : ∀ (j x : Nat) (w : Word) (r : Nanorec), th.reads[j]? = some (x, w) →
    th.nanorecs[j]? = some r →
    r.o = orecOf x ∧ locked r.v = false ∧ Holds orecOf s x r.v w
  pc : ReadAt orecOf s th

theorem ReadAt.keep {s s' : State} (hk : Keeps orecOf s s') {th : Thread} (h : ReadAt orecOf s th) :
    ReadAt orecOf s' th := by
  cases hpc : th.pc <;> simp only [ReadAt, hpc] at h ⊢
  all_goals first
    | trivial
    | exact h.keep orecOf hk
    | exact fun hl => (h hl).keep orecOf hk
    | exact fun hl => (h hl).trans (hk.mono _)

theorem ReadOk.keep {s s' : State} (hk : Keeps orecOf s s') {th : Thread} (h : ReadOk orecOf s th) :
    ReadOk orecOf s' th :=
  ⟨h.length, fun j x w r hx hr => (h.logged j x w r hx hr).imp_right fun h' =>
    h'.imp_right (Holds.keep orecOf hk), h.pc.keep orecOf hk⟩

theorem Keeps.refl (s : State) : Keeps orecOf s s :=
  ⟨fun _ => le_rfl, fun _ h => absurd rfl h⟩

theorem ReadOk.same {s s' : State} (hk : Keeps orecOf s s') {th th' : Thread}
    (h : ReadOk orecOf s th) (hr : th'.reads = th.reads) (hn : th'.nanorecs = th.nanorecs)
    (hat : ReadAt orecOf s th') : ReadOk orecOf s' th' := by
  have h' := h.keep orecOf hk
  exact ⟨hr ▸ hn ▸ h'.length, hr ▸ hn ▸ h'.logged, hat.keep orecOf hk⟩

theorem ReadOk.reset {s : State} {th : Thread} (hr : th.reads = []) (hn : th.nanorecs = [])
    (hat : ReadAt orecOf s th) : ReadOk orecOf s th :=
  ⟨by simp [hr, hn], fun j x w r hx _ => by simp [hr] at hx, hat⟩

/-- At the instant of `snap`, a read held under its version is in `snap`, or its orec has
    moved past the version for good. -/
theorem snapped_of_logged {s s' : State} (hk : Keeps orecOf s s') {th : Thread} (hs : th.snap = s.mem)
    (h : ∀ (j x : Nat) (w : Word) (r : Nanorec), th.reads[j]? = some (x, w) →
      th.nanorecs[j]? = some r →
      r.o = orecOf x ∧ Holds orecOf s x r.v w) : Snapped s' th 0 := by
  intro j x w r hx hr
  obtain ⟨ho, hle, hv⟩ := h j x w r hx hr
  rw [hs, ho]
  rcases Nat.eq_or_lt_of_le hle with he | hlt
  · exact .inl (hv he.symm)
  · exact .inr ⟨Nat.zero_le _, hlt.trans_le (hk.mono _)⟩

/-- The second sample of a read agrees with the first and is unlocked: the read joins the log,
    and `snap` takes memory. -/
theorem ReadOk.log {s s' : State} (hk : Keeps orecOf s s') {th : Thread} (h : ReadOk orecOf s th)
    {x ivt : Nat} {tmp : Word} (hl : locked ivt = false) (hh : Holds orecOf s x ivt tmp)
    {th' : Thread} (hr : th'.reads = th.reads ++ [(x, tmp)])
    (hn : th'.nanorecs = th.nanorecs ++ [⟨orecOf x, ivt⟩]) (hs : th'.snap = s.mem)
    (hat : ReadAt orecOf s th' ↔ Snapped s th' 0) : ReadOk orecOf s' th' := by
  have hlog : ∀ (j x' : Nat) (w : Word) (r : Nanorec), th'.reads[j]? = some (x', w) →
      th'.nanorecs[j]? = some r → r.o = orecOf x' ∧ locked r.v = false ∧ Holds orecOf s x' r.v w := by
    intro j x' w r hx hr'
    rw [hr] at hx; rw [hn] at hr'
    rcases Nat.lt_or_ge j th.reads.length with hj | hj
    · rw [List.getElem?_append_left hj] at hx
      rw [List.getElem?_append_left (h.length ▸ hj)] at hr'
      exact h.logged j x' w r hx hr'
    · rw [List.getElem?_append_right hj] at hx
      rw [List.getElem?_append_right (h.length ▸ hj), ← h.length] at hr'
      rcases Nat.eq_or_lt_of_le hj with rfl | hj'
      · simp only [Nat.sub_self, List.getElem?_cons_zero, Option.some.injEq, Prod.mk.injEq] at hx hr'
        obtain ⟨rfl, rfl⟩ := hx; subst hr'
        exact ⟨rfl, hl, hh⟩
      · rw [List.getElem?_eq_none (by simp; omega)] at hx; cases hx
  refine ⟨by simp [hr, hn, h.length], fun j x' w r hx hr' => ?_, ?_⟩
  · obtain ⟨ho, hl', hh'⟩ := hlog j x' w r hx hr'
    exact ⟨ho, hl', hh'.keep orecOf hk⟩
  · refine ReadAt.keep orecOf hk (hat.mpr (snapped_of_logged orecOf (Keeps.refl orecOf s) hs ?_))
    exact fun j x' w r hx hr' => (hlog j x' w r hx hr').imp_right And.right

theorem ReadOk.unlocked {s : State} {th : Thread} (h : ReadOk orecOf s th) {i : Nat} {r : Nanorec}
    (hr : th.nanorecs[i]? = some r) : locked r.v = false := by
  have hi : i < th.reads.length := h.length ▸ (List.getElem?_eq_some_iff.mp hr).1
  exact (h.logged i _ _ r (by rw [List.getElem?_eq_getElem hi]) hr).2.1

theorem locks_ne_nil {th : Thread} {i : Nat} (hw : th.writes ≠ [] ∧ Covered orecOf th.writes th.locks i)
    (hi : th.writes[i]? = none) : th.locks ≠ [] := by
  obtain ⟨e, he⟩ := List.exists_mem_of_ne_nil _ hw.1
  obtain ⟨k, hk, rfl⟩ := List.getElem_of_mem he
  have hki : k < i := hk.trans_le (List.getElem?_eq_none_iff.mp hi)
  exact List.ne_nil_of_mem (hw.2 k hki _ (List.getElem?_eq_getElem hk))

theorem readOk_next {s s' : State} (hk : Keeps orecOf s s') (hw : WritersInv orecOf s) {t : Tid}
    (h : ReadOk orecOf s (s.threads t)) : ReadOk orecOf s' ((next orecOf s t).threads t) := by
  have hat := h.pc
  have hwr := (hw.2 t).pc
  cases hpc : (s.threads t).pc <;> simp only [ReadAt, hpc] at hat <;>
    simp only [WriterAt, hpc] at hwr <;> simp only [next, hpc, State.setThread_self]
  case idle => exact h.keep orecOf hk
  case readSample op x =>
    exact h.same orecOf hk (by simp) (by simp) fun hl => by simp [ReadAt, version_of_unlocked hl]
  case readValue op x ivt =>
    exact h.same orecOf hk (by simp) (by simp) fun hl => by simpa [ReadAt] using ⟨hat hl, fun _ => rfl⟩
  case readCheck op x ivt tmp =>
    split_ifs with hc
    · obtain ⟨rfl, hl⟩ := hc
      simp only [Bool.not_eq_true', Bool.not_eq_eq_eq_not, Bool.not_true] at hl
      exact h.log orecOf hk hl (hat hl) (by simp) (by simp) (by simp) (by simp [ReadAt])
    · exact h.same orecOf hk (by simp) (by simp) (by simp [ReadAt])
  case readValidate op x tmp i =>
    split
    · next r hr =>
      split_ifs with hv
      · exact h.same orecOf hk (by simp) (by simp) (by simp [ReadAt, Thread.abort])
      · refine h.same orecOf hk (by simp) (by simp) ?_
        simp only [ReadAt, State.setThread_self]
        refine hat.next hr ?_
        rw [version_of_unlocked (by rw [not_not.mp hv]; exact h.unlocked orecOf hr), not_not.mp hv]
    · exact h.same orecOf hk (by simp) (by simp) (by simp [ReadAt])
  case commitAcquire i =>
    split
    · split_ifs
      all_goals
        exact h.same orecOf hk (by simp) (by simp)
          (by simp only [ReadAt, State.setThread_self, Thread.abort] <;> exact hat)
    · next hi =>
      exact h.same orecOf hk (by simp) (by simp) (by simpa [ReadAt] using hat (locks_ne_nil orecOf hwr hi))
  case commitCas i ivt =>
    split
    · split_ifs
      · refine h.same orecOf hk (by simp) (by simp) ?_
        simp only [ReadAt, State.setThread_self]
        exact fun _ => snapped_of_logged orecOf (Keeps.refl orecOf s) rfl
          fun j x w r hx hr => (h.logged j x w r hx hr).imp_right And.right
      · exact h.same orecOf hk (by simp) (by simp) (by simp [ReadAt, Thread.abort])
    · exact h.same orecOf hk (by simp) (by simp) (by simp [ReadAt, Thread.abort])
  case commitValidate i =>
    split
    · next r hr =>
      split_ifs with hv
      · exact h.same orecOf hk (by simp) (by simp) (by simp [ReadAt, Thread.abort])
      · refine h.same orecOf hk (by simp) (by simp) ?_
        simp only [ReadAt, State.setThread_self]
        refine hat.next hr ?_
        by_cases he : (s.orecs r.o).v = r.v
        · rw [version_of_unlocked (by rw [he]; exact h.unlocked orecOf hr), he]
        · obtain ⟨hm, hp⟩ := not_and_or.mp hv |>.resolve_left (not_not.mpr he) |> fun h' =>
            (not_or.mp h').imp not_not.mp not_not.mp
          rw [version_of_myLock hm, hpc, hp]; simp [Pc.writing]
    · next hi =>
      refine h.same orecOf hk (by simp) (by simp) ?_
      simp only [ReadAt, State.setThread_self]
      exact hat.anti (List.getElem?_eq_none_iff.mp hi)
  case commitWriteback i =>
    split
    all_goals
      exact h.same orecOf hk (by simp) (by simp) (by simp only [ReadAt, State.setThread_self] <;> exact hat)
  case rollbackWrites exc len i =>
    split
    all_goals exact h.same orecOf hk (by simp) (by simp) (by simp [ReadAt])
  case commitRelease i | rollbackRelease i =>
    split
    · exact h.same orecOf hk (by simp) (by simp) (by simp [ReadAt])
    · exact ReadOk.reset orecOf (by simp [Thread.reset]) (by simp [Thread.reset])
        (by simp [ReadAt, Thread.reset])

theorem readOk_call {s s' : State} (hk : Keeps orecOf s s') {t : Tid} (ht : ThreadOk orecOf s t)
    (h : ReadOk orecOf s (s.threads t)) (hpc : (s.threads t).pc = .idle) (c : Call) :
    ReadOk orecOf s' ((call s t c).threads t) := by
  cases c <;> simp only [call, State.setThread_self]
  case commit =>
    split
    · exact ReadOk.reset orecOf (by simp) (by simp) (by simp [ReadAt, hpc])
    · exact h.same orecOf hk (by simp) (by simp)
        (by simp [ReadAt, ht.outside (by simp [hpc, Pc.outsideCommit])])
  all_goals exact h.same orecOf hk rfl rfl (by simp [ReadAt, hpc])

/-! ## Runs -/

/-- The lock, writer and read invariants of every thread. -/
def ReadsInv (s : State) : Prop := WritersInv orecOf s ∧ ∀ t, ReadOk orecOf s (s.threads t)

theorem readsInv_init (m : Mem) : ReadsInv orecOf (init m) :=
  ⟨⟨locksInv_init orecOf m, fun _ => ⟨by simp [init, Thread.init], by simp [init, Thread.init, WriterAt]⟩⟩,
    fun _ => ReadOk.reset orecOf rfl rfl (by simp [init, Thread.init, ReadAt])⟩

theorem readsInv_step {s : State} (h : ReadsInv orecOf s) {a : Action} (ha : a.EmptyThrow) :
    ReadsInv orecOf (step orecOf s a) := by
  have hk := keeps_step orecOf h.1 a
  refine ⟨writersInv_step orecOf h.1 ha, fun u => ?_⟩
  by_cases hu : u = a.thread
  · subst hu
    cases a with
    | call t c =>
      by_cases hpc : (s.threads t).pc = .idle
      · have he : (step orecOf s (.call t c)).threads t = (call s t c).threads t := by
          simp [step, hpc]
        rw [Action.thread, he]
        exact readOk_call orecOf hk (h.1.1.1 t) (h.2 t) hpc c
      · have he : (step orecOf s (.call t c)).threads t = s.threads t := by simp [step, hpc]
        rw [Action.thread, he]
        exact (h.2 t).keep orecOf hk
    | next t => exact readOk_next orecOf hk h.1 (h.2 t)
  · rw [(frame_step orecOf s a).threads u hu]; exact (h.2 u).keep orecOf hk

/-- A state some run reaches in which every rollback called from between barriers carries an
    empty thrown range. -/
def ReachableNoThrow (s : State) : Prop :=
  ∃ m as, (∀ a ∈ as, Action.EmptyThrow a) ∧ exec orecOf (init m) as = s

theorem readsInv_reachable {s : State} (h : ReachableNoThrow orecOf s) : ReadsInv orecOf s := by
  obtain ⟨m, as, has, rfl⟩ := h
  suffices ∀ s, ReadsInv orecOf s → ReadsInv orecOf (exec orecOf s as) from
    this _ (readsInv_init orecOf m)
  induction as with
  | nil => exact fun _ hs => hs
  | cons a as ih =>
    exact fun s hs => ih (fun b hb => has b (List.mem_cons_of_mem _ hb)) _
      (readsInv_step orecOf hs (has a (List.mem_cons_self _ _)))

/-- Once every entry of the read set is past validation, every read of the attempt is in `snap`. -/
theorem Snapped.all {s : State} {th : Thread} {i : Nat} (h : Snapped s th i)
    (hl : th.reads.length = th.nanorecs.length) (hi : th.nanorecs.length ≤ i) :
    ∀ y w, (y, w) ∈ th.reads → th.snap.load y = w := by
  intro y w hm
  obtain ⟨j, hj, hjw⟩ := List.getElem_of_mem hm
  have hj' : j < th.nanorecs.length := hl ▸ hj
  rcases h j y w _ (by rw [List.getElem?_eq_getElem hj, hjw]) (List.getElem?_eq_getElem hj') with
    h' | ⟨hij, -⟩
  · exact h'
  · omega

/-- When `read_ro` returns (its validation has passed every entry of the read set), every word
    the attempt has read from memory held the value read for it at one instant: the read's
    second orec sample, where `snap` was taken. -/
theorem read_opacity {s : State} (h : ReachableNoThrow orecOf s) {t : Tid} {op : ReadOp}
    {x i : Nat} {tmp : Word} (hpc : (s.threads t).pc = .readValidate op x tmp i)
    (hi : (s.threads t).nanorecs.length ≤ i) :
    ∀ y w, (y, w) ∈ (s.threads t).reads → (s.threads t).snap.load y = w := by
  have hr := (readsInv_reachable orecOf h).2 t
  have hat := hr.pc
  simp only [ReadAt, hpc] at hat
  exact hat.all hr.length hi

/-- A run from memory of 2s with one orec per word. -/
def perWord (as : List Action) : State := exec (fun a => a) (init fun _ => 2#8) as

/-- Thread 0 reads word 0; thread 1 writes 7s to word 1 and commits (acquire, CAS, validate,
    writeback, release); thread 0 reads word 1 and validates both entries of its read set. -/
def readsAroundCommit : List Action :=
  .call 0 (.read 0) :: List.replicate 5 (.next 0) ++
    [.call 1 (.write 1 (fun _ => 7#8) (fun _ => 255#8)), .call 1 .commit] ++
    List.replicate 8 (.next 1) ++ .call 0 (.read 1) :: List.replicate 5 (.next 0)

/-- Both reads, the second after another thread's committed write, held their values when
    thread 0's validation of word 1 returns. -/
theorem read_opacity_around_commit :
    ReachableNoThrow (fun a => a) (perWord readsAroundCommit) ∧
    (∃ tmp, ((perWord readsAroundCommit).threads 0).pc = .readValidate .ro 1 tmp 2) ∧
    ((perWord readsAroundCommit).threads 0).nanorecs.length ≤ 2 ∧
    ((perWord readsAroundCommit).threads 0).reads.map (fun r => (r.1, r.2 0)) =
      [(0, 2#8), (1, 7#8)] ∧
    ∀ y w, (y, w) ∈ ((perWord readsAroundCommit).threads 0).reads →
      ((perWord readsAroundCommit).threads 0).snap.load y = w :=
  have h : ReachableNoThrow (fun a => a) (perWord readsAroundCommit) :=
    ⟨_, _, by simp [readsAroundCommit, Action.EmptyThrow], rfl⟩
  ⟨h, ⟨_, rfl⟩, by decide, by decide, read_opacity (fun a => a) h rfl (by decide)⟩

/-- When `commit_rw` reaches its writeback, every word the attempt has read still held the value
    read for it at the instant of its last CAS, where `snap` was taken. -/
theorem commit_reads_current {s : State} (h : ReachableNoThrow orecOf s) {t : Tid}
    (hpc : (s.threads t).pc = .commitWriteback 0) :
    ∀ y w, (y, w) ∈ (s.threads t).reads → (s.threads t).snap.load y = w := by
  have hr := (readsInv_reachable orecOf h).2 t
  have hat := hr.pc
  simp only [ReadAt, hpc] at hat
  exact hat.all hr.length le_rfl

/-- After `readsAroundCommit`, thread 0 writes 5s to word 0 and commits: it acquires orec 0,
    its validation passes orec 0 (now its own lock, at the version it read) and orec 1, and the
    writeback is next. -/
def commitAfterReads : List Action :=
  readsAroundCommit ++ [.next 0, .call 0 (.write 0 (fun _ => 5#8) (fun _ => 255#8)), .call 0 .commit] ++
    List.replicate 6 (.next 0)

theorem commit_reads_current_after_reads :
    ReachableNoThrow (fun a => a) (perWord commitAfterReads) ∧
    ((perWord commitAfterReads).threads 0).pc = .commitWriteback 0 ∧
    ((perWord commitAfterReads).threads 0).reads.map (fun r => (r.1, r.2 0)) =
      [(0, 2#8), (1, 7#8)] ∧
    ∀ y w, (y, w) ∈ ((perWord commitAfterReads).threads 0).reads →
      ((perWord commitAfterReads).threads 0).snap.load y = w :=
  have h : ReachableNoThrow (fun a => a) (perWord commitAfterReads) :=
    ⟨_, _, by simp [commitAfterReads, readsAroundCommit, Action.EmptyThrow], rfl⟩
  ⟨h, rfl, by decide, commit_reads_current (fun a => a) h rfl⟩

end Reads

end Rstm.Nano
