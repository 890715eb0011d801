import Rstm.Nano.Reads

/- Serializability of Nano: the committed attempts of a run, each taken at one instant, read
   what running them one at a time gives.

   A writer takes effect at the end of `commit_rw`'s acquire loop, when it holds the orec of
   every word of its redo log; a read-only attempt at the second orec sample of its last read.
   Neither instant is the commit: the writer's validation runs after it and may still fail,
   and `commit_ro` comes after the read-only attempt's last validation. So the order is
   recorded as the run goes (`ghostStep`, which no step reads): each writer joins a log at
   the end of its acquire loop, marked committed when its validation passes and aborted when
   it fails; each read attempt notes the length of the log at its read's second sample, and
   `commit_ro` records its reads at that place. `serialMem m log k` runs the committed writers
   among the first `k` entries one after the other from `m`, each writing its redo log back.

   A validating writer holds the orecs of its redo log, so no read of those words can
   validate while it does, and an entry later in the log writes none of them. A read logged
   at version `v` of its orec holds the serial value for as long as the orec stands for `v`
   (`SerialInv.live`): a writer that commits a write to the word moves the orec to an odd
   version for good. A read that validates is therefore the serial value at its attempt's
   place, and stays so. Memory is the serial memory but for the words a writeback has not
   reached yet (`SerialInv.mem`, `SerialInv.back`).

   Every run here carries empty thrown ranges in its rollbacks, as for `read_opacity`: a
   rollback that writes into a thrown range writes memory without holding the orec.

   `nano_serializable`: every committed writer read the serial memory at its place in the log,
   every committed read-only attempt read the serial memory at its place, and once every thread
   is between barriers memory is the serial memory of the whole log. -/
namespace Rstm.Nano

/-! ## The record of a run -/

/-- The fate of a writer past `commit_rw`'s acquire loop: its validation runs, has passed, or
    has failed. -/
inductive Status where
  | validating
  | committed
  | aborted
  deriving DecidableEq

/-- A writer at the end of `commit_rw`'s acquire loop, holding the orec of every word of its
    redo log: the words it has read with the values read, its redo log, and its fate. -/
structure Entry where
  tid : Tid
  reads : List (Nat × Word)
  writes : List WriteSetEntry
  status : Status

/-- A read-only attempt at `commit_ro`: the words it has read with the values read, and how
    many writers had ended their acquire loop at its last read's second sample. -/
structure RoEntry where
  reads : List (Nat × Word)
  key : Nat

/-- The ghost record of a run: the writers in the order they ended their acquire loop, the
    committed read-only attempts, and for each thread the length of the log at its last read's
    second sample and the place of its entry. -/
structure Ghost where
  log : List Entry
  ro : List RoEntry
  key : Tid → Nat
  slot : Tid → Nat

/-- The record of a run that has not begun. -/
def Ghost.init : Ghost := ⟨[], [], fun _ => 0, fun _ => 0⟩

/-- The entry at `j` given the fate `st`. -/
def Ghost.setStatus (g : Ghost) (j : Nat) (st : Status) : Ghost :=
  { g with log := g.log.modify (fun e => { e with status := st }) j }

/-- A committed writer's redo log written back over `m`; any other entry writes nothing. -/
def Entry.apply (m : Mem) (e : Entry) : Mem :=
  if e.status = .committed then writebackList e.writes m else m

/-- The memory the committed writers among the first `k` entries leave, run one after the other
    from `m`. -/
def serialMem (m : Mem) (log : List Entry) (k : Nat) : Mem := (log.take k).foldl Entry.apply m

section Record
variable (orecOf : Nat → Nat)

/-- What a step records, read off the acting thread's program counter before and after it: the
    second sample of a read (`readCheck` to `readValidate`), the end of the acquire loop
    (`commitAcquire` to `commitValidate`), the end of the validation (to `commitWriteback`) or
    its failure (to the rollback), and `commit_ro`. -/
def ghostStep (s : State) (g : Ghost) (a : Action) : Ghost :=
  let t := a.thread
  let th := s.threads t
  match a, th.pc, ((step orecOf s a).threads t).pc with
  | .call _ .commit, .idle, _ =>
    match th.mode with
    | .ro => { g with ro := g.ro ++ [⟨th.reads, g.key t⟩] }
    | .rw => g
  | .next _, .readCheck .., .readValidate .. =>
    { g with key := Function.update g.key t g.log.length }
  | .next _, .commitAcquire _, .commitValidate _ =>
    { g with
      log := g.log ++ [⟨t, th.reads, th.writes, .validating⟩]
      slot := Function.update g.slot t g.log.length }
  | .next _, .commitValidate _, .commitWriteback _ => g.setStatus (g.slot t) .committed
  | .next _, .commitValidate _, .rollbackWrites .. => g.setStatus (g.slot t) .aborted
  | _, _, _ => g

/-- A step and what it records. -/
def gstep (sg : State × Ghost) (a : Action) : State × Ghost :=
  (step orecOf sg.1 a, ghostStep orecOf sg.1 sg.2 a)

/-- The actions in order, with their record. -/
def gexec (sg : State × Ghost) (as : List Action) : State × Ghost := as.foldl (gstep orecOf) sg

theorem gexec_fst (s : State) (g : Ghost) (as : List Action) :
    (gexec orecOf (s, g) as).1 = exec orecOf s as := by
  induction as generalizing s g with
  | nil => rfl
  | cons a as ih => exact ih _ _

end Record

/-! ## Serial memory -/

theorem load_writebackList_of_not_mem {x : Nat} : ∀ {l : List WriteSetEntry} (m : Mem),
    (∀ w ∈ l, w.addr ≠ x) → (writebackList l m).load x = m.load x
  | [], _, _ => rfl
  | w :: l, m, h => by
    rw [writebackList, List.foldl_cons, ← writebackList,
      load_writebackList_of_not_mem _ fun v hv => h v (List.mem_cons_of_mem _ hv),
      Mem.load_doMaskedWrite_of_ne (h w (List.mem_cons_self _ _)).symm]

theorem load_writebackList_congr {x : Nat} : ∀ (l : List WriteSetEntry) {m m' : Mem},
    m.load x = m'.load x → (writebackList l m).load x = (writebackList l m').load x
  | [], _, _, h => h
  | w :: l, m, m', h => by
    refine load_writebackList_congr l ?_
    by_cases hw : x = w.addr
    · subst hw; simp only [Mem.load_doMaskedWrite_self, h]
    · rw [Mem.load_doMaskedWrite_of_ne hw, Mem.load_doMaskedWrite_of_ne hw, h]

theorem Entry.load_apply_congr (e : Entry) {x : Nat} {m m' : Mem} (h : m.load x = m'.load x) :
    (e.apply m).load x = (e.apply m').load x := by
  unfold Entry.apply; split
  · exact load_writebackList_congr _ h
  · exact h

theorem load_foldl_apply_congr {x : Nat} : ∀ (l : List Entry) {m m' : Mem},
    m.load x = m'.load x → (l.foldl Entry.apply m).load x = (l.foldl Entry.apply m').load x
  | [], _, _, h => h
  | e :: l, _, _, h => load_foldl_apply_congr l (e.load_apply_congr h)

theorem load_foldl_apply_of_not_mem {x : Nat} : ∀ {l : List Entry} (m : Mem),
    (∀ e ∈ l, e.status = .committed → ∀ w ∈ e.writes, w.addr ≠ x) →
      (l.foldl Entry.apply m).load x = m.load x
  | [], _, _ => rfl
  | e :: l, m, h => by
    rw [List.foldl_cons, load_foldl_apply_of_not_mem _ fun e' he' => h e' (List.mem_cons_of_mem _ he')]
    unfold Entry.apply; split
    · next hc => exact load_writebackList_of_not_mem _ (h e (List.mem_cons_self _ _) hc)
    · rfl

theorem serialMem_append {m : Mem} {log : List Entry} {e : Entry} (he : e.status ≠ .committed)
    (k : Nat) : serialMem m (log ++ [e]) k = serialMem m log k := by
  rw [serialMem, List.take_append_eq_append_take, List.foldl_append, serialMem]
  rcases (k - log.length).eq_zero_or_pos with hk | hk
  · rw [hk]; rfl
  · obtain ⟨n, hn⟩ := Nat.exists_eq_succ_of_ne_zero hk.ne'
    rw [hn, List.take_succ_cons]
    simp [Entry.apply, he]

theorem serialMem_modify_of_le {m : Mem} {log : List Entry} {f : Entry → Entry} {j k : Nat}
    (hk : k ≤ j) : serialMem m (log.modify f j) k = serialMem m log k := by
  rw [serialMem, List.take_modify, List.modify_eq_self (by simp; omega), serialMem]

theorem serialMem_modify_load {x : Nat} {f : Entry → Entry} :
    ∀ {log : List Entry} {j : Nat} (m : Mem) (k : Nat),
      (∀ e, log[j]? = some e → ∀ σ, ((f e).apply σ).load x = (e.apply σ).load x) →
      (serialMem m (log.modify f j) k).load x = (serialMem m log k).load x
  | [], _, _, _, _ => by rw [List.modify_eq_self (Nat.zero_le _)]
  | _ :: _, _, _, 0, _ => rfl
  | e :: log, 0, m, k + 1, h => by
    simp only [serialMem, List.modify_zero_cons, List.take_succ_cons, List.foldl_cons]
    exact load_foldl_apply_congr _ (h e (by simp) m)
  | e :: log, j + 1, m, k + 1, h => by
    simp only [serialMem, List.modify_succ_cons, List.take_succ_cons, List.foldl_cons]
    exact serialMem_modify_load (e.apply m) k fun e' he' => h e' (by simpa using he')

theorem serialMem_length_split {m : Mem} {log : List Entry} {j : Nat} {e : Entry}
    (he : log[j]? = some e) :
    serialMem m log log.length = (log.drop (j + 1)).foldl Entry.apply (e.apply (serialMem m log j)) := by
  obtain ⟨hj, rfl⟩ := List.getElem?_eq_some_iff.mp he
  conv_lhs => rw [serialMem, List.take_length, ← List.take_append_drop j log,
    List.drop_eq_getElem_cons hj]
  rw [List.foldl_append, List.foldl_cons, serialMem]

theorem drop_modify_of_lt {α : Type} {f : α → α} {n k : Nat} (l : List α) (h : n < k) :
    (l.modify f n).drop k = l.drop k := by
  ext1 i; rw [List.getElem?_drop, List.getElem?_drop, List.getElem?_modify_ne _ _ (by omega)]

theorem serialMem_of_length_le {m : Mem} {log : List Entry} {k : Nat} (hk : log.length ≤ k) :
    serialMem m log k = serialMem m log log.length := by
  rw [serialMem, serialMem, List.take_of_length_le hk, List.take_length]

/-- After the redo log is written back, a word holds its entry, if any, over what it held: one
    entry per word. -/
theorem load_writebackList_find : ∀ {l : List WriteSetEntry}, (l.map (·.addr)).Nodup →
    ∀ (m : Mem) (a : Nat), (writebackList l m).load a =
      match l.find? (fun x => x.addr == a) with
      | some x => maskedWrite (m.load a) x.val x.mask
      | none => m.load a
  | [], _, _, _ => rfl
  | x :: l, hn, m, a => by
    rw [List.map_cons, List.nodup_cons] at hn
    rw [writebackList, List.foldl_cons, ← writebackList]
    by_cases hx : x.addr = a
    · subst hx
      rw [load_writebackList_of_not_mem _ fun w hw h => hn.1 (List.mem_map.mpr ⟨w, hw, h⟩),
        Mem.load_doMaskedWrite_self]
      simp [List.find?_cons]
    · rw [load_writebackList_find hn.2, Mem.load_doMaskedWrite_of_ne (Ne.symm hx)]
      simp [List.find?_cons, hx]

/-! ## The thread's side -/

/-- Past `commit_rw`'s acquire loop: its validation, writeback or release. -/
def Pc.pastAcquire : Pc → Bool
  | .commitValidate _ | .commitWriteback _ | .commitRelease _ => true
  | _ => false

/-- In `commit_rw`'s validation. -/
def Pc.validating : Pc → Bool
  | .commitValidate _ => true
  | _ => false

/-- The entries of the redo log the writeback has not reached. -/
def Thread.pendingBack (th : Thread) : List WriteSetEntry :=
  match th.pc with
  | .commitWriteback i => th.writes.drop i
  | _ => []

/-- How many of the thread's reads its current validation pass has passed: all of them between
    passes, none in a rollback. -/
def Thread.validated (th : Thread) : Nat :=
  match th.pc with
  | .readValidate _ _ _ i | .commitValidate i => i
  | .rollbackWrites .. | .rollbackRelease _ => 0
  | _ => th.reads.length

/-- The entry of a thread past its acquire loop. -/
def Thread.entry (th : Thread) (t : Tid) : Entry :=
  ⟨t, th.reads, th.writes, if th.pc.validating then .validating else .committed⟩

/-- Where a thread's validated reads stand in the log: at its entry once past its acquire loop,
    at its last read's second sample before. -/
def Ghost.place (g : Ghost) (th : Thread) (t : Tid) : Nat :=
  if th.pc.pastAcquire then g.slot t else g.key t

/-- No thread in `commit_rw`'s validation with an entry below `k` holds the orec `o`. -/
def NotHeldBelow (s : State) (g : Ghost) (o k : Nat) : Prop :=
  ∀ u, (s.threads u).pc.validating → g.slot u < k → (s.orecs o).v ≠ myLock u

theorem Pc.pastAcquire_of_validating {pc : Pc} (h : pc.validating) : pc.pastAcquire := by
  cases pc <;> simp_all [Pc.validating, Pc.pastAcquire]

theorem Thread.pendingBack_of_pastAcquire {th : Thread} (h : th.pc.pastAcquire = false) :
    th.pendingBack = [] := by
  unfold Thread.pendingBack; split <;> simp_all [Pc.pastAcquire]

theorem Thread.pendingBack_writeback {th : Thread} {i : Nat} {e : WriteSetEntry}
    (hpc : th.pc = .commitWriteback i) (he : th.writes[i]? = some e) :
    th.pendingBack = e :: th.writes.drop (i + 1) := by
  obtain ⟨h, rfl⟩ := List.getElem?_eq_some_iff.mp he
  simp only [Thread.pendingBack, hpc]
  exact List.drop_eq_getElem_cons h

section Serial
variable (orecOf : Nat → Nat)

/-- What one step of `t` does, as the serial order sees it. -/
inductive Move (s s' : State) (g g' : Ghost) (t : Tid) : Prop
  /-- Nothing happens. -/
  | noop (hs : s' = s) (hg : g' = g)
  /-- Outside `commit_rw`'s validation, writeback and release: the step records nothing,
      keeps the reads and memory, and validates nothing. -/
  | quiet (hg : g' = g) (hr : (s'.threads t).reads = (s.threads t).reads)
      (hn : (s'.threads t).nanorecs = (s.threads t).nanorecs)
      (hv : (s'.threads t).validated ≤ (s.threads t).validated)
      (hp : (s.threads t).pc.pastAcquire = false) (hp' : (s'.threads t).pc.pastAcquire = false)
      (hm : s'.mem = s.mem)
  /-- The end of the writeback, or a release of `commit_rw`: the entry stays. -/
  | release (hg : g' = g) (hp : (s.threads t).pc.pastAcquire) (hp' : (s'.threads t).pc.pastAcquire)
      (hval : (s.threads t).pc.validating = false) (hval' : (s'.threads t).pc.validating = false)
      (hr : (s'.threads t).reads = (s.threads t).reads)
      (hn : (s'.threads t).nanorecs = (s.threads t).nanorecs)
      (hw : (s'.threads t).writes = (s.threads t).writes)
      (hv : (s'.threads t).validated = (s.threads t).validated)
      (hb : (s.threads t).pendingBack = []) (hb' : (s'.threads t).pendingBack = [])
      (hm : s'.mem = s.mem)
  /-- The end of a commit or rollback: the attempt is gone. -/
  | reset (hg : g' = g) (hr : (s'.threads t).reads = []) (hp' : (s'.threads t).pc.pastAcquire = false)
      (hval : (s.threads t).pc.validating = false) (hb : (s.threads t).pendingBack = [])
      (hm : s'.mem = s.mem)
  /-- `read_ro`'s validation passes entry `i`: its orec stands at the logged word. -/
  | passRead {op : ReadOp} {a : Nat} {tmp : Word} {i : Nat} {r : Nanorec} (hg : g' = g)
      (hpc : (s.threads t).pc = .readValidate op a tmp i) (hr : (s.threads t).nanorecs[i]? = some r)
      (hok : (s.orecs r.o).v = r.v)
      (hs : s' = s.setThread t { s.threads t with pc := .readValidate op a tmp (i + 1) })
  /-- `commit_rw`'s validation passes entry `i`: its orec stands at the logged word, or is `t`'s
      with the logged word in `p`. -/
  | passCommit {i : Nat} {r : Nanorec} (hg : g' = g) (hpc : (s.threads t).pc = .commitValidate i)
      (hr : (s.threads t).nanorecs[i]? = some r)
      (hok : (s.orecs r.o).v = r.v ∨ (s.orecs r.o).v = myLock t ∧ r.v = (s.orecs r.o).p)
      (hs : s' = s.setThread t { s.threads t with pc := .commitValidate (i + 1) })
  /-- A read's second sample agrees with the first and is unlocked: the read joins the log. -/
  | sample {op : ReadOp} {a ivt : Nat} {tmp : Word}
      (hpc : (s.threads t).pc = .readCheck op a ivt tmp) (hv : ivt = (s.orecs (orecOf a)).v)
      (hl : locked ivt = false)
      (hs : s' = s.setThread t { s.threads t with
        nanorecs := (s.threads t).nanorecs ++ [⟨orecOf a, ivt⟩]
        reads := (s.threads t).reads ++ [(a, tmp)]
        snap := s.mem
        pc := .readValidate op a tmp 0 })
      (hg : g' = { g with key := Function.update g.key t g.log.length })
  /-- The end of `commit_rw`'s acquire loop: the writer joins the log. -/
  | enter {i : Nat} (hpc : (s.threads t).pc = .commitAcquire i) (hi : (s.threads t).writes[i]? = none)
      (hs : s' = s.setThread t { s.threads t with pc := .commitValidate 0 })
      (hg : g' = { g with
        log := g.log ++ [⟨t, (s.threads t).reads, (s.threads t).writes, .validating⟩]
        slot := Function.update g.slot t g.log.length })
  /-- `commit_rw`'s validation has passed every entry: the writer is committed. -/
  | commit {i : Nat} (hpc : (s.threads t).pc = .commitValidate i)
      (hi : (s.threads t).nanorecs[i]? = none)
      (hs : s' = s.setThread t { s.threads t with pc := .commitWriteback 0 })
      (hg : g' = g.setStatus (g.slot t) .committed)
  /-- `commit_rw`'s validation fails: the writer is aborted. -/
  | abort {i : Nat} (hpc : (s.threads t).pc = .commitValidate i)
      (hs : s' = s.setThread t (s.threads t).abort) (hg : g' = g.setStatus (g.slot t) .aborted)
  /-- The writeback of entry `i` of the redo log. -/
  | writeback {i : Nat} {e : WriteSetEntry} (hg : g' = g)
      (hpc : (s.threads t).pc = .commitWriteback i) (he : (s.threads t).writes[i]? = some e)
      (hs : s' = { s with mem := s.mem.doMaskedWrite e.addr e.val e.mask }.setThread t
        { s.threads t with pc := .commitWriteback (i + 1) })
  /-- `commit_ro`: the read-only attempt is recorded at its place. -/
  | roCommit (hpc : (s.threads t).pc = .idle) (hm : (s.threads t).mode = .ro)
      (hs : s' = s.setThread t { s.threads t with nanorecs := [], reads := [] })
      (hg : g' = { g with ro := g.ro ++ [⟨(s.threads t).reads, g.key t⟩] })

theorem move_next {s : State} (h : ReadsInv orecOf s) (g : Ghost) (t : Tid) :
    Move orecOf s (next orecOf s t) g (ghostStep orecOf s g (.next t)) t := by
  have hwr := (h.1.2 t).pc
  have hlen := (h.2 t).length
  unfold ghostStep
  simp only [step, Action.thread]
  cases hpc : (s.threads t).pc <;> simp only [WriterAt, hpc] at hwr <;> simp only [next, hpc]
  case idle => exact .noop rfl rfl
  case readSample | readValue =>
    refine .quiet ?_ ?_ ?_ ?_ ?_ ?_ ?_ <;> simp [Thread.validated, Pc.pastAcquire, hpc]
  case readCheck op a ivt tmp =>
    by_cases hc : ivt = (s.orecs (orecOf a)).v ∧ (!locked ivt) = true
    · rw [if_pos hc]
      obtain ⟨rfl, hl⟩ := hc
      exact .sample hpc rfl (by simpa using hl) rfl (by simp)
    · rw [if_neg hc]
      refine .quiet ?_ ?_ ?_ ?_ ?_ ?_ ?_ <;> simp [Thread.validated, Pc.pastAcquire, hpc]
  case readValidate op a tmp i =>
    rcases hr : (s.threads t).nanorecs[i]? with _ | r <;> simp only []
    · refine .quiet ?_ ?_ ?_ ?_ ?_ ?_ ?_ <;> simp [Thread.validated, Pc.pastAcquire, hpc, hlen]
      simpa using hr
    · by_cases hv : (s.orecs r.o).v = r.v
      · simp only [hv, ne_eq, not_true_eq_false, if_false]
        exact .passRead (by simp) hpc hr hv rfl
      · simp only [hv, ne_eq, not_false_eq_true, if_true]
        refine .quiet ?_ ?_ ?_ ?_ ?_ ?_ ?_ <;> simp [Thread.validated, Pc.pastAcquire, hpc]
  case commitAcquire i =>
    rcases he : (s.threads t).writes[i]? with _ | e <;> simp only []
    · exact .enter hpc he rfl (by simp)
    · split_ifs <;> refine .quiet ?_ ?_ ?_ ?_ ?_ ?_ ?_ <;> simp [Thread.validated, Pc.pastAcquire, hpc]
  case commitCas i ivt =>
    rcases he : (s.threads t).writes[i]? with _ | e <;> simp only [] <;> try split_ifs
    all_goals refine .quiet ?_ ?_ ?_ ?_ ?_ ?_ ?_ <;> simp [Thread.validated, Pc.pastAcquire, hpc]
  case commitValidate i =>
    rcases hr : (s.threads t).nanorecs[i]? with _ | r <;> simp only []
    · exact .commit hpc hr rfl (by simp)
    · split_ifs with hv
      · exact .abort hpc rfl (by simp)
      · refine .passCommit (by simp) hpc hr ?_ rfl
        simpa only [not_and_or, not_or, not_not] using hv
  case commitWriteback i =>
    rcases he : (s.threads t).writes[i]? with _ | e <;> simp only []
    · refine .release (by simp) (by simp [Pc.pastAcquire, hpc]) (by simp [Pc.pastAcquire])
        (by simp [Pc.validating, hpc]) (by simp [Pc.validating]) (by simp) (by simp) (by simp)
        (by simp [Thread.validated, hpc]) ?_ (by simp [Thread.pendingBack]) (by simp)
      simpa [Thread.pendingBack, hpc] using he
    · exact .writeback (by simp) hpc he rfl
  case commitRelease i =>
    rcases hn : (s.threads t).locks[i]? with _ | n <;> simp only []
    · exact .reset (by simp) (by simp) (by simp [Pc.pastAcquire]) (by simp [Pc.validating, hpc])
        (by simp [Thread.pendingBack, hpc]) (by simp)
    · exact .release (by simp) (by simp [Pc.pastAcquire, hpc]) (by simp [Pc.pastAcquire])
        (by simp [Pc.validating, hpc]) (by simp [Pc.validating]) (by simp) (by simp) (by simp)
        (by simp [Thread.validated, hpc]) (by simp [Thread.pendingBack, hpc]) (by simp [Thread.pendingBack])
        (by simp)
  case rollbackWrites exc len i =>
    subst hwr
    refine .quiet ?_ ?_ ?_ ?_ ?_ ?_ ?_ <;> simp [Thread.validated, Pc.pastAcquire, hpc]
  case rollbackRelease i =>
    rcases hn : (s.threads t).locks[i]? with _ | n <;> simp only []
    · exact .reset (by simp) (by simp) (by simp [Pc.pastAcquire]) (by simp [Pc.validating, hpc])
        (by simp [Thread.pendingBack, hpc]) (by simp)
    · refine .quiet ?_ ?_ ?_ ?_ ?_ ?_ ?_ <;> simp [Thread.validated, Pc.pastAcquire, hpc]

/-- Every step is one of the moves. -/
theorem move_step {s : State} (h : ReadsInv orecOf s) (g : Ghost) (a : Action) :
    Move orecOf s (step orecOf s a) g (ghostStep orecOf s g a) a.thread := by
  cases a with
  | next t => exact move_next orecOf h g t
  | call t c =>
    unfold ghostStep
    simp only [step, Action.thread]
    cases hpc : (s.threads t).pc
    case idle =>
      cases c <;> simp only [call]
      case commit =>
        cases hm : (s.threads t).mode <;> simp only []
        · exact .roCommit hpc hm (by simp [hm]) (by simp)
        · refine .quiet ?_ ?_ ?_ ?_ ?_ ?_ ?_ <;> simp [Thread.validated, Pc.pastAcquire, hpc, hm]
      all_goals refine .quiet ?_ ?_ ?_ ?_ ?_ ?_ ?_ <;> simp [Thread.validated, Pc.pastAcquire, hpc]
    all_goals exact .noop rfl (by cases c <;> rfl)

end Serial

/-! ## Locks behind the log -/

section Held
variable (orecOf : Nat → Nat) {s s' : State} {t : Tid}

/-- A thread whose locks cover its whole redo log, none released, holds the orec of every write
    it logged. -/
theorem ReadsInv.held_of_covered (h : ReadsInv orecOf s)
    (hcov : Covered orecOf (s.threads t).writes (s.threads t).locks (s.threads t).writes.length)
    (hrel : (s.threads t).released = 0) {w : WriteSetEntry} (hw : w ∈ (s.threads t).writes) :
    (s.orecs (orecOf w.addr)).v = myLock t := by
  obtain ⟨k, hk, rfl⟩ := List.getElem_of_mem hw
  refine ((h.1.1.1 t).owner _).mpr ?_
  rw [Thread.held, hrel, List.drop_zero]
  exact hcov k hk _ (List.getElem?_eq_getElem hk)

/-- A thread in `commit_rw`'s validation or writeback holds the orec of every write it logged. -/
theorem ReadsInv.writes_held (h : ReadsInv orecOf s) {i : Nat}
    (hpc : (s.threads t).pc = .commitValidate i ∨ (s.threads t).pc = .commitWriteback i)
    {w : WriteSetEntry} (hw : w ∈ (s.threads t).writes) : (s.orecs (orecOf w.addr)).v = myLock t := by
  have hcov := (h.1.2 t).pc
  rcases hpc with hpc | hpc <;> simp only [WriterAt, hpc] at hcov <;>
    exact h.held_of_covered orecOf hcov.2 (by simp [Thread.released, hpc]) hw

theorem ReadsInv.acquired_held (h : ReadsInv orecOf s) {i : Nat}
    (hpc : (s.threads t).pc = .commitAcquire i) (hi : (s.threads t).writes[i]? = none)
    {w : WriteSetEntry} (hw : w ∈ (s.threads t).writes) : (s.orecs (orecOf w.addr)).v = myLock t := by
  have hcov := (h.1.2 t).pc
  simp only [WriterAt, hpc] at hcov
  exact h.held_of_covered orecOf (hcov.2.all orecOf hi) (by simp [Thread.released, hpc]) hw

/-- A word the writeback has still to write is under an orec its thread holds. -/
theorem ReadsInv.pendingBack_held (h : ReadsInv orecOf s) {w : WriteSetEntry}
    (hw : w ∈ (s.threads t).pendingBack) : (s.orecs (orecOf w.addr)).v = myLock t := by
  unfold Thread.pendingBack at hw
  split at hw
  · next i hpc => exact h.writes_held orecOf (.inr hpc) (List.mem_of_mem_drop hw)
  · simp at hw

theorem ThreadOk.released_le (ht : ThreadOk orecOf s t) {n v : Nat}
    (hr : ReleasesTo (s.threads t) (s.orecs n) n v) : v ≤ lockBit := by
  have hp := (ht.prior n hr.held).2
  rw [← (ht.prior n hr.held).1] at hp
  rcases hr.value with rfl | rfl
  exacts [release_le hp, (locked_eq_false_iff.mp hp).le]

theorem Frame.myLock_iff (hf : Frame t s s') (ht : ThreadOk orecOf s t) {u : Tid} (hu : u ≠ t)
    (o : Nat) : (s'.orecs o).v = myLock u ↔ (s.orecs o).v = myLock u := by
  by_cases he : s'.orecs o = s.orecs o
  · rw [he]
  · have := hf.orec_ne orecOf ht hu he
    exact iff_of_false this.2 this.1

theorem Frame.myLock_self (hf : Frame t s s') (ht : ThreadOk orecOf s t) {o : Nat}
    (h : (s'.orecs o).v = myLock t) :
    (s.orecs o).v = myLock t ∨ ∃ i, (s.threads t).pc = .commitCas i (s.orecs o).v := by
  rcases hf.orecs o with he | ⟨-, hc⟩ | ⟨hr, -⟩
  · exact .inl (he ▸ h)
  · exact .inr hc
  · exact absurd h (ne_myLock_of_le (ht.released_le orecOf hr) t)

theorem Frame.not_myLock (hf : Frame t s s') (ht : ThreadOk orecOf s t) {u : Tid}
    (hu : u ≠ t ∨ ∀ i ivt, (s.threads t).pc ≠ .commitCas i ivt) {o : Nat}
    (h : (s.orecs o).v ≠ myLock u) : (s'.orecs o).v ≠ myLock u := by
  rcases eq_or_ne u t with rfl | hne
  · intro h'
    rcases hf.myLock_self orecOf ht h' with h'' | ⟨i, hc⟩
    exacts [h h'', (hu.resolve_left (· rfl)) i _ hc]
  · rwa [Ne, hf.myLock_iff orecOf ht hne]

end Held

/-! ## What a move does to the serial order -/

section Moves
variable {orecOf : Nat → Nat} {s s' : State} {g g' : Ghost} {t : Tid}

theorem Move.key_of_ne (hm : Move orecOf s s' g g' t) {u : Tid} (hu : u ≠ t) : g'.key u = g.key u := by
  cases hm <;> subst_vars <;> simp [Ghost.setStatus, Function.update_noteq hu]

theorem Move.slot_of_ne (hm : Move orecOf s s' g g' t) {u : Tid} (hu : u ≠ t) :
    g'.slot u = g.slot u := by
  cases hm <;> subst_vars <;> simp [Ghost.setStatus, Function.update_noteq hu]

theorem Move.length_le (hm : Move orecOf s s' g g' t) : g.log.length ≤ g'.log.length := by
  cases hm <;> subst_vars <;> simp [Ghost.setStatus]

theorem Move.place_of_ne (hm : Move orecOf s s' g g' t) (hf : Frame t s s') {u : Tid} (hu : u ≠ t) :
    g'.place (s'.threads u) u = g.place (s.threads u) u := by
  simp only [Ghost.place, hf.threads u hu, hm.key_of_ne hu, hm.slot_of_ne hu]

end Moves

/-! ## The invariant -/

section Inv
variable (orecOf : Nat → Nat)

/-- The read of `x` as `w` stands at place `k` of the serial order, and no writer validating
    below `k` holds the orec of `x`, so it stays there. -/
def Settled (m : Mem) (s : State) (g : Ghost) (k x : Nat) (w : Word) : Prop :=
  (serialMem m g.log k).load x = w ∧ NotHeldBelow s g (orecOf x) k

/-- What thread `t`'s reads owe the serial order. A read of `x` as `w` under the orec word `r.v`
    holds at every place from the thread's key on while the orec stands for `r.v`; once validated,
    it is settled at the thread's place. -/
def Live (m : Mem) (s : State) (g : Ghost) (t : Tid) : Prop :=
  ∀ j x w r, (s.threads t).reads[j]? = some (x, w) → (s.threads t).nanorecs[j]? = some r →
    (version s r.o = 2 * r.v → ∀ k, g.key t ≤ k → (serialMem m g.log k).load x = w) ∧
    (j < (s.threads t).validated → Settled orecOf m s g (g.place (s.threads t) t) x w)

/-- The serializability invariant over memory `m` at the start, the state and its record. -/
structure SerialInv (m : Mem) (s : State) (g : Ghost) : Prop where
  reads : ReadsInv orecOf s
  key : ∀ t, g.key t ≤ g.log.length
  /-- A writer past its acquire loop has its entry at its slot. -/
  entry : ∀ t, (s.threads t).pc.pastAcquire →
    g.key t ≤ g.slot t ∧ g.log[g.slot t]? = some ((s.threads t).entry t)
  /-- No entry after a writer's that can still commit writes under an orec it holds. -/
  later : ∀ t, (s.threads t).pc.pastAcquire → ∀ j e, g.log[j]? = some e → g.slot t < j →
    e.status ≠ .aborted → ∀ w ∈ e.writes, (s.orecs (orecOf w.addr)).v ≠ myLock t
  /-- Memory is the serial memory, but for the words the writebacks have still to write... -/
  mem : ∀ x, (∀ t, ∀ w ∈ (s.threads t).pendingBack, w.addr ≠ x) →
    s.mem.load x = (serialMem m g.log g.log.length).load x
  /-- ... which they will bring to it. -/
  back : ∀ t, ∀ w ∈ (s.threads t).pendingBack, (serialMem m g.log g.log.length).load w.addr =
    (writebackList (s.threads t).pendingBack s.mem).load w.addr
  live : ∀ t, Live orecOf m s g t
  committed : ∀ j e, g.log[j]? = some e → e.status = .committed →
    ∀ xw ∈ e.reads, Settled orecOf m s g j xw.1 xw.2
  ro : ∀ r ∈ g.ro, r.key ≤ g.log.length ∧ ∀ xw ∈ r.reads, Settled orecOf m s g r.key xw.1 xw.2

/-- What a change of the serial memory at place `k` over the word `x` takes: the commit of a
    writer below `k` that logged a write to `x`, holds its orec, and now writes it back. -/
structure CommitsAt (s s' : State) (g : Ghost) (t : Tid) (k x : Nat) : Prop where
  validating : (s.threads t).pc.validating
  below : g.slot t < k
  held : (s.orecs (orecOf x)).v = myLock t
  pending : ∃ w ∈ (s'.threads t).pendingBack, w.addr = x
  odd : version s' (orecOf x) % 2 = 1

end Inv

section Moves
variable {orecOf : Nat → Nat} {m : Mem} {s s' : State} {g g' : Ghost} {t : Tid}

/-- Only a commit changes the serial memory, and only at the words it writes back. -/
theorem Move.commitsAt (hm : Move orecOf s s' g g' t) (hI : SerialInv orecOf m s g) {k x : Nat}
    (hx : (serialMem m g'.log k).load x ≠ (serialMem m g.log k).load x) :
    CommitsAt orecOf s s' g t k x := by
  cases hm
  case enter hg =>
    subst hg; exact (hx (by rw [serialMem_append (by simp)])).elim
  case abort i hpc hs hg =>
    subst hg
    have he := (hI.entry t (by simp [Pc.pastAcquire, hpc])).2
    refine (hx (serialMem_modify_load m k fun e he' σ => ?_)).elim
    rw [he] at he'; cases he'
    simp [Entry.apply, Thread.entry, Pc.validating, hpc]
  case commit i hpc hi hs hg =>
    subst hg hs
    have he := (hI.entry t (by simp [Pc.pastAcquire, hpc])).2
    by_cases hk : k ≤ g.slot t
    · exact (hx (by rw [Ghost.setStatus, serialMem_modify_of_le hk])).elim
    by_cases hw : ∃ w ∈ (s.threads t).writes, w.addr = x
    · obtain ⟨w, hw, rfl⟩ := hw
      have hheld := hI.reads.writes_held orecOf (.inl hpc) hw
      refine ⟨by simp [Pc.validating, hpc], by omega, hheld,
        ⟨w, by simpa [Thread.pendingBack] using hw, rfl⟩, ?_⟩
      rw [version_of_myLock (by simpa using hheld)]
      simp [Pc.writing, Nat.add_mod]
    · push_neg at hw
      refine (hx (serialMem_modify_load m k fun e he' σ => ?_)).elim
      rw [he] at he'; cases he'
      simp [Entry.apply, Thread.entry, Pc.validating, hpc, load_writebackList_of_not_mem _ hw]
  all_goals subst_vars; exact (hx rfl).elim

theorem SerialInv.place_le (hI : SerialInv orecOf m s g) (t : Tid) :
    g.place (s.threads t) t ≤ g.log.length := by
  unfold Ghost.place; split
  · next h => exact (List.getElem?_eq_some_iff.mp (hI.entry t h).2).1.le
  · exact hI.key t

theorem NotHeldBelow.of_unlocked {o k : Nat} (h : locked (s.orecs o).v = false) : NotHeldBelow s g o k :=
  fun u _ _ => ne_myLock_of_le (locked_eq_false_iff.mp h).le u

/-- Below a place inside the log, a step lets no validating writer take the orec. -/
theorem NotHeldBelow.step (hm : Move orecOf s s' g g' t) (hf : Frame t s s')
    (hI : SerialInv orecOf m s g) {o k : Nat} (hk : k ≤ g.log.length) (h : NotHeldBelow s g o k) :
    NotHeldBelow s' g' o k := by
  intro u hval hslot
  rcases eq_or_ne u t with rfl | hut
  · cases hm
    case noop hs hg => subst hs hg; exact h u hval hslot
    case passCommit hg hpc _ _ hs =>
      subst hs hg; simpa using h u (by simp [Pc.validating, hpc]) hslot
    case enter hg => subst hg; simp at hslot; omega
    case quiet _ _ _ _ _ hp' _ | reset _ _ hp' _ _ _ =>
      exact absurd (Pc.pastAcquire_of_validating hval) (by simp [hp'])
    case release _ _ _ _ hval' _ _ _ _ _ _ _ => simp [hval'] at hval
    case roCommit hpc _ hs _ => subst hs; simp [Pc.validating, hpc] at hval
    all_goals subst_vars; simp [Pc.validating] at hval
  · rw [hf.threads u hut] at hval
    rw [hm.slot_of_ne hut] at hslot
    rw [Ne, hf.myLock_iff orecOf (hI.reads.1.1.1 t) hut]
    exact h u hval hslot

theorem Settled.step (hm : Move orecOf s s' g g' t) (hf : Frame t s s') (hI : SerialInv orecOf m s g)
    {k x : Nat} {w : Word} (hk : k ≤ g.log.length) (h : Settled orecOf m s g k x w) :
    Settled orecOf m s' g' k x w := by
  refine ⟨?_, h.2.step hm hf hI hk⟩
  by_contra hne
  have c : CommitsAt orecOf s s' g t k x := hm.commitsAt hI (by rwa [h.1])
  exact h.2 t c.validating c.below c.held

/-- A read's claim on the serial memory outlives every step while its orec stands for its
    version. -/
theorem Move.current (hm : Move orecOf s s' g g' t) (hk : Keeps orecOf s s')
    (hI : SerialInv orecOf m s g) {x : Nat} {w : Word} {r : Nanorec}
    (hlog : r.o = orecOf x ∧ locked r.v = false ∧ Holds orecOf s x r.v w) {κ : Nat}
    (h : version s r.o = 2 * r.v → ∀ k, κ ≤ k → (serialMem m g.log k).load x = w) :
    version s' r.o = 2 * r.v → ∀ k, κ ≤ k → (serialMem m g'.log k).load x = w := by
  intro hv k hκ
  have h1 := hk.mono r.o
  have h2 : 2 * r.v ≤ version s r.o := hlog.1 ▸ hlog.2.2.1
  by_contra hne
  have c : CommitsAt orecOf s s' g t k x := hm.commitsAt hI (by rwa [h (by omega) k hκ])
  have := c.odd
  rw [← hlog.1, hv] at this
  omega

/-- A step that keeps the mover's reads and key and validates nothing new keeps its claims. -/
theorem Live.of_move (hm : Move orecOf s s' g g' t) (hf : Frame t s s') (hk : Keeps orecOf s s')
    (hI : SerialInv orecOf m s g) (hr : (s'.threads t).reads = (s.threads t).reads)
    (hn : (s'.threads t).nanorecs = (s.threads t).nanorecs) (hkey : g'.key t = g.key t)
    (hv : (s'.threads t).validated ≤ (s.threads t).validated)
    (hpl : (s'.threads t).validated = 0 ∨ g'.place (s'.threads t) t = g.place (s.threads t) t) :
    Live orecOf m s' g' t := by
  intro j x w r hx hr'
  rw [hr] at hx; rw [hn] at hr'
  obtain ⟨h1, h2⟩ := hI.live t j x w r hx hr'
  refine ⟨hkey ▸ hm.current hk hI ((hI.reads.2 t).logged j x w r hx hr') h1, fun hj => ?_⟩
  rcases hpl with h0 | hpl
  · omega
  · rw [hpl]; exact (h2 (by omega)).step hm hf hI (hI.place_le t)

/-- The mover's own claims after its step. -/
theorem live_self (hm : Move orecOf s s' g g' t) (hf : Frame t s s') (hk : Keeps orecOf s s')
    (hI : SerialInv orecOf m s g) : Live orecOf m s' g' t := by
  have hm0 := hm
  cases hm
  case noop hs hg => subst hs hg; exact hI.live t
  case quiet hg hr hn hv hp hp' _ =>
    subst hg; exact .of_move hm0 hf hk hI hr hn rfl hv (.inr (by simp [Ghost.place, hp, hp']))
  case release hg hp hp' _ _ hr hn _ hv _ _ _ =>
    subst hg; exact .of_move hm0 hf hk hI hr hn rfl hv.le (.inr (by simp [Ghost.place, hp, hp']))
  case reset _ hr _ _ _ _ =>
    intro j x w r hx; rw [hr] at hx; simp at hx
  case roCommit _ _ hs hg =>
    subst hs hg; intro j x w r hx; simp at hx
  case enter hpc _ hs hg =>
    subst hs hg
    exact .of_move hm0 hf hk hI (by simp) (by simp) rfl (by simp [Thread.validated])
      (.inl (by simp [Thread.validated]))
  case abort hpc hs hg =>
    subst hs hg
    exact .of_move hm0 hf hk hI (by simp) (by simp) rfl (by simp [Thread.validated])
      (.inl (by simp [Thread.validated]))
  case commit hpc hi hs hg =>
    subst hs hg
    have hlen := (hI.reads.2 t).length
    refine .of_move hm0 hf hk hI (by simp) (by simp) rfl ?_
      (.inr (by simp [Ghost.place, Ghost.setStatus, Pc.pastAcquire, hpc]))
    simp only [Thread.validated, State.setThread_self, hpc, hlen]
    exact List.getElem?_eq_none_iff.mp hi
  case writeback hg hpc _ hs =>
    subst hs hg
    exact .of_move hm0 hf hk hI (by simp) (by simp) rfl (by simp [Thread.validated, hpc])
      (.inr (by simp [Ghost.place, Pc.pastAcquire, hpc]))
  case passRead i r hg hpc hr hok hs =>
    subst g' s'
    intro j x w r' hx hr'
    simp only [State.setThread_self] at hx hr'
    obtain ⟨h1, h2⟩ := hI.live t j x w r' hx hr'
    have hlog := (hI.reads.2 t).logged j x w r' hx hr'
    refine ⟨hm0.current hk hI hlog h1, fun hj => ?_⟩
    simp only [Ghost.place, Thread.validated, State.setThread_self, hpc, Pc.pastAcquire] at hj h2 ⊢
    rcases Nat.lt_succ_iff_lt_or_eq.mp hj with hj | rfl
    · exact (h2 hj).step hm0 hf hI (hI.key t)
    · rw [hr] at hr'; cases hr'
      have hv : version s r.o = 2 * r.v := by rw [version_of_unlocked (hok ▸ hlog.2.1), hok]
      exact Settled.step hm0 hf hI (hI.key t)
        ⟨h1 hv _ le_rfl, .of_unlocked (by rw [← hlog.1, hok]; exact hlog.2.1)⟩
  case passCommit i r hg hpc hr hok hs =>
    subst g' s'
    have hen := hI.entry t (by simp [Pc.pastAcquire, hpc])
    have hsl : g.slot t ≤ g.log.length := (List.getElem?_eq_some_iff.mp hen.2).1.le
    intro j x w r' hx hr'
    simp only [State.setThread_self] at hx hr'
    obtain ⟨h1, h2⟩ := hI.live t j x w r' hx hr'
    have hlog := (hI.reads.2 t).logged j x w r' hx hr'
    refine ⟨hm0.current hk hI hlog h1, fun hj => ?_⟩
    simp only [Ghost.place, Thread.validated, State.setThread_self, hpc, Pc.pastAcquire] at hj h2 ⊢
    rcases Nat.lt_succ_iff_lt_or_eq.mp hj with hj | rfl
    · exact (h2 hj).step hm0 hf hI hsl
    · rw [hr] at hr'; cases hr'
      refine Settled.step hm0 hf hI hsl ?_
      rcases hok with hok | ⟨hl, hp⟩
      · have hv : version s r.o = 2 * r.v := by rw [version_of_unlocked (hok ▸ hlog.2.1), hok]
        exact ⟨h1 hv _ hen.1, .of_unlocked (by rw [← hlog.1, hok]; exact hlog.2.1)⟩
      · have hv : version s r.o = 2 * r.v := by simp [version_of_myLock hl, hpc, Pc.writing, hp]
        refine ⟨h1 hv _ hen.1, fun u _ hu => ?_⟩
        rw [← hlog.1, hl]
        intro he
        rw [← myLock_injective he] at hu
        exact lt_irrefl _ hu
  case sample a ivt tmp hpc hv hl hs hg =>
    subst hs hg
    have hlen := (hI.reads.2 t).length
    intro j x w r hx hr
    refine ⟨fun hver k hk' => ?_, fun hj => by simp [Thread.validated] at hj⟩
    simp only [State.setThread_self, Function.update_same] at hx hr hk'
    rcases lt_trichotomy j (s.threads t).reads.length with hj | rfl | hj
    · rw [List.getElem?_append_left hj] at hx
      rw [List.getElem?_append_left (hlen ▸ hj)] at hr
      exact hm0.current hk hI ((hI.reads.2 t).logged j x w r hx hr) (hI.live t j x w r hx hr).1 hver k
        ((hI.key t).trans hk')
    · simp only [List.getElem?_concat_length, Option.some.injEq, Prod.mk.injEq] at hx
      obtain ⟨rfl, rfl⟩ := hx
      have hat := (hI.reads.2 t).pc
      simp only [ReadAt, hpc] at hat
      rw [serialMem_of_length_le hk', ← hI.mem _ fun u w hw he => ?_]
      · exact (hat hl).2 (by rw [version_of_unlocked (hv ▸ hl), ← hv])
      · have := hI.reads.pendingBack_held orecOf hw
        rw [he, ← hv] at this
        exact ne_myLock_of_le (locked_eq_false_iff.mp hl).le u this
    · rw [List.getElem?_eq_none_iff.mpr (by simp; omega)] at hx; cases hx

theorem live_step (hm : Move orecOf s s' g g' t) (hf : Frame t s s') (hk : Keeps orecOf s s')
    (hI : SerialInv orecOf m s g) (u : Tid) : Live orecOf m s' g' u := by
  rcases eq_or_ne u t with rfl | hu
  · exact live_self hm hf hk hI
  · intro j x w r hx hr
    rw [hf.threads u hu] at hx hr
    obtain ⟨h1, h2⟩ := hI.live u j x w r hx hr
    refine ⟨hm.key_of_ne hu ▸ hm.current hk hI ((hI.reads.2 u).logged j x w r hx hr) h1, fun hj => ?_⟩
    rw [hm.place_of_ne hf hu]
    rw [hf.threads u hu] at hj
    exact (h2 hj).step hm hf hI (hI.place_le u)

/-- Once its validation has passed every read, a thread's reads are settled at its place. -/
theorem SerialInv.settled_of_validated (hI : SerialInv orecOf m s g) {u : Tid}
    (hv : (s.threads u).reads.length ≤ (s.threads u).validated) {xw : Nat × Word}
    (hxw : xw ∈ (s.threads u).reads) : Settled orecOf m s g (g.place (s.threads u) u) xw.1 xw.2 := by
  obtain ⟨j, hj, rfl⟩ := List.getElem_of_mem hxw
  have hn : j < (s.threads u).nanorecs.length := (hI.reads.2 u).length ▸ hj
  exact (hI.live u j _ _ _ (List.getElem?_eq_getElem hj) (List.getElem?_eq_getElem hn)).2 (by omega)

theorem committed_step (hm : Move orecOf s s' g g' t) (hf : Frame t s s')
    (hI : SerialInv orecOf m s g) : ∀ j e, g'.log[j]? = some e → e.status = .committed →
      ∀ xw ∈ e.reads, Settled orecOf m s' g' j xw.1 xw.2 := by
  have old : ∀ j e, g.log[j]? = some e → e.status = .committed →
      ∀ xw ∈ e.reads, Settled orecOf m s' g' j xw.1 xw.2 := fun j e he hc xw hxw =>
    (hI.committed j e he hc xw hxw).step hm hf hI (List.getElem?_eq_some_iff.mp he).1.le
  have hm0 := hm
  cases hm
  case enter hg =>
    subst g'
    intro j e he hc
    rcases lt_or_ge j g.log.length with hj | hj
    · rw [List.getElem?_append_left hj] at he; exact old j e he hc
    · rw [List.getElem?_append_right hj] at he
      rcases Nat.eq_zero_or_pos (j - g.log.length) with h0 | h0
      · rw [h0] at he; cases he; cases hc
      · rw [List.getElem?_eq_none_iff.mpr (by simp; omega)] at he; cases he
  case commit i hpc hi hs hg =>
    subst g' s'
    have hen := (hI.entry t (by simp [Pc.pastAcquire, hpc])).2
    intro j e he hc
    by_cases hj : g.slot t = j
    · subst hj
      simp only [Ghost.setStatus, List.getElem?_modify_eq, hen, Option.map_eq_map, Option.map_some',
        Option.some.injEq] at he
      subst he
      intro xw hxw
      have hv : (s.threads t).reads.length ≤ (s.threads t).validated := by
        simp only [Thread.validated, hpc, (hI.reads.2 t).length]
        exact List.getElem?_eq_none_iff.mp hi
      have := hI.settled_of_validated hv hxw
      simp only [Ghost.place, hpc, Pc.pastAcquire, if_true] at this
      exact this.step hm0 hf hI (List.getElem?_eq_some_iff.mp hen).1.le
    · simp only [Ghost.setStatus, List.getElem?_modify_ne _ _ hj] at he; exact old j e he hc
  case abort i hpc hs hg =>
    subst g' s'
    have hen := (hI.entry t (by simp [Pc.pastAcquire, hpc])).2
    intro j e he hc
    by_cases hj : g.slot t = j
    · subst hj
      simp only [Ghost.setStatus, List.getElem?_modify_eq, hen, Option.map_eq_map, Option.map_some',
        Option.some.injEq] at he
      subst he; cases hc
    · simp only [Ghost.setStatus, List.getElem?_modify_ne _ _ hj] at he; exact old j e he hc
  all_goals subst g'; exact old

theorem ro_step (hm : Move orecOf s s' g g' t) (hf : Frame t s s') (hI : SerialInv orecOf m s g) :
    ∀ r ∈ g'.ro, r.key ≤ g'.log.length ∧ ∀ xw ∈ r.reads, Settled orecOf m s' g' r.key xw.1 xw.2 := by
  have old : ∀ r ∈ g.ro, r.key ≤ g'.log.length ∧ ∀ xw ∈ r.reads, Settled orecOf m s' g' r.key xw.1 xw.2 :=
    fun r hr => ⟨(hI.ro r hr).1.trans hm.length_le,
      fun xw hxw => ((hI.ro r hr).2 xw hxw).step hm hf hI (hI.ro r hr).1⟩
  have hm0 := hm
  cases hm
  case roCommit hpc _ hs hg =>
    subst g' s'
    intro r hr
    rcases List.mem_append.mp hr with hr | hr
    · exact old r hr
    · rw [List.mem_singleton] at hr; subst hr
      refine ⟨hI.key t, fun xw hxw => ?_⟩
      have : Settled orecOf m s g (g.place (s.threads t) t) xw.1 xw.2 :=
        hI.settled_of_validated (by simp [Thread.validated, hpc]) hxw
      simp only [Ghost.place, hpc, Pc.pastAcquire] at this
      exact this.step hm0 hf hI (hI.key t)
  all_goals subst g'; exact old

theorem key_step (hm : Move orecOf s s' g g' t) (hI : SerialInv orecOf m s g) (u : Tid) :
    g'.key u ≤ g'.log.length := by
  have := hI.key u
  cases hm <;> subst g' <;> (try simp only [Ghost.setStatus, Function.update_apply,
    List.length_append, List.length_modify, List.length_singleton]) <;> (try split_ifs) <;> omega

theorem entry_step (hm : Move orecOf s s' g g' t) (hf : Frame t s s') (hI : SerialInv orecOf m s g)
    (u : Tid) (hp : (s'.threads u).pc.pastAcquire) :
    g'.key u ≤ g'.slot u ∧ g'.log[g'.slot u]? = some ((s'.threads u).entry u) := by
  rcases eq_or_ne u t with rfl | hu
  · cases hm
    case noop hs hg => subst hs hg; exact hI.entry u hp
    case quiet _ _ _ _ _ hp' _ | reset _ _ hp' _ _ _ => simp [hp'] at hp
    case release hg hp0 _ hval hval' hr _ hw _ _ _ _ =>
      subst g'
      rw [show (s'.threads u).entry u = (s.threads u).entry u by simp [Thread.entry, hr, hw, hval, hval']]
      exact hI.entry u hp0
    case passCommit hg hpc _ _ hs =>
      subst g' s'
      simpa [Thread.entry, Pc.validating, hpc] using hI.entry u (by simp [Pc.pastAcquire, hpc])
    case enter hpc _ hs hg =>
      subst g' s'
      exact ⟨by simpa using hI.key u, by simp [Thread.entry, Pc.validating]⟩
    case commit hpc _ hs hg =>
      subst g' s'
      have hen := hI.entry u (by simp [Pc.pastAcquire, hpc])
      exact ⟨hen.1, by simp [Ghost.setStatus, hen.2, Thread.entry, Pc.validating, hpc]⟩
    case writeback hg hpc _ hs =>
      subst g' s'
      simpa [Thread.entry, Pc.validating, hpc] using hI.entry u (by simp [Pc.pastAcquire, hpc])
    case passRead hpc _ _ hs | sample hpc _ _ hs _ | abort hpc hs _ | roCommit hpc _ hs _ =>
      subst s'; simp [Pc.pastAcquire, hpc] at hp
  · rw [hf.threads u hu] at hp ⊢
    rw [hm.key_of_ne hu, hm.slot_of_ne hu]
    have hen := hI.entry u hp
    refine ⟨hen.1, ?_⟩
    have hsl : g.slot u < g.log.length := (List.getElem?_eq_some_iff.mp hen.2).1
    rw [← hen.2]
    cases hm
    case enter hg => subst g'; exact List.getElem?_append_left hsl
    case commit hpc _ _ hg | abort hpc _ hg =>
      subst g'
      have hent := (hI.entry t (by simp [Pc.pastAcquire, hpc])).2
      have hne : g.slot t ≠ g.slot u := by
        intro h; rw [h, hen.2] at hent; exact hu (congrArg Entry.tid (Option.some.inj hent))
      exact List.getElem?_modify_ne _ _ hne
    all_goals subst g'; rfl

theorem later_step (hm : Move orecOf s s' g g' t) (hf : Frame t s s') (hI : SerialInv orecOf m s g)
    (u : Tid) (hp : (s'.threads u).pc.pastAcquire) (j : Nat) (e : Entry) (he : g'.log[j]? = some e)
    (hj : g'.slot u < j) (hst : e.status ≠ .aborted) (w : WriteSetEntry) (hw : w ∈ e.writes) :
    (s'.orecs (orecOf w.addr)).v ≠ myLock u := by
  have ht := hI.reads.1.1.1 t
  rcases eq_or_ne u t with rfl | hu
  · have hcas : (s.threads u).pc.pastAcquire → ∀ i ivt, (s.threads u).pc ≠ .commitCas i ivt :=
      fun h i ivt hc => by simp [hc, Pc.pastAcquire] at h
    cases hm
    case noop hs hg => subst hs hg; exact hI.later u hp j e he hj hst w hw
    case enter hg =>
      subst g'
      simp only [Function.update_same] at hj
      rw [List.getElem?_eq_none_iff.mpr (by simp; omega)] at he; cases he
    case quiet _ _ _ _ _ hp' _ | reset _ _ hp' _ _ _ => simp [hp'] at hp
    case release hg hp0 _ _ _ _ _ _ _ _ _ _ =>
      subst g'
      exact hf.not_myLock orecOf ht (.inr (hcas hp0)) (hI.later u hp0 j e he hj hst w hw)
    case passCommit hg hpc _ _ _ | writeback hg hpc _ _ =>
      subst g'
      have hp0 : (s.threads u).pc.pastAcquire := by simp [Pc.pastAcquire, hpc]
      exact hf.not_myLock orecOf ht (.inr (hcas hp0)) (hI.later u hp0 j e he hj hst w hw)
    case commit hpc _ _ hg =>
      subst g'
      have hp0 : (s.threads u).pc.pastAcquire := by simp [Pc.pastAcquire, hpc]
      simp only [Ghost.setStatus] at he hj
      rw [List.getElem?_modify_ne _ _ (by omega)] at he
      exact hf.not_myLock orecOf ht (.inr (hcas hp0)) (hI.later u hp0 j e he hj hst w hw)
    case passRead hpc _ _ hs | sample hpc _ _ hs _ | abort hpc hs _ | roCommit hpc _ hs _ =>
      subst s'; simp [Pc.pastAcquire, hpc] at hp
  · rw [hf.threads u hu] at hp
    rw [hm.slot_of_ne hu] at hj
    have hnot : ∀ e', g.log[j]? = some e' → e'.writes = e.writes → e'.status ≠ .aborted →
        (s'.orecs (orecOf w.addr)).v ≠ myLock u := fun e' he' hw' hst' =>
      hf.not_myLock orecOf ht (.inl hu) (hI.later u hp j e' he' hj hst' w (hw' ▸ hw))
    cases hm
    case enter hpc hi _ hg =>
      subst g'
      rcases lt_or_ge j g.log.length with hjl | hjl
      · rw [List.getElem?_append_left hjl] at he; exact hnot e he rfl hst
      · rw [List.getElem?_append_right hjl] at he
        rcases Nat.eq_zero_or_pos (j - g.log.length) with h0 | h0
        · rw [h0] at he; cases he
          refine hf.not_myLock orecOf ht (.inl hu) ?_
          rw [hI.reads.acquired_held orecOf hpc hi hw]
          exact fun h => hu (myLock_injective h).symm
        · rw [List.getElem?_eq_none_iff.mpr (by simp; omega)] at he; cases he
    case commit hpc _ _ hg | abort hpc _ hg =>
      subst g'
      by_cases hjs : g.slot t = j
      · subst hjs
        have hent := (hI.entry t (by simp [Pc.pastAcquire, hpc])).2
        simp only [Ghost.setStatus, List.getElem?_modify_eq, hent, Option.map_eq_map, Option.map_some',
          Option.some.injEq] at he
        subst he
        exact hnot _ hent rfl (by simp [Thread.entry, Pc.validating, hpc])
      · simp only [Ghost.setStatus, List.getElem?_modify_ne _ _ hjs] at he; exact hnot e he rfl hst
    all_goals subst g'; exact hnot e he rfl hst

/-- A move changes memory only at a word its writeback had still to write. -/
theorem Move.mem_load (hm : Move orecOf s s' g g' t) {a : Nat} (h : s'.mem.load a ≠ s.mem.load a) :
    ∃ e ∈ (s.threads t).pendingBack, e.addr = a := by
  cases hm
  case writeback i e hg hpc he hs =>
    subst s'
    by_cases ha : a = e.addr
    · exact ⟨e, by rw [Thread.pendingBack_writeback hpc he]; exact List.mem_cons_self _ _, ha.symm⟩
    · exact (h (Mem.load_doMaskedWrite_of_ne ha)).elim
  case quiet hm | release hm | reset hm => exact (h (by rw [hm])).elim
  all_goals subst_vars; exact (h rfl).elim

theorem mem_serial_step (hm : Move orecOf s s' g g' t) (hf : Frame t s s') (hI : SerialInv orecOf m s g)
    (x : Nat) (hx : ∀ u, ∀ w ∈ (s'.threads u).pendingBack, w.addr ≠ x) :
    s'.mem.load x = (serialMem m g'.log g'.log.length).load x := by
  have htop : (serialMem m g'.log g'.log.length).load x =
      (serialMem m g.log g.log.length).load x := by
    by_contra hne
    rw [← serialMem_of_length_le hm.length_le] at hne
    obtain ⟨w, hw, rfl⟩ := (hm.commitsAt hI hne).pending
    exact hx t w hw rfl
  rw [htop]
  have hother : ∀ u, u ≠ t → ∀ w ∈ (s.threads u).pendingBack, w.addr ≠ x :=
    fun u hu => hf.threads u hu ▸ hx u
  have gen : s'.mem = s.mem → (s.threads t).pendingBack = [] →
      s'.mem.load x = (serialMem m g.log g.log.length).load x := fun hmem hpb => by
    rw [hmem]
    refine hI.mem x fun u => ?_
    rcases eq_or_ne u t with rfl | hu
    · simp [hpb]
    · exact hother u hu
  cases hm
  case noop hs _ => subst hs; exact hI.mem x hx
  case quiet _ _ _ hp _ hmem => exact gen hmem (Thread.pendingBack_of_pastAcquire hp)
  case release _ hb _ hmem | reset _ hb hmem => exact gen hmem hb
  case writeback i e hg hpc he hs =>
    subst s'
    have hpb := Thread.pendingBack_writeback hpc he
    have hrest : ∀ w ∈ (s.threads t).writes.drop (i + 1), w.addr ≠ x := fun w hw =>
      hx t w (by simpa [Thread.pendingBack] using hw)
    by_cases hxe : e.addr = x
    · subst hxe
      rw [hI.back t e (by rw [hpb]; exact List.mem_cons_self _ _), hpb]
      exact (load_writebackList_of_not_mem _ hrest).symm
    · simp only [State.setThread_mem]
      rw [Mem.load_doMaskedWrite_of_ne (Ne.symm hxe)]
      refine hI.mem x fun u => ?_
      rcases eq_or_ne u t with rfl | hu
      · rw [hpb]; intro w hw
        rcases List.mem_cons.mp hw with rfl | hw
        exacts [hxe, hrest w hw]
      · exact hother u hu
  case passRead hpc _ _ hs | passCommit hpc _ _ hs | enter hpc _ hs _ | commit hpc _ hs _ |
      abort hpc hs _ | roCommit hpc _ hs _ =>
    subst s'; exact gen rfl (by simp [Thread.pendingBack, hpc])
  case sample hpc _ _ hs _ => subst s'; exact gen rfl (by simp [Thread.pendingBack, hpc])

/-- At `t`'s commit, the whole serial order brings each word `t` writes to what `t`'s redo log
    makes of memory. -/
theorem commit_top (hI : SerialInv orecOf m s g) {i : Nat} (hpc : (s.threads t).pc = .commitValidate i)
    {w : WriteSetEntry} (hw : w ∈ (s.threads t).writes) :
    (serialMem m (g.setStatus (g.slot t) .committed).log
      (g.setStatus (g.slot t) .committed).log.length).load w.addr =
      (writebackList (s.threads t).writes s.mem).load w.addr := by
  have hp : (s.threads t).pc.pastAcquire := by simp [Pc.pastAcquire, hpc]
  have hen := (hI.entry t hp).2
  have hheld := hI.reads.writes_held orecOf (.inl hpc) hw
  have hlater : ∀ e ∈ g.log.drop (g.slot t + 1), e.status = .committed →
      ∀ w' ∈ e.writes, w'.addr ≠ w.addr := by
    intro e he hc w' hw' heq
    obtain ⟨n, hn⟩ := List.mem_iff_getElem?.mp he
    rw [List.getElem?_drop] at hn
    exact hI.later t hp _ e hn (by omega) (by simp [hc]) w' hw' (by rw [heq]; exact hheld)
  have hbefore : (serialMem m g.log (g.slot t)).load w.addr = s.mem.load w.addr := by
    rw [hI.mem w.addr fun u w' hw' heq => ?_, serialMem_length_split hen,
      load_foldl_apply_of_not_mem _ hlater]
    · simp [Entry.apply, Thread.entry, Pc.validating, hpc]
    · have h1 := hI.reads.pendingBack_held orecOf hw'
      rw [heq, hheld] at h1
      obtain rfl := myLock_injective h1
      simp [Thread.pendingBack, hpc] at hw'
  have hen' : (g.setStatus (g.slot t) .committed).log[g.slot t]? =
      some { (s.threads t).entry t with status := .committed } := by
    simp [Ghost.setStatus, hen]
  rw [serialMem_length_split hen']
  simp only [Ghost.setStatus]
  rw [drop_modify_of_lt _ (Nat.lt_succ_self _), load_foldl_apply_of_not_mem _ hlater,
    serialMem_modify_of_le le_rfl]
  exact load_writebackList_congr _ hbefore

theorem back_step (hm : Move orecOf s s' g g' t) (hf : Frame t s s') (hI : SerialInv orecOf m s g)
    (u : Tid) (w : WriteSetEntry) (hw : w ∈ (s'.threads u).pendingBack) :
    (serialMem m g'.log g'.log.length).load w.addr =
      (writebackList (s'.threads u).pendingBack s'.mem).load w.addr := by
  rcases eq_or_ne u t with rfl | hu
  · cases hm
    case noop hs hg => subst hs hg; exact hI.back u w hw
    case writeback i e hg hpc he hs =>
      subst s' g'
      simp only [Thread.pendingBack, State.setThread_self] at hw ⊢
      have hpb := Thread.pendingBack_writeback hpc he
      rw [hI.back u w (by rw [hpb]; exact List.mem_cons_of_mem _ hw), hpb]
      rfl
    case commit hpc _ hs hg =>
      subst s' g'
      simp only [Thread.pendingBack, State.setThread_self, List.drop_zero] at hw ⊢
      exact commit_top hI hpc hw
    case quiet _ _ _ _ hp' _ | reset _ hp' _ _ _ =>
      simp [Thread.pendingBack_of_pastAcquire hp'] at hw
    case release _ hb' _ => simp [hb'] at hw
    case passRead hs | passCommit hs | enter hs _ | abort hs _ =>
      subst s'; simp [Thread.pendingBack] at hw
    case roCommit hpc _ hs _ => subst s'; simp [Thread.pendingBack, hpc] at hw
    case sample hs _ => subst s'; simp [Thread.pendingBack] at hw
  · rw [hf.threads u hu] at hw ⊢
    have hheld := hI.reads.pendingBack_held orecOf hw
    have htop : (serialMem m g'.log g'.log.length).load w.addr =
        (serialMem m g.log g.log.length).load w.addr := by
      by_contra hne
      rw [← serialMem_of_length_le hm.length_le] at hne
      exact hu (myLock_injective (hheld.symm.trans (hm.commitsAt hI hne).held))
    rw [htop, hI.back u w hw]
    refine load_writebackList_congr _ ?_
    by_contra hne
    obtain ⟨e, he, hea⟩ := hm.mem_load (Ne.symm hne)
    have := hI.reads.pendingBack_held orecOf he
    rw [hea, hheld] at this
    exact hu (myLock_injective this)

end Moves

/-! ## Runs -/

section Runs
variable (orecOf : Nat → Nat)

theorem serialInv_init (m : Mem) : SerialInv orecOf m (init m) Ghost.init where
  reads := readsInv_init orecOf m
  key _ := le_rfl
  entry _ h := by simp [init, Thread.init, Pc.pastAcquire] at h
  later _ h := by simp [init, Thread.init, Pc.pastAcquire] at h
  mem _ _ := rfl
  back _ w h := by simp [init, Thread.init, Thread.pendingBack] at h
  live _ j _ _ _ h := by simp [init, Thread.init] at h
  committed j _ h := by simp [Ghost.init] at h
  ro _ h := by simp [Ghost.init] at h

theorem serialInv_step {m : Mem} {s : State} {g : Ghost} (hI : SerialInv orecOf m s g) {a : Action}
    (ha : a.EmptyThrow) : SerialInv orecOf m (step orecOf s a) (ghostStep orecOf s g a) := by
  have hm := move_step orecOf hI.reads g a
  have hf := frame_step orecOf s a
  exact ⟨readsInv_step orecOf hI.reads ha, key_step hm hI, entry_step hm hf hI, later_step hm hf hI,
    mem_serial_step hm hf hI, back_step hm hf hI, live_step hm hf (keeps_step orecOf hI.reads.1 a) hI,
    committed_step hm hf hI, ro_step hm hf hI⟩

theorem serialInv_gexec {m : Mem} {as : List Action} (has : ∀ a ∈ as, a.EmptyThrow) :
    ∀ {sg : State × Ghost}, SerialInv orecOf m sg.1 sg.2 →
      SerialInv orecOf m (gexec orecOf sg as).1 (gexec orecOf sg as).2 := by
  induction as with
  | nil => exact id
  | cons a as ih =>
    exact fun hI => ih (fun b hb => has b (List.mem_cons_of_mem _ hb))
      (serialInv_step orecOf hI (has a (List.mem_cons_self _ _)))

/-- Nano is serializable. Along every run whose rollbacks carry empty thrown ranges, the log
    orders the writers that reached `commit_rw`'s validation; every committed one read, for each
    word, the value the committed writers before it leave there, and every `commit_ro` read what
    the committed writers before its place leave; and once no thread is inside a barrier, memory
    is what the committed writers leave, one after another. -/
theorem nano_serializable (m : Mem) {as : List Action} (has : ∀ a ∈ as, a.EmptyThrow) :
    let g := (gexec orecOf (init m, Ghost.init) as).2
    (∀ j e, g.log[j]? = some e → e.status = .committed →
      ∀ xw ∈ e.reads, (serialMem m g.log j).load xw.1 = xw.2) ∧
    (∀ r ∈ g.ro, r.key ≤ g.log.length ∧
      ∀ xw ∈ r.reads, (serialMem m g.log r.key).load xw.1 = xw.2) ∧
    ((∀ t, ((exec orecOf (init m) as).threads t).pc = .idle) →
      (exec orecOf (init m) as).mem = serialMem m g.log g.log.length) := by
  intro g
  have hI : SerialInv orecOf m (gexec orecOf (init m, Ghost.init) as).1 g :=
    serialInv_gexec orecOf has (serialInv_init orecOf m)
  rw [gexec_fst] at hI
  refine ⟨fun j e he hc xw hxw => (hI.committed j e he hc xw hxw).1,
    fun r hr => ⟨(hI.ro r hr).1, fun xw hxw => ((hI.ro r hr).2 xw hxw).1⟩,
    fun hidle => Mem.ext_load fun x => hI.mem x fun u w hw => ?_⟩
  simp [Thread.pendingBack, hidle u] at hw

/-- Thread 0 writes word 0 and commits; thread 1 then reads it and commits read-only. -/
def writerReader : List Action :=
  [.call 0 (.write 0 (fun _ => 5) (fun _ => 255)), .call 0 .commit,
    .next 0, .next 0, .next 0, .next 0, .next 0, .next 0, .next 0,
    .call 1 (.read 0), .next 1, .next 1, .next 1, .next 1, .next 1, .call 1 .commit]

/-- The writer is logged and committed, and the reader placed after it. -/
example : let g := (gexec (fun _ => 0) (init (fun _ => 0), Ghost.init) writerReader).2
    (g.log.map (·.status), g.ro.map (·.key)) = ([.committed], [1]) := by decide

theorem nano_serializable_writerReader :
    (∀ a ∈ writerReader, a.EmptyThrow) ∧
    let g := (gexec (fun _ => 0) (init (fun _ => 0), Ghost.init) writerReader).2
    (∀ j e, g.log[j]? = some e → e.status = .committed →
      ∀ xw ∈ e.reads, (serialMem (fun _ => 0) g.log j).load xw.1 = xw.2) ∧
    (∀ r ∈ g.ro, r.key ≤ g.log.length ∧
      ∀ xw ∈ r.reads, (serialMem (fun _ => 0) g.log r.key).load xw.1 = xw.2) ∧
    ((∀ t, ((exec (fun _ => 0) (init (fun _ => 0)) writerReader).threads t).pc = .idle) →
      (exec (fun _ => 0) (init (fun _ => 0)) writerReader).mem =
        serialMem (fun _ => 0) g.log g.log.length) :=
  have h : ∀ a ∈ writerReader, a.EmptyThrow := by simp [writerReader, Action.EmptyThrow]
  ⟨h, nano_serializable (fun _ => 0) (fun _ => 0) h⟩

/-! ## What a read returns -/

/-- `read_rw`'s merge of the logged bytes over the value read is the redo log written back over
    any memory in which the word holds that value. -/
theorem readResult_rw {th : Thread} (hn : (th.writes.map (·.addr)).Nodup) {m : Mem} {a : Nat}
    {tmp : Word} (hm : m.load a = tmp) : readResult th .rw a tmp = (writebackList th.writes m).load a := by
  rw [readResult, absFind, load_writebackList_find hn, hm]
  cases th.writes.find? (fun x => x.addr == a) <;> rfl

/-- What a read's return needs of a thread: one redo-log entry per word, and the word a read in
    its validation returns among the words it has read. -/
structure ReturnOk (th : Thread) : Prop where
  nodup : (th.writes.map (·.addr)).Nodup
  logged : ∀ op a tmp i, th.pc = .readValidate op a tmp i → (a, tmp) ∈ th.reads

theorem returnOk_next {s : State} {t : Tid} (h : ReturnOk (s.threads t)) :
    ReturnOk ((next orecOf s t).threads t) := by
  obtain ⟨hn, hl⟩ := h
  cases hpc : (s.threads t).pc <;> simp only [next, hpc] <;> (repeat' split) <;>
    exact ⟨by simp [hn], fun op a tmp i h => by (try simp at h) <;> simp_all⟩

theorem returnOk_call {s : State} {t : Tid} (h : ReturnOk (s.threads t))
    (hpc : (s.threads t).pc = .idle) (c : Call) : ReturnOk ((call s t c).threads t) := by
  obtain ⟨hn, hl⟩ := h
  cases c <;> simp only [call, State.setThread_self] <;> (try split) <;>
    refine ⟨?_, fun op a tmp i h => ?_⟩ <;> simp_all [absInsert_nodup]

theorem returnOk_step {s : State} (h : ∀ t, ReturnOk (s.threads t)) (a : Action) (u : Tid) :
    ReturnOk ((step orecOf s a).threads u) := by
  rcases eq_or_ne u a.thread with rfl | hu
  · cases a with
    | call t c =>
      simp only [step, Action.thread]
      split
      · next hpc => exact returnOk_call (h t) hpc c
      · exact h t
    | next t => exact returnOk_next orecOf (h t)
  · rw [(frame_step orecOf s a).threads u hu]; exact h u

theorem returnOk_gexec {as : List Action} :
    ∀ {sg : State × Ghost}, (∀ t, ReturnOk (sg.1.threads t)) →
      ∀ t, ReturnOk ((gexec orecOf sg as).1.threads t) := by
  induction as with
  | nil => exact id
  | cons a as ih => exact fun h => ih (returnOk_step orecOf h a)

/-- Every read returns the serial memory at its place: `read_ro` the word as the committed writers
    before its place leave it, `read_rw` that word with the attempt's own redo log written over
    it. -/
theorem nano_read_serial (m : Mem) {as : List Action} (has : ∀ a ∈ as, a.EmptyThrow) :
    let sg := gexec orecOf (init m, Ghost.init) as
    ∀ t op a tmp i, (sg.1.threads t).pc = .readValidate op a tmp i →
      (sg.1.threads t).nanorecs[i]? = none →
      readResult (sg.1.threads t) op a tmp =
        match op with
        | .ro => (serialMem m sg.2.log (sg.2.key t)).load a
        | .rw => (writebackList (sg.1.threads t).writes (serialMem m sg.2.log (sg.2.key t))).load a := by
  intro sg t op a tmp i hpc hi
  have hI : SerialInv orecOf m sg.1 sg.2 := serialInv_gexec orecOf has (serialInv_init orecOf m)
  have hR : ReturnOk (sg.1.threads t) :=
    returnOk_gexec orecOf (fun _ => ⟨by simp [init, Thread.init], by simp [init, Thread.init]⟩) t
  have hv : (sg.1.threads t).reads.length ≤ (sg.1.threads t).validated := by
    simp only [Thread.validated, hpc, (hI.reads.2 t).length]
    exact List.getElem?_eq_none_iff.mp hi
  have hs := (hI.settled_of_validated hv (hR.logged op a tmp i hpc)).1
  simp only [Ghost.place, hpc, Pc.pastAcquire] at hs
  cases op
  · exact hs.symm
  · exact readResult_rw hR.nodup hs

/-- Thread 0 writes word 0 and then reads it back. -/
def writeRead : List Action :=
  [.call 0 (.write 0 (fun _ => 5) (fun _ => 255)), .call 0 (.read 0), .next 0, .next 0, .next 0, .next 0]

/-- The read has passed its validation and returns the value written. -/
example : ((exec (fun _ => 0) (init (fun _ => 0)) writeRead).threads 0).pc =
      .readValidate .rw 0 (fun _ => 0) 1 ∧
    ((exec (fun _ => 0) (init (fun _ => 0)) writeRead).threads 0).nanorecs[1]? = none ∧
    readResult ((exec (fun _ => 0) (init (fun _ => 0)) writeRead).threads 0) .rw 0 (fun _ => 0) =
      fun _ => 5 :=
  ⟨rfl, rfl, by decide⟩

theorem nano_read_serial_writeRead :
    (∀ a ∈ writeRead, a.EmptyThrow) ∧
    let sg := gexec (fun _ => 0) (init (fun _ => 0), Ghost.init) writeRead
    ∀ t op a tmp i, (sg.1.threads t).pc = .readValidate op a tmp i →
      (sg.1.threads t).nanorecs[i]? = none →
      readResult (sg.1.threads t) op a tmp =
        match op with
        | .ro => (serialMem (fun _ => 0) sg.2.log (sg.2.key t)).load a
        | .rw => (writebackList (sg.1.threads t).writes (serialMem (fun _ => 0) sg.2.log (sg.2.key t))).load a :=
  have h : ∀ a ∈ writeRead, a.EmptyThrow := by simp [writeRead, Action.EmptyThrow]
  ⟨h, nano_read_serial (fun _ => 0) (fun _ => 0) h⟩

end Runs

end Rstm.Nano
