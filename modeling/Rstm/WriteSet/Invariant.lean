import Rstm.WriteSet.Index

/- The write set's invariant over every run of its operations, and what it
   means: the write set is a list of entries with distinct addresses, where an
   insert merges into the entry of its address or appends, and a find reads
   that entry back (`absInsert`, `absFind`).

   `WriteSet.Inv` is distinct addresses, the list shorter than its array,
   three index slots per entry, and the index invariant of
   `Rstm.WriteSet.Index`; with it, the shape of the index
   (`ilength = indexLength shift`, `1 ≤ shift ≤ 30`) that makes a rebuild
   double the index. Each operation returns and keeps it (`insert_total`,
   `reset_inv`, `rebuild_total`, `resize_inv`): a probe always meets a free
   slot, so no loop runs forever, and the only way an operation does not
   return is a rebuild at `shift = 1`, where `1 << 32` is undefined. That
   shift has `ilength = 2^64 - 2^31`, the overflowed length of
   `writeSet_new_overflow`. Insert and find refine the list model
   (`find_eq`), and so every run from the constructor does
   (`writeSet_ops_inv`). -/
namespace Rstm

/-! ## The list model -/

/-- The write set's content after an insert: the entry of the same address merged with
    `e`, or `e` appended. -/
def absInsert (l : List WriteSetEntry) (e : WriteSetEntry) : List WriteSetEntry :=
  if l.any (fun x => x.addr == e.addr) then
    l.map fun x => if x.addr = e.addr then x.update e else x
  else l ++ [e]

/-- What a find answers on the content `l`: on a hit, the logged bytes merged into `e`. -/
def absFind (l : List WriteSetEntry) (e : WriteSetEntry) : Bool × WriteSetEntry :=
  match l.find? (fun x => x.addr == e.addr) with
  | some x => (true, { e with val := maskedWrite e.val x.val x.mask })
  | none => (false, e)

theorem find?_addr {list : List WriteSetEntry} (hn : (list.map (·.addr)).Nodup) {i : Nat}
    {l : WriteSetEntry} (hi : list[i]? = some l) :
    list.find? (fun x => x.addr == l.addr) = some l := by
  cases hf : list.find? (fun x => x.addr == l.addr) with
  | none => exact absurd (List.getElem?_mem hi) (by simpa using List.find?_eq_none.mp hf l)
  | some x =>
    obtain ⟨hx, as, bs, rfl, -⟩ := List.find?_eq_some.mp hf
    have hxa : x.addr = l.addr := by simpa using hx
    have hk : (as ++ x :: bs)[as.length]? = some x := by
      rw [List.getElem?_append_right (Nat.le_refl _)]; simp
    rw [index_eq_of_addr hn hk hi hxa] at hk
    rw [hk] at hi
    exact congrArg some (Option.some_inj.mp hi)

theorem map_addr_modify_update (e : WriteSetEntry) :
    ∀ (list : List WriteSetEntry) (i : Nat),
      (list.modify (fun l => l.update e) i).map (·.addr) = list.map (·.addr)
  | [], i => by cases i <;> rfl
  | l :: ls, 0 => by simp [List.modify, WriteSetEntry.update]
  | l :: ls, i + 1 => by
    simp only [List.modify, List.modifyTailIdx, List.map_cons, List.cons.injEq, true_and]
    exact map_addr_modify_update e ls i

/-! ## The invariant -/

section Inv
variable (hash : Nat → Nat → Nat)

/-- The write-set invariant. -/
structure WriteSet.Inv (ws : WriteSet) : Prop where
  index : IndexInv hash ws.index ws.ilength ws.version ws.list
  version_pos : 0 < ws.version
  version_le : ∀ h, (ws.index h).version ≤ ws.version
  nodup : (ws.list.map (·.addr)).Nodup
  lsize_lt : ws.lsize < ws.capacity
  load : 3 * ws.lsize < ws.ilength
  shift_pos : 1 ≤ ws.shift
  shift_le : ws.shift ≤ 30
  ilength_eq : ws.ilength = indexLength ws.shift

variable {hash}

theorem IndexInv.of_map_addr {index : Nat → IndexT} {n v : Nat} {list list' : List WriteSetEntry}
    (hI : IndexInv hash index n v list) (he : list'.map (·.addr) = list.map (·.addr)) :
    IndexInv hash index n v list' := by
  have key : ∀ (i : Nat) (l : WriteSetEntry), list[i]? = some l →
      ∃ l', list'[i]? = some l' ∧ l'.addr = l.addr := fun i l hl => by
      have : (list'.map (·.addr))[i]? = some l.addr := by rw [he]; simp [hl]
      simp only [List.getElem?_map, Option.map_eq_some'] at this
      exact this
  have key' : ∀ (i : Nat) (l' : WriteSetEntry), list'[i]? = some l' →
      ∃ l, list[i]? = some l ∧ l.addr = l'.addr := fun i l' hl => by
      have : (list.map (·.addr))[i]? = some l'.addr := by rw [← he]; simp [hl]
      simp only [List.getElem?_map, Option.map_eq_some'] at this
      exact this
  refine ⟨hI.lt, fun h hv => ?_, hI.unique, fun i l' hl' => ?_⟩
  · obtain ⟨l, hl, ha⟩ := hI.slot h hv
    obtain ⟨l', hl', ha'⟩ := key _ _ hl
    exact ⟨l', hl', ha.trans ha'.symm⟩
  · obtain ⟨l, hl, ha⟩ := key' i l' hl'
    rw [← ha]
    exact hI.entry i l hl

theorem indexLength_four_le {s : Nat} (h1 : 1 ≤ s) (h30 : s ≤ 30) : 4 ≤ indexLength s := by
  interval_cases s <;> decide

theorem indexLength_double_le {s : Nat} (h2 : 2 ≤ s) (h30 : s ≤ 30) :
    2 * indexLength s ≤ indexLength (s - 1) := by
  interval_cases s <;> decide

/-- `rebuild` needs of the write set only distinct addresses, a list short enough for the
    doubled index, and the shape of the index. It then returns a write set with the invariant,
    unless the index is at `shift = 1`, where doubling it is undefined. -/
theorem rebuild_total {ws : WriteSet} (hv : 0 < ws.version) (hn : (ws.list.map (·.addr)).Nodup)
    (hcap : ws.lsize < ws.capacity) (hload : 3 * ws.lsize < ws.ilength + 3) (hs1 : 1 ≤ ws.shift)
    (hs30 : ws.shift ≤ 30) (hil : ws.ilength = indexLength ws.shift)
    (hlt : ∀ n a, 0 < n → hash n a < n) :
    (∃ ws', ws.rebuild hash = .ok ws' ∧ ws'.Inv hash ∧ ws'.list = ws.list) ∨
      (ws.rebuild hash = .error .undefined ∧ ws.shift = 1) := by
  simp only [WriteSet.lsize] at hcap hload
  by_cases h1 : ws.shift = 1
  · exact .inr ⟨by simp [WriteSet.rebuild, hv.ne', h1, doubleIndexLength, Except.bind], h1⟩
  obtain ⟨s, hs⟩ : ∃ s, ws.shift = s + 2 := ⟨ws.shift - 2, by omega⟩
  rw [hs] at hs30 hil
  have h4 := indexLength_four_le (s := s + 2) (by omega) hs30
  have hdbl : 2 * indexLength (s + 2) ≤ indexLength (s + 1) :=
    indexLength_double_le (s := s + 2) (by omega) hs30
  obtain ⟨index', hr, hI, hle⟩ := @reindex_inv hash (indexLength (s + 1)) ws.version
    (fun a => hlt _ a (by omega)) ws.list [] _ (IndexInv.fresh hv) (by simpa using hn)
    (by simp; omega) (fun _ => by simp [IndexT.fresh])
  simp only [List.length_nil, List.nil_append] at hr hI
  refine .inl ⟨{ ws with index := index', shift := s + 1, ilength := indexLength (s + 1) },
    by simp [WriteSet.rebuild, hv.ne', hs, doubleIndexLength, Except.bind, hr, Except.map],
    ⟨hI, hv, hle, hn, hcap, by simp [WriteSet.lsize]; omega, by simp, by simp; omega, rfl⟩, rfl⟩

theorem resize_inv {ws : WriteSet} (hI : ws.Inv hash) : ws.resize.Inv hash :=
  { hI with lsize_lt := by have := hI.lsize_lt; simp only [WriteSet.resize, WriteSet.lsize] at this ⊢; omega }

theorem modify_update_eq_map {list : List WriteSetEntry} (hn : (list.map (·.addr)).Nodup)
    {i : Nat} {l e : WriteSetEntry} (hi : list[i]? = some l) (ha : l.addr = e.addr) :
    list.modify (fun x => x.update e) i =
      list.map fun x => if x.addr = e.addr then x.update e else x := by
  apply List.ext_getElem?
  intro k
  rw [List.getElem?_modify, List.getElem?_map]
  cases hk : list[k]? with
  | none => rfl
  | some x =>
    by_cases hik : i = k
    · subst hik
      rw [hi] at hk
      cases hk
      simp [ha]
    · have hx : x.addr ≠ e.addr := fun hx => hik (index_eq_of_addr hn hi hk (ha.trans hx.symm))
      simp [hik, hx]

/-- The end of an insert that appended keeps the invariant, from a list one entry past it,
    unless it rebuilds an index at `shift = 1`. -/
theorem grow_total {ws : WriteSet}
    (hI : IndexInv hash ws.index ws.ilength ws.version ws.list)
    (hv : 0 < ws.version) (hle : ∀ h, (ws.index h).version ≤ ws.version)
    (hn : (ws.list.map (·.addr)).Nodup) (hcap : ws.lsize ≤ ws.capacity) (hc : 0 < ws.capacity)
    (hload : 3 * ws.lsize < ws.ilength + 3) (hs1 : 1 ≤ ws.shift) (hs30 : ws.shift ≤ 30)
    (hil : ws.ilength = indexLength ws.shift) (hlt : ∀ n a, 0 < n → hash n a < n) :
    (∃ ws', ws.grow hash = .ok ws' ∧ ws'.Inv hash ∧ ws'.list = ws.list) ∨
      (ws.grow hash = .error .undefined ∧ ws.shift = 1 ∧ ws.ilength ≤ 3 * ws.lsize) := by
  set ws₂ := if ws.lsize = ws.capacity then ws.resize else ws with hws₂
  have h₂ : ws₂.index = ws.index ∧ ws₂.list = ws.list ∧ ws₂.ilength = ws.ilength ∧
      ws₂.shift = ws.shift ∧ ws₂.version = ws.version ∧ ws₂.lsize < ws₂.capacity := by
    rw [hws₂]; split <;> simp [WriteSet.resize, WriteSet.lsize] at * <;> omega
  obtain ⟨hi₂, hl₂, hil₂, hs₂, hv₂, hc₂⟩ := h₂
  simp only [WriteSet.grow, ← hws₂]
  split
  · next hlo =>
    rcases rebuild_total (by rw [hv₂]; exact hv) (by rw [hl₂]; exact hn) hc₂
      (by simp only [WriteSet.lsize, hl₂, hil₂] at hload ⊢; omega) (by rw [hs₂]; exact hs1)
      (by rw [hs₂]; exact hs30) (by rw [hil₂, hs₂]; exact hil) hlt with ⟨ws', h, hI', hl'⟩ | ⟨h, h1⟩
    · exact .inl ⟨ws', h, hI', hl'.trans hl₂⟩
    · exact .inr ⟨h, hs₂ ▸ h1, by simpa [WriteSet.lsize, hil₂, hl₂] using hlo⟩
  · next hlo =>
    exact .inl ⟨ws₂, rfl, ⟨by rw [hi₂, hil₂, hv₂, hl₂]; exact hI, by rw [hv₂]; exact hv,
      by rw [hi₂, hv₂]; exact hle, by rw [hl₂]; exact hn, hc₂, by omega, by rw [hs₂]; exact hs1,
      by rw [hs₂]; exact hs30, by rw [hil₂, hs₂]; exact hil⟩, hl₂⟩

/-- An insert returns the write set of the list model's insert, with the invariant, unless
    the entry is new and its `grow` rebuilds an index at `shift = 1`. -/
theorem insert_total {ws : WriteSet} (hI : ws.Inv hash) (hlt : ∀ n a, 0 < n → hash n a < n)
    (e : WriteSetEntry) :
    (∃ ws', ws.insert hash e = .ok ws' ∧ ws'.Inv hash ∧ ws'.list = absInsert ws.list e) ∨
      (ws.insert hash e = .error .undefined ∧ ws.shift = 1 ∧ ws.ilength ≤ 3 * (ws.lsize + 1)) := by
  have hload := hI.load
  have hcap := hI.lsize_lt
  simp only [WriteSet.lsize] at hload hcap
  have hh := hlt ws.ilength e.addr (by omega)
  by_cases hmem : ∃ (i : Nat) (l : WriteSetEntry), ws.list[i]? = some l ∧ l.addr = e.addr
  · obtain ⟨i, l, hi, ha⟩ := hmem
    obtain ⟨h0, hp, hcur, hidx⟩ := hI.index.probe_present hI.nodup hi (ha ▸ hh)
    rw [ha] at hp
    have hmap := map_addr_modify_update e ws.list i
    have hany : ws.list.any (fun x => x.addr == e.addr) = true :=
      List.any_eq_true.mpr ⟨l, List.getElem?_mem hi, by simp [ha]⟩
    refine .inl ⟨{ ws with list := ws.list.modify (fun l => l.update e) i },
      by simp only [WriteSet.insert, WriteSet.probeFor, hp, hcur, if_true, hidx],
      { hI with
        index := hI.index.of_map_addr hmap
        nodup := by rw [hmap]; exact hI.nodup
        lsize_lt := by simpa [WriteSet.lsize] using hI.lsize_lt
        load := by simpa [WriteSet.lsize] using hI.load }, ?_⟩
    simp only [absInsert, hany, if_true]
    exact modify_update_eq_map hI.nodup hi ha
  · push_neg at hmem
    have ha : ∀ l ∈ ws.list, l.addr ≠ e.addr := fun l hl => by
      obtain ⟨i, hi⟩ := List.getElem?_of_mem hl
      exact hmem i l hi
    obtain ⟨d, hd, hp, hfree, hpath⟩ := hI.index.probe_absent (by omega) ha hh
    have hn' : ((ws.list ++ [e]).map (·.addr)).Nodup := by
      rw [List.map_append, List.nodup_append]
      exact ⟨hI.nodup, by simp, by simpa [List.disjoint_singleton] using ha⟩
    have hany : ws.list.any (fun x => x.addr == e.addr) = false := by simpa using ha
    simp only [WriteSet.insert, WriteSet.probeFor, hp, if_neg hfree]
    rw [absInsert, if_neg (by simp [hany])]
    rcases @grow_total hash { ws with
        list := ws.list ++ [e]
        index := Function.update ws.index ((hash ws.ilength e.addr + d) % ws.ilength)
          ⟨ws.version, e.addr, ws.lsize⟩ }
      (hI.index.append hd hfree hpath) hI.version_pos (fun x => by
        by_cases hx : x = (hash ws.ilength e.addr + d) % ws.ilength
        · subst hx; simp
        · simp only [Function.update_noteq hx]; exact hI.version_le x) hn'
      (by simp [WriteSet.lsize]; omega) (by simp; omega) (by simp [WriteSet.lsize]; omega) hI.shift_pos
      hI.shift_le hI.ilength_eq hlt with ⟨ws', h, hI', hl'⟩ | ⟨h, h1, hle⟩
    · exact .inl ⟨ws', h, hI', hl'⟩
    · exact .inr ⟨h, h1, by simpa [WriteSet.lsize] using hle⟩

theorem reset_inv {ws : WriteSet} (hI : ws.Inv hash) : ws.reset.Inv hash ∧ ws.reset.list = [] := by
  have hload := hI.load
  have hcap := hI.lsize_lt
  simp only [WriteSet.lsize] at hload hcap
  unfold WriteSet.reset
  split
  · exact ⟨⟨IndexInv.fresh (by simp [WriteSet.resetInternal]), by simp [WriteSet.resetInternal],
      fun _ => by simp [WriteSet.resetInternal, IndexT.fresh], by simp,
      by simp [WriteSet.resetInternal, WriteSet.lsize]; omega,
      by simp [WriteSet.resetInternal, WriteSet.lsize]; omega, hI.shift_pos, hI.shift_le,
      hI.ilength_eq⟩, rfl⟩
  · exact ⟨⟨.of_not_current fun h => by have := hI.version_le h; simp; omega, by simp,
      fun h => by have := hI.version_le h; simp; omega, by simp, by simp [WriteSet.lsize]; omega,
      by simp [WriteSet.lsize]; omega, hI.shift_pos, hI.shift_le, hI.ilength_eq⟩, rfl⟩

/-- Under the invariant, `find` answers what the list model answers. -/
theorem find_eq {ws : WriteSet} (hI : ws.Inv hash) (hlt : ∀ n a, 0 < n → hash n a < n)
    (e : WriteSetEntry) : ws.find hash e = absFind ws.list e := by
  have hload := hI.load
  simp only [WriteSet.lsize] at hload
  have hh := hlt ws.ilength e.addr (by omega)
  by_cases hmem : ∃ (i : Nat) (l : WriteSetEntry), ws.list[i]? = some l ∧ l.addr = e.addr
  · obtain ⟨i, l, hi, ha⟩ := hmem
    obtain ⟨h0, hp, hcur, hidx⟩ := hI.index.probe_present hI.nodup hi (ha ▸ hh)
    rw [ha] at hp
    simp only [WriteSet.find, WriteSet.probeFor, hp, hcur, if_true, hidx, hi, absFind]
    rw [← ha, find?_addr hI.nodup hi]
  · push_neg at hmem
    have ha : ∀ l ∈ ws.list, l.addr ≠ e.addr := fun l hl => by
      obtain ⟨i, hi⟩ := List.getElem?_of_mem hl
      exact hmem i l hi
    obtain ⟨d, -, hp, hfree, -⟩ := hI.index.probe_absent (by omega) ha hh
    have hnone : ws.list.find? (fun x => x.addr == e.addr) = none :=
      List.find?_eq_none.mpr fun x hx => by simpa using ha x hx
    simp only [WriteSet.find, WriteSet.probeFor, hp, if_neg hfree, absFind, hnone]

/-- The constructor's loop ends past its target, at a shift it reached by doubling. -/
theorem sizeIndex_ok {target : Nat} : ∀ {s il s' il' : Nat}, 1 ≤ s →
    sizeIndex target s il = .ok (s', il') →
      target ≤ il' ∧ 1 ≤ s' ∧ ((s' = s ∧ il' = il) ∨ (s' < s ∧ il' = indexLength s'))
  | 0, _, _, _, h1, _ => absurd h1 (by decide)
  | 1, il, s', il', _, h => by
    simp only [sizeIndex] at h
    split at h
    · cases h
    · cases h; exact ⟨by omega, le_refl 1, .inl ⟨rfl, rfl⟩⟩
  | s + 2, il, s', il', _, h => by
    simp only [sizeIndex] at h
    split at h
    · obtain ⟨ht, hs1, hr⟩ := sizeIndex_ok (by omega) h
      refine ⟨ht, hs1, .inr ?_⟩
      rcases hr with ⟨rfl, rfl⟩ | ⟨hlt, rfl⟩
      · exact ⟨by omega, rfl⟩
      · exact ⟨by omega, rfl⟩
    · cases h; exact ⟨by omega, by omega, .inl ⟨rfl, rfl⟩⟩

theorem new_inv {c : Nat} {ws : WriteSet} (hc : 1 ≤ c) (h : WriteSet.new c = .ok ws) :
    ws.Inv hash ∧ ws.list = [] := by
  simp only [WriteSet.new] at h
  cases hs : sizeIndex (3 * c) 32 0 with
  | error e => rw [hs] at h; cases h
  | ok p =>
    rw [hs] at h
    cases h
    obtain ⟨ht, hs1, hr⟩ := sizeIndex_ok (by decide) hs
    rcases hr with ⟨-, h0⟩ | ⟨hs32, hil⟩
    · omega
    · have hs30 : p.1 ≤ 30 := by
        by_contra hgt
        obtain h31 | h32 : p.1 = 31 ∨ p.1 = 32 := by omega
        · rw [h31] at hil; rw [hil] at ht; simp [indexLength] at ht; omega
        · omega
      exact ⟨⟨IndexInv.fresh (by simp), by simp, fun _ => by simp [IndexT.fresh], by simp,
        by simp [WriteSet.lsize]; omega, by simp [WriteSet.lsize]; omega, hs1, hs30, hil⟩, rfl⟩

/-- The constructor's loop returns whenever three slots per entry of capacity fit in the
    largest length it can reach, `indexLength 1`. -/
theorem sizeIndex_total {target : Nat} (ht : target ≤ indexLength 1) :
    ∀ s il, 1 ≤ s → (s = 1 → il = indexLength 1) → ∃ p, sizeIndex target s il = .ok p
  | 0, _, h1, _ => absurd h1 (by decide)
  | 1, il, _, hil => ⟨(1, il), by rw [sizeIndex, hil rfl, if_neg (by omega)]⟩
  | s + 2, il, _, _ => by
    rw [sizeIndex]
    split
    · exact sizeIndex_total ht (s + 1) _ (by omega) fun h => by rw [h]
    · exact ⟨_, rfl⟩

theorem new_ok {c : Nat} (hc : 3 * c ≤ indexLength 1) : ∃ ws, WriteSet.new c = .ok ws := by
  obtain ⟨p, hp⟩ := sizeIndex_total hc 32 0 (by decide) fun h => absurd h (by decide)
  exact ⟨_, by rw [WriteSet.new, hp]; rfl⟩

end Inv

/-! ## Runs -/

section Runs
variable (hash : Nat → Nat → Nat)

/-- An operation of the write set, as a caller sees it. -/
inductive WsOp where
  | insert (e : WriteSetEntry)
  | find (e : WriteSetEntry)
  | reset
  | rebuild
  | resize
  | writeback

/-- The operation's effect on the write set; `find` and `writeback` leave it as it is. -/
def WsOp.apply (ws : WriteSet) : WsOp → Except Stop WriteSet
  | .insert e => ws.insert hash e
  | .find _ => .ok ws
  | .reset => .ok ws.reset
  | .rebuild => ws.rebuild hash
  | .resize => .ok ws.resize
  | .writeback => .ok ws

/-- The operations in order, stopping at the first that does not return. -/
def runOps : List WsOp → WriteSet → Except Stop WriteSet
  | [], ws => .ok ws
  | op :: ops, ws => (WsOp.apply hash ws op).bind (runOps ops)

/-- The content the list model gives after the operations: inserts merge or append,
    a reset empties it. -/
def contentOf : List WsOp → List WriteSetEntry → List WriteSetEntry
  | [], l => l
  | .insert e :: ops, l => contentOf ops (absInsert l e)
  | .reset :: ops, _ => contentOf ops []
  | _ :: ops, l => contentOf ops l

variable {hash}

theorem contentOf_cons (op : WsOp) (ops : List WsOp) (l : List WriteSetEntry) :
    contentOf (op :: ops) l = contentOf ops (contentOf [op] l) := by
  cases op <;> rfl

/-- Each operation returns the write set of the list model with the invariant, except a
    rebuild of an index at `shift = 1`, by the caller or by an insert. -/
theorem WsOp.apply_total (hlt : ∀ n a, 0 < n → hash n a < n) {ws : WriteSet} (hI : ws.Inv hash)
    (op : WsOp) :
    (∃ ws', op.apply hash ws = .ok ws' ∧ ws'.Inv hash ∧ ws'.list = contentOf [op] ws.list) ∨
      (op.apply hash ws = .error .undefined ∧ ws.shift = 1) := by
  cases op with
  | insert e =>
    rcases insert_total hI hlt e with ⟨ws', h, hI', hl'⟩ | ⟨h, h1, -⟩
    · exact .inl ⟨ws', h, hI', hl'⟩
    · exact .inr ⟨h, h1⟩
  | rebuild =>
    exact rebuild_total hI.version_pos hI.nodup hI.lsize_lt (by have := hI.load; omega) hI.shift_pos
      hI.shift_le hI.ilength_eq hlt
  | reset => exact .inl ⟨_, rfl, reset_inv hI⟩
  | resize => exact .inl ⟨_, rfl, resize_inv hI, rfl⟩
  | find _ | writeback => exact .inl ⟨ws, rfl, hI, rfl⟩

/-- A run of operations returns the write set of the list model with the invariant, or stops
    at a rebuild from a write set, reached by a prefix of the run, at `shift = 1`. -/
theorem runOps_total (hlt : ∀ n a, 0 < n → hash n a < n) :
    ∀ (ops : List WsOp) (ws : WriteSet), ws.Inv hash →
      (∃ ws', runOps hash ops ws = .ok ws' ∧ ws'.Inv hash ∧ ws'.list = contentOf ops ws.list) ∨
        (runOps hash ops ws = .error .undefined ∧
          ∃ k ws', runOps hash (ops.take k) ws = .ok ws' ∧ ws'.Inv hash ∧ ws'.shift = 1)
  | [], ws, hI => .inl ⟨ws, rfl, hI, rfl⟩
  | op :: ops, ws, hI => by
    rcases WsOp.apply_total hlt hI op with ⟨ws₁, h₁, hI₁, hl₁⟩ | ⟨h₁, h1⟩
    · have hrun : runOps hash (op :: ops) ws = runOps hash ops ws₁ := by rw [runOps, h₁]; rfl
      rcases runOps_total hlt ops ws₁ hI₁ with ⟨ws', h, hI', hl'⟩ | ⟨h, k, ws', hk, hI', h1'⟩
      · exact .inl ⟨ws', hrun.trans h, hI', by rw [contentOf_cons, ← hl₁]; exact hl'⟩
      · refine .inr ⟨hrun.trans h, k + 1, ws', ?_, hI', h1'⟩
        rw [List.take_succ_cons, runOps, h₁]; exact hk
    · exact .inr ⟨by rw [runOps, h₁]; rfl, 0, ws, rfl, hI, h1⟩

/-- Every run of write-set operations from the constructor, at any capacity the constructor's
    loop can size, returns a write set that keeps the invariant, holds the content of the list
    model and finds what the list model finds. The one exception is a rebuild once the index
    length has overflowed to `2^64 - 2^31` (`shift = 1`), where `1 << 32` is undefined: no
    probe loop runs forever and no assertion fails. -/
theorem writeSet_ops_inv (hlt : ∀ n a, 0 < n → hash n a < n) {c : Nat} (hc : 1 ≤ c)
    (hc' : 3 * c ≤ 2 ^ 64 - 2 ^ 31) (ops : List WsOp) :
    ∃ ws₀, WriteSet.new c = .ok ws₀ ∧
      ((∃ ws, runOps hash ops ws₀ = .ok ws ∧ ws.Inv hash ∧ ws.list = contentOf ops [] ∧
          ∀ e, ws.find hash e = absFind (contentOf ops []) e) ∨
        (runOps hash ops ws₀ = .error .undefined ∧ ∃ k ws, runOps hash (ops.take k) ws₀ = .ok ws ∧
          ws.Inv hash ∧ ws.shift = 1 ∧ ws.ilength = 2 ^ 64 - 2 ^ 31)) := by
  obtain ⟨ws₀, h₀⟩ := new_ok (indexLength_one ▸ hc')
  obtain ⟨hI₀, hl₀⟩ := new_inv hc h₀
  refine ⟨ws₀, h₀, ?_⟩
  rcases runOps_total hlt ops ws₀ hI₀ with ⟨ws, h, hI, hl⟩ | ⟨h, k, ws, hk, hI, h1⟩
  · rw [hl₀] at hl
    exact .inl ⟨ws, h, hI, hl, fun e => hl ▸ find_eq hI hlt e⟩
  · exact .inr ⟨h, k, ws, hk, hI, h1, by rw [hI.ilength_eq, h1, indexLength_one]⟩

/-- Two inserts into the constructor's write set of capacity 1. -/
def twoInserts : List WsOp := [.insert ⟨5, zeroWord, zeroWord⟩, .insert ⟨6, zeroWord, zeroWord⟩]

/-- Capacity 1, hash `a % n`: the constructor sizes the index to 4 slots, and the second insert
    reaches `3 * lsize ≥ ilength` and rebuilds it to 8. -/
theorem writeSet_ops_inv_rebuild :
    WriteSet.new 1 = .ok ⟨fun _ => .fresh, 30, 4, 1, [], 1⟩ ∧
    (runOps (fun n a => a % n) twoInserts ⟨fun _ => .fresh, 30, 4, 1, [], 1⟩).map
      (fun ws => (ws.shift, ws.ilength, ws.lsize)) = .ok (29, 8, 2) ∧
    ∃ ws₀, WriteSet.new 1 = .ok ws₀ ∧
      ((∃ ws, runOps (fun n a => a % n) twoInserts ws₀ = .ok ws ∧ ws.Inv (fun n a => a % n) ∧
          ws.list = contentOf twoInserts [] ∧
          ∀ e, ws.find (fun n a => a % n) e = absFind (contentOf twoInserts []) e) ∨
        (runOps (fun n a => a % n) twoInserts ws₀ = .error .undefined ∧
          ∃ k ws, runOps (fun n a => a % n) (twoInserts.take k) ws₀ = .ok ws ∧
            ws.Inv (fun n a => a % n) ∧ ws.shift = 1 ∧ ws.ilength = 2 ^ 64 - 2 ^ 31)) :=
  ⟨rfl, rfl, writeSet_ops_inv (fun _ _ h => Nat.mod_lt _ h) (le_refl 1) (by decide) twoInserts⟩

end Runs

end Rstm
