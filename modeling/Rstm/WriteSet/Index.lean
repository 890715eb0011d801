import Rstm.WriteSet.IndexLength
import Mathlib.Data.Fintype.Card
import Mathlib.Data.List.Nodup

/- The hash index of the write set against its list.

   `IndexInv` says what the index is for: its current slots are exactly one
   per list entry `i`, holding `(list[i].addr, i)`, each reachable from the
   hash of its address by linear probing through current slots only. From it,
   a probe for an address stops at the entry's slot when the address is in
   the list and at a free slot otherwise (`probe_present`, `probe_absent`),
   and appending an entry at the free slot where its probe stops keeps the
   invariant (`IndexInv.append`). `rebuild` is that append once per entry on
   a fresh index (`reindex_inv`), and it always finds a free slot while the
   list is shorter than the index (`IndexInv.exists_free`): it terminates and
   indexes its list (`rebuild_indexes`). -/
namespace Rstm

/-! ## Probe paths -/

section Probe
variable {index : Nat → IndexT} {n : Nat} {stop : IndexT → Bool}

theorem mod_succ_add_mod (h j n : Nat) : ((h + 1) % n + j) % n = (h + (j + 1)) % n := by
  rw [Nat.mod_add_mod, Nat.add_right_comm, Nat.add_assoc]

theorem probe_some : ∀ {fuel h h' : Nat}, h < n → probe index n stop fuel h = some h' →
    ∃ d < fuel, h' = (h + d) % n ∧ stop (index h') = true ∧
      ∀ j < d, stop (index ((h + j) % n)) = false
  | 0, _, _, _, hp => by simp [probe] at hp
  | fuel + 1, h, h', hh, hp => by
    simp only [probe] at hp
    split at hp
    · next hs =>
      cases hp
      exact ⟨0, by omega, by rw [Nat.add_zero, Nat.mod_eq_of_lt hh], hs, by omega⟩
    · next hs =>
      obtain ⟨d, hd, rfl, hstop, hpath⟩ := probe_some (Nat.mod_lt _ (by omega)) hp
      refine ⟨d + 1, by omega, mod_succ_add_mod h d n, hstop, fun j hj => ?_⟩
      cases j with
      | zero => rw [Nat.add_zero, Nat.mod_eq_of_lt hh]; simpa using hs
      | succ j => rw [← mod_succ_add_mod]; exact hpath j (by omega)

theorem probe_none : ∀ {fuel h : Nat}, h < n → probe index n stop fuel h = none →
    ∀ j < fuel, stop (index ((h + j) % n)) = false
  | 0, _, _, _ => fun _ hj => absurd hj (Nat.not_lt_zero _)
  | fuel + 1, h, hh, hp => by
    simp only [probe] at hp
    split at hp
    · cases hp
    · next hs =>
      intro j hj
      cases j with
      | zero => rw [Nat.add_zero, Nat.mod_eq_of_lt hh]; simpa using hs
      | succ j =>
        rw [← mod_succ_add_mod]
        exact probe_none (Nat.mod_lt _ (by omega)) hp j (by omega)

theorem path_injective {h i j : Nat} (hh : h < n) (hi : i < n) (hj : j < n)
    (e : (h + i) % n = (h + j) % n) : i = j := by
  rcases Nat.lt_or_ge (h + i) n with h1 | h1 <;> rcases Nat.lt_or_ge (h + j) n with h2 | h2
  · rw [Nat.mod_eq_of_lt h1, Nat.mod_eq_of_lt h2] at e; omega
  · rw [Nat.mod_eq_of_lt h1, Nat.mod_eq_sub_mod h2, Nat.mod_eq_of_lt (by omega)] at e; omega
  · rw [Nat.mod_eq_of_lt h2, Nat.mod_eq_sub_mod h1, Nat.mod_eq_of_lt (by omega)] at e; omega
  · rw [Nat.mod_eq_sub_mod h1, Nat.mod_eq_sub_mod h2, Nat.mod_eq_of_lt (by omega),
      Nat.mod_eq_of_lt (by omega)] at e; omega

theorem path_covers {h x : Nat} (hh : h < n) (hx : x < n) : ∃ j < n, (h + j) % n = x := by
  by_cases hle : h ≤ x
  · exact ⟨x - h, by omega, by rw [Nat.add_sub_cancel' hle, Nat.mod_eq_of_lt hx]⟩
  · refine ⟨x + n - h, by omega, ?_⟩
    rw [show h + (x + n - h) = x + n by omega, Nat.add_mod_right, Nat.mod_eq_of_lt hx]

/-- A full-length probe stops at the first slot of the path that satisfies `stop`. -/
theorem probe_eq_of_first {h d : Nat} (hh : h < n) (hd : d < n)
    (hs : stop (index ((h + d) % n)) = true) (hb : ∀ j < d, stop (index ((h + j) % n)) = false) :
    probe index n stop n h = some ((h + d) % n) := by
  cases hp : probe index n stop n h with
  | none => rw [probe_none hh hp d hd] at hs; cases hs
  | some h' =>
    obtain ⟨d', hd', rfl, hs', hb'⟩ := probe_some hh hp
    rcases Nat.lt_trichotomy d d' with hlt | rfl | hgt
    · rw [hb' d hlt] at hs; cases hs
    · rfl
    · rw [hb d' hgt] at hs'; cases hs'

/-- A full-length probe returns when some slot below `n` satisfies `stop`. -/
theorem probe_isSome {h x : Nat} (hh : h < n) (hx : x < n) (hs : stop (index x) = true) :
    ∃ h', probe index n stop n h = some h' := by
  cases hp : probe index n stop n h with
  | none =>
    obtain ⟨j, hj, rfl⟩ := path_covers hh hx
    rw [probe_none hh hp j hj] at hs; cases hs
  | some h' => exact ⟨h', rfl⟩

end Probe

/-! ## Entries with distinct addresses -/

theorem index_eq_of_addr {list : List WriteSetEntry} (hn : (list.map (·.addr)).Nodup)
    {i k : Nat} {l l' : WriteSetEntry} (hi : list[i]? = some l) (hk : list[k]? = some l')
    (ha : l.addr = l'.addr) : i = k := by
  have hi' : (list.map (·.addr))[i]? = some l.addr := by simp [hi]
  have hk' : (list.map (·.addr))[k]? = some l.addr := by simp [hk, ha]
  have hil := (List.getElem?_eq_some_iff.mp hi').1
  have hkl := (List.getElem?_eq_some_iff.mp hk').1
  rcases Nat.lt_trichotomy i k with h | h | h
  · exact absurd (hi'.trans hk'.symm) (List.nodup_iff_getElem?_ne_getElem?.mp hn i k h hkl)
  · exact h
  · exact absurd (hk'.trans hi'.symm) (List.nodup_iff_getElem?_ne_getElem?.mp hn k i h hil)

theorem lt_length_of_getElem? {list : List WriteSetEntry} {i : Nat} {l : WriteSetEntry}
    (h : list[i]? = some l) : i < list.length :=
  (List.getElem?_eq_some_iff.mp h).1

/-! ## The index invariant -/

section Index
variable (hash : Nat → Nat → Nat)

/-- The probe path of `a` in an index of length `n` reaches slot `h` through slots of
    version `v` only. -/
def Reaches (index : Nat → IndexT) (n v a h : Nat) : Prop :=
  ∃ d < n, h = (hash n a + d) % n ∧ ∀ j < d, (index ((hash n a + j) % n)).version = v

/-- The index of length `n` at version `v` indexes `list`: its current slots are exactly
    one per entry `i`, holding `(list[i].addr, i)`, on the probe path of that address
    behind current slots only. -/
structure IndexInv (index : Nat → IndexT) (n v : Nat) (list : List WriteSetEntry) : Prop where
  lt : ∀ h, (index h).version = v → h < n
  slot : ∀ h, (index h).version = v →
    ∃ l, list[(index h).index]? = some l ∧ (index h).address = l.addr
  unique : ∀ h h', (index h).version = v → (index h').version = v →
    (index h).index = (index h').index → h = h'
  entry : ∀ i l, list[i]? = some l →
    ∃ h, (index h).version = v ∧ (index h).index = i ∧ Reaches hash index n v l.addr h

variable {hash} {index : Nat → IndexT} {n v : Nat} {list : List WriteSetEntry}

theorem IndexInv.of_not_current (hc : ∀ h, (index h).version ≠ v) : IndexInv hash index n v [] where
  lt h hv := absurd hv (hc h)
  slot h hv := absurd hv (hc h)
  unique h _ hv := absurd hv (hc h)
  entry _ _ h := by simp at h

theorem IndexInv.fresh (hv : 0 < v) : IndexInv hash (fun _ => .fresh) n v [] :=
  .of_not_current fun _ => by simp [IndexT.fresh]; omega

theorem IndexInv.exists_free (hI : IndexInv hash index n v list) (hl : list.length < n) :
    ∃ x < n, (index x).version ≠ v := by
  by_contra hall
  push_neg at hall
  have hidx : ∀ x : Fin n, (index x).index < list.length := fun x =>
    have ⟨_, hl', _⟩ := hI.slot x (hall x x.isLt)
    lt_length_of_getElem? hl'
  have hinj : Function.Injective fun x : Fin n => (⟨(index x).index, hidx x⟩ : Fin list.length) :=
    fun x y hxy => Fin.ext (hI.unique x y (hall x x.isLt) (hall y y.isLt) (by simpa using hxy))
  have := Fintype.card_le_of_injective _ hinj
  simp at this
  omega

/-- A probe for an address in the list stops at that entry's slot. -/
theorem IndexInv.probe_present (hI : IndexInv hash index n v list)
    (hn : (list.map (·.addr)).Nodup) {i : Nat} {l : WriteSetEntry} (hi : list[i]? = some l)
    (hlt : hash n l.addr < n) :
    ∃ h, probe index n (fun s => s.version != v || s.address == l.addr) n (hash n l.addr) = some h ∧
      (index h).version = v ∧ (index h).index = i := by
  obtain ⟨h, hcur, hidx, d, hd, rfl, hpath⟩ := hI.entry i l hi
  refine ⟨_, probe_eq_of_first hlt hd ?_ fun j hj => ?_, hcur, hidx⟩
  · obtain ⟨l', hl', ha⟩ := hI.slot _ hcur
    rw [hidx, hi] at hl'
    cases hl'
    simp [hcur, ha]
  · have hj' := hpath j hj
    simp only [hj', bne_self_eq_false, Bool.false_or, beq_eq_false_iff_ne]
    intro ha
    obtain ⟨l', hl', ha'⟩ := hI.slot _ hj'
    have hk := index_eq_of_addr hn hl' hi (ha'.symm.trans ha)
    exact absurd (path_injective hlt (by omega) hd (hI.unique _ _ hj' hcur (hk.trans hidx.symm)))
      (by omega)

/-- A probe for an address not in a list shorter than the index stops at a free slot,
    behind current slots only. -/
theorem IndexInv.probe_absent (hI : IndexInv hash index n v list) (hl : list.length < n)
    {a : Nat} (ha : ∀ l ∈ list, l.addr ≠ a) (hlt : hash n a < n) :
    ∃ d < n, probe index n (fun s => s.version != v || s.address == a) n (hash n a) =
        some ((hash n a + d) % n) ∧ (index ((hash n a + d) % n)).version ≠ v ∧
      ∀ j < d, (index ((hash n a + j) % n)).version = v := by
  obtain ⟨x, hx, hfree⟩ := hI.exists_free hl
  obtain ⟨h', hp⟩ := @probe_isSome index _ (fun s => s.version != v || s.address == a) _ _ hlt hx
    (by simp [hfree])
  obtain ⟨d, hd, rfl, hstop, hpath⟩ := probe_some hlt hp
  have hcur : ∀ h, (index h).version = v → (index h).address ≠ a := fun h hv hadr => by
    obtain ⟨l, hl', hla⟩ := hI.slot h hv
    exact ha l (List.getElem?_mem hl') (hla.symm.trans hadr)
  refine ⟨d, hd, hp, fun hv => ?_, fun j hj => ?_⟩
  · simp [hv, hcur _ hv] at hstop
  · have := hpath j hj
    simp only [Bool.or_eq_false_iff, bne_eq_false_iff_eq] at this
    exact this.1

/-- Appending an entry at the free slot where its probe stops keeps the index invariant. -/
theorem IndexInv.append (hI : IndexInv hash index n v list) {e : WriteSetEntry} {d : Nat}
    (hd : d < n) (hfree : (index ((hash n e.addr + d) % n)).version ≠ v)
    (hpath : ∀ j < d, (index ((hash n e.addr + j) % n)).version = v) :
    IndexInv hash (Function.update index ((hash n e.addr + d) % n) ⟨v, e.addr, list.length⟩) n v
      (list ++ [e]) := by
  set h0 := (hash n e.addr + d) % n with hh0
  have hidx : ∀ h, (index h).version = v → (index h).index < list.length := fun h hv =>
    have ⟨_, hl, _⟩ := hI.slot h hv
    lt_length_of_getElem? hl
  have hne : ∀ h, (index h).version = v → h ≠ h0 := fun h hv he => hfree (he ▸ hv)
  have hcur : ∀ h, (Function.update index h0 ⟨v, e.addr, list.length⟩ h).version = v ↔
      h = h0 ∨ (index h).version = v := fun h => by
    by_cases he : h = h0
    · subst he; simp
    · simp [Function.update_noteq he, he]
  constructor
  · intro h hv
    rcases (hcur h).mp hv with rfl | hv
    · exact Nat.mod_lt _ (by omega)
    · exact hI.lt h hv
  · intro h hv
    rcases (hcur h).mp hv with rfl | hv
    · simp [List.getElem?_concat_length]
    · obtain ⟨l, hl, ha⟩ := hI.slot h hv
      rw [Function.update_noteq (hne h hv), List.getElem?_append_left (lt_length_of_getElem? hl)]
      exact ⟨l, hl, ha⟩
  · intro h h' hv hv' hi
    rcases (hcur h).mp hv with rfl | hv <;> rcases (hcur h').mp hv' with rfl | hv'
    · rfl
    · rw [Function.update_same, Function.update_noteq (hne h' hv')] at hi
      exact absurd hi (by have := hidx h' hv'; simp; omega)
    · rw [Function.update_same, Function.update_noteq (hne h hv)] at hi
      exact absurd hi (by have := hidx h hv; simp; omega)
    · rw [Function.update_noteq (hne h hv), Function.update_noteq (hne h' hv')] at hi
      exact hI.unique h h' hv hv' hi
  · intro i l hl
    have hreach : ∀ a h, Reaches hash index n v a h →
        Reaches hash (Function.update index h0 ⟨v, e.addr, list.length⟩) n v a h :=
      fun a h ⟨d', hd', he, hp⟩ => ⟨d', hd', he, fun j hj => (hcur _).mpr (.inr (hp j hj))⟩
    rcases Nat.lt_or_ge i list.length with hil | hil
    · rw [List.getElem?_append_left hil] at hl
      obtain ⟨h, hv, hi, hr⟩ := hI.entry i l hl
      exact ⟨h, (hcur h).mpr (.inr hv), by rw [Function.update_noteq (hne h hv)]; exact hi,
        hreach _ _ hr⟩
    · rw [List.getElem?_append_right hil] at hl
      obtain rfl : i = list.length := by
        by_contra hne'
        have : (i - list.length) ≠ 0 := by omega
        simp [List.getElem?_cons, this] at hl
      simp at hl
      subst hl
      exact ⟨h0, by simp, by simp, d, hd, rfl, fun j hj => (hcur _).mpr (.inr (hpath j hj))⟩

/-- `rebuild`'s loop, from an index of `pre`, indexes `pre ++ ls` when the whole list has
    distinct addresses and is shorter than the index. No slot gets a later version. -/
theorem reindex_inv (hlt : ∀ a, hash n a < n) :
    ∀ (ls pre : List WriteSetEntry) (index : Nat → IndexT), IndexInv hash index n v pre →
      ((pre ++ ls).map (·.addr)).Nodup → (pre ++ ls).length < n → (∀ h, (index h).version ≤ v) →
      ∃ index', reindex hash n v ls pre.length index = .ok index' ∧
        IndexInv hash index' n v (pre ++ ls) ∧ ∀ h, (index' h).version ≤ v
  | [], pre, index, hI, _, _, hle => ⟨index, rfl, by simpa using hI, hle⟩
  | l :: ls, pre, index, hI, hn, hl, hle => by
    have hlen : pre.length < n := by simp at hl; omega
    obtain ⟨x, hx, hfree⟩ := hI.exists_free hlen
    obtain ⟨h', hp⟩ := @probe_isSome index _ (fun s => s.version != v) _ _ (hlt l.addr) hx
      (by simpa using hfree)
    obtain ⟨d, hd, rfl, hstop, hpath⟩ := probe_some (hlt l.addr) hp
    have hI' := hI.append hd (by simpa using hstop) fun j hj => by simpa using hpath j hj
    have hle' : ∀ h, (Function.update index ((hash n l.addr + d) % n)
        ⟨v, l.addr, pre.length⟩ h).version ≤ v := fun h => by
      by_cases he : h = (hash n l.addr + d) % n
      · subst he; simp
      · rw [Function.update_noteq he]; exact hle h
    obtain ⟨index', hr, hI'', hle''⟩ :=
      reindex_inv hlt ls (pre ++ [l]) _ hI' (by simpa using hn) (by simpa using hl) hle'
    refine ⟨index', ?_, by simpa using hI'', hle''⟩
    rw [reindex, hp]
    simpa using hr

/-- `rebuild`'s loop on an index with no current slot indexes the whole list. -/
theorem reindex_of_not_current (hlt : ∀ a, hash n a < n) {list : List WriteSetEntry}
    (hn : (list.map (·.addr)).Nodup) (hl : list.length < n) {index : Nat → IndexT}
    (hc : ∀ h, (index h).version < v) :
    ∃ index', reindex hash n v list 0 index = .ok index' ∧ IndexInv hash index' n v list := by
  obtain ⟨index', hr, hI, -⟩ := reindex_inv hlt list [] index
    (.of_not_current fun h => (hc h).ne) (by simpa using hn) (by simpa using hl) fun h => (hc h).le
  exact ⟨index', by simpa using hr, by simpa using hI⟩

/-- `WriteSet::rebuild` terminates and indexes its list. With a current version other than 0,
    distinct addresses, a hash into the doubled length and a list shorter than it, the insertion
    loop, run on any index whose slots all carry version 0, finds a slot for every entry; the
    current slots are then one per entry `i`, holding `(list[i].addr, i)`, each reached from
    the hash of its address through current slots only. `rebuild` runs it on a fresh index. -/
theorem rebuild_indexes {ws : WriteSet} (hv : ws.version ≠ 0) (hn : (ws.list.map (·.addr)).Nodup)
    {s n : Nat} (hd : doubleIndexLength ws.shift = .ok (s, n)) (hlt : ∀ a, hash n a < n)
    (hl : ws.lsize < n) {index : Nat → IndexT} (h0 : ∀ h, (index h).version = 0) :
    (∃ index', reindex hash n ws.version ws.list 0 index = .ok index' ∧
      IndexInv hash index' n ws.version ws.list) ∧
    ∃ index', ws.rebuild hash = .ok { ws with index := index', shift := s, ilength := n } ∧
      IndexInv hash index' n ws.version ws.list := by
  have hc : ∀ index : Nat → IndexT, (∀ h, (index h).version = 0) → ∀ h, (index h).version < ws.version :=
    fun index h0 h => by rw [h0]; omega
  refine ⟨reindex_of_not_current hlt hn hl (hc index h0), ?_⟩
  obtain ⟨index', hr, hI⟩ := reindex_of_not_current hlt hn hl (hc (fun _ => .fresh) fun _ => rfl)
  exact ⟨index', by simp [WriteSet.rebuild, hv, hd, Except.bind, hr, Except.map], hI⟩

end Index

/-- Two entries whose addresses both hash to the last slot of an index of eight. -/
def wrapPair : WriteSet :=
  ⟨fun _ => .fresh, 30, 4, 1, [⟨7, zeroWord, zeroWord⟩, ⟨15, zeroWord, zeroWord⟩], 2⟩

theorem rebuild_indexes_wrap :
    ∃ index', wrapPair.rebuild (fun n a => a % n) =
        .ok { wrapPair with index := index', shift := 29, ilength := 8 } ∧
      IndexInv (fun n a => a % n) index' 8 1 wrapPair.list :=
  (@rebuild_indexes (fun n a => a % n) wrapPair (by decide) (by decide) 29 8 rfl
    (fun a => Nat.mod_lt a (by decide)) (by decide) (fun _ => .fresh) fun _ => rfl).2

end Rstm
