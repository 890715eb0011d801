import Rstm.Memory

/- `itm2stm::Scope` rollback (src/libitm2stm/Scope.cpp).

   A scope keeps the words the user registered for undo (`undo_on_rollback_`)
   and, on rollback, writes each back, newest first, after clipping it against
   the thrown object so that the bytes of the object survive
   (`LoggedWord::clip`, `LoggedWord::undo`, `Scope::rollback`). An `assert` is
   an `Except.error` carrying its message: the process stops there.

   What is proved:
     1. `clip_of_partial` — every logged word that meets the thrown range
        without lying inside it stops `clip` at `assert(false && "unreachable")`:
        the clip-end and clip-begin branches compute the clipped word and then
        fall through to it, and the "incompatible range" assertion is never the
        one reached.
     2. `undoAll_of_clean` — when every logged word is disjoint from the thrown
        range or inside it, the undo replay succeeds, leaves the thrown range as
        it was, and writes every other byte as the unclipped replay does.
     3. `scope_rollback_unreachable` — a word `[0, 8)` and the range `[4, 12)`:
        `Scope::rollback` stops at the "unreachable" assertion.
     4. `scope_rollback_eq` — what `Scope::rollback` returns for every scope: the
        replay of 2 when no word meets the range partially, the "unreachable"
        assertion otherwise, and always the unclipped replay after
        `clearThrownObject`, as `tmabort` calls it.

   Correspondence (C++ ↔ Lean):
     `Scope::ThrownObject`        ↔ `ThrownObject`
     `Scope::LoggedWord`          ↔ `LoggedWord`
     `LoggedWord::clip`           ↔ `LoggedWord.clip`
     `LoggedWord::undo`           ↔ `LoggedWord.undo`
     step 1 of `Scope::rollback`  ↔ `undoAll`
     `Scope::rollback`            ↔ `Scope.rollback`
     `Scope::clearThrownObject`   ↔ `Scope.clearThrownObject` -/
namespace Rstm

/-- `Scope::ThrownObject`: the protected range, its start `first` and length
    `second` in bytes (`NULL`, `0` when none is registered). -/
structure ThrownObject where
  first : Nat
  second : Nat
  deriving DecidableEq, Repr

/-- `ThrownObject::begin`. -/
def ThrownObject.begin (t : ThrownObject) : Nat := t.first

/-- `ThrownObject::end`. -/
def ThrownObject.end' (t : ThrownObject) : Nat := t.first + t.second

/-- `Scope::LoggedWord`: `bytes` bytes of `value` to write back at `address`. -/
structure LoggedWord where
  address : Nat
  value : Word
  bytes : Nat

/-- `LoggedWord::begin`. -/
def LoggedWord.begin (w : LoggedWord) : Nat := w.address

/-- `LoggedWord::end`. -/
def LoggedWord.end' (w : LoggedWord) : Nat := w.address + w.bytes

/-- `LoggedWord::clip`: the part of the word to write back around `[lower, upper)`,
    or the message of the assertion it stops at. -/
def LoggedWord.clip (w : LoggedWord) (lower upper : Nat) : Except String LoggedWord :=
  if w.end' ≤ lower ∨ upper ≤ w.begin then .ok w
  else if lower ≤ w.begin ∧ w.end' ≤ upper then .ok { w with bytes := 0 }
  else
    let w := if w.begin < lower ∧ w.end' < upper then { w with bytes := lower - w.begin } else w
    let w := if lower < w.begin ∧ upper < w.end' then
        { address := upper, value := shiftBytes w.value (upper - w.begin), bytes := w.end' - upper }
      else w
    if lower < w.begin ∧ w.end' < upper - 1 then
      .error "Logged value has incompatible range intersection"
    else .error "unreachable"

/-- `LoggedWord::undo`: clip against the thrown object, then copy back what is left. -/
def LoggedWord.undo (w : LoggedWord) (thrown : ThrownObject) (m : Mem) : Except String Mem :=
  (w.clip thrown.begin thrown.end').map fun w => m.memcpy w.address w.value w.bytes

/-- A registered callback; what it runs is user code, outside the model. -/
abbrev Callback := Nat

/-- `itm2stm::Scope`, the fields rollback reads and writes. -/
structure Scope where
  aborted : Bool
  thrown : ThrownObject
  doOnRollback : List Callback
  undoOnRollback : List LoggedWord
  doOnCommit : List Callback

/-- Step 1 of `Scope::rollback`: the logged words, in registration order, undone
    newest first. -/
def undoAll (thrown : ThrownObject) : List LoggedWord → Mem → Except String Mem
  | [], m => .ok m
  | w :: ws, m => (undoAll thrown ws m).bind (w.undo thrown)

/-- `Scope::rollback`: undo the logged words, run the rollback callbacks in order,
    clear the commit callbacks, mark the scope aborted and return the thrown range. -/
def Scope.rollback (s : Scope) (m : Mem) :
    Except String (Scope × Mem × List Callback × ThrownObject) :=
  (undoAll s.thrown s.undoOnRollback m).map fun m =>
    ({ s with doOnCommit := [], aborted := true }, m, s.doOnRollback, s.thrown)

/-- `Scope::clearThrownObject`: `thrown_.reset()`, back to no protected range (`NULL`, `0`). -/
def Scope.clearThrownObject (s : Scope) : Scope := { s with thrown := ⟨0, 0⟩ }

/-- Every logged word written back whole, newest first: the replay without clipping. -/
def replay : List LoggedWord → Mem → Mem
  | [], m => m
  | w :: ws, m => (replay ws m).memcpy w.address w.value w.bytes

/-! ## Clip -/

/-- The word meets `[lower, upper)` without lying inside it. -/
def LoggedWord.Partial (w : LoggedWord) (lower upper : Nat) : Prop :=
  lower < w.end' ∧ w.begin < upper ∧ ¬(lower ≤ w.begin ∧ w.end' ≤ upper)

/-- The word is disjoint from `[lower, upper)` or lies inside it. -/
def LoggedWord.Clean (w : LoggedWord) (lower upper : Nat) : Prop :=
  w.end' ≤ lower ∨ upper ≤ w.begin ∨ (lower ≤ w.begin ∧ w.end' ≤ upper)

instance (w : LoggedWord) (lower upper : Nat) : Decidable (w.Clean lower upper) :=
  inferInstanceAs (Decidable (w.end' ≤ lower ∨ upper ≤ w.begin ∨ (lower ≤ w.begin ∧ w.end' ≤ upper)))

theorem LoggedWord.partial_iff_not_clean {w : LoggedWord} {lower upper : Nat} :
    w.Partial lower upper ↔ ¬w.Clean lower upper := by
  simp only [Partial, Clean]; omega

theorem LoggedWord.clip_of_partial {w : LoggedWord} {lower upper : Nat}
    (h : w.Partial lower upper) : w.clip lower upper = .error "unreachable" := by
  obtain ⟨h1, h2, h3⟩ := h
  simp only [Partial, LoggedWord.begin, LoggedWord.end'] at h1 h2 h3
  simp only [clip, LoggedWord.begin, LoggedWord.end']
  rw [if_neg (by omega), if_neg h3]
  by_cases hl : w.address < lower
  · by_cases hu : w.address + w.bytes < upper
    · simp [hl, hu, show ¬lower < w.address by omega]
    · simp [hl, hu, show ¬lower < w.address by omega]
  · by_cases hu : upper < w.address + w.bytes
    · by_cases he : lower < w.address
      · simp [hl, hu, he]; omega
      · simp [hl, hu, he]
    · omega

theorem LoggedWord.undo_of_disjoint {w : LoggedWord} {t : ThrownObject} (m : Mem)
    (h : w.end' ≤ t.begin ∨ t.end' ≤ w.begin) :
    w.undo t m = .ok (m.memcpy w.address w.value w.bytes) := by
  simp [undo, clip, h]; rfl

theorem LoggedWord.undo_of_inside {w : LoggedWord} {t : ThrownObject} (m : Mem)
    (hd : ¬(w.end' ≤ t.begin ∨ t.end' ≤ w.begin)) (h : t.begin ≤ w.begin ∧ w.end' ≤ t.end') :
    w.undo t m = .ok m := by
  simp only [undo, clip, if_neg hd, if_pos h, Except.map]
  congr 1; funext b; simp only [Mem.memcpy]; rw [if_neg (by omega)]

/-! ## The undo replay -/

/-- With no partial overlap, the replay keeps the thrown range and is the unclipped
    replay everywhere else. -/
theorem undoAll_of_clean (t : ThrownObject) (m : Mem) :
    ∀ ws : List LoggedWord, (∀ w ∈ ws, w.Clean t.begin t.end') →
      undoAll t ws m = .ok (fun b => if t.begin ≤ b ∧ b < t.end' then m b else replay ws m b)
  | [], _ => by
    simp only [undoAll, replay]; congr 1; funext b; split <;> rfl
  | w :: ws, h => by
    rw [undoAll, undoAll_of_clean t m ws (fun w' hw => h w' (List.mem_cons_of_mem _ hw)),
      Except.bind]
    have hw := h w (List.mem_cons_self _ _)
    simp only [LoggedWord.Clean, LoggedWord.begin, LoggedWord.end', ThrownObject.begin,
      ThrownObject.end'] at hw
    by_cases hd : w.end' ≤ t.begin ∨ t.end' ≤ w.begin
    · rw [LoggedWord.undo_of_disjoint _ hd]
      congr 1; funext b
      simp only [Mem.memcpy, replay, ThrownObject.begin, ThrownObject.end', LoggedWord.begin,
        LoggedWord.end'] at hd ⊢
      by_cases hb : w.address ≤ b ∧ b < w.address + w.bytes <;> split_ifs <;> first | rfl | omega
    · have hin : t.begin ≤ w.begin ∧ w.end' ≤ t.end' := by
        simp only [LoggedWord.begin, LoggedWord.end', ThrownObject.begin, ThrownObject.end'] at hd ⊢
        omega
      rw [LoggedWord.undo_of_inside _ hd hin]
      congr 1; funext b
      simp only [Mem.memcpy, replay, ThrownObject.begin, ThrownObject.end', LoggedWord.begin,
        LoggedWord.end'] at hin ⊢
      by_cases hb : w.address ≤ b ∧ b < w.address + w.bytes <;> split_ifs <;> first | rfl | omega

/-- One partially overlapping word stops the whole replay at its assertion, whatever the
    newer words did. -/
theorem undoAll_of_partial {t : ThrownObject} {w : LoggedWord} {ws : List LoggedWord} {m : Mem}
    (hw : w.Partial t.begin t.end') (hs : ∃ m', undoAll t ws m = .ok m') :
    undoAll t (w :: ws) m = .error "unreachable" := by
  obtain ⟨m', hm'⟩ := hs
  simp [undoAll, hm', Except.bind, LoggedWord.undo, LoggedWord.clip_of_partial hw, Except.map]

/-- A partially overlapping word anywhere in the list stops the replay at the newest such word's
    assertion. -/
theorem undoAll_of_not_clean (t : ThrownObject) (m : Mem) :
    ∀ ws : List LoggedWord, (∃ w ∈ ws, w.Partial t.begin t.end') →
      undoAll t ws m = .error "unreachable"
  | [], ⟨_, hw, _⟩ => absurd hw (List.not_mem_nil _)
  | w :: ws, h => by
    by_cases hc : ∀ w' ∈ ws, w'.Clean t.begin t.end'
    · have hw : w.Partial t.begin t.end' := by
        obtain ⟨w', hw', hp⟩ := h
        rcases List.mem_cons.mp hw' with rfl | hw'
        · exact hp
        · exact absurd (hc w' hw') (LoggedWord.partial_iff_not_clean.mp hp)
      exact undoAll_of_partial hw ⟨_, undoAll_of_clean t m ws hc⟩
    · simp only [Classical.not_forall, Classical.not_imp] at hc
      obtain ⟨w', hw', hn⟩ := hc
      rw [undoAll, undoAll_of_not_clean t m ws ⟨w', hw', LoggedWord.partial_iff_not_clean.mpr hn⟩]
      rfl

/-- At the word `[0, 8)` and the thrown range `[4, 12)`, which meet without either lying
    inside the other, `Scope::rollback` stops at `assert(false && "unreachable")`. -/
theorem scope_rollback_unreachable (v : Word) (m : Mem) :
    Scope.rollback ⟨false, ⟨4, 8⟩, [], [⟨0, v, 8⟩], []⟩ m = .error "unreachable" := by
  rfl

/-! ## What rollback leaves -/

/-- `Scope::rollback` succeeds exactly when no logged word meets the thrown range without lying
    inside it. It then keeps the bytes of the thrown range, writes every other byte as the
    unclipped replay does, returns the rollback callbacks in order with the thrown range, and
    leaves the scope aborted with no commit callbacks; otherwise it stops at
    `assert(false && "unreachable")`. After `clearThrownObject`, as `tmabort` calls it before the
    restart, the rollback always succeeds and is the unclipped replay. -/
theorem scope_rollback_eq (s : Scope) (m : Mem) :
    s.rollback m =
      (if ∀ w ∈ s.undoOnRollback, w.Clean s.thrown.begin s.thrown.end' then
        .ok ({ s with doOnCommit := [], aborted := true },
          fun b => if s.thrown.begin ≤ b ∧ b < s.thrown.end' then m b else replay s.undoOnRollback m b,
          s.doOnRollback, s.thrown)
      else .error "unreachable") ∧
    s.clearThrownObject.rollback m =
      .ok ({ s with thrown := ⟨0, 0⟩, doOnCommit := [], aborted := true },
        replay s.undoOnRollback m, s.doOnRollback, ⟨0, 0⟩) := by
  constructor
  · split
    next hc => rw [Scope.rollback, undoAll_of_clean _ m _ hc]; rfl
    next hc =>
      simp only [Classical.not_forall, Classical.not_imp] at hc
      obtain ⟨w, hw, hn⟩ := hc
      rw [Scope.rollback,
        undoAll_of_not_clean _ m _ ⟨w, hw, LoggedWord.partial_iff_not_clean.mpr hn⟩]
      rfl
  · have hc : ∀ w ∈ s.undoOnRollback, w.Clean 0 0 := fun _ _ => .inr (.inl (Nat.zero_le _))
    rw [Scope.rollback, Scope.clearThrownObject, undoAll_of_clean _ m _ hc]
    simp [ThrownObject.begin, ThrownObject.end', Except.map]

end Rstm
