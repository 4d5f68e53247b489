import Libdap.Bes.BESUncompress3Z

/-! # The strings of the code table

An entry is a code and one more byte. The string of a code is found by following the codes down to a literal, and it is
no longer than the table has entries, so that the stack stays above them.
-/

namespace Libdap.Bes.BESUncompress3Z
open Core
set_option autoImplicit false

/-- The first code that the table can give to an entry. -/
def Header.firstFree (h : Header) : Nat := if h.blockMode then 257 else 256

theorem Header.maxmaxcode_le (h : Header) : h.maxmaxcode ≤ 65536 := Nat.pow_le_pow_right (by decide) h.maxbits_le

theorem Header.firstFree_bounds (h : Header) : 256 ≤ h.firstFree ∧ h.firstFree ≤ 257 := by
  rw [firstFree]
  split <;> decide

namespace Coder

/-- The string of a code in the table. -/
inductive Spells (c : Coder) : Nat → Bytes → Prop
  | literal {code : Nat} {b : UInt8} (hLow : code < 256) (hByte : c.htab code = some b) : Spells c code [b]
  | entry {code next : Nat} {b : UInt8} {s : Bytes} (hHigh : 256 ≤ code) (hByte : c.htab code = some b)
    (hNext : c.codetab code = some next) (hSpells : Spells c next s) : Spells c code (s ++ [b])

section
variable {h : Header} {c c' : Coder} {code next o n : Nat} {b : UInt8} {s w : Bytes}

theorem Spells.length_pos (hSpells : c.Spells code s) : 0 < s.length := by
  cases hSpells <;> simp

theorem push_ok {stack : Bytes} (hRoom : c.freeEnt + stack.length + 1 ≤ HSIZE - 1) :
    c.push b stack = .ok (b :: stack) :=
  if_pos hRoom

theorem Spells.walk (hSpells : c.Spells code s) (stack : Bytes)
    (hRoom : c.freeEnt + stack.length + s.length ≤ HSIZE - 1)
    (hn : s.length ≤ n) :
    c.walk n code stack = .ok (s.headD 0, s ++ stack) := by
  induction hSpells generalizing stack n with
  | @literal code b hLow hByte =>
    obtain ⟨n, rfl⟩ : ∃ m, n = m + 1 := ⟨n - 1, by simp only [List.length_singleton] at hn; omega⟩
    rw [Coder.walk, hByte]
    dsimp only
    rw [push_ok hRoom]
    change (if 256 ≤ code then _ else _) = _
    rw [if_neg (by omega)]
    rfl
  | @entry code next b s hHigh hByte hNext hSpells ih =>
    rw [List.length_append, List.length_singleton] at hRoom hn
    obtain ⟨n, rfl⟩ : ∃ m, n = m + 1 := ⟨n - 1, by omega⟩
    have hRest := ih (n := n) (b :: stack) (by rw [List.length_cons]; omega) (by omega)
    have hHead : (s ++ [b]).headD 0 = s.headD 0 := by
      cases s with
      | nil => cases hSpells.length_pos
      | cons _ _ => rfl
    rw [Coder.walk, hByte]
    dsimp only
    rw [push_ok (by omega)]
    change (if 256 ≤ code then _ else _) = _
    rw [if_pos hHigh, hNext]
    dsimp only
    rw [hRest, hHead, List.append_assoc, List.singleton_append]

/-! ## Tables that grow -/

/-- What the one table has the other has too. -/
structure Extends (c c' : Coder) : Prop where
  htab : ∀ i b, c.htab i = some b → c'.htab i = some b
  codetab : ∀ i next, 256 ≤ i → c.htab i ≠ none → c.codetab i = some next → c'.codetab i = some next

theorem Spells.extend (hSpells : c.Spells code s) (hMore : c.Extends c') : c'.Spells code s := by
  induction hSpells with
  | literal hLow hByte => exact .literal hLow (hMore.htab _ _ hByte)
  | entry hHigh hByte hNext _ ih =>
    exact .entry hHigh (hMore.htab _ _ hByte) (hMore.codetab _ _ hHigh (by rw [hByte]; nofun) hNext) ih

theorem enter_extends (hFree : c.htab c.freeEnt = none) : c.Extends (c.enter h o b) := by
  rw [enter]
  split
  · constructor
    · intro i a hByte
      dsimp only
      rw [if_neg]
      · exact hByte
      · rintro rfl
        rw [hFree] at hByte
        cases hByte
    · intro i next _ hWritten hNext
      dsimp only
      rw [if_neg]
      · exact hNext
      · rintro rfl
        exact hWritten hFree
  · exact ⟨fun _ _ hByte => hByte, fun _ _ _ _ hNext => hNext⟩

/-- The table after a code whose string starts with this byte. -/
def after (h : Header) (o code : Nat) (b : UInt8) (c : Coder) : Coder :=
  ({ c with finchar := b, oldcode := some code } : Coder).enter h o b

@[simp] theorem after_nBits : (c.after h o code b).nBits = c.nBits := by
  rw [after, enter]
  split <;> rfl

@[simp] theorem after_oldcode : (c.after h o code b).oldcode = some code := by
  rw [after, enter]
  split <;> rfl

@[simp] theorem after_maxcode : (c.after h o code b).maxcode = c.maxcode := by
  rw [after, enter]
  split <;> rfl

theorem after_room (o code : Nat) (b : UInt8) (hRoom : c.freeEnt < h.maxmaxcode) :
    (c.after h o code b).freeEnt = c.freeEnt + 1 ∧ (c.after h o code b).htab c.freeEnt = some b ∧
      (c.after h o code b).codetab c.freeEnt = some (o % 65536) := by
  rw [after, enter, if_pos hRoom]
  exact ⟨rfl, if_pos rfl, if_pos rfl⟩

theorem after_full (hFull : h.maxmaxcode ≤ c.freeEnt) : (c.after h o code b).freeEnt = c.freeEnt := by
  rw [after, enter, if_neg (Nat.not_lt.mpr hFull)]

@[simp] theorem after_finchar : (c.after h o code b).finchar = b := by
  rw [after, enter]
  split <;> rfl

theorem after_extends (hFree : c.htab c.freeEnt = none) : c.Extends (c.after h o code b) := by
  have hEnter : Extends { c with finchar := b, oldcode := some code } (c.after h o code b) := enter_extends hFree
  exact ⟨hEnter.htab, hEnter.codetab⟩

theorem decode_known (hLt : code < c.freeEnt) (hSpells : c.Spells code s) (hRoom : c.freeEnt + s.length ≤ HSIZE - 1)
    (hn : s.length ≤ n) : c.decode h n o code = .ok (c.after h o code (s.headD 0), s) := by
  rw [decode, if_neg (by omega), unwind, if_neg (by omega), hSpells.walk [] hRoom hn, List.append_nil]
  rfl

/-- The KwKwK case: the string of the old code, and its first byte again. -/
theorem decode_next (hSpells : c.Spells o w)
    (hRoom : c.freeEnt + 1 + w.length ≤ HSIZE - 1) (hn : w.length ≤ n) :
    c.decode h n o c.freeEnt = .ok (c.after h o c.freeEnt (w.headD 0), w ++ [c.finchar]) := by
  have hWalk := hSpells.walk (n := n) [c.finchar] hRoom hn
  have hStack : c.unwind n o c.freeEnt = c.walk n o [c.finchar] := by
    rw [unwind, if_pos rfl, push_ok (by simp only [List.length_nil]; omega)]
    rfl
  rw [decode, if_neg (by omega), hStack, hWalk]
  rfl

/-- A code that is decoded names an entry, or the one that comes next. -/
theorem decode_ok (hRun : c.decode h n o code = .ok (c', s)) : code ≤ c.freeEnt ∧ ∃ b, c' = c.after h o code b := by
  rw [decode] at hRun
  split at hRun
  · cases hRun
  · refine ⟨by omega, ?_⟩
    cases hFound : c.unwind n o code with
    | error e =>
      rw [hFound] at hRun
      cases hRun
    | ok found =>
      rw [hFound] at hRun
      cases hRun
      exact ⟨found.1, rfl⟩

/-! ## Tables without gaps -/

/-- A code whose string is in the table. -/
def Live (h : Header) (c : Coder) (code : Nat) : Prop := code < 256 ∨ h.firstFree ≤ code ∧ code < c.freeEnt

/-- After a clear code the old code is one of the table before; the entry that it gives has the number of the clear code. -/
structure Sound (h : Header) (c : Coder) : Prop where
  low : 256 ≤ c.freeEnt
  high : c.freeEnt ≤ max h.maxmaxcode 257
  literal : ∀ code, code < 256 → c.htab code = some (UInt8.ofNat code)
  entry : ∀ e, h.firstFree ≤ e → e < c.freeEnt → ∃ b next, c.htab e = some b ∧ c.codetab e = some next ∧ next < e ∧
    c.Live h next
  unwritten : ∀ e, c.freeEnt ≤ e → c.htab e = none
  oldcode : ∀ o, c.oldcode = some o → c.Live h o ∨ o = c.freeEnt ∧ h.maxmaxcode ≤ c.freeEnt ∨ h.blockMode = true ∧
    c.freeEnt = 256

/-- How many bytes a string has at most. -/
def rank (code : Nat) : Nat := if code < 256 then 1 else code - 254

theorem rank_succ_le {next : Nat} (hHigh : 256 ≤ code) (hNext : next < code) : rank next + 1 ≤ rank code := by
  simp only [rank]
  split <;> split <;> omega

namespace Sound

theorem high_le (hSound : c.Sound h) : c.freeEnt ≤ 65536 := by
  have hHigh := hSound.high
  have hMax := h.maxmaxcode_le
  omega

theorem spells (hSound : c.Sound h) (hLive : c.Live h code) : ∃ s, c.Spells code s := by
  induction code using Nat.strong_induction_on with
  | _ code ih =>
    by_cases hLow : code < 256
    · exact ⟨_, .literal hLow (hSound.literal code hLow)⟩
    · obtain ⟨hFirst, hLt⟩ := hLive.resolve_left hLow
      obtain ⟨b, next, hByte, hNext, hLess, hLiveNext⟩ := hSound.entry code hFirst hLt
      obtain ⟨s, hSpells⟩ := ih next hLess hLiveNext
      exact ⟨_, .entry (by omega) hByte hNext hSpells⟩

theorem length_le (hSound : c.Sound h) (hLive : c.Live h code) (hSpells : c.Spells code s) : s.length ≤ rank code := by
  induction hSpells with
  | literal hLow _ =>
    rw [rank, if_pos hLow]
    exact Nat.le_refl 1
  | @entry code next b s hHigh hByte hNext _ ih =>
    obtain ⟨hFirst, hLt⟩ := hLive.resolve_left (by omega)
    obtain ⟨b', next', -, hNext', hLess, hLiveNext⟩ := hSound.entry code hFirst hLt
    have hSame : next' = next := Option.some.inj (hNext'.symm.trans hNext)
    subst hSame
    have hRank := rank_succ_le hHigh hLess
    have hRest := ih hLiveNext
    rw [List.length_append, List.length_singleton]
    omega

/-- The stack has room for a string and one more byte. -/
theorem room (hSound : c.Sound h) (hLive : c.Live h code) (hSpells : c.Spells code s) :
    c.freeEnt + 1 + s.length ≤ HSIZE - 1 := by
  have hLength := hSound.length_le hLive hSpells
  have hFree := hSound.high_le
  have hRank : rank code ≤ 65281 := by
    rw [rank]
    rcases hLive with hLow | ⟨-, hLt⟩
    · rw [if_pos hLow]
      decide
    · split <;> omega
  simp only [HSIZE]
  omega

theorem start (h : Header) : (Coder.start h).Sound h where
  low := by
    simp only [Coder.start]
    split <;> omega
  high := by
    have hPow : 0 < h.maxmaxcode := Nat.two_pow_pos _
    simp only [Coder.start]
    split <;> omega
  literal code hLow := if_pos hLow
  entry e hFirst hLt := absurd hLt (Nat.not_lt.mpr hFirst)
  unwritten e hFree := by
    have hFirst := h.firstFree_bounds.1
    exact if_neg (Nat.not_lt.mpr (hFirst.trans hFree))
  oldcode o hOld := by cases hOld

theorem reset (hBlock : h.blockMode = true) : c.reset.Sound h where
  low := Nat.le_refl 256
  high := (by decide : 256 ≤ 257).trans (Nat.le_max_right _ _)
  literal code hLow := if_pos hLow
  entry e hFirst hLt := by
    have hBounds := h.firstFree_bounds
    change e < 256 at hLt
    omega
  unwritten e hFree := if_neg (Nat.not_lt.mpr hFree)
  oldcode o _ := .inr (.inr ⟨hBlock, rfl⟩)

theorem widen (hSound : c.Sound h) : (c.widen h).Sound h :=
  ⟨hSound.low, hSound.high, hSound.literal, hSound.entry, hSound.unwritten, hSound.oldcode⟩

theorem begin (hSound : c.Sound h) (hLow : code < 256) : (c.begin code).Sound h where
  low := hSound.low
  high := hSound.high
  literal := hSound.literal
  entry := hSound.entry
  unwritten := hSound.unwritten
  oldcode o hOld := by
    cases hOld
    exact .inl (.inl hLow)

/-- After a code for which the table has a string, or that names the entry that it is about to get. -/
theorem after (hSound : c.Sound h) (hOld : c.oldcode = some o) (hCode : code ≤ c.freeEnt)
    (hFirst : 256 ≤ code → h.firstFree ≤ code) : (c.after h o code b).Sound h := by
  have hLow := hSound.low
  have hHigh := hSound.high_le
  rw [Coder.after, enter]
  dsimp only
  by_cases hFree : c.freeEnt < h.maxmaxcode
  · rw [if_pos hFree]
    have hMore : ∀ i, c.Live h i → i < 256 ∨ h.firstFree ≤ i ∧ i < c.freeEnt + 1 :=
      fun i hLive => hLive.imp_right fun ⟨hFirst, hLt⟩ => ⟨hFirst, by omega⟩
    refine ⟨by dsimp only; omega, by dsimp only; omega, fun i hi => ?_, fun e he hLt => ?_, fun e he => ?_,
      fun i hi => ?_⟩
    · dsimp only
      rw [if_neg (by omega)]
      exact hSound.literal i hi
    · dsimp only at hLt ⊢
      by_cases hNew : e = c.freeEnt
      · rw [if_pos hNew, if_pos hNew]
        have hLive : c.Live h o := by
          rcases hSound.oldcode o hOld with hLive | ⟨-, hFull⟩ | ⟨hBlock, hClear⟩
          · exact hLive
          · omega
          · rw [Header.firstFree, if_pos hBlock] at he
            omega
        have hLess : o < c.freeEnt := by
          rcases hLive with hLiteral | ⟨-, hLt⟩ <;> omega
        rw [Nat.mod_eq_of_lt (by omega)]
        exact ⟨_, o, rfl, rfl, by omega, hMore o hLive⟩
      · rw [if_neg hNew, if_neg hNew]
        obtain ⟨a, next, hByte, hNext, hLess, hLive⟩ := hSound.entry e he (by omega)
        exact ⟨a, next, hByte, hNext, hLess, hMore next hLive⟩
    · dsimp only at he ⊢
      rw [if_neg (by omega)]
      exact hSound.unwritten e (by omega)
    · cases hi
      refine .inl ?_
      by_cases hLiteral : code < 256
      · exact .inl hLiteral
      · exact .inr ⟨hFirst (by omega), by dsimp only; omega⟩
  · rw [if_neg hFree]
    refine ⟨hLow, hSound.high, hSound.literal, hSound.entry, hSound.unwritten, fun i hi => ?_⟩
    cases hi
    by_cases hLiteral : code < 256
    · exact .inl (.inl hLiteral)
    · by_cases hLt : code < c.freeEnt
      · exact .inl (.inr ⟨hFirst (by omega), hLt⟩)
      · exact .inr (.inl ⟨by dsimp only; omega, by dsimp only; omega⟩)

end Sound

/-! ## The width of the codes -/

/-- The codes get no wider than the header says, but for one step more that the width 9 is not stopped at. -/
structure Wide (h : Header) (c : Coder) : Prop where
  low : 9 ≤ c.nBits
  top : c.nBits ≤ max h.maxbits 10
  maxcode : c.maxcode = if c.nBits = h.maxbits ∧ 9 < c.nBits then h.maxmaxcode else 2 ^ c.nBits - 1

namespace Wide

theorem high (hWide : c.Wide h) : c.nBits ≤ 16 := by
  have hTop := hWide.top
  have hLe := h.maxbits_le
  omega

theorem first (hBits : c.nBits = 9) (hMax : c.maxcode = 511) : c.Wide h := by
  have hPow : 2 ^ 9 - 1 = 511 := by decide
  refine ⟨by omega, by omega, ?_⟩
  rw [hBits, hMax, if_neg fun hSame => absurd hSame.2 (by decide), hPow]

theorem start (h : Header) : (Coder.start h).Wide h := .first rfl rfl

theorem reset : c.reset.Wide h := .first rfl rfl

theorem after (hWide : c.Wide h) : (c.after h o code b).Wide h := by
  refine ⟨?_, ?_, ?_⟩ <;> simp only [after_nBits, after_maxcode]
  · exact hWide.low
  · exact hWide.top
  · exact hWide.maxcode

theorem widen (hWide : c.Wide h) (hSound : c.Sound h) (hFull : c.maxcode < c.freeEnt) : (c.widen h).Wide h := by
  have hLow := hWide.low
  have hTop := hWide.top
  have hFree := hSound.high
  have hMax := hWide.maxcode
  have hBits : c.nBits ≠ max h.maxbits 10 := by
    intro hLast
    by_cases hTen : 10 ≤ h.maxbits
    · rw [if_pos ⟨by omega, by omega⟩] at hMax
      have hPow : 2 ^ 10 ≤ h.maxmaxcode := Nat.pow_le_pow_right (by decide) hTen
      omega
    · rw [if_neg (by omega), hLast, Nat.max_eq_right (by omega)] at hMax
      have hPow : h.maxmaxcode ≤ 2 ^ 9 := Nat.pow_le_pow_right (by decide) (by omega)
      omega
  refine ⟨?_, ?_, ?_⟩ <;> simp only [Coder.widen]
  · omega
  · omega
  · congr 1
    rw [eq_iff_iff]
    exact ⟨fun hSame => ⟨hSame, by omega⟩, fun hSame => hSame.1⟩

end Wide

end

end Coder

end Libdap.Bes.BESUncompress3Z
