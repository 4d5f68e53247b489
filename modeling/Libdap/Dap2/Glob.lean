import Libdap.Core.Wildcard
import Libdap.Core.Bytes
import Libdap.Core.Int32
import Libdap.Core.Fault
import Mathlib.Data.Option.Defs

/-! # Names matched against simple patterns

A character class is compiled to a table of bits, one for each character up to 127. The characters that are compiled
go up to the place behind the closing bracket.
-/

namespace Libdap.Glob
open Core Wildcard
set_option autoImplicit false

/-- The 16 bytes of a table: bit `8 * i + j` is bit `j` of byte `i`. -/
abbrev BitList := BitVec 128

/-- A `char` is signed. -/
def signedChar (x : UInt8) : Int := if x < 128 then x.toNat else x.toNat - 256

/-- `b[c / 8] |= (1 << (c % 8))` -/
def setBit (b : BitList) (c : Int) : Except Fault BitList :=
  if 0 ≤ c ∧ c < 128 then .ok (b ||| 1#128 <<< c.toNat) else .error .outOfBounds

/-- `CHECK_BIT` -/
def checkBit (tab : BitList) (bit : UInt8) : Except Fault Bool :=
  if bit < 128 then .ok (tab.getLsbD bit.toNat) else .error .outOfBounds

/-- So many bits from `c` on. -/
def setBits : Nat → Int → BitList → Except Fault BitList
  | 0, _, b => .ok b
  | n + 1, c, b => do
    let b ← setBit b c
    setBits n (c + 1) b

/-- The loop over the characters of a class. -/
def setChars : Bytes → BitList → Except Fault BitList
  | [], b => .ok b
  | x :: dash :: y :: s, b =>
    if dash = '-'.toUInt8 then do
      let b ← setBits (signedChar y + 1 - signedChar x).toNat (signedChar x) b
      setChars s b
    else do
      let b ← setBit b (signedChar x)
      setChars (dash :: y :: s) b
  | x :: s, b => do
    let b ← setBit b (signedChar x)
    setChars s b

def isNegated (chars : Bytes) : Bool := chars.head? = some '^'.toUInt8

/-- The characters of a class behind its `^`. -/
def listed (chars : Bytes) : Bytes := if isNegated chars then chars.tail else chars

def globchars (chars : Bytes) : Except Fault BitList := do
  let b ← setChars (listed chars) 0#128
  .ok ((if isNegated chars then ~~~b else b) &&& ~~~1#128)

/-- The scan for the bracket that closes a class: the characters up to the place behind it, and what follows. -/
def classEnd : Bytes → Option (Bytes × Bytes)
  | [] => none
  | [_] => none
  | x :: y :: c =>
    if y = ']'.toUInt8 then some ([x, y], c)
    else (classEnd (y :: c)).map fun (chars, rest) => (x :: chars, rest)

/-- The attempts behind a star; nothing, when all have failed. -/
def backUp (glob : Bytes → Except Fault Int) (i : Int) : List Bytes → Except Fault (Option Int)
  | [] => .ok none
  | t :: ts => do
    let r ← glob t
    if r = 0 then .ok (some 0) else if r < 0 then .ok (some i) else backUp glob i ts

/-- The loop of `glob` after `i` rounds. Both strings end before a null character. -/
def globFrom : Nat → Nat → Bytes → Bytes → Except Fault Int
  | 0, _, _, _ => .error .undefined
  | n + 1, i, c, s =>
    if INT_MAX < i + 1 then .error .undefined
    else match c with
      | [] => .ok (if s.isEmpty then 0 else -1)
      | x :: c =>
        if x = '?'.toUInt8 then
          if s.isEmpty then .ok (i + 1) else globFrom n (i + 1) c s.tail
        else if x = '['.toUInt8 then
          match classEnd c with
          | none => .ok (i + 1)
          | some (chars, c) => do
            let bitlist ← globchars chars
            let bit ← checkBit bitlist (s.headD 0)
            if bit then globFrom n (i + 1) c s.tail else .ok (i + 1)
        else if x = '*'.toUInt8 then do
          let last ← backUp (fun t => if c.isEmpty then .ok (if t.isEmpty then 0 else -1) else globFrom n 0 c t) (i + 1)
            (suffixes s)
          match last with
          | some r => .ok r
          | none => globFrom n (i + 1) c s
        else if x = '\\'.toUInt8 then
          match c with
          | [] => .ok (i + 1)
          | y :: c => if s.head? = some y then globFrom n (i + 1) c s.tail else .ok (i + 1)
        else if s.head? = some x then globFrom n (i + 1) c s.tail
        else .ok (i + 1)

def glob (c s : Bytes) : Except Fault Int := globFrom (c.length + 1) 0 c s

/-! ## Patterns -/

/-- A string of C. -/
structure CString where
  bytes : Bytes
  noNull : 0 ∉ bytes

/-- The text between the brackets of a class. A closing bracket can only be its first character. -/
structure ClassText where
  bytes : Bytes
  nonempty : bytes ≠ []
  closed : ']'.toUInt8 ∉ bytes.tail
  noNull : 0 ∉ bytes

inductive Symbol
  | question
  | brackets (text : ClassText)
  | escaped (x : UInt8) (noNull : x ≠ 0)
  | literal (x : UInt8) (noNull : x ≠ 0) (plain : x ∉ [('?' : Char), '[', '*', '\\'].map Char.toUInt8)

inductive Token
  | star
  | symbol (x : Symbol)

def Symbol.text : Symbol → Bytes
  | question => ['?'.toUInt8]
  | brackets t => '['.toUInt8 :: (t.bytes ++ [']'.toUInt8])
  | escaped x _ => ['\\'.toUInt8, x]
  | literal x _ _ => [x]

def Token.text : Token → Bytes
  | star => ['*'.toUInt8]
  | symbol x => x.text

def textOf (pattern : List Token) : Bytes := pattern.flatMap Token.text

/-- The ranges of a class; a character that stands alone is a range too. -/
def ranges : Bytes → List (UInt8 × UInt8)
  | [] => []
  | x :: dash :: y :: s =>
    if dash = '-'.toUInt8 then (x, y) :: ranges s else (x, x) :: ranges (dash :: y :: s)
  | x :: s => (x, x) :: ranges s

/-- What a class stands for. -/
def ClassText.denoted (t : ClassText) (b : UInt8) : Bool :=
  isNegated t.bytes ^^ (ranges (listed t.bytes)).any fun r => decide (r.1 ≤ b ∧ b ≤ r.2)

def Symbol.denoted : Symbol → UInt8 → Bool
  | question, _ => true
  | brackets t, b => t.denoted b
  | escaped x _, b => b = x
  | literal x _ _, b => b = x

def Token.denoted : Token → Element UInt8
  | star => .star
  | symbol x => .one x.denoted

/-- The language that a pattern denotes. -/
def Denotes (pattern : List Token) (s : CString) : Prop := Matches (pattern.map Token.denoted) s.bytes

/-- The text that a class is compiled from: the closing bracket is one of its characters. -/
def ClassText.read (t : ClassText) : Bytes := t.bytes ++ [']'.toUInt8]

/-- The same for the text that is compiled, and for ranges in the order of `char`. -/
def ClassText.compiled (t : ClassText) (b : UInt8) : Bool :=
  isNegated t.read ^^
    (ranges (listed t.read)).any fun r => decide (signedChar r.1 ≤ signedChar b ∧ signedChar b ≤ signedChar r.2)

def Symbol.compiled : Symbol → UInt8 → Bool
  | question, _ => true
  | brackets t, b => t.compiled b
  | escaped x _, b => b = x
  | literal x _ _, b => b = x

def Token.compiled : Token → Element UInt8
  | star => .star
  | symbol x => .one x.compiled

def compiled (pattern : List Token) : List (Element UInt8) := pattern.map Token.compiled

/-- The language of a pattern with its classes as they are compiled. -/
def CompilesTo (pattern : List Token) (s : CString) : Prop := Matches (compiled pattern) s.bytes

/-- A range is empty, or it begins with a character up to 127. -/
def Storable (r : UInt8 × UInt8) : Prop := signedChar r.1 ≤ signedChar r.2 → 0 ≤ signedChar r.1

instance (r : UInt8 × UInt8) : Decidable (Storable r) := inferInstanceAs (Decidable (_ → _))

/-- A class has no character over 127 in its ranges, and is not compared with one. -/
def Symbol.InTable : Symbol → Bytes → Prop
  | brackets t, s =>
    (∀ r ∈ ranges (listed t.read), Storable r) ∧ ∀ b ∈ s.head?, b < 128
  | _, _ => True

/-- On the walk of a pattern over a text, after `i` rounds, no table is left and no `int` overflows. -/
def InBounds : Nat → List Token → Bytes → Prop
  | i, [], _ => i < INT_MAX
  | i, .symbol x :: _, [] => i < INT_MAX ∧ x.InTable []
  | i, .symbol x :: pattern, b :: s =>
    i < INT_MAX ∧ x.InTable (b :: s) ∧ (x.compiled b = true → InBounds (i + 1) pattern s)
  | i, .star :: pattern, s =>
    i < INT_MAX ∧ Tried (verdict (compiled pattern)) (InBounds 0 pattern) (suffixes s) ∧
      (search (verdict (compiled pattern)) (suffixes s) = none → InBounds (i + 1) pattern s)

/-! ## The table of a class -/

theorem signedChar_le (x : UInt8) : signedChar x ≤ 127 := by
  have hx := x.toNat_lt
  rw [signedChar]
  split
  · rename_i h
    have hLess : x.toNat < 128 := UInt8.lt_iff_toNat_lt.mp h
    omega
  · omega

theorem signedChar_of_lt {x : UInt8} (h : x < 128) : signedChar x = x.toNat := by rw [signedChar, if_pos h]

theorem getLsbD_setBit (b : BitList) {n m : Nat} (hm : m < 128) :
    (b ||| 1#128 <<< n).getLsbD m = true ↔ b.getLsbD m = true ∨ m = n := by
  rw [BitVec.getLsbD_or, Bool.or_eq_true, BitVec.getLsbD_shiftLeft]
  apply or_congr Iff.rfl
  simp only [hm, decide_true, Bool.true_and, BitVec.getLsbD_one, Bool.and_eq_true, Bool.not_eq_true',
    decide_eq_false_iff_not, decide_eq_true_eq]
  omega

theorem setBits_ok {n : Nat} {c : Int} (b : BitList) (hLow : 0 ≤ c) (hHigh : c + n ≤ 128) :
    ∃ t, setBits n c b = .ok t ∧ ∀ m < 128, (t.getLsbD m = true ↔ b.getLsbD m = true ∨ c ≤ m ∧ m < c + n) := by
  induction n generalizing c b with
  | zero =>
    refine ⟨b, rfl, fun m _ => ?_⟩
    constructor
    · exact .inl
    · rintro (h | h)
      · exact h
      · omega
  | succ n ih =>
    rw [setBits, setBit, if_pos (by omega), ok_bind]
    obtain ⟨t, hRun, hBits⟩ := ih (c := c + 1) (b ||| 1#128 <<< c.toNat) (by omega) (by omega)
    refine ⟨t, hRun, fun m hm => ?_⟩
    rw [hBits m hm, getLsbD_setBit b hm, or_assoc]
    apply or_congr Iff.rfl
    omega

theorem setBits_error {n : Nat} {c : Int} (b : BitList) (hn : 0 < n) (hc : c < 0) :
    setBits n c b = .error .outOfBounds := by
  cases n with
  | zero => exact absurd hn (Nat.lt_irrefl 0)
  | succ n =>
    rw [setBits, setBit, if_neg (by omega)]
    rfl

def setRange (b : BitList) (r : UInt8 × UInt8) : Except Fault BitList :=
  setBits (signedChar r.2 + 1 - signedChar r.1).toNat (signedChar r.1) b

theorem setRange_ok {r : UInt8 × UInt8} (b : BitList) (h : Storable r) : ∃ t, setRange b r = .ok t ∧
    ∀ m < 128, (t.getLsbD m = true ↔ b.getLsbD m = true ∨ signedChar r.1 ≤ m ∧ m ≤ signedChar r.2) := by
  have hTop := signedChar_le r.2
  rw [setRange]
  rcases lt_or_ge (signedChar r.2) (signedChar r.1) with hEmpty | hSome
  · rw [show (signedChar r.2 + 1 - signedChar r.1).toNat = 0 by omega]
    refine ⟨b, rfl, fun m _ => ?_⟩
    constructor
    · exact .inl
    · rintro (hb | hm)
      · exact hb
      · omega
  · obtain ⟨t, hRun, hBits⟩ := setBits_ok (n := (signedChar r.2 + 1 - signedChar r.1).toNat) b (h hSome) (by omega)
    refine ⟨t, hRun, fun m hm => ?_⟩
    rw [hBits m hm]
    apply or_congr Iff.rfl
    omega

theorem setRange_error {r : UInt8 × UInt8} (b : BitList) (h : ¬ Storable r) :
    setRange b r = .error .outOfBounds := by
  rw [Storable, Classical.not_imp] at h
  exact setBits_error b (by omega) (by omega)

theorem setBit_eq_setRange (b : BitList) (x : UInt8) : setBit b (signedChar x) = setRange b (x, x) := by
  rw [setRange, show (signedChar x + 1 - signedChar x).toNat = 1 by omega, setBits]
  cases setBit b (signedChar x) with
  | ok t => rfl
  | error e => rfl

theorem setChars_eq (chars : Bytes) (b : BitList) : setChars chars b = (ranges chars).foldlM setRange b := by
  induction chars using ranges.induct generalizing b with
  | case1 => rfl
  | case2 x y s ih =>
    rw [setChars, ranges, if_pos rfl, if_pos rfl, List.foldlM_cons]
    apply bind_congr
    exact ih
  | case3 x dash y s hDash ih =>
    rw [setChars, ranges, if_neg hDash, if_neg hDash, List.foldlM_cons, setBit_eq_setRange]
    apply bind_congr
    exact ih
  | case4 x s hShort ih =>
    rw [setChars, ranges, List.foldlM_cons, setBit_eq_setRange]
    · apply bind_congr
      exact ih
    · exact hShort
    · exact hShort

theorem foldlM_setRange_ok {rs : List (UInt8 × UInt8)} (b : BitList) (h : ∀ r ∈ rs, Storable r) :
    ∃ t, rs.foldlM setRange b = .ok t ∧ ∀ m < 128, (t.getLsbD m = true ↔
      b.getLsbD m = true ∨ ∃ r ∈ rs, signedChar r.1 ≤ m ∧ m ≤ signedChar r.2) := by
  induction rs generalizing b with
  | nil => exact ⟨b, rfl, fun m _ => by simp⟩
  | cons r rs ih =>
    obtain ⟨hr, hrs⟩ := List.forall_mem_cons.mp h
    obtain ⟨t, hRun, hBits⟩ := setRange_ok b hr
    obtain ⟨t', hRun', hBits'⟩ := ih t hrs
    refine ⟨t', ?_, fun m hm => ?_⟩
    · rw [List.foldlM_cons, hRun, ok_bind, hRun']
    · rw [hBits' m hm, hBits m hm, or_assoc, List.exists_mem_cons_iff]

theorem foldlM_setRange_error {rs : List (UInt8 × UInt8)} (b : BitList) (h : ¬ ∀ r ∈ rs, Storable r) :
    ∃ f, rs.foldlM setRange b = .error f := by
  induction rs generalizing b with
  | nil => exact absurd (fun r hr => absurd hr List.not_mem_nil) h
  | cons r rs ih =>
    rw [List.foldlM_cons]
    by_cases hr : Storable r
    · obtain ⟨t, hRun, -⟩ := setRange_ok b hr
      rw [hRun, ok_bind]
      exact ih t fun hrs => h (List.forall_mem_cons.mpr ⟨hr, hrs⟩)
    · rw [setRange_error b hr]
      exact ⟨_, rfl⟩

theorem isNegated_read (t : ClassText) : isNegated t.read = isNegated t.bytes := by
  rw [isNegated, isNegated, ClassText.read, List.head?_append_of_ne_nil _ t.nonempty]

/-- The table of a class says of a character what the compiled text says, and nothing of the null character. -/
theorem globchars_ok {chars : Bytes} (h : ∀ r ∈ ranges (listed chars), Storable r) :
    ∃ tab, globchars chars = .ok tab ∧ tab.getLsbD 0 = false ∧ ∀ b : UInt8, b < 128 → b ≠ 0 →
      tab.getLsbD b.toNat = (isNegated chars ^^ (ranges (listed chars)).any fun r =>
        decide (signedChar r.1 ≤ signedChar b ∧ signedChar b ≤ signedChar r.2)) := by
  obtain ⟨t, hRun, hBits⟩ := foldlM_setRange_ok 0#128 h
  rw [globchars, setChars_eq, hRun, ok_bind]
  refine ⟨_, rfl, ?_, fun b hb hNull => ?_⟩
  · rw [BitVec.getLsbD_and, BitVec.getLsbD_not, BitVec.getLsbD_one]
    simp
  · have hToNat : b.toNat < 128 := UInt8.lt_iff_toNat_lt.mp hb
    have hPos : b.toNat ≠ 0 := fun hZero => hNull (UInt8.toNat_inj.mp hZero)
    have hAny : t.getLsbD b.toNat = (ranges (listed chars)).any fun r =>
        decide (signedChar r.1 ≤ signedChar b ∧ signedChar b ≤ signedChar r.2) := by
      rw [Bool.eq_iff_iff, hBits b.toNat hToNat, List.any_eq_true, BitVec.getLsbD_zero, signedChar_of_lt hb]
      simp only [Bool.false_eq_true, false_or, decide_eq_true_eq]
    have hMask : (~~~1#128).getLsbD b.toNat = true := by
      rw [BitVec.getLsbD_not, BitVec.getLsbD_one]
      simp [hToNat, hPos]
    rw [BitVec.getLsbD_and, hMask, Bool.and_true]
    cases isNegated chars with
    | false => rw [if_neg (by simp), hAny, Bool.false_xor]
    | true => rw [if_pos rfl, BitVec.getLsbD_not, hAny, decide_eq_true hToNat, Bool.true_and, Bool.true_xor]

theorem globchars_error {chars : Bytes} (h : ¬ ∀ r ∈ ranges (listed chars), Storable r) :
    ∃ f, globchars chars = .error f := by
  obtain ⟨f, hRun⟩ := foldlM_setRange_error 0#128 h
  rw [globchars, setChars_eq, hRun]
  exact ⟨f, rfl⟩

/-! ## One round -/

/-- What the next element of a pattern says of the text. -/
def Symbol.test (s : Bytes) : Symbol → Except Fault Bool
  | question => .ok !s.isEmpty
  | brackets t => do
    let bitlist ← globchars t.read
    checkBit bitlist (s.headD 0)
  | escaped x _ => .ok (s.head? = some x)
  | literal x _ _ => .ok (s.head? = some x)

theorem classEnd_append {chars : Bytes} (hNonempty : chars ≠ []) (hClosed : ']'.toUInt8 ∉ chars.tail) (c : Bytes) :
    classEnd (chars ++ ']'.toUInt8 :: c) = some (chars ++ [']'.toUInt8], c) := by
  induction chars with
  | nil => exact absurd rfl hNonempty
  | cons x chars ih =>
    cases chars with
    | nil => rw [List.singleton_append, classEnd, if_pos rfl, List.singleton_append]
    | cons y chars =>
      rw [List.tail_cons, List.mem_cons, not_or] at hClosed
      rw [List.cons_append, List.cons_append, classEnd, if_neg (fun h => hClosed.1 h.symm), ← List.cons_append,
        ih (by simp) hClosed.2]
      rfl

theorem globFrom_symbol {i : Nat} (hi : i < INT_MAX) (n : Nat) (x : Symbol) (c s : Bytes) :
    globFrom (n + 1) i (x.text ++ c) s =
      x.test s >>= fun fits => if fits then globFrom n (i + 1) c s.tail else .ok (i + 1) := by
  rw [globFrom.eq_def]
  dsimp only
  rw [if_neg (by omega)]
  cases x with
  | question =>
    rw [Symbol.text, List.singleton_append, Symbol.test, ok_bind]
    dsimp only
    rw [if_pos rfl]
    cases s with
    | nil => rfl
    | cons b s => rfl
  | brackets t =>
    rw [Symbol.text, List.cons_append, List.append_assoc, List.singleton_append, Symbol.test]
    dsimp only
    rw [if_neg (by decide), if_pos rfl, classEnd_append t.nonempty t.closed, ClassText.read]
    dsimp only
    rw [bind_assoc]
  | escaped x hNull =>
    rw [Symbol.text, Symbol.test, ok_bind, List.cons_append, List.singleton_append]
    dsimp only
    rw [if_neg (by decide), if_neg (by decide), if_neg (by decide), if_pos rfl]
    simp only [decide_eq_true_eq]
  | literal x hNull hPlain =>
    rw [Symbol.text, Symbol.test, ok_bind, List.singleton_append]
    simp only [List.map_cons, List.map_nil, List.mem_cons, List.not_mem_nil, or_false, not_or] at hPlain
    obtain ⟨hQuestion, hBracket, hStar, hBackslash⟩ := hPlain
    dsimp only
    rw [if_neg hQuestion, if_neg hBracket, if_neg hStar, if_neg hBackslash]
    simp only [decide_eq_true_eq]

theorem globFrom_star {i : Nat} (hi : i < INT_MAX) (n : Nat) (c s : Bytes) :
    globFrom (n + 1) i ('*'.toUInt8 :: c) s =
      backUp (fun t => if c.isEmpty then .ok (if t.isEmpty then 0 else -1) else globFrom n 0 c t) (i + 1)
        (suffixes s) >>= fun last => last.elim (globFrom n (i + 1) c s) .ok := by
  rw [globFrom.eq_def]
  dsimp only
  rw [if_neg (by omega), if_neg (by decide), if_neg (by decide), if_pos rfl]
  apply bind_congr
  intro last
  cases last with
  | none => rfl
  | some r => rfl

/-- Where the table is not left, the test says what the compiled element says. -/
theorem Symbol.test_ok {x : Symbol} {s : Bytes} (hIn : x.InTable s) (hs : 0 ∉ s) :
    x.test s = .ok (s.head?.any x.compiled) := by
  cases x with
  | question =>
    cases s with
    | nil => rfl
    | cons b s => rfl
  | brackets t =>
    obtain ⟨hStorable, hByte⟩ := hIn
    obtain ⟨tab, hRun, hNull, hTable⟩ := globchars_ok hStorable
    rw [Symbol.test, hRun, ok_bind, checkBit]
    cases s with
    | nil => rw [List.headD_nil, if_pos (by decide), UInt8.toNat_zero, hNull, List.head?_nil, Option.any_none]
    | cons b s =>
      have hb : b < 128 := hByte b rfl
      have hb0 : b ≠ 0 := fun h => hs (h ▸ List.mem_cons_self)
      rw [List.headD_cons, if_pos hb, hTable b hb hb0]
      rfl
  | escaped x hNull =>
    cases s with
    | nil => rfl
    | cons b s => simp [Symbol.test, Symbol.compiled]
  | literal x hNull hPlain =>
    cases s with
    | nil => rfl
    | cons b s => simp [Symbol.test, Symbol.compiled]

theorem Symbol.test_error {x : Symbol} {s : Bytes} (h : ¬ x.InTable s) : ∃ f, x.test s = .error f := by
  cases x with
  | brackets t =>
    rw [Symbol.test]
    by_cases hStorable : ∀ r ∈ ranges (listed t.read), Storable r
    · obtain ⟨tab, hRun, -⟩ := globchars_ok hStorable
      cases s with
      | nil => exact absurd ⟨hStorable, fun b hb => by cases hb⟩ h
      | cons b s =>
        have hb : ¬ b < 128 := fun hb => h ⟨hStorable, fun b' hb' => by cases hb'; exact hb⟩
        rw [hRun, ok_bind, checkBit, List.headD_cons, if_neg hb]
        exact ⟨_, rfl⟩
    · obtain ⟨f, hRun⟩ := globchars_error hStorable
      rw [hRun]
      exact ⟨f, rfl⟩
  | question => exact absurd trivial h
  | escaped x hNull => exact absurd trivial h
  | literal x hNull hPlain => exact absurd trivial h

/-! ## The walk -/

/-- What a returned number says. -/
def Says (r : Int) : Verdict → Prop
  | .matched => r = 0
  | .surplus => r < 0
  | .failed => 0 < r

@[simp] theorem says_matched {r : Int} : Says r .matched ↔ r = 0 := Iff.rfl

@[simp] theorem says_surplus {r : Int} : Says r .surplus ↔ r < 0 := Iff.rfl

@[simp] theorem says_failed {r : Int} : Says r .failed ↔ 0 < r := Iff.rfl

theorem says_zero_iff {r : Int} {v : Verdict} (h : Says r v) : r = 0 ↔ v = .matched := by
  cases v with
  | matched => exact ⟨fun _ => rfl, fun _ => h⟩
  | surplus => exact ⟨fun hr => absurd hr (Int.ne_of_lt h), fun hv => nomatch hv⟩
  | failed => exact ⟨fun hr => absurd hr (Int.ne_of_gt h), fun hv => nomatch hv⟩

section
variable {attempts : Bytes → Except Fault Int} {attempt : Bytes → Verdict} {P : Bytes → Prop} {i : Int}
  {ts : List Bytes}

theorem backUp_ok (hi : 0 < i) (hOk : ∀ t ∈ ts, P t → ∃ r, attempts t = .ok r ∧ Says r (attempt t))
    (h : Tried attempt P ts) : ∃ last, backUp attempts i ts = .ok last ∧ Option.Rel Says last (search attempt ts) := by
  induction ts with
  | nil => exact ⟨none, rfl, .none⟩
  | cons t ts ih =>
    obtain ⟨hFirst, hRest⟩ := List.forall_mem_cons.mp hOk
    obtain ⟨ht, hts⟩ := h
    obtain ⟨r, hRun, hSays⟩ := hFirst ht
    rw [backUp, hRun, ok_bind, search]
    cases hVerdict : attempt t with
    | matched =>
      rw [hVerdict, says_matched] at hSays
      rw [if_pos hSays]
      exact ⟨some 0, rfl, .some rfl⟩
    | surplus =>
      rw [hVerdict, says_surplus] at hSays
      rw [if_neg (Int.ne_of_lt hSays), if_pos hSays]
      exact ⟨some i, rfl, .some hi⟩
    | failed =>
      rw [hVerdict, says_failed] at hSays
      rw [if_neg (Int.ne_of_gt hSays), if_neg (Int.not_lt.mpr (Int.le_of_lt hSays))]
      exact ih hRest (hts hVerdict)

theorem backUp_error (hOk : ∀ t ∈ ts, P t → ∃ r, attempts t = .ok r ∧ Says r (attempt t))
    (hError : ∀ t ∈ ts, ¬ P t → ∃ f, attempts t = .error f) (h : ¬ Tried attempt P ts) :
    ∃ f, backUp attempts i ts = .error f := by
  induction ts with
  | nil => exact absurd trivial h
  | cons t ts ih =>
    obtain ⟨hFirst, hRest⟩ := List.forall_mem_cons.mp hOk
    obtain ⟨hFirstError, hRestError⟩ := List.forall_mem_cons.mp hError
    rw [backUp]
    by_cases ht : P t
    · obtain ⟨r, hRun, hSays⟩ := hFirst ht
      rw [Tried, not_and, Classical.not_imp] at h
      obtain ⟨hFailed, hts⟩ := h ht
      rw [hFailed, says_failed] at hSays
      rw [hRun, ok_bind, if_neg (Int.ne_of_gt hSays), if_neg (Int.not_lt.mpr (Int.le_of_lt hSays))]
      exact ih hRest hRestError hts
    · obtain ⟨f, hRun⟩ := hFirstError ht
      rw [hRun]
      exact ⟨f, rfl⟩

end

theorem InBounds.lt {i : Nat} {pattern : List Token} {s : Bytes} (h : InBounds i pattern s) : i < INT_MAX := by
  cases pattern with
  | nil => exact h
  | cons token pattern =>
    cases token with
    | star => exact h.1
    | symbol x =>
      cases s with
      | nil => exact h.1
      | cons b s => exact h.1

theorem globFrom_overflow {i : Nat} (hi : ¬ i < INT_MAX) (n : Nat) (c s : Bytes) :
    globFrom (n + 1) i c s = .error .undefined := by
  rw [globFrom.eq_def]
  dsimp only
  rw [if_pos (by omega)]

theorem Symbol.text_length_pos (x : Symbol) : 0 < x.text.length := by
  cases x with
  | question => exact Nat.one_pos
  | brackets t => exact Nat.succ_pos _
  | escaped x hNull => exact Nat.succ_pos _
  | literal x hNull hPlain => exact Nat.one_pos

/-- How the loop ends: as the verdict says if nothing goes out of bounds, and otherwise with a fault. -/
def EndsAs (run : Except Fault Int) (inBounds : Prop) (v : Verdict) : Prop :=
  (inBounds → ∃ r, run = .ok r ∧ Says r v) ∧ (¬ inBounds → ∃ f, run = .error f)

theorem globFrom_nil_spec (n i : Nat) (s : Bytes) :
    EndsAs (globFrom (n + 1) i [] s) (InBounds i [] s) (verdict (compiled []) s) := by
  constructor
  · intro h
    rw [globFrom.eq_def]
    dsimp only
    rw [if_neg (Int.not_lt.mpr (show (i : Int) + 1 ≤ INT_MAX from h.lt))]
    cases s with
    | nil => exact ⟨0, rfl, rfl⟩
    | cons b s => exact ⟨-1, rfl, says_surplus.mpr (by decide)⟩
  · intro h
    exact ⟨_, globFrom_overflow h n [] s⟩

theorem globFrom_symbol_spec {n i : Nat} {x : Symbol} {pattern : List Token} {s : Bytes} (hs : 0 ∉ s)
    (ih : ∀ b s', s = b :: s' → EndsAs (globFrom n (i + 1) (textOf pattern) s') (InBounds (i + 1) pattern s')
      (verdict (compiled pattern) s')) :
    EndsAs (globFrom (n + 1) i (x.text ++ textOf pattern) s) (InBounds i (.symbol x :: pattern) s)
      (verdict (compiled (.symbol x :: pattern)) s) := by
  by_cases hi : i < INT_MAX
  · rw [globFrom_symbol hi]
    by_cases hIn : x.InTable s
    · rw [Symbol.test_ok hIn hs, ok_bind]
      cases s with
      | nil =>
        constructor
        · intro _
          exact ⟨_, rfl, Int.natCast_pos.mpr (Nat.succ_pos i)⟩
        · intro h
          exact absurd ⟨hi, hIn⟩ h
      | cons b s =>
        have hVerdict : verdict (compiled (.symbol x :: pattern)) (b :: s) =
            if x.compiled b then verdict (compiled pattern) s else .failed := rfl
        rw [List.head?_cons, Option.any_some, hVerdict]
        by_cases hb : x.compiled b = true
        · rw [if_pos hb, if_pos hb, List.tail_cons]
          obtain ⟨hOk, hError⟩ := ih b s rfl
          constructor
          · intro h
            exact hOk (h.2.2 hb)
          · intro h
            exact hError fun hRest => h ⟨hi, hIn, fun _ => hRest⟩
        · rw [if_neg hb, if_neg hb]
          constructor
          · intro _
            exact ⟨_, rfl, Int.natCast_pos.mpr (Nat.succ_pos i)⟩
          · intro h
            exact absurd ⟨hi, hIn, fun hAccepts => absurd hAccepts hb⟩ h
    · obtain ⟨f, hRun⟩ := Symbol.test_error hIn
      rw [hRun]
      constructor
      · intro h
        cases s with
        | nil => exact absurd h.2 hIn
        | cons b s => exact absurd h.2.1 hIn
      · intro _
        exact ⟨f, rfl⟩
  · constructor
    · intro h
      exact absurd h.lt hi
    · intro _
      exact ⟨_, globFrom_overflow hi n _ s⟩

theorem not_null_of_suffix {s t : Bytes} (ht : t ∈ suffixes s) (hs : 0 ∉ s) : 0 ∉ t := by
  obtain ⟨x, u, rfl⟩ := mem_suffixes.mp ht
  exact fun h => hs (List.mem_cons_of_mem x (List.mem_append_right u h))

theorem textOf_isEmpty (pattern : List Token) : (textOf pattern).isEmpty = true ↔ pattern = [] := by
  cases pattern with
  | nil => exact ⟨fun _ => rfl, fun _ => rfl⟩
  | cons token pattern =>
    rw [textOf, List.flatMap_cons, List.isEmpty_iff]
    constructor
    · intro h
      have hText := congrArg List.length (List.append_eq_nil_iff.mp h).1
      cases token with
      | star => cases hText
      | symbol x => exact absurd hText (Nat.ne_of_gt x.text_length_pos)
    · intro h
      cases h

theorem globFrom_star_spec {n i : Nat} {pattern : List Token} {s : Bytes} (hs : 0 ∉ s)
    (ih : ∀ j t, 0 ∉ t → EndsAs (globFrom n j (textOf pattern) t) (InBounds j pattern t)
      (verdict (compiled pattern) t)) :
    EndsAs (globFrom (n + 1) i ('*'.toUInt8 :: textOf pattern) s) (InBounds i (.star :: pattern) s)
      (verdict (compiled (.star :: pattern)) s) := by
  by_cases hi : i < INT_MAX
  · rw [globFrom_star hi]
    -- An attempt without a pattern left looks at the text alone.
    have hAttempt : ∀ t ∈ suffixes s, EndsAs
        (if (textOf pattern).isEmpty then .ok (if t.isEmpty then 0 else -1) else globFrom n 0 (textOf pattern) t)
        (InBounds 0 pattern t) (verdict (compiled pattern) t) := by
      intro t ht
      split
      · rename_i hEmpty
        obtain rfl := (textOf_isEmpty pattern).mp hEmpty
        constructor
        · intro _
          cases t with
          | nil => exact ⟨0, rfl, rfl⟩
          | cons b t => exact ⟨-1, rfl, says_surplus.mpr (by decide)⟩
        · intro h
          exact absurd (show ((0 : Nat) : Int) < INT_MAX by decide) h
      · exact ih 0 t (not_null_of_suffix ht hs)
    have hOk := fun t ht => (hAttempt t ht).1
    have hError := fun t ht => (hAttempt t ht).2
    by_cases hTried : Tried (verdict (compiled pattern)) (InBounds 0 pattern) (suffixes s)
    · obtain ⟨last, hRun, hRel⟩ := backUp_ok (show 0 < (i : Int) + 1 by omega) hOk hTried
      rw [hRun, ok_bind]
      cases hSearch : search (verdict (compiled pattern)) (suffixes s) with
      | none =>
        rw [hSearch] at hRel
        cases hRel
        obtain ⟨hRestOk, hRestError⟩ := ih (i + 1) s hs
        have hVerdict : verdict (compiled (.star :: pattern)) s = verdict (compiled pattern) s :=
          verdict_star_of_none (search_eq_none.mp hSearch)
        rw [hVerdict, Option.elim_none]
        constructor
        · intro h
          exact hRestOk (h.2.2 hSearch)
        · intro h
          exact hRestError fun hRest => h ⟨hi, hTried, fun _ => hRest⟩
      | some v =>
        rw [hSearch] at hRel
        cases hRel with
        | some hSays =>
          have hVerdict : verdict (compiled (.star :: pattern)) s = v := verdict_star_of_some hSearch
          rw [hVerdict, Option.elim_some]
          constructor
          · intro _
            exact ⟨_, rfl, hSays⟩
          · intro h
            refine absurd ⟨hi, hTried, fun hNone => ?_⟩ h
            rw [hSearch] at hNone
            cases hNone
    · obtain ⟨f, hRun⟩ := backUp_error hOk hError hTried
      rw [hRun]
      constructor
      · intro h
        exact absurd h.2.1 hTried
      · intro _
        exact ⟨f, rfl⟩
  · constructor
    · intro h
      exact absurd h.lt hi
    · intro _
      exact ⟨_, globFrom_overflow hi n _ s⟩

theorem globFrom_spec (pattern : List Token) {n : Nat} (hn : (textOf pattern).length < n) (i : Nat) {s : Bytes}
    (hs : 0 ∉ s) :
    EndsAs (globFrom n i (textOf pattern) s) (InBounds i pattern s) (verdict (compiled pattern) s) := by
  induction pattern generalizing n i s with
  | nil =>
    cases n with
    | zero => exact absurd hn (Nat.not_lt_zero _)
    | succ n => exact globFrom_nil_spec n i s
  | cons token pattern ih =>
    rw [textOf, List.flatMap_cons, List.length_append] at hn
    cases n with
    | zero => exact absurd hn (Nat.not_lt_zero _)
    | succ n =>
      cases token with
      | star =>
        have hLength : 1 + (textOf pattern).length < n + 1 := hn
        have hRest : (textOf pattern).length < n := by omega
        exact globFrom_star_spec hs fun j t ht => ih hRest j ht
      | symbol x =>
        have hText := x.text_length_pos
        have hLength : x.text.length + (textOf pattern).length < n + 1 := hn
        have hRest : (textOf pattern).length < n := by omega
        rw [textOf, List.flatMap_cons]
        refine globFrom_symbol_spec hs fun b s' hEq => ih hRest (i + 1) fun h => hs ?_
        rw [hEq]
        exact List.mem_cons_of_mem b h

/-- The pattern `[a]` -/
def classOfA : List Token := [.symbol (.brackets ⟨['a'.toUInt8], by decide, by decide, by decide⟩)]

def closingBracket : CString := ⟨[']'.toUInt8], by decide⟩

end Libdap.Glob
