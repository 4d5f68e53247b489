import Libdap.Bes.BESUncompress3Z
import Libdap.Core.Lzw
import Mathlib.Logic.Relation

/-! # The codes of a file

The codes of one width stand one after the other in groups of eight, from the byte on where the width was last set.
What the buffer holds, and how often it is filled, does not matter to the code that is read next.
-/

namespace Libdap.Bes.BESUncompress3Z
open Core Core.Lzw
set_option autoImplicit false

namespace Input

/-- The buffer holds the bytes of the file from `base` on, and `rest` the ones after them. -/
structure Holds (file : Bytes) (base : Nat) (d : Input) : Prop where
  bytes : ∀ i : Nat, (i : Int) < d.insize → file[base + i]? = some (d.inbuf i)
  rest_eq : d.rest = file.drop (file.length - d.rest.length)
  split : (base : Int) + d.insize + d.rest.length = file.length
  small : d.insize ≤ BUFSIZ + 63

/-- The last read gave nothing only if there was nothing left. -/
structure Held (file : Bytes) (base : Nat) (d : Input) : Prop extends Holds file base d where
  last : d.rsize = 0 → d.rest = []
  nonneg : 0 < d.rsize → 0 ≤ d.insize

/-- The next code is the one at `p`, and the buffer was set up for the width. -/
structure At (file : Bytes) (n : Nat) (p : Place) (d : Input) : Prop where
  held : ∃ g i, Held file (p.start + g * n) d ∧ d.posbits = i * n ∧ p.index = 8 * g + i
  inbits_eq : d.inbits = (d.limit n).inbits
  inside : 0 < d.rsize → (d.posbits : Int) ≤ d.inbits

/-- The buffer is to be set up for the codes from `p` on. -/
structure Due (file : Bytes) (n : Nat) (p : Place) (d : Input) : Prop where
  held : ∃ base g, Held file base d ∧ base + d.posbits / 8 = p.start + g * n ∧ p.index = 8 * g
  inside : 0 < d.rsize → ((d.posbits / 8 : Nat) : Int) ≤ d.insize

section
variable {io : Channel} {file : Bytes} {base n m : Nat} {p : Place} {d : Input}

/-! ## Setting the buffer up -/

theorem Held.shift (h : Held file base d) (hInside : 0 < d.rsize → ((d.posbits / 8 : Nat) : Int) ≤ d.insize) :
    ∃ d', d.shift = .ok d' ∧ Held file (base + d.posbits / 8) d' ∧ d'.posbits = 0 ∧ d'.rest = d.rest := by
  have hSmall := h.small
  refine ⟨_, if_pos (by simp only [inSize, BUFSIZ] at *; omega), ?_, rfl, rfl⟩
  refine ⟨⟨fun i hi => ?_, h.rest_eq, ?_, ?_⟩, h.last, fun hSize => ?_⟩
  · dsimp only at hi ⊢
    have hByte := h.bytes (i + d.posbits / 8) (by push_cast; omega)
    rw [if_pos hi, Nat.add_assoc, Nat.add_comm (d.posbits / 8), hByte]
  · have hSplit := h.split
    push_cast
    omega
  · dsimp only
    omega
  · have hLe := hInside hSize
    dsimp only
    omega

theorem Holds.read (h : Holds file base d) (io : Channel) (hLow : 0 ≤ d.insize) (hHigh : d.insize < 64) :
    io.read d.reads = none ∧ d.read io = .ok none ∨
      ∃ d', d.read io = .ok (some d') ∧ Held file base d' ∧ d'.posbits = d.posbits ∧ d'.insize = d.insize + d'.rsize ∧
        (d'.rsize = 0 ∨ d'.rest.length < d.rest.length) := by
  rw [Input.read, if_pos (by simp only [inSize, BUFSIZ]; omega)]
  cases hRead : io.read d.reads with
  | none => exact .inl ⟨rfl, rfl⟩
  | some k =>
    right
    dsimp only
    generalize hn : min (max 1 k) (min BUFSIZ d.rest.length) = n
    have hRest : n ≤ d.rest.length := by omega
    obtain ⟨size, hSize⟩ := Int.eq_ofNat_of_zero_le hLow
    have hSplit := h.split
    refine ⟨_, rfl, ⟨⟨fun i hi => ?_, ?_, ?_, ?_⟩, ?_, fun _ => ?_⟩, rfl, ?_, ?_⟩ <;> dsimp only at *
    · by_cases hNew : size ≤ i
      · have hDrop : file.length - d.rest.length = base + size := by omega
        have hByte : file[base + i]? = d.rest[i - size]? := by
          rw [h.rest_eq, hDrop, List.getElem?_drop]
          congr 1
          omega
        have hLt : i - size < d.rest.length := by omega
        rw [hByte, if_pos (by omega), hSize, Int.toNat_natCast, List.getD_eq_getElem?_getD,
          List.getElem?_eq_getElem hLt]
        rfl
      · rw [if_neg (by omega)]
        exact h.bytes i (by omega)
    · rw [List.length_drop, ← List.drop_drop.symm.trans (congrArg (List.drop n) h.rest_eq.symm)]
      congr 1
      omega
    · rw [List.length_drop]
      omega
    · have hMost : n ≤ BUFSIZ := by omega
      omega
    · intro hNone
      apply List.drop_eq_nil_of_le
      simp only [BUFSIZ] at hn
      omega
    · omega
    · rw [List.length_drop]
      omega

theorem Held.refill (h : Held file base d) :
    ((∃ k, io.read k = none) ∧ ∃ message, d.refill io = .error (.threw message)) ∨
      ∃ d', d.refill io = .ok d' ∧ Held file base d' ∧ d'.posbits = d.posbits ∧
        (d'.rsize = 0 ∨ 64 ≤ d'.insize ∧ d'.rest = d.rest ∨ d'.rest.length < d.rest.length) := by
  rw [Input.refill]
  by_cases hFew : 0 ≤ d.insize ∧ d.insize < 64
  · rw [if_pos hFew]
    rcases h.read io hFew.1 hFew.2 with ⟨hFails, hNone⟩ | ⟨d', hRead, hHeld, hPos, -, hLess⟩
    · rw [hNone]
      exact .inl ⟨⟨_, hFails⟩, _, rfl⟩
    · rw [hRead]
      exact .inr ⟨d', rfl, hHeld, hPos, hLess.imp_right .inr⟩
  · rw [if_neg hFew]
    refine .inr ⟨d, rfl, h, rfl, ?_⟩
    by_cases hSize : d.rsize = 0
    · exact .inl hSize
    · have hNonneg := h.nonneg (by omega)
      exact .inr (.inl ⟨by omega, rfl⟩)

theorem limit_inbits {size : Nat} (hSize : d.insize = size) (hMore : 0 < d.rsize) :
    (d.limit n).inbits = (size / n * (8 * n) : Nat) := by
  have hMod : (size : Int).tmod n = (size % n : Nat) := rfl
  have hDiv := Nat.div_add_mod size n
  have hMul : size / n * (8 * n) = 8 * (n * (size / n)) := by ring
  rw [limit]
  dsimp only
  rw [if_pos hMore, hSize, hMod, hMul]
  omega

theorem Due.resetbuf (io : Channel) (h : Due file n p d) :
    ((∃ k, io.read k = none) ∧ ∃ message, d.resetbuf io n = .error (.threw message)) ∨
      ∃ d', d.resetbuf io n = .ok d' ∧ At file n p d' ∧ d'.posbits = 0 ∧
        (d'.rsize = 0 ∨ 64 ≤ d'.insize ∧ d'.rest = d.rest ∨ d'.rest.length < d.rest.length) := by
  obtain ⟨base, g, hHeld, hBase, hIndex⟩ := h.held
  obtain ⟨shifted, hShift, hShifted, hPos, hRest⟩ := hHeld.shift h.inside
  have hRun : d.resetbuf io n = (do let d ← shifted.refill io; pure (d.limit n)) := by
    rw [Input.resetbuf, hShift]
    rfl
  rw [hRun]
  rcases hShifted.refill with ⟨hFails, message, hRefill⟩ | ⟨filled, hRefill, hFilled, hSame, hLess⟩
  · rw [hRefill]
    exact .inl ⟨hFails, message, rfl⟩
  · right
    rw [hRefill]
    have hZero : (filled.limit n).posbits = 0 := hSame.trans hPos
    refine ⟨filled.limit n, rfl, ⟨⟨g, 0, ?_, ?_, hIndex⟩, rfl, fun hSize => ?_⟩, hZero, hRest ▸ hLess⟩
    · rw [← hBase]
      exact ⟨⟨hFilled.bytes, hFilled.rest_eq, hFilled.split, hFilled.small⟩, hFilled.last, hFilled.nonneg⟩
    · rw [hZero, Nat.zero_mul]
    · obtain ⟨size, hNonneg⟩ := Int.eq_ofNat_of_zero_le (hFilled.nonneg hSize)
      rw [hZero, limit_inbits hNonneg hSize]
      omega

/-! ## Codes out of the buffer -/

/-- With more of the file to come, a whole number of groups is read from the buffer. -/
theorem At.groups (h : At file n p d) (hn : 0 < n) (hMore : 0 < d.rsize) :
    ∃ g i k, Held file (p.start + g * n) d ∧ d.posbits = i * n ∧ p.index = 8 * g + i ∧
      d.inbits = (8 * k * n : Nat) ∧ i ≤ 8 * k ∧ ((k * n : Nat) : Int) ≤ d.insize := by
  obtain ⟨g, i, hHeld, hPos, hIndex⟩ := h.held
  obtain ⟨size, hSize⟩ := Int.eq_ofNat_of_zero_le (hHeld.nonneg hMore)
  have hBits : d.inbits = (8 * (size / n) * n : Nat) := by
    rw [h.inbits_eq, limit_inbits hSize hMore]
    congr 1
    ring
  refine ⟨g, i, size / n, hHeld, hPos, hIndex, hBits, ?_, ?_⟩
  · have hInside := h.inside hMore
    rw [hPos, hBits] at hInside
    exact Nat.le_of_mul_le_mul_right (by exact_mod_cast hInside) hn
  · rw [hSize]
    exact_mod_cast Nat.div_mul_le_self size n

theorem code_lt {c : Nat} (hCode : d.code n = .ok c) : c < 2 ^ n := by
  rw [Input.code] at hCode
  split at hCode
  · cases hCode
    rw [Nat.and_two_pow_sub_one_eq_mod]
    exact Nat.mod_lt _ (Nat.two_pow_pos n)
  · cases hCode

/-- There is a code in a buffer of 64 bytes. -/
theorem At.many (h : At file n p d) (hn : 0 < n) (hBits : n ≤ 16) (hMore : 0 < d.rsize) (hMany : 64 ≤ d.insize)
    (hStart : d.posbits = 0) : (d.posbits : Int) < d.inbits := by
  obtain ⟨size, hSize⟩ := Int.eq_ofNat_of_zero_le (by omega : 0 ≤ d.insize)
  have hGroup : 0 < size / n := Nat.div_pos (by omega) hn
  have hBits : 0 < size / n * (8 * n) := Nat.mul_pos hGroup (by omega)
  rw [hStart, h.inbits_eq, limit_inbits hSize hMore]
  exact_mod_cast hBits

theorem At.code (h : At file n p d) (hn : 9 ≤ n) (hBits : n ≤ 16) (hRead : (d.posbits : Int) < d.inbits) :
    p.bit n + n ≤ 8 * file.length ∧ d.code n = .ok (codeAt file (p.bit n) n) := by
  obtain ⟨g, i, hHeld, hPos, hIndex⟩ := h.held
  have hSplit := hHeld.split
  have hBit : p.bit n = 8 * (p.start + g * n) + d.posbits := by
    rw [Place.bit, hPos, hIndex]
    ring
  have hIn : (d.posbits : Int) + n ≤ 8 * d.insize := by
    by_cases hMore : 0 < d.rsize
    · obtain ⟨g', i', k, -, hPos', -, hInbits, hLe, hSize⟩ := h.groups (by omega) hMore
      rw [hInbits, hPos'] at hRead
      have hLt : i' < 8 * k := Nat.lt_of_mul_lt_mul_right (a := n) (by exact_mod_cast hRead)
      have hGroup : i' * n + n ≤ 8 * (k * n) := by
        calc i' * n + n = (i' + 1) * n := by ring
          _ ≤ 8 * k * n := Nat.mul_le_mul_right n hLt
          _ = 8 * (k * n) := by ring
      omega
    · rw [h.inbits_eq, limit] at hRead
      dsimp only at hRead
      rw [if_neg hMore] at hRead
      omega
  have hSmall := hHeld.small
  refine ⟨by omega, ?_⟩
  rw [Input.code, if_pos (by simp only [inSize, BUFSIZ] at *; omega), hBit, tripleAt_eq_codeAt hBits]
  exact fun k hk => hHeld.bytes _ (by omega)

/-- The buffer is used up and there is more of the file. -/
theorem At.used (h : At file n p d) (hn : 0 < n) (hUsed : d.inbits ≤ d.posbits) (hMore : 0 < d.rsize) :
    Due file n p d := by
  obtain ⟨g, i, k, hHeld, hPos, hIndex, hInbits, hLe, hSize⟩ := h.groups hn hMore
  have hAll : i = 8 * k := by
    apply Nat.le_antisymm hLe
    rw [hPos, hInbits] at hUsed
    exact Nat.le_of_mul_le_mul_right (by exact_mod_cast hUsed) hn
  have hBytes : d.posbits / 8 = k * n := by
    rw [hPos, hAll, Nat.mul_assoc]
    exact Nat.mul_div_cancel_left _ (by decide)
  refine ⟨⟨_, g + k, hHeld, ?_, ?_⟩, fun _ => ?_⟩
  · rw [hBytes]
    ring
  · omega
  · rw [hBytes]
    exact hSize

/-- The file is used up. -/
theorem At.short (h : At file n p d) (hn : 0 < n) (hUsed : d.inbits ≤ d.posbits) (hLast : d.rsize = 0) :
    8 * file.length < p.bit n + n := by
  obtain ⟨g, i, hHeld, hPos, hIndex⟩ := h.held
  have hSplit := hHeld.split
  have hBit : p.bit n = 8 * (p.start + g * n) + d.posbits := by
    rw [Place.bit, hPos, hIndex]
    ring
  rw [hHeld.last hLast, List.length_nil] at hSplit
  rw [h.inbits_eq, limit] at hUsed
  dsimp only at hUsed
  rw [if_neg (by omega)] at hUsed
  omega

theorem At.next (h : At file n p d) (hn : 0 < n) (hRead : (d.posbits : Int) < d.inbits) :
    At file n p.next (d.advance n) := by
  obtain ⟨g, i, hHeld, hPos, hIndex⟩ := h.held
  refine ⟨⟨g, i + 1, ⟨⟨hHeld.bytes, hHeld.rest_eq, hHeld.split, hHeld.small⟩, hHeld.last, hHeld.nonneg⟩, ?_, ?_⟩,
    h.inbits_eq,
    fun hMore => ?_⟩
  · rw [advance, hPos]
    ring
  · rw [Place.next, hIndex]
    rfl
  · obtain ⟨g', i', k, -, hPos', -, hInbits, hLe, -⟩ := h.groups hn hMore
    change ((d.posbits + n : Nat) : Int) ≤ d.inbits
    rw [hInbits, hPos'] at hRead ⊢
    have hLt : i' < 8 * k := Nat.lt_of_mul_lt_mul_right (a := n) (by exact_mod_cast hRead)
    exact_mod_cast calc i' * n + n = (i' + 1) * n := by ring
      _ ≤ 8 * k * n := Nat.mul_le_mul_right n hLt

theorem align_eq (hn : 0 < n) {i : Nat} : i * n + (8 * n - (i * n + 8 * n - 1) % (8 * n)) - 1 =
    8 * (n * ((i + 7) / 8)) := by
  have hLt : (i * n + 8 * n - 1) % (8 * n) < 8 * n := Nat.mod_lt _ (by omega)
  have hDiv := Nat.div_add_mod (i * n + 8 * n - 1) (8 * n)
  have hRound : (i * n + 8 * n - 1) / (8 * n) = (i + 7) / 8 := by
    rw [Nat.mul_comm 8 n, ← Nat.div_div_eq_div_mul]
    congr 1
    apply Nat.div_eq_of_lt_le
    · rw [Nat.add_mul]
      omega
    · rw [Nat.add_mul, Nat.add_mul]
      omega
  rw [hRound] at hDiv
  rw [← Nat.mul_assoc]
  omega

/-- What is left of the group is skipped, for codes of any width. -/
theorem At.skip (h : At file n p d) (hn : 0 < n) : Due file m (p.skip n) (d.align n) := by
  obtain ⟨g, i, hHeld, hPos, hIndex⟩ := h.held
  have hAlign : (d.align n).posbits = 8 * (n * ((i + 7) / 8)) := by
    rw [align, hPos]
    exact align_eq hn
  have hBytes : (d.align n).posbits / 8 = n * ((i + 7) / 8) := by
    rw [hAlign]
    exact Nat.mul_div_cancel_left _ (by decide)
  refine ⟨⟨p.start + g * n, 0, ⟨⟨hHeld.bytes, hHeld.rest_eq, hHeld.split, hHeld.small⟩, hHeld.last, hHeld.nonneg⟩, ?_,
    rfl⟩, ?_⟩
  · have hGroups : (p.index + 7) / 8 = g + (i + 7) / 8 := by omega
    rw [hBytes, Place.skip, hGroups]
    ring
  · intro hMore
    obtain ⟨g', i', k, -, hPos', hIndex', hInbits, hLe, hSize⟩ := h.groups hn hMore
    have hSame : i = i' := Nat.eq_of_mul_eq_mul_right hn (hPos.symm.trans hPos')
    rw [hBytes]
    refine le_trans ?_ hSize
    have hCeil : (i + 7) / 8 ≤ k := by omega
    exact_mod_cast (Nat.mul_le_mul_left n hCeil).trans_eq (Nat.mul_comm n k)

end

end Input

end Libdap.Bes.BESUncompress3Z

/-! ## Rounds of the decoder

The rounds in which the buffer is only filled are passed over: before a code is read the run throws, comes to its end
because the file has no more codes, or has the code in the buffer.
-/

namespace Libdap.Bes.BESUncompress3Z
open Core Core.Lzw Relation
set_option autoImplicit false

/-! ## The branches of a turn -/

section
variable {io : Channel} {h : Header} {d : Decoder} {code o n : Nat}

theorem turn_widen (hFull : d.coder.maxcode < d.coder.freeEnt) :
    turn io h n d = .ok (true, { d with input := d.input.align d.coder.nBits, coder := d.coder.widen h }) :=
      if_pos hFull

theorem turn_first (hNarrow : d.coder.freeEnt ≤ d.coder.maxcode) (hCode : d.input.code d.coder.nBits = .ok code)
    (hOld : d.coder.oldcode = none) (hLow : code < 256) :
    turn io h n d = (do
      let output ← d.output.copy [UInt8.ofNat code]
      .ok (false, ⟨d.input.advance d.coder.nBits, d.coder.begin code, output⟩)) := by
  rw [turn, if_neg (Nat.not_lt.mpr hNarrow), hCode, except_ok_bind, hOld]
  exact if_neg (Nat.not_le.mpr hLow)

theorem turn_not_literal (hNarrow : d.coder.freeEnt ≤ d.coder.maxcode) (hCode : d.input.code d.coder.nBits = .ok code)
    (hOld : d.coder.oldcode = none) (hHigh : 256 ≤ code) : turn io h n d = .error (.threw (notLiteral code)) := by
  rw [turn, if_neg (Nat.not_lt.mpr hNarrow), hCode, except_ok_bind, hOld]
  exact if_pos hHigh

theorem turn_clear (hNarrow : d.coder.freeEnt ≤ d.coder.maxcode) (hCode : d.input.code d.coder.nBits = .ok code)
    (hOld : d.coder.oldcode = some o) (hClear : code = CLEAR ∧ h.blockMode = true) :
    turn io h n d =
      .ok (true, { d with input := (d.input.advance d.coder.nBits).align d.coder.nBits, coder := d.coder.reset }) := by
  rw [turn, if_neg (Nat.not_lt.mpr hNarrow), hCode, except_ok_bind, hOld]
  exact if_pos hClear

theorem turn_decode (hNarrow : d.coder.freeEnt ≤ d.coder.maxcode) (hCode : d.input.code d.coder.nBits = .ok code)
    (hOld : d.coder.oldcode = some o) (hNot : ¬ (code = CLEAR ∧ h.blockMode = true)) :
    turn io h n d = (do
      let (coder, stack) ← d.coder.decode h n o code
      let output ← d.output.put io n stack
      .ok (false, ⟨d.input.advance d.coder.nBits, coder, output⟩)) := by
  rw [turn, if_neg (Nat.not_lt.mpr hNarrow), hCode, except_ok_bind, hOld]
  exact if_neg hNot

end

/-! ## Rounds -/

section
variable {io : Channel} {h : Header} {file : Bytes} {p : Place} {x y : Bool × Decoder} {d : Decoder} {jump : Bool}
  {r : Except Stop Decoder}

/-- One round, where `true` is before the label `resetbuf`. -/
inductive Round (io : Channel) (h : Header) : Bool × Decoder → Bool × Decoder → Prop
  | resetbuf {d : Decoder} {input : Input} (hRun : d.input.resetbuf io d.coder.nBits = .ok input) :
    Round io h (true, d) (false, { d with input := input })
  | turn {d : Decoder} {x : Bool × Decoder} (hRead : (d.input.posbits : Int) < d.input.inbits)
    (hRun : Settles (fun n => turn io h n d) (.ok x)) : Round io h (false, d) x
  | refill {d : Decoder} (hUsed : d.input.inbits ≤ d.input.posbits) (hMore : 0 < d.input.rsize) :
    Round io h (false, d) (true, d)

/-- What the loops come to. -/
def EndsIn (io : Channel) (h : Header) (x : Bool × Decoder) (r : Except Stop Decoder) : Prop :=
  Settles (fun n => codes io h n x.1 x.2) r

theorem Round.endsIn (hRound : Round io h x y) (hEnds : EndsIn io h y r) : EndsIn io h x r := by
  apply Settles.shift
  cases hRound with
  | resetbuf hRun =>
    apply hEnds.of_eq
    intro n
    rw [codes, hRun]
    rfl
  | turn hRead hRun =>
    apply (hRun.bind (f := fun n (y : Bool × Decoder) => codes io h n y.1 y.2) hEnds).of_eq
    intro n
    rw [codes, if_pos hRead]
  | refill hUsed hMore =>
    apply hEnds.of_eq
    intro n
    rw [codes, if_neg (Int.not_lt.mpr hUsed), if_pos hMore]

theorem endsIn_of_rounds (hRounds : ReflTransGen (Round io h) x y) (hEnds : EndsIn io h y r) : EndsIn io h x r := by
  induction hRounds using ReflTransGen.head_induction_on with
  | refl => exact hEnds
  | head hRound _ ih => exact hRound.endsIn ih

/-- A turn that throws is the end of the run. -/
theorem endsIn_of_turn {e : Stop} (hRead : (d.input.posbits : Int) < d.input.inbits)
    (hRun : Settles (fun n => turn io h n d) (.error e)) : EndsIn io h (false, d) (.error e) := by
  apply Settles.shift
  apply (Settles.bind_error hRun).of_eq
  intro n
  rw [codes, if_pos hRead]

theorem endsIn_of_resetbuf {e : Stop} (hRun : d.input.resetbuf io d.coder.nBits = .error e) :
    EndsIn io h (true, d) (.error e) := by
  apply Settles.shift
  apply Settles.always
  intro n
  rw [codes, hRun]
  rfl

theorem endsIn_of_used (hUsed : d.input.inbits ≤ d.input.posbits) (hLast : d.input.rsize = 0) :
    EndsIn io h (false, d) (.ok d) := by
  apply Settles.shift
  apply Settles.always
  intro n
  rw [codes, if_neg (Int.not_lt.mpr hUsed), if_neg (hLast ▸ Nat.lt_irrefl 0)]

/-- What the rounds come to before the code at `p` is read. -/
inductive Fetched (io : Channel) (h : Header) (file : Bytes) (p : Place) (jump : Bool) (d : Decoder) : Prop
  | failed (message : Constraint.Word) (hRead : ∃ k, io.read k = none)
    (hEnds : EndsIn io h (jump, d) (.error (.threw message)))
  | done (input : Input) (hShort : 8 * file.length < p.bit d.coder.nBits + d.coder.nBits)
    (hEnds : EndsIn io h (jump, d) (.ok { d with input := input }))
  | code (input : Input) (hRounds : ReflTransGen (Round io h) (jump, d) (false, { d with input := input }))
    (hAt : input.At file d.coder.nBits p) (hRead : (input.posbits : Int) < input.inbits)

theorem Fetched.after (jump' : Bool) (input : Input) (hFetched : Fetched io h file p jump' { d with input := input })
    (hRound : Round io h (jump, d) (jump', { d with input := input })) : Fetched io h file p jump d := by
  cases hFetched with
  | failed message hRead hEnds => exact .failed message hRead (hRound.endsIn hEnds)
  | done last hShort hEnds => exact .done last hShort (hRound.endsIn hEnds)
  | code next hRounds hAt hRead => exact .code next (.head hRound hRounds) hAt hRead

theorem fetch_at (hLow : 9 ≤ d.coder.nBits) (hHigh : d.coder.nBits ≤ 16) (hAt : d.input.At file d.coder.nBits p) :
    Fetched io h file p false d := by
  obtain ⟨len, hLen⟩ : ∃ len, d.input.rest.length = len := ⟨_, rfl⟩
  -- By induction on the part of the file that was not read yet.
  induction len using Nat.strong_induction_on generalizing d with
  | _ len ih =>
    by_cases hRead : (d.input.posbits : Int) < d.input.inbits
    · exact .code d.input .refl hAt hRead
    · have hUsed := Int.not_lt.mp hRead
      rcases Nat.eq_zero_or_pos d.input.rsize with hLast | hMore
      · exact .done d.input (hAt.short (by omega) hUsed hLast) (endsIn_of_used hUsed hLast)
      · have hDue := hAt.used (by omega) hUsed hMore
        rcases hDue.resetbuf io with ⟨hFails, message, hRun⟩ | ⟨input, hRun, hAt', hZero, hLess⟩
        · exact .failed message hFails ((Round.refill hUsed hMore).endsIn (endsIn_of_resetbuf hRun))
        · refine Fetched.after true d.input ?_ (.refill hUsed hMore)
          refine Fetched.after false input ?_ (.resetbuf hRun)
          by_cases hRead' : (input.posbits : Int) < input.inbits
          · exact .code input .refl hAt' hRead'
          · have hUsed' := Int.not_lt.mp hRead'
            rcases Nat.eq_zero_or_pos input.rsize with hLast' | hMore'
            · exact .done input (hAt'.short (by omega) hUsed' hLast') (endsIn_of_used hUsed' hLast')
            · rcases hLess with hLast' | ⟨hMany, -⟩ | hShorter
              · omega
              · exact absurd (hAt'.many (by omega) hHigh hMore' hMany hZero) hRead'
              · exact ih _ (hLen ▸ hShorter) (d := { d with input := input }) hLow hHigh hAt' rfl

theorem fetch_due (hLow : 9 ≤ d.coder.nBits) (hHigh : d.coder.nBits ≤ 16) (hDue : d.input.Due file d.coder.nBits p) :
    Fetched io h file p true d := by
  rcases hDue.resetbuf io with ⟨hFails, message, hRun⟩ | ⟨input, hRun, hAt, -, -⟩
  · exact .failed message hFails (endsIn_of_resetbuf hRun)
  · exact .after false input (fetch_at (d := { d with input := input }) hLow hHigh hAt) (.resetbuf hRun)

end

end Libdap.Bes.BESUncompress3Z
