import Libdap.Bes.CodeInput
import Libdap.Bes.CodeTable

/-! # Decompression ends within its arrays

A round reads more of the file or makes the codes wider. The accesses are in bounds unless the table is full and its
next code, which it never gives to an entry, is read twice in a row.
-/

namespace Libdap.Bes.BESUncompress3Z
open Core Core.Lzw Relation
set_option autoImplicit false

/-! ## Writing the strings -/

namespace Output

variable {io : Channel} {o : Output} {stack : Bytes}

/-- What was written, and what is still in the buffer. -/
def content (o : Output) : Bytes := o.written ++ o.outbuf

/-- The string is written, or a write fails. -/
inductive Puts (io : Channel) (o : Output) (stack : Bytes) (x : Nat → Except Stop Output) : Prop
  | failed (message : Constraint.Word) (hWrite : ∃ k, io.write k = false) (hRun : Settles x (.error (.threw message)))
  | ok (o' : Output) (hRun : Settles x (.ok o')) (hOut : o'.outbuf.length < BUFSIZ)
    (hContent : o'.content = o.content ++ stack)

theorem copy_ok (hOut : o.outbuf.length + stack.length ≤ outSize) :
    o.copy stack = .ok { o with outbuf := o.outbuf ++ stack } :=
  if_pos hOut

theorem writeFull_puts (io : Channel) (hOut : o.outbuf.length ≤ BUFSIZ) : Puts io o [] fun _ => o.writeFull io := by
  rcases hOut.lt_or_eq with hLess | hFull
  · refine .ok o (.always fun _ => if_neg (Nat.not_le.mpr hLess)) hLess (List.append_nil _).symm
  · cases hWrite : io.write o.writes with
    | false =>
      refine .failed "uncompress: write eror".toList ⟨_, hWrite⟩ (.always fun _ => ?_)
      rw [writeFull, if_pos hFull.ge, Output.write, hWrite]
      rfl
    | true =>
      refine .ok ⟨[], o.written ++ o.outbuf, o.writes + 1⟩ (.always fun _ => ?_) (by simp [BUFSIZ]) ?_
      · rw [writeFull, if_pos hFull.ge, Output.write, hWrite]
        rfl
      · simp only [content, List.append_nil]

/-- A round of the loop. -/
theorem flush_round (hOut : o.outbuf.length < BUFSIZ) (n : Nat) :
    o.flush io (n + 1) stack = (do
      let next ← ({ o with outbuf := o.outbuf ++ stack.take (o.part stack) } : Output).writeFull io
      if stack.drop (o.part stack) = [] then .ok next else next.flush io n (stack.drop (o.part stack))) := by
  rw [flush, copy_ok]
  · rfl
  · rw [List.length_take, part]
    simp only [outSize, BUFSIZ] at *
    omega

theorem flush_puts (hOut : o.outbuf.length < BUFSIZ) (hStack : stack ≠ []) :
    Puts io o stack fun n => o.flush io n stack := by
  obtain ⟨len, hLen⟩ : ∃ len, stack.length = len := ⟨_, rfl⟩
  -- By induction on what is left on the stack.
  induction len using Nat.strong_induction_on generalizing stack o with
  | _ len ih =>
    have hPos := List.length_pos_iff.mpr hStack
    have hPart : 0 < o.part stack ∧ o.part stack ≤ stack.length ∧ o.outbuf.length + o.part stack ≤ BUFSIZ := by
      rw [part]
      omega
    have hFilled : (o.outbuf ++ stack.take (o.part stack)).length ≤ BUFSIZ := by
      rw [List.length_append, List.length_take]
      omega
    cases writeFull_puts io (o := { o with outbuf := o.outbuf ++ stack.take (o.part stack) }) hFilled with
    | failed message hWrite hRun =>
      refine .failed message hWrite (.shift ?_)
      simp only [flush_round hOut]
      exact hRun.bind_error
    | ok next hRun hLess hContent =>
      have hSame : next.content ++ stack.drop (o.part stack) = o.content ++ stack := by
        rw [hContent, List.append_nil]
        simp only [content, List.append_assoc, List.take_append_drop]
      by_cases hDone : stack.drop (o.part stack) = []
      · refine .ok next (.shift ?_) hLess ?_
        · simp only [flush_round hOut, if_pos hDone]
          exact hRun.bind (.always fun _ => rfl)
        · rw [← hSame, hDone, List.append_nil]
      · have hShorter : (stack.drop (o.part stack)).length < len := by
          rw [List.length_drop]
          omega
        cases ih _ hShorter hLess hDone rfl with
        | failed message hWrite hRest =>
          refine .failed message hWrite (.shift ?_)
          simp only [flush_round hOut, if_neg hDone]
          exact hRun.bind hRest
        | ok last hRest hLess' hContent' =>
          refine .ok last (.shift ?_) hLess' (hContent'.trans hSame)
          simp only [flush_round hOut, if_neg hDone]
          exact hRun.bind hRest

theorem put_puts (io : Channel) (stack : Bytes) (hOut : o.outbuf.length < BUFSIZ) :
    Puts io o stack fun n => o.put io n stack := by
  by_cases hFull : BUFSIZ ≤ o.outbuf.length + stack.length
  · have hStack : stack ≠ [] := by
      rintro rfl
      exact absurd hFull (Nat.not_le.mpr hOut)
    simp only [put, if_pos hFull]
    exact flush_puts hOut hStack
  · simp only [put, if_neg hFull]
    refine .ok { o with outbuf := o.outbuf ++ stack }
      (.always fun _ => copy_ok (by simp only [outSize, BUFSIZ] at *; omega)) ?_ ?_
    · dsimp only
      rw [List.length_append]
      omega
    · simp only [content, List.append_assoc]

end Output

/-! ## One turn -/

/-- The decoder before a code, or before the buffer is set up for it. -/
structure Standing (h : Header) (file : Bytes) (p : Place) (jump : Bool) (d : Decoder) : Prop where
  table : d.coder.Sound h
  wide : d.coder.Wide h
  output : d.output.outbuf.length < BUFSIZ
  first : d.coder.oldcode = none → d.output.outbuf = []
  input : if jump then d.input.Due file d.coder.nBits p else d.input.At file d.coder.nBits p

/-- The code that is read is the one that the table would give next, and so was the one before. -/
def Repeats (h : Header) (d : Decoder) : Prop :=
  (d.input.posbits : Int) < d.input.inbits ∧ d.coder.freeEnt ≤ d.coder.maxcode ∧
    ¬ (d.coder.freeEnt = CLEAR ∧ h.blockMode = true) ∧
    d.coder.oldcode = some d.coder.freeEnt ∧ d.input.code d.coder.nBits = .ok d.coder.freeEnt

/-- It gets smaller as the file is read and, where nothing is read, as the codes get wider. -/
def weight (file : Bytes) (n : Nat) (p : Place) : Nat := 32 * (8 * file.length - p.bit n) + (32 - n)

inductive Turns (io : Channel) (h : Header) (file : Bytes) (p : Place) (d : Decoder) : Prop
  | failed (message : Constraint.Word) (hRun : Settles (fun n => turn io h n d) (.error (.threw message)))
  | next (jump : Bool) (d' : Decoder) (p' : Place) (hRun : Settles (fun n => turn io h n d) (.ok (jump, d')))
    (hStanding : Standing h file p' jump d') (hLess : weight file d'.coder.nBits p' < weight file d.coder.nBits p)

section
variable {io : Channel} {h : Header} {file : Bytes} {p p' : Place} {d : Decoder} {jump : Bool} {n m code o : Nat}
  {s : Bytes}

theorem weight_read (hIn : p.bit n + n ≤ 8 * file.length) (hLow : 9 ≤ n) (hHigh : n ≤ 16) (hm : 9 ≤ m)
    (hNext : p.bit n + n ≤ p'.bit m) : weight file m p' < weight file n p := by
  simp only [weight]
  omega

theorem weight_widen (hHigh : n ≤ 16) (hNext : p.bit n ≤ p'.bit (n + 1)) :
    weight file (n + 1) p' < weight file n p := by
  simp only [weight]
  omega

/-- A code that is no literal and not the clear code is the number of an entry. -/
theorem firstFree_le (hClear : ¬ (code = CLEAR ∧ h.blockMode = true)) (hHigh : 256 ≤ code) : h.firstFree ≤ code := by
  rw [Header.firstFree]
  split
  · rename_i hBlock
    have hNotClear : code ≠ 256 := fun hSame => hClear ⟨hSame, hBlock⟩
    omega
  · exact hHigh

theorem decodes (hTable : d.coder.Sound h) (hOld : d.coder.oldcode = some o) (hLe : code ≤ d.coder.freeEnt)
    (hFirst : 256 ≤ code → h.firstFree ≤ code) (hNot : ¬ (code = d.coder.freeEnt ∧ o = code)) :
    ∃ b s, Settles (fun n => d.coder.decode h n o code) (.ok (d.coder.after h o code b, s)) := by
  rcases hLe.lt_or_eq with hLt | rfl
  · have hLive : d.coder.Live h code := by
      by_cases hLow : code < 256
      · exact .inl hLow
      · exact .inr ⟨hFirst (Nat.not_lt.mp hLow), hLt⟩
    obtain ⟨s, hSpells⟩ := hTable.spells hLive
    have hRoom := hTable.room hLive hSpells
    exact ⟨_, s, s.length, fun n hn => Coder.decode_known hLt hSpells (by omega) hn⟩
  · have hLive : d.coder.Live h o := by
      rcases hTable.oldcode o hOld with hLive | ⟨hSame, -⟩ | ⟨hBlock, hClear⟩
      · exact hLive
      · exact absurd ⟨rfl, hSame⟩ hNot
      · have hHigh := hFirst hClear.ge
        rw [Header.firstFree, if_pos hBlock] at hHigh
        omega
    obtain ⟨s, hSpells⟩ := hTable.spells hLive
    have hRoom := hTable.room hLive hSpells
    exact ⟨_, _, s.length, fun n hn => Coder.decode_next hSpells hRoom hn⟩

namespace Standing

variable (hStanding : Standing h file p false d)
include hStanding

theorem widened (hFull : d.coder.maxcode < d.coder.freeEnt) :
    Standing h file (p.skip d.coder.nBits) true
      { d with input := d.input.align d.coder.nBits, coder := d.coder.widen h } where
  table := hStanding.table.widen
  wide := hStanding.wide.widen hStanding.table hFull
  output := hStanding.output
  first := hStanding.first
  input := Input.At.skip hStanding.input (Nat.lt_of_lt_of_le (by decide) hStanding.wide.low)

theorem next (hRead : (d.input.posbits : Int) < d.input.inbits) :
    (d.input.advance d.coder.nBits).At file d.coder.nBits p.next :=
  Input.At.next hStanding.input (Nat.lt_of_lt_of_le (by decide) hStanding.wide.low) hRead

theorem begun (hRead : (d.input.posbits : Int) < d.input.inbits) (hLow : code < 256) :
    Standing h file p.next false
      ⟨d.input.advance d.coder.nBits, d.coder.begin code, ⟨[UInt8.ofNat code], d.output.written, d.output.writes⟩⟩ where
  table := hStanding.table.begin hLow
  wide := ⟨hStanding.wide.low, hStanding.wide.top, hStanding.wide.maxcode⟩
  output := by simp [BUFSIZ]
  first hNone := by cases hNone
  input := hStanding.next hRead

theorem cleared (hRead : (d.input.posbits : Int) < d.input.inbits) (hBlock : h.blockMode = true)
    (hOld : d.coder.oldcode = some o) :
    Standing h file (p.next.skip d.coder.nBits) true
      { d with input := (d.input.advance d.coder.nBits).align d.coder.nBits, coder := d.coder.reset } where
  table := .reset hBlock
  wide := .reset
  output := hStanding.output
  first hNone := by
    change d.coder.oldcode = none at hNone
    rw [hOld] at hNone
    cases hNone
  input := (hStanding.next hRead).skip (Nat.lt_of_lt_of_le (by decide) hStanding.wide.low)

theorem decoded (b : UInt8) {output : Output} (hRead : (d.input.posbits : Int) < d.input.inbits)
    (hOld : d.coder.oldcode = some o) (hLe : code ≤ d.coder.freeEnt) (hClear : ¬ (code = CLEAR ∧ h.blockMode = true))
    (hOut : output.outbuf.length < BUFSIZ) :
    Standing h file p.next false ⟨d.input.advance d.coder.nBits, d.coder.after h o code b, output⟩ where
  table := hStanding.table.after hOld hLe (firstFree_le hClear)
  wide := hStanding.wide.after
  output := hOut
  first hNone := by
    change (d.coder.after h o code b).oldcode = none at hNone
    rw [Coder.after_oldcode] at hNone
    cases hNone
  input := by
    change (d.input.advance d.coder.nBits).At file (d.coder.after h o code b).nBits p.next
    rw [Coder.after_nBits]
    exact hStanding.next hRead

theorem turns (io : Channel) (hRead : (d.input.posbits : Int) < d.input.inbits) (hNot : ¬ Repeats h d) :
    Turns io h file p d := by
  have hLow := hStanding.wide.low
  have hHigh := hStanding.wide.high
  have hAt : d.input.At file d.coder.nBits p := hStanding.input
  obtain ⟨hIn, hCode⟩ := hAt.code hLow hHigh hRead
  have hBit := p.next_bit d.coder.nBits
  generalize codeAt file (p.bit d.coder.nBits) d.coder.nBits = code at hCode
  by_cases hFull : d.coder.maxcode < d.coder.freeEnt
  · exact .next _ _ _ (.always fun _ => turn_widen hFull) (hStanding.widened hFull)
      (weight_widen hHigh (p.bit_le_skip _ _))
  · have hNarrow := Nat.not_lt.mp hFull
    cases hOld : d.coder.oldcode with
    | none =>
      by_cases hLiteral : code < 256
      · refine .next false _ _ (.always fun _ => ?_) (hStanding.begun hRead hLiteral)
          (weight_read hIn hLow hHigh hLow hBit.ge)
        have hEmpty := hStanding.first hOld
        rw [turn_first hNarrow hCode hOld hLiteral, Output.copy_ok]
        · rw [hEmpty]
          rfl
        · rw [hEmpty]
          simp [outSize]
      · exact .failed _ (.always fun _ => turn_not_literal hNarrow hCode hOld (Nat.not_lt.mp hLiteral))
    | some o =>
      by_cases hClear : code = CLEAR ∧ h.blockMode = true
      · exact .next _ _ _ (.always fun _ => turn_clear hNarrow hCode hOld hClear)
          (hStanding.cleared hRead hClear.2 hOld)
          (weight_read hIn hLow hHigh (Nat.le_refl 9) (hBit ▸ p.next.bit_le_skip _ _))
      · by_cases hLe : code ≤ d.coder.freeEnt
        · have hFresh : ¬ (code = d.coder.freeEnt ∧ o = code) := by
            rintro ⟨hSame, rfl⟩
            exact hNot ⟨hRead, hNarrow, hSame ▸ hClear, hSame ▸ hOld, hSame ▸ hCode⟩
          obtain ⟨b, s, hDecode⟩ := decodes hStanding.table hOld hLe (firstFree_le hClear) hFresh
          cases Output.put_puts io s hStanding.output with
          | failed message hWrite hPut =>
            refine .failed message ?_
            simp only [turn_decode hNarrow hCode hOld hClear]
            exact hDecode.bind hPut.bind_error
          | ok output hPut hLess _ =>
            refine .next false _ _ ?_ (hStanding.decoded b hRead hOld hLe hClear hLess)
              (weight_read hIn hLow hHigh (by simpa using hLow) (by simpa using hBit.ge))
            simp only [turn_decode hNarrow hCode hOld hClear]
            exact hDecode.bind (hPut.bind (.always fun _ => rfl))
        · refine .failed "uncompress: corrupt input".toList (.always fun n => ?_)
          simp only [turn_decode hNarrow hCode hOld hClear, Coder.decode, if_pos (Nat.not_le.mp hLe), except_error_bind,
            Coder.corrupt]

end Standing

/-! ## Whole runs -/

/-- It returns or throws. -/
def Proper {α : Type} (r : Except Stop α) : Prop := r ≠ .error .outside ∧ r ≠ .error .unfinished

theorem Proper.ok {α : Type} (a : α) : Proper (.ok a) := by
  constructor
  · intro hSame
    cases hSame
  · intro hSame
    cases hSame

theorem Proper.threw {α : Type} (message : Constraint.Word) : Proper (.error (.threw message) : Except Stop α) := by
  constructor
  · intro hSame
    cases hSame
  · intro hSame
    cases hSame

theorem Standing.fetch (io : Channel) (hStanding : Standing h file p jump d) : Fetched io h file p jump d := by
  cases jump with
  | true => exact fetch_due hStanding.wide.low hStanding.wide.high hStanding.input
  | false => exact fetch_at hStanding.wide.low hStanding.wide.high hStanding.input

theorem Standing.ends (io : Channel) (hStanding : Standing h file p jump d)
    (hNever : ∀ d', ReflTransGen (Round io h) (jump, d) (false, d') → ¬ Repeats h d') :
    ∃ r, EndsIn io h (jump, d) r ∧ Proper r := by
  obtain ⟨w, hWeight⟩ : ∃ w, weight file d.coder.nBits p = w := ⟨_, rfl⟩
  induction w using Nat.strong_induction_on generalizing jump d p with
  | _ w ih =>
    cases hStanding.fetch io with
    | failed message _ hEnds => exact ⟨_, hEnds, .threw message⟩
    | done _ _ hEnds => exact ⟨_, hEnds, .ok _⟩
    | code input hRounds hAt hRead =>
      have hReady : Standing h file p false { d with input := input } :=
        ⟨hStanding.table, hStanding.wide, hStanding.output, hStanding.first, hAt⟩
      cases hReady.turns io hRead (hNever _ hRounds) with
      | failed message hRun => exact ⟨_, endsIn_of_rounds hRounds (endsIn_of_turn hRead hRun), .threw message⟩
      | next jump' d' p' hRun hNext hLess =>
        have hRound := hRounds.tail (.turn hRead hRun)
        obtain ⟨r, hEnds, hProper⟩ := ih _ (hWeight ▸ hLess) hNext (fun last hLast => hNever last (hRound.trans hLast))
            rfl
        exact ⟨r, endsIn_of_rounds hRound hEnds, hProper⟩

/-! ## The header -/

theorem readHeader_settles (io : Channel) {base : Nat} {d : Input} (hHolds : d.Holds file base) (hLow : 0 ≤ d.insize)
    (hHeld : 3 ≤ d.insize → d.Held file base) :
    (((∃ k, io.read k = none) ∨ file.length < base + 3) ∧
        ∃ message, Settles (fun n => readHeader io n d) (.error (.threw message))) ∨
      ∃ d', Settles (fun n => readHeader io n d) (.ok d') ∧ d'.Held file base ∧ 3 ≤ d'.insize := by
  obtain ⟨len, hLen⟩ : ∃ len, d.rest.length = len := ⟨_, rfl⟩
  induction len using Nat.strong_induction_on generalizing d with
  | _ len ih =>
    by_cases hFew : d.insize < 3
    · rcases hHolds.read io hLow (by omega) with ⟨hFails, hNone⟩ | ⟨d', hRead, hHeld', -, hSize, hLess⟩
      · refine .inl ⟨.inl ⟨_, hFails⟩, "Could not read file ".toList ++ io.src, .shift (.always fun n => ?_)⟩
        rw [readHeader, if_pos hFew, hNone, except_ok_bind]
      · by_cases hMore : 0 < d'.rsize
        · have hRest : ∀ n, readHeader io (n + 1) d = readHeader io n d' := by
            intro n
            rw [readHeader, if_pos hFew, hRead, except_ok_bind]
            exact if_pos hMore
          simp only [← Settles.shift_iff (x := fun n => readHeader io n d), hRest]
          exact ih _ (by omega) hHeld'.toHolds (by omega) (fun _ => hHeld') rfl
        · have hSplit := hHeld'.split
          rw [hHeld'.last (by omega), List.length_nil] at hSplit
          refine .inl ⟨.inr (by omega), ?_⟩
          by_cases hSome : 0 < d'.insize
          · refine ⟨io.src ++ ": not in compressed format".toList, .shift (.always fun n => ?_)⟩
            rw [readHeader, if_pos hFew, hRead, except_ok_bind]
            exact (if_neg hMore).trans (if_pos hSome)
          · refine ⟨"unknown error".toList, .shift (.always fun n => ?_)⟩
            rw [readHeader, if_pos hFew, hRead, except_ok_bind]
            exact (if_neg hMore).trans (if_neg hSome)
    · refine .inr ⟨d, .shift (.always fun n => ?_), hHeld (by omega), by omega⟩
      rw [readHeader, if_neg hFew]

theorem prepare_ok {d : Input} (hOpen : io.openError = none)
    (hRead : Settles (fun n => readHeader io n (.ofFile io file)) (.ok d))
    (hHeld : d.Held file 0) (hSize : 3 ≤ d.insize) (hMagic : file[0]? = some 0x1f ∧ file[1]? = some 0x9d) {b : UInt8}
    (hThird : file[2]? = some b) (hHeader : Header.of io b = .ok h) :
    ∃ d', Settles (fun n => prepare io file n) (.ok (h, d')) ∧ Standing h file ⟨3, 0⟩ true d' ∧
      d'.coder = .start h ∧ d'.output = ⟨[], [], 0⟩ := by
  have hByte : ∀ i : Nat, i < 3 → file[i]? = some (d.inbuf i) := by
    intro i hi
    have hFile := hHeld.bytes i (by omega)
    rwa [Nat.zero_add] at hFile
  have hFirst := Option.some.inj ((hByte 0 (by decide)).symm.trans hMagic.1)
  have hSecond := Option.some.inj ((hByte 1 (by decide)).symm.trans hMagic.2)
  have hLast := Option.some.inj ((hByte 2 (by decide)).symm.trans hThird)
  refine ⟨⟨{ d with posbits := 24 }, .start h, ⟨[], [], 0⟩⟩, ?_,
    ⟨.start h, .start h, by simp [BUFSIZ], fun _ => rfl, ?_⟩, rfl, rfl⟩
  · simp only [prepare, hOpen]
    refine hRead.bind (.always fun _ => ?_)
    rw [if_pos ⟨hFirst, hSecond⟩, hLast, hHeader]
    rfl
  · refine ⟨⟨0, 0, ⟨⟨hHeld.bytes, hHeld.rest_eq, hHeld.split, hHeld.small⟩, hHeld.last, hHeld.nonneg⟩, by simp, rfl⟩,
      fun _ => ?_⟩
    dsimp only
    omega

theorem ofFile_holds (io : Channel) (file : Bytes) : (Input.ofFile io file).Holds file 0 where
  bytes i hi := by
    change (i : Int) < 0 at hi
    omega
  rest_eq := by
    change file = file.drop (file.length - file.length)
    rw [Nat.sub_self, List.drop_zero]
  split := by
    change ((0 : Nat) : Int) + 0 + file.length = file.length
    omega
  small := by
    change (0 : Int) ≤ BUFSIZ + 63
    omega

/-- The header is read, or something throws. -/
theorem header_settles (io : Channel) (file : Bytes) :
    (((∃ k, io.read k = none) ∨ file.length < 3) ∧
        ∃ message, Settles (fun n => readHeader io n (.ofFile io file)) (.error (.threw message))) ∨
      ∃ d, Settles (fun n => readHeader io n (.ofFile io file)) (.ok d) ∧ d.Held file 0 ∧ 3 ≤ d.insize := by
  have hHeader := readHeader_settles io (ofFile_holds io file) (Int.le_refl 0) fun hMany =>
    absurd hMany (show ¬ (3 : Int) ≤ 0 by decide)
  rwa [Nat.zero_add] at hHeader

theorem prepare_settles (io : Channel) (file : Bytes) :
    (∃ message, Settles (fun n => prepare io file n) (.error (.threw message))) ∨
      ∃ h d, Settles (fun n => prepare io file n) (.ok (h, d)) ∧ Standing h file ⟨3, 0⟩ true d := by
  cases hOpen : io.openError with
  | some serr =>
    left
    simp only [prepare, hOpen]
    exact ⟨_, .always fun _ => rfl⟩
  | none =>
    rcases header_settles io file with ⟨-, message, hRead⟩ | ⟨d, hRead, hHeld, hSize⟩
    · left
      refine ⟨message, ?_⟩
      simp only [prepare, hOpen]
      exact hRead.bind_error
    · have hByte : ∀ i : Nat, i < 3 → file[i]? = some (d.inbuf i) := by
        intro i hi
        have hFile := hHeld.bytes i (by omega)
        rwa [Nat.zero_add] at hFile
      by_cases hMagic : d.inbuf 0 = 0x1f ∧ d.inbuf 1 = 0x9d
      · cases hHeader : Header.of io (d.inbuf 2) with
        | ok h =>
          have hFirst := hByte 0 (by decide)
          have hSecond := hByte 1 (by decide)
          rw [hMagic.1] at hFirst
          rw [hMagic.2] at hSecond
          obtain ⟨d', hRun, hStanding, -, -⟩ := prepare_ok hOpen hRead hHeld hSize ⟨hFirst, hSecond⟩
              (hByte 2 (by decide)) hHeader
          exact .inr ⟨h, d', hRun, hStanding⟩
        | error e =>
          obtain ⟨message, rfl⟩ : ∃ message, e = .threw message := by
            rw [Header.of] at hHeader
            split at hHeader
            · cases hHeader
            · cases hHeader
              exact ⟨_, rfl⟩
          refine .inl ⟨message, ?_⟩
          simp only [prepare, hOpen]
          refine hRead.bind (.always fun _ => ?_)
          rw [if_pos hMagic, hHeader, except_error_bind]
      · refine .inl ⟨io.src ++ ": not in compressed format".toList, ?_⟩
        simp only [prepare, hOpen]
        refine hRead.bind (.always fun _ => ?_)
        rw [if_neg hMagic, notCompressed]

/-! ## The tables of a run -/

theorem turn_table {x : Bool × Decoder} (hRun : turn io h n d = .ok x) (hTable : d.coder.Sound h)
    (hWide : d.coder.Wide h) :
    x.2.coder.Sound h ∧ x.2.coder.Wide h := by
  by_cases hFull : d.coder.maxcode < d.coder.freeEnt
  · rw [turn_widen hFull] at hRun
    cases hRun
    exact ⟨hTable.widen, hWide.widen hTable hFull⟩
  · have hNarrow := Nat.not_lt.mp hFull
    cases hCode : d.input.code d.coder.nBits with
    | error e =>
      rw [turn, if_neg hFull, hCode] at hRun
      cases hRun
    | ok code =>
      cases hOld : d.coder.oldcode with
      | none =>
        by_cases hLow : code < 256
        · rw [turn_first hNarrow hCode hOld hLow] at hRun
          cases hCopy : d.output.copy [UInt8.ofNat code] with
          | error e =>
            rw [hCopy] at hRun
            cases hRun
          | ok output =>
            rw [hCopy] at hRun
            cases hRun
            exact ⟨hTable.begin hLow, ⟨hWide.low, hWide.top, hWide.maxcode⟩⟩
        · rw [turn_not_literal hNarrow hCode hOld (Nat.not_lt.mp hLow)] at hRun
          cases hRun
      | some o =>
        by_cases hClear : code = CLEAR ∧ h.blockMode = true
        · rw [turn_clear hNarrow hCode hOld hClear] at hRun
          cases hRun
          exact ⟨.reset hClear.2, .reset⟩
        · rw [turn_decode hNarrow hCode hOld hClear] at hRun
          cases hDecode : d.coder.decode h n o code with
          | error e =>
            rw [hDecode] at hRun
            cases hRun
          | ok found =>
            obtain ⟨coder, stack⟩ := found
            obtain ⟨hLe, b, rfl⟩ := Coder.decode_ok hDecode
            rw [hDecode, except_ok_bind] at hRun
            dsimp only at hRun
            cases hPut : d.output.put io n stack with
            | error e =>
              rw [hPut] at hRun
              cases hRun
            | ok output =>
              rw [hPut] at hRun
              cases hRun
              exact ⟨hTable.after hOld hLe (firstFree_le hClear), hWide.after⟩

theorem Round.table {x y : Bool × Decoder} (hRound : Round io h x y) (hTable : x.2.coder.Sound h ∧ x.2.coder.Wide h) :
    y.2.coder.Sound h ∧ y.2.coder.Wide h := by
  cases hRound with
  | resetbuf _ => exact hTable
  | turn _ hRun =>
    obtain ⟨n, hRun⟩ := hRun
    exact turn_table (hRun n (Nat.le_refl n)) hTable.1 hTable.2
  | refill _ _ => exact hTable

theorem rounds_table {x y : Bool × Decoder} (hRounds : ReflTransGen (Round io h) x y)
    (hTable : x.2.coder.Sound h ∧ x.2.coder.Wide h) : y.2.coder.Sound h ∧ y.2.coder.Wide h := by
  induction hRounds with
  | refl => exact hTable
  | tail _ hRound ih => exact hRound.table ih

/-- The entry that the table would give next was not written. -/
theorem turn_repeats (hTable : d.coder.Sound h) (hRepeats : Repeats h d) :
    Settles (fun n => turn io h n d) (.error .outside) := by
  obtain ⟨-, hNarrow, hClear, hOld, hCode⟩ := hRepeats
  simp only [turn_decode hNarrow hCode hOld hClear]
  refine Settles.bind_error (.shift (.always fun n => ?_))
  have hNone := hTable.unwritten d.coder.freeEnt (Nat.le_refl _)
  have hWalk : ∀ stack, d.coder.walk (n + 1) d.coder.freeEnt stack = .error .outside := by
    intro stack
    rw [Coder.walk, hNone]
  rw [Coder.decode, if_neg (Nat.lt_irrefl _), Coder.unwind, if_pos rfl, Coder.push]
  split
  · rw [except_ok_bind, hWalk, except_error_bind]
  · rfl

/-! ## Every file -/

/-- The decoder before a code, in a run on the file. -/
def Reached (io : Channel) (file : Bytes) (h : Header) (d : Decoder) : Prop :=
  ∃ d₀, Settles (fun n => prepare io file n) (.ok (h, d₀)) ∧ ReflTransGen (Round io h) (true, d₀) (false, d)

theorem Reached.table (hReached : Reached io file h d) : d.coder.Sound h ∧ d.coder.Wide h := by
  obtain ⟨d₀, hBegins, hRounds⟩ := hReached
  have hFirst : d₀.coder.Sound h ∧ d₀.coder.Wide h := by
    rcases prepare_settles io file with ⟨message, hThrows⟩ | ⟨h', d', hBegins', hStanding⟩
    · cases hThrows.unique hBegins
    · cases hBegins'.unique hBegins
      exact ⟨hStanding.table, hStanding.wide⟩
  exact rounds_table hRounds hFirst

/-- With codes of ten bits or more a full table is the end of the codes. -/
theorem Reached.not_repeats (hReached : Reached io file h d) (hBits : 10 ≤ h.maxbits) : ¬ Repeats h d := by
  rintro ⟨-, -, hClear, hOld, hCode⟩
  obtain ⟨hTable, hWide⟩ := hReached.table
  have hLow := hTable.low
  have hTop := hWide.top
  rw [Nat.max_eq_left hBits] at hTop
  have hLt := Input.code_lt hCode
  have hPow : 2 ^ d.coder.nBits ≤ h.maxmaxcode := Nat.pow_le_pow_right (by decide) hTop
  rcases hTable.oldcode _ hOld with (hLiteral | ⟨-, hLess⟩) | ⟨-, hFull⟩ | ⟨hBlock, hFree⟩
  · omega
  · omega
  · omega
  · exact hClear ⟨hFree, hBlock⟩

def Safe (io : Channel) (file : Bytes) : Prop := ∃ r, Settles (fun n => uncompress io file n) r ∧ Proper r

theorem uncompress_of_codes {d₀ : Decoder} {r : Except Stop Decoder}
    (hBegins : Settles (fun n => prepare io file n) (.ok (h, d₀)))
    (hEnds : EndsIn io h (true, d₀) r) :
    Settles (fun n => uncompress io file n) (r >>= fun d => d.output.finish io >>= fun output => .ok
      output.written) := by
  simp only [uncompress]
  exact hBegins.bind (hEnds.map fun r => r >>= fun d => d.output.finish io >>= fun output => .ok output.written)

theorem finish_proper (io : Channel) (o : Output) : Proper (o.finish io >>= fun output => .ok output.written) := by
  rw [Output.finish]
  split
  · exact .ok _
  · rw [Output.write]
    split
    · exact .ok _
    · exact .threw _

end

/-- Two files that open and never fail. -/
def quiet (src : Constraint.Word) : Channel := ⟨src, none, fun _ => some BUFSIZ, fun _ => true, fun _ => 0⟩

/-- In block mode with codes of at most 8 bits, the code 0 and then 257 twice. -/
def repeatedCode : Bytes := [0x1f, 0x9d, 0x88, 0, 2, 6, 4]

end Libdap.Bes.BESUncompress3Z
