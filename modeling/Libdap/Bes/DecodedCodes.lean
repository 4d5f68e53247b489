import Libdap.Bes.UncompressSafety

/-! # What is written is what the codes denote

The table holds the strings of the dictionary: an entry names the code before and the first byte of the string after it.
-/

namespace Libdap.Bes.BESUncompress3Z
open Core Core.Lzw Relation
set_option autoImplicit false

def Header.format (h : Header) : Format := ⟨h.firstFree, h.blockMode, h.maxbits⟩

/-- The table holds the strings of the dictionary. After a clear code the first entry is still to come that nothing names. -/
structure Mirrors (h : Header) (d : Dict) (c : Coder) : Prop where
  entries : ∀ k s, d.entries[k]? = some s → c.Spells (h.firstFree + k) s
  prev : ∀ w, d.prev = some w → c.freeEnt = d.free h.format ∧ ∃ o, c.oldcode = some o ∧ c.Spells o w ∧
    c.finchar = w.headD 0
  cleared : d.prev = none → d.entries = [] ∧ c.freeEnt = 256 ∧ h.blockMode = true ∧ ∃ o, c.oldcode = some o

section
variable {io : Channel} {h : Header} {file : Bytes} {p : Place} {jump : Bool} {d d' : Dict} {c : Coder} {s w : Bytes}
  {code o n : Nat}

/-! ## One code -/

theorem isClear_iff : h.format.isClear code = true ↔ code = CLEAR ∧ h.blockMode = true := by
  rw [Format.isClear, Bool.and_eq_true, beq_iff_eq, and_comm]
  rfl

theorem Mirrors.lookup (hMirrors : Mirrors h d c) (hSound : c.Sound h) (hLook : d.lookup h.format code = some s) :
    c.Spells code s ∧ code < c.freeEnt ∧ c.Live h code := by
  rw [Dict.lookup] at hLook
  split at hLook
  · rename_i hLow
    cases hLook
    have hFree := hSound.low
    exact ⟨.literal hLow (hSound.literal code hLow), by omega, .inl hLow⟩
  · split at hLook
    · rename_i hFirst
      have hFirst : h.firstFree ≤ code := hFirst
      have hLook : d.entries[code - h.firstFree]? = some s := hLook
      have hSpells := hMirrors.entries _ _ hLook
      rw [Nat.add_sub_cancel' hFirst] at hSpells
      cases hPrev : d.prev with
      | none =>
        rw [(hMirrors.cleared hPrev).1] at hLook
        cases hLook
      | some w =>
        have hFree : c.freeEnt = h.firstFree + d.entries.length := (hMirrors.prev w hPrev).1
        have hLt := (List.getElem?_eq_some_iff.mp hLook).1
        exact ⟨hSpells, by omega, .inr ⟨hFirst, by omega⟩⟩
    · cases hLook

/-- The old code can be followed, so the table can take an entry for it. -/
theorem Mirrors.live (hMirrors : Mirrors h d c) (hSound : c.Sound h) (hPrev : d.prev = some w)
    (hRoom : d.free h.format < 2 ^ h.maxbits) (hOld : c.oldcode = some o) : c.Live h o := by
  have hFree := (hMirrors.prev w hPrev).1
  rcases hSound.oldcode o hOld with hLive | ⟨-, hFull⟩ | ⟨hBlock, hClear⟩
  · exact hLive
  · rw [Header.maxmaxcode] at hFull
    omega
  · have hFirst : h.firstFree = 257 := if_pos hBlock
    have hSum : d.free h.format = h.firstFree + d.entries.length := rfl
    omega

/-- The entry that a code makes. -/
theorem Mirrors.new (hMirrors : Mirrors h d c) (hSound : c.Sound h) (hPrev : d.prev = some w)
    (hRoom : d.free h.format < 2 ^ h.maxbits) (hOld : c.oldcode = some o) (hSpells : c.Spells o w) (code : Nat)
    (b : UInt8) :
    (c.after h o code b).Spells c.freeEnt (w ++ [b]) := by
  have hFree := (hMirrors.prev w hPrev).1
  have hHigh := hSound.high_le
  have hLive := hMirrors.live hSound hPrev hRoom hOld
  have hSmall : o < 65536 := by
    rcases hLive with hLow | ⟨-, hLt⟩ <;> omega
  obtain ⟨-, hByte, hNext⟩ := Coder.after_room o code b (hFree ▸ hRoom : c.freeEnt < h.maxmaxcode)
  rw [Nat.mod_eq_of_lt hSmall] at hNext
  exact .entry hSound.low hByte hNext (hSpells.extend (Coder.after_extends (hSound.unwritten _ (Nat.le_refl _))))

theorem Mirrors.oldcode (hMirrors : Mirrors h d c) : ∃ o, c.oldcode = some o := by
  cases hPrev : d.prev with
  | none => exact (hMirrors.cleared hPrev).2.2.2
  | some w =>
    obtain ⟨-, o, hOld, -⟩ := hMirrors.prev w hPrev
    exact ⟨o, hOld⟩

/-- After a code whose string is in the table, also the entry that the code itself made. -/
theorem Mirrors.after (hMirrors : Mirrors h d c) (hSound : c.Sound h) (hNine : 9 ≤ h.maxbits)
    (hOld : c.oldcode = some o)
    (hCode : d.prev = none → c.Spells code s)
    (hNew : ∀ w, d.prev = some w → c.Spells o w → (c.after h o code (s.headD 0)).Spells code s) :
    Mirrors h (d.add h.format s) (c.after h o code (s.headD 0)) := by
  have hMore : c.Extends (c.after h o code (s.headD 0)) := Coder.after_extends (hSound.unwritten _ (Nat.le_refl _))
  cases hPrev : d.prev with
  | none =>
    obtain ⟨hEmpty, hFree, hBlock, -⟩ := hMirrors.cleared hPrev
    have hFirst : h.firstFree = 257 := if_pos hBlock
    have hPow : 2 ^ 9 ≤ h.maxmaxcode := Nat.pow_le_pow_right (by decide) hNine
    have hAfter := (Coder.after_room o code (s.headD 0) (by omega : c.freeEnt < h.maxmaxcode)).1
    have hAdd : d.add h.format s = ⟨[], some s⟩ := by
      rw [Dict.add, hPrev, hEmpty]
    rw [hAdd]
    refine ⟨fun k s' hk => (by cases hk), ?_, fun hNone => by cases hNone⟩
    rintro _ ⟨⟩
    refine ⟨?_, code, Coder.after_oldcode, (hCode hPrev).extend hMore, Coder.after_finchar⟩
    rw [hAfter, hFree]
    exact hFirst.symm
  | some w =>
    obtain ⟨hFree, o', hOld', hSpells, -⟩ := hMirrors.prev w hPrev
    cases hOld.symm.trans hOld'
    have hLast : (c.after h o code (s.headD 0)).Spells code s := hNew w hPrev hSpells
    by_cases hRoom : d.free h.format < 2 ^ h.maxbits
    · have hAfter := (Coder.after_room o code (s.headD 0) (hFree ▸ hRoom : c.freeEnt < h.maxmaxcode)).1
      have hAdd : d.add h.format s = ⟨d.entries ++ [w ++ [s.headD 0]], some s⟩ := by
        rw [Dict.add, hPrev]
        simp only [if_pos (show d.free h.format < 2 ^ h.format.maxbits from hRoom)]
      rw [hAdd]
      refine ⟨fun k s' hk => ?_, ?_, fun hNone => by cases hNone⟩
      · dsimp only at hk
        rcases Nat.lt_or_ge k d.entries.length with hLt | hGe
        · rw [List.getElem?_append_left hLt] at hk
          exact (hMirrors.entries k s' hk).extend hMore
        · rw [List.getElem?_append_right hGe] at hk
          rw [List.getElem?_singleton] at hk
          obtain ⟨hZero, hLastEntry⟩ := Option.ite_none_right_eq_some.mp hk
          cases hLastEntry
          have hPlace : h.firstFree + k = c.freeEnt := by
            rw [hFree, Dict.free, Header.format]
            dsimp only
            omega
          rw [hPlace]
          exact hMirrors.new hSound hPrev hRoom hOld hSpells code _
      · rintro _ ⟨⟩
        refine ⟨?_, code, Coder.after_oldcode, hLast, Coder.after_finchar⟩
        rw [hAfter, hFree, Dict.free, Dict.free, List.length_append]
        rfl
    · have hAfter : (c.after h o code (s.headD 0)).freeEnt = c.freeEnt :=
        Coder.after_full (hFree ▸ Nat.not_lt.mp hRoom : h.maxmaxcode ≤ c.freeEnt)
      have hAdd : d.add h.format s = ⟨d.entries, some s⟩ := by
        rw [Dict.add, hPrev]
        simp only [if_neg (show ¬ d.free h.format < 2 ^ h.format.maxbits from hRoom)]
      rw [hAdd]
      refine ⟨fun k s' hk => (hMirrors.entries k s' hk).extend hMore, ?_, fun hNone => by cases hNone⟩
      rintro _ ⟨⟩
      exact ⟨hAfter.trans hFree, code, Coder.after_oldcode, hLast, Coder.after_finchar⟩

/-- A code is decoded to its string. -/
theorem Mirrors.decodes (hMirrors : Mirrors h d c) (hSound : c.Sound h) (hNine : 9 ≤ h.maxbits)
    (hString : d.stringOf h.format code = some s) :
    ∃ o, c.oldcode = some o ∧ code ≤ c.freeEnt ∧
      Settles (fun n => c.decode h n o code) (.ok (c.after h o code (s.headD 0), s)) ∧
      Mirrors h (d.add h.format s) (c.after h o code (s.headD 0)) := by
  obtain ⟨o, hOld⟩ := hMirrors.oldcode
  by_cases hKwKwK : ∃ w, d.prev = some w ∧ code = d.free h.format ∧ d.free h.format < 2 ^ h.maxbits
  · obtain ⟨w, hPrev, hCode, hRoom⟩ := hKwKwK
    obtain ⟨hFree, o', hOld', hSpells, hFirst⟩ := hMirrors.prev w hPrev
    cases hOld.symm.trans hOld'
    have hSame : code = c.freeEnt := hCode.trans hFree.symm
    have hString' : s = w ++ [w.headD 0] := by
      rw [Dict.stringOf, hPrev] at hString
      simp only [if_pos (show code = d.free h.format ∧
        d.free h.format < 2 ^ h.format.maxbits from ⟨hCode, hRoom⟩)] at hString
      exact (Option.some.inj hString).symm
    have hHead : s.headD 0 = w.headD 0 := by
      rw [hString']
      cases w with
      | nil => cases hSpells.length_pos
      | cons _ _ => rfl
    have hLive := hMirrors.live hSound hPrev hRoom hOld
    refine ⟨o, hOld, hSame.le, ?_, hMirrors.after hSound hNine hOld (fun hNone => ?_) fun w' hw' hSpells' => ?_⟩
    · refine ⟨w.length, fun n hn => ?_⟩
      have hRun := Coder.decode_next (h := h) hSpells (hSound.room hLive hSpells) hn
      rw [hFirst] at hRun
      rw [hSame, hHead, hString']
      exact hRun
    · rw [hPrev] at hNone
      cases hNone
    · cases hPrev.symm.trans hw'
      have hEntry := hMirrors.new hSound hPrev hRoom hOld hSpells code (s.headD 0)
      rw [← hSame] at hEntry
      rwa [show w ++ [s.headD 0] = s by rw [hHead, hString']] at hEntry
  · have hLook : d.lookup h.format code = some s := by
      rw [Dict.stringOf] at hString
      cases hPrev : d.prev with
      | none =>
        rw [hPrev] at hString
        exact hString
      | some w =>
        rw [hPrev] at hString
        dsimp only at hString
        rwa [if_neg (fun hBoth => hKwKwK ⟨w, hPrev, hBoth.1, hBoth.2⟩)] at hString
    obtain ⟨hSpells, hLt, hLive⟩ := hMirrors.lookup hSound hLook
    have hRoom := hSound.room hLive hSpells
    refine ⟨o, hOld, hLt.le, ⟨s.length, fun n hn => Coder.decode_known hLt hSpells (by omega) hn⟩,
      hMirrors.after hSound hNine hOld (fun _ => hSpells) fun _ _ _ => ?_⟩
    exact hSpells.extend (Coder.after_extends (hSound.unwritten _ (Nat.le_refl _)))

/-! ## Codes of the right width -/

/-- The decoder is at the place of the dictionary's next code, but for the width of the code. -/
structure Synced (h : Header) (file : Bytes) (p : Place) (d : Dict) (jump : Bool) (dec : Decoder) : Prop where
  standing : Standing h file p jump dec
  mirrors : Mirrors h d dec.coder
  fits : Fits h.maxbits (d.free h.format) dec.coder.nBits

theorem Mirrors.free_le (hMirrors : Mirrors h d c) : c.freeEnt ≤ d.free h.format := by
  cases hPrev : d.prev with
  | none =>
    obtain ⟨-, hFree, -⟩ := hMirrors.cleared hPrev
    have hFirst := h.firstFree_bounds.1
    rw [hFree, Dict.free]
    exact hFirst.trans (Nat.le_add_right _ _)
  | some w => exact (hMirrors.prev w hPrev).1.le

/-- A table that is too big for the width is that of a dictionary with an entry in each code. -/
theorem Mirrors.free_eq (hMirrors : Mirrors h d c) (hFull : 512 ≤ d.free h.format) : c.freeEnt = d.free h.format := by
  cases hPrev : d.prev with
  | none =>
    have hFirst := h.firstFree_bounds.2
    rw [Dict.free, (hMirrors.cleared hPrev).1] at hFull
    have hFull : 512 ≤ h.firstFree + 0 := hFull
    omega
  | some w => exact (hMirrors.prev w hPrev).1

theorem Mirrors.widen (hMirrors : Mirrors h d c) : Mirrors h d (c.widen h) := by
  have hSame : c.Extends (c.widen h) := ⟨fun _ _ hByte => hByte, fun _ _ _ _ hNext => hNext⟩
  refine ⟨fun k s hk => (hMirrors.entries k s hk).extend hSame, fun w hPrev => ?_, hMirrors.cleared⟩
  obtain ⟨hFree, o, hOld, hSpells, hFirst⟩ := hMirrors.prev w hPrev
  exact ⟨hFree, o, hOld, hSpells.extend hSame, hFirst⟩

theorem Mirrors.reset (hBlock : h.blockMode = true) (hOld : c.oldcode = some o) : Mirrors h .empty c.reset :=
  ⟨fun _ _ hk => (by cases hk), fun _ hPrev => (by cases hPrev), fun _ => ⟨rfl, rfl, hBlock, o, hOld⟩⟩

theorem fits_empty (hNine : 9 ≤ h.maxbits) : Fits h.maxbits (Dict.empty.free h.format) 9 := by
  have hFirst := h.firstFree_bounds
  exact .empty hNine (by change 0 < h.firstFree + 0 ∧ h.firstFree + 0 ≤ 512; omega)

theorem width_empty (hNine : 9 ≤ h.maxbits) : h.format.width .empty = 9 := by
  have hFirst := h.firstFree_bounds
  refine Fits.width_same (f := h.format) (fits_empty hNine) (.inl ?_)
  change h.firstFree + 0 < 512
  omega

variable {dec : Decoder} {out : Bytes}

/-- The width that is enough, or else the next one. -/
theorem Synced.width (hSynced : Synced h file p d jump dec) (hCond : 10 ≤ h.maxbits ∨ d.free h.format < 2 ^ h.maxbits) :
    h.format.width d = dec.coder.nBits ∧ dec.coder.freeEnt ≤ dec.coder.maxcode ∧
        (d.free h.format < 2 ^ dec.coder.nBits ∨ dec.coder.nBits = h.maxbits) ∨
      h.format.width d = dec.coder.nBits + 1 ∧ dec.coder.maxcode < dec.coder.freeEnt ∧
        d.free h.format = 2 ^ dec.coder.nBits ∧
        dec.coder.nBits < h.maxbits := by
  obtain ⟨⟨hTable, hWide, -, -, -⟩, hMirrors, hFits⟩ := hSynced
  have hFits' : Fits h.format.maxbits (d.free h.format) dec.coder.nBits := hFits
  have hLow := hFits.low
  have hMost := hFits.most
  have hLe := hMirrors.free_le
  have hMax := hWide.maxcode
  have hPow : 0 < 2 ^ dec.coder.nBits := Nat.two_pow_pos _
  rcases hFits.high.lt_or_eq with hBits | hBits
  · rw [if_neg fun hSame => absurd hSame.1 (Nat.ne_of_lt hBits)] at hMax
    rcases hMost.lt_or_eq with hLess | hFull
    · exact .inl ⟨hFits'.width_same (.inl hLess), by omega, .inl hLess⟩
    · have hMany : 2 ^ 9 ≤ 2 ^ dec.coder.nBits := Nat.pow_le_pow_right (by decide) hLow
      have hSame := hMirrors.free_eq (by omega)
      exact .inr ⟨hFits'.width_next hFull hBits, by omega, hFull, hBits⟩
  · refine .inl ⟨hFits'.width_same (.inr hBits), ?_, .inr hBits⟩
    by_cases hNine : 9 < dec.coder.nBits
    · rw [if_pos ⟨hBits, hNine⟩, Header.maxmaxcode, ← hBits] at hMax
      omega
    · rw [if_neg fun hSame => hNine hSame.2] at hMax
      rw [← hBits] at hCond
      omega

/-- The decoder with the next code in its buffer. -/
structure Ready (h : Header) (file : Bytes) (p : Place) (d : Dict)
    (dec : Decoder) : Prop extends Synced h file p d false dec where
  read : (dec.input.posbits : Int) < dec.input.inbits
  narrow : dec.coder.freeEnt ≤ dec.coder.maxcode
  width : h.format.width d = dec.coder.nBits
  room : d.free h.format < 2 ^ dec.coder.nBits ∨ dec.coder.nBits = h.maxbits

/-- The buffer is filled, and the width is set: the file is at its end, or the next code is ready. -/
inductive CatchesUp (io : Channel) (h : Header) (file : Bytes) (p : Place) (d : Dict) (jump : Bool)
    (dec : Decoder) : Prop
  | done (dec' : Decoder) (hShort : 8 * file.length < p.bit (h.format.width d) + h.format.width d)
    (hEnds : EndsIn io h (jump, dec) (.ok dec')) (hOutput : dec'.output = dec.output)
  | ready (dec' : Decoder) (hRounds : ReflTransGen (Round io h) (jump, dec) (false, dec'))
    (hReady : Ready h file p d dec')
    (hOutput : dec'.output = dec.output)

theorem Synced.fetch (hSynced : Synced h file p d jump dec) (hRead : ∀ k, io.read k ≠ none) :
    (8 * file.length < p.bit dec.coder.nBits + dec.coder.nBits ∧
        ∃ dec', EndsIn io h (jump, dec) (.ok dec') ∧ dec'.output = dec.output) ∨
      ∃ input, ReflTransGen (Round io h) (jump, dec) (false, { dec with input := input }) ∧
        Synced h file p d false { dec with input := input } ∧ (input.posbits : Int) < input.inbits := by
  obtain ⟨hStanding, hMirrors, hFits⟩ := hSynced
  cases hStanding.fetch io with
  | failed message hFails _ =>
    obtain ⟨k, hNone⟩ := hFails
    exact absurd hNone (hRead k)
  | done input hShort hEnds => exact .inl ⟨hShort, _, hEnds, rfl⟩
  | code input hRounds hAt hReady =>
    have hStanding' : Standing h file p false { dec with input := input } :=
      ⟨hStanding.table, hStanding.wide, hStanding.output, hStanding.first, hAt⟩
    exact .inr ⟨input, hRounds, ⟨hStanding', hMirrors, hFits⟩, hReady⟩

theorem Synced.catchesUp (hSynced : Synced h file p d jump dec) (hRead : ∀ k, io.read k ≠ none)
    (hCond : 10 ≤ h.maxbits ∨ d.free h.format < 2 ^ h.maxbits) :
    CatchesUp io h file (p.forWidth dec.coder.nBits (h.format.width d)) d jump dec := by
  have hBit := p.bit_le_skip dec.coder.nBits (dec.coder.nBits + 1)
  rcases hSynced.width hCond with ⟨hWidth, hNarrow, hRoom⟩ | ⟨hWidth, hFull, hFree, hBits⟩
  · rw [hWidth, Place.forWidth, if_pos rfl]
    rcases hSynced.fetch hRead with ⟨hShort, dec', hEnds, hOutput⟩ | ⟨input, hRounds, hNext, hReady⟩
    · exact .done dec' (hWidth ▸ hShort) hEnds hOutput
    · exact .ready _ hRounds ⟨hNext, hReady, hNarrow, hWidth, hRoom⟩ rfl
  · rw [hWidth, Place.forWidth, if_neg (by omega)]
    rcases hSynced.fetch hRead with ⟨hShort, dec', hEnds, hOutput⟩ | ⟨input, hRounds, hNext, hReady⟩
    · exact .done dec' (by rw [hWidth]; omega) hEnds hOutput
    · have hWidened : Synced h file (p.skip dec.coder.nBits) d true
          { dec with input := input.align dec.coder.nBits, coder := dec.coder.widen h } :=
        ⟨hNext.standing.widened hFull, hSynced.mirrors.widen, hSynced.fits.widen hFree hBits⟩
      have hTurn := hRounds.tail (.turn hReady (.always fun _ => turn_widen hFull))
      rcases hWidened.fetch hRead with ⟨hShort, dec', hEnds, hOutput⟩ | ⟨input', hRounds', hNext', hReady'⟩
      · exact .done dec' (hWidth ▸ hShort) (endsIn_of_rounds hTurn hEnds) hOutput
      · rcases hWidened.width hCond with ⟨hWidth', hNarrow, hRoom⟩ | ⟨hWidth', -, -, -⟩
        · exact .ready _ (hTurn.trans hRounds') ⟨hNext', hReady', hNarrow, hWidth', hRoom⟩ rfl
        · rw [hWidth] at hWidth'
          exact absurd hWidth' (Nat.ne_of_lt (Nat.lt_succ_self _))

/-! ## Runs of codes -/

/-- What is left to be read of a file, from the place of the last code on. -/
theorem Ready.reads (hReady : Ready h file p d dec) (hNine : 9 ≤ h.maxbits) (hWrite : ∀ k, io.write k = true)
    (hCode : codeAt file (p.bit (h.format.width d)) (h.format.width d) = code)
    (hRun : h.format.read d code = some (d', s)) :
    ∃ jump dec', ReflTransGen (Round io h) (false, dec) (jump, dec') ∧
      Synced h file (h.format.after (h.format.width d) code p) d' jump dec' ∧
      dec'.coder.nBits = (if h.format.isClear code then h.format.width d' else h.format.width d) ∧
      dec'.output.content = dec.output.content ++ s := by
  obtain ⟨⟨hStanding, hMirrors, hFits⟩, hRead, hNarrow, hWidth, hRoom⟩ := hReady
  have hAt : dec.input.At file dec.coder.nBits p := hStanding.input
  obtain ⟨-, hInput⟩ := hAt.code hStanding.wide.low hStanding.wide.high hRead
  rw [hWidth] at hCode
  rw [hCode] at hInput
  rw [Format.read] at hRun
  by_cases hClear : h.format.isClear code = true
  · rw [if_pos hClear] at hRun
    rw [Format.after, if_pos hClear, if_pos hClear, hWidth]
    cases hRun
    have hClear' := isClear_iff.mp hClear
    obtain ⟨o, hOld⟩ := hMirrors.oldcode
    refine ⟨true, _, .single (.turn hRead (.always fun _ => turn_clear hNarrow hInput hOld hClear')),
      ⟨hStanding.cleared hRead hClear'.2 hOld, .reset hClear'.2 hOld, fits_empty hNine⟩, (width_empty hNine).symm, ?_⟩
    exact (List.append_nil _).symm
  · rw [if_neg hClear] at hRun
    rw [Format.after, if_neg hClear, if_neg hClear]
    obtain ⟨s', hString, hPair⟩ := Option.map_eq_some_iff.mp hRun
    cases hPair
    have hClear' := fun hBoth => hClear (isClear_iff.mpr hBoth)
    obtain ⟨o, hOld, hLe, hDecode, hAfter⟩ := hMirrors.decodes hStanding.table hNine hString
    cases Output.put_puts io s hStanding.output with
    | failed message hFails hPut =>
      obtain ⟨k, hFalse⟩ := hFails
      rw [hWrite k] at hFalse
      cases hFalse
    | ok output hPut hLess hContent =>
      have hTurn : Settles (fun n => turn io h n dec)
          (.ok (false, ⟨dec.input.advance dec.coder.nBits, dec.coder.after h o code (s.headD 0), output⟩)) := by
        simp only [turn_decode hNarrow hInput hOld hClear']
        exact hDecode.bind (hPut.bind (.always fun _ => rfl))
      refine ⟨false, _, .single (.turn hRead hTurn), ⟨hStanding.decoded _ hRead hOld hLe hClear' hLess, hAfter, ?_⟩, ?_,
        hContent⟩
      · have hMore : Fits h.maxbits ((d.add h.format s).free h.format) dec.coder.nBits :=
            Fits.add (f := h.format) hFits hRoom s
        simpa using hMore
      · simpa using hWidth.symm

theorem Ready.inside (hReady : Ready h file p d dec) : p.bit (h.format.width d) + 9 ≤ 8 * file.length := by
  have hAt : dec.input.At file dec.coder.nBits p := hReady.standing.input
  have hLow := hReady.standing.wide.low
  have hIn := (hAt.code hLow hReady.standing.wide.high hReady.read).1
  rw [hReady.width]
  omega

/-- Codes that are followed by others. -/
theorem Synced.run (hRead : ∀ k, io.read k ≠ none) (hWrite : ∀ k, io.write k = true) (hNine : 9 ≤ h.maxbits)
    (codes rest : List Nat) (hSynced : Synced h file p d jump dec)
    (hPacked : h.format.Packed file dec.coder.nBits p d (codes ++ rest))
    (hRun : h.format.readAll d codes = some (d', s)) (hCond : 10 ≤ h.maxbits ∨ h.format.Roomy d codes) :
    ∃ p' jump' dec', ReflTransGen (Round io h) (jump, dec) (jump', dec') ∧ Synced h file p' d' jump' dec' ∧
      h.format.Packed file dec'.coder.nBits p' d' rest ∧ dec'.output.content = dec.output.content ++ s := by
  induction codes generalizing p d jump dec s with
  | nil =>
    cases hRun
    exact ⟨p, jump, dec, .refl, hSynced, hPacked, (List.append_nil _).symm⟩
  | cons code codes ih =>
    rw [List.cons_append, Format.Packed] at hPacked
    obtain ⟨hIn, hCode, hNext⟩ := hPacked
    rw [Format.readAll] at hRun
    cases hFirst : h.format.read d code with
    | none =>
      rw [hFirst] at hRun
      cases hRun
    | some found =>
      obtain ⟨d₁, s₁⟩ := found
      rw [hFirst] at hRun
      obtain ⟨⟨d₂, s₂⟩, hRest, hPair⟩ := Option.map_eq_some_iff.mp hRun
      cases hPair
      cases hSynced.catchesUp hRead (hCond.imp_right fun hRoomy => hRoomy.1) with
      | done _ hShort _ _ => omega
      | ready ready hRounds hReady hOutput =>
        obtain ⟨jump₁, dec₁, hTurn, hSynced₁, hBits, hContent⟩ := hReady.reads hNine hWrite hCode hFirst
        have hTail := hNext d₁ s₁ hFirst
        rw [← hBits] at hTail
        obtain ⟨p', jump', dec', hRounds', hSynced', hPacked', hContent'⟩ :=
          ih hSynced₁ hTail hRest (hCond.imp_right fun hRoomy => hRoomy.2 d₁ s₁ hFirst)
        refine ⟨p', jump', dec', (hRounds.trans hTurn).trans hRounds', hSynced', hPacked', ?_⟩
        rw [hContent', hContent, List.append_assoc]
        simp only [Output.content, hOutput]

/-- The end of the codes. -/
theorem Synced.finish (hRead : ∀ k, io.read k ≠ none) (hNine : 9 ≤ h.maxbits) (hSynced : Synced h file p d jump dec)
    (hPacked : h.format.Packed file dec.coder.nBits p d []) :
    ∃ dec', EndsIn io h (jump, dec) (.ok dec') ∧ dec'.output = dec.output := by
  have hEnd : 8 * file.length <
      (p.forWidth dec.coder.nBits (h.format.width d)).bit (h.format.width d) + 8 := hPacked
  by_cases hCond : 10 ≤ h.maxbits ∨ d.free h.format < 2 ^ h.maxbits
  · cases hSynced.catchesUp hRead hCond with
    | done dec' _ hEnds hOutput => exact ⟨dec', hEnds, hOutput⟩
    | ready _ _ hReady _ =>
      have hInside := hReady.inside
      omega
  · -- The table is full and has all codes of 9 bits, and there is no more code.
    have hLow := hSynced.fits.low
    have hHigh := hSynced.fits.high
    have hTop : dec.coder.nBits = h.format.maxbits := by
      change dec.coder.nBits = h.maxbits
      omega
    have hWidth := Fits.width_same (f := h.format) hSynced.fits (.inr hTop)
    rw [hWidth, Place.forWidth, if_pos rfl] at hEnd
    rcases hSynced.fetch hRead with ⟨-, dec', hEnds, hOutput⟩ | ⟨input, -, hNext, hReady⟩
    · exact ⟨dec', hEnds, hOutput⟩
    · have hAt : input.At file dec.coder.nBits p := hNext.standing.input
      have hIn := (hAt.code hLow hNext.standing.wide.high hReady).1
      omega

/-! ## Whole files -/

/-- Nothing fails. -/
structure Channel.Works (io : Channel) : Prop where
  opens : io.openError = none
  reads : ∀ k, io.read k ≠ none
  writes : ∀ k, io.write k = true

theorem finish_content {o : Output} (hWrite : ∀ k, io.write k = true) :
    (o.finish io >>= fun output => .ok output.written) = (.ok o.content : Except Stop Bytes) := by
  rw [Output.finish, Output.content]
  split
  · rename_i hEmpty
    rw [hEmpty, List.append_nil]
    rfl
  · rw [Output.write, if_pos (hWrite _)]
    rfl

/-- A file of codes: the magic number, the header byte, and the codes in the width that goes with the dictionary. -/
structure CodeFile (h : Header) (codes : List Nat) (file : Bytes) : Prop where
  magic : file[0]? = some 0x1f ∧ file[1]? = some 0x9d
  header : ∃ b, file[2]? = some b ∧ b.toNat % 32 = h.maxbits ∧ (128 ≤ b.toNat ↔ h.blockMode = true)
  packed : h.format.Packed file 9 ⟨3, 0⟩ .empty codes

theorem header_of {b : UInt8} (hBits : b.toNat % 32 = h.maxbits) (hBlock : 128 ≤ b.toNat ↔ h.blockMode = true) :
    Header.of io b = .ok h := by
  have hLe := h.maxbits_le
  rw [Header.of, dif_pos (by omega)]
  congr
  · cases hMode : h.blockMode with
    | false => exact decide_eq_false fun hHigh => by rw [hBlock.mp hHigh] at hMode; cases hMode
    | true => exact decide_eq_true (hBlock.mpr hMode)

theorem CodeFile.prepared {codes : List Nat} (hFile : CodeFile h codes file) (hWorks : io.Works) :
    ∃ dec, Settles (fun n => prepare io file n) (.ok (h, dec)) ∧ Standing h file ⟨3, 0⟩ true dec ∧
      dec.coder = .start h ∧
      dec.output = ⟨[], [], 0⟩ := by
  obtain ⟨b, hThird, hBits, hBlock⟩ := hFile.header
  rcases header_settles io file with ⟨hFails | hShort, -⟩ | ⟨d, hRead, hHeld, hSize⟩
  · obtain ⟨k, hNone⟩ := hFails
    exact absurd hNone (hWorks.reads k)
  · have hLength := (List.getElem?_eq_some_iff.mp hThird).1
    omega
  · exact prepare_ok hWorks.opens hRead hHeld hSize hFile.magic hThird (header_of hBits hBlock)

/-- The first code is a literal. -/
theorem first_literal (hClear : ¬ h.format.isClear code = true)
    (hRun : h.format.read .empty code = some (d, s)) : code < 256 ∧ s = [UInt8.ofNat code] ∧ d = ⟨[], some s⟩ := by
  rw [Format.read, if_neg hClear] at hRun
  obtain ⟨s', hString, hPair⟩ := Option.map_eq_some_iff.mp hRun
  cases hPair
  have hLook : Dict.lookup h.format .empty code = some s := hString
  rw [Dict.lookup] at hLook
  split at hLook
  · rename_i hLow
    cases hLook
    exact ⟨hLow, rfl, rfl⟩
  · split at hLook <;> cases hLook

theorem first_code {codes : List Nat} (hRead : ∀ k, io.read k ≠ none) (hNine : 9 ≤ h.maxbits)
    (hStanding : Standing h file ⟨3, 0⟩ true dec) (hCoder : dec.coder = .start h) (hOutput : dec.output = ⟨[], [], 0⟩)
    (hPacked : h.format.Packed file 9 ⟨3, 0⟩ .empty (code :: codes)) (hClear : ¬ h.format.isClear code = true)
    (hRun : h.format.read .empty code = some (d, s)) :
    ∃ dec', ReflTransGen (Round io h) (true, dec) (false, dec') ∧ Synced h file ⟨3, 1⟩ d false dec' ∧
      h.format.Packed file dec'.coder.nBits ⟨3, 1⟩ d codes ∧ dec'.output.content = s := by
  obtain ⟨hLow, rfl, rfl⟩ := first_literal hClear hRun
  have hBits : dec.coder.nBits = 9 := by
    rw [hCoder]
    rfl
  have hOld : dec.coder.oldcode = none := by
    rw [hCoder]
    rfl
  rw [Format.Packed, width_empty hNine, Place.forWidth, if_pos rfl] at hPacked
  obtain ⟨hIn, hCode, hNext⟩ := hPacked
  have hTail := hNext _ _ hRun
  rw [Format.after, if_neg hClear, if_neg hClear] at hTail
  cases hStanding.fetch io with
  | failed message hFails _ =>
    obtain ⟨k, hNone⟩ := hFails
    exact absurd hNone (hRead k)
  | done _ hShort _ =>
    rw [hBits] at hShort
    omega
  | code input hRounds hAt hReady =>
    have hHere : Standing h file ⟨3, 0⟩ false { dec with input := input } :=
      ⟨hStanding.table, hStanding.wide, hStanding.output, hStanding.first, hAt⟩
    have hInput := (hAt.code hStanding.wide.low hStanding.wide.high hReady).2
    rw [hBits, hCode, ← hBits] at hInput
    have hNarrow : dec.coder.freeEnt ≤ dec.coder.maxcode := by
      have hFirst : h.firstFree ≤ 511 := h.firstFree_bounds.2.trans (by decide)
      rw [hCoder]
      exact hFirst
    have hTurn : ∀ n, turn io h n { dec with input := input } =
        .ok (false, ⟨input.advance dec.coder.nBits, dec.coder.begin code, ⟨[UInt8.ofNat code], [], 0⟩⟩) := by
      intro n
      rw [turn_first (d := { dec with input := input }) hNarrow hInput hOld hLow, hOutput, Output.copy_ok]
      · rfl
      · simp [outSize]
    have hBegun := hHere.begun hReady hLow
    rw [hOutput] at hBegun
    refine ⟨_, hRounds.tail (.turn hReady (.always hTurn)),
      ⟨hBegun, ⟨fun _ _ hk => (by cases hk), ?_, fun hNone => by cases hNone⟩, ?_⟩, ?_, rfl⟩
    · rintro _ ⟨⟩
      refine ⟨?_, code, rfl, .literal hLow (hBegun.table.literal code hLow), rfl⟩
      rw [hCoder]
      rfl
    · rw [show (dec.coder.begin code).nBits = dec.coder.nBits from rfl, hBits]
      exact fits_empty hNine
    · rw [show (dec.coder.begin code).nBits = dec.coder.nBits from rfl, hBits]
      exact hTail

theorem uncompress_denotes {codes : List Nat} (hWorks : io.Works) (hNine : 9 ≤ h.maxbits)
    (hFile : CodeFile h codes file)
    (hDenote : h.format.denote codes = some out) (hCond : 10 ≤ h.maxbits ∨ h.format.Roomy .empty codes) :
    Settles (fun n => uncompress io file n) (.ok out) := by
  obtain ⟨dec, hBegins, hStanding, hCoder, hOutput⟩ := hFile.prepared hWorks
  obtain ⟨dec', hEnds, hContent⟩ : ∃ dec', EndsIn io h (true, dec) (.ok dec') ∧ dec'.output.content = out := by
    have hPacked := hFile.packed
    cases codes with
    | nil =>
      cases hDenote
      rw [Format.Packed, width_empty hNine, Place.forWidth, if_pos rfl] at hPacked
      have hBits : dec.coder.nBits = 9 := by
        rw [hCoder]
        rfl
      cases hStanding.fetch io with
      | failed message hFails _ =>
        obtain ⟨k, hNone⟩ := hFails
        exact absurd hNone (hWorks.reads k)
      | done input _ hEnds =>
        refine ⟨_, hEnds, ?_⟩
        rw [hOutput]
        rfl
      | code input hRounds hAt hReady =>
        have hIn := (hAt.code hStanding.wide.low hStanding.wide.high hReady).1
        rw [hBits] at hIn
        omega
    | cons code codes =>
      rw [Format.denote] at hDenote
      split at hDenote
      · cases hDenote
      · rename_i hClear
        obtain ⟨⟨d, out⟩, hRun, rfl⟩ := Option.map_eq_some_iff.mp hDenote
        rw [Format.readAll] at hRun
        cases hFirst : h.format.read .empty code with
        | none =>
          rw [hFirst] at hRun
          cases hRun
        | some found =>
          obtain ⟨d₁, s₁⟩ := found
          rw [hFirst] at hRun
          obtain ⟨⟨d₂, s₂⟩, hRest, hPair⟩ := Option.map_eq_some_iff.mp hRun
          cases hPair
          obtain ⟨dec₁, hRounds, hSynced, hTail, hContent₁⟩ :=
            first_code hWorks.reads hNine hStanding hCoder hOutput hPacked hClear hFirst
          rw [← List.append_nil codes] at hTail
          obtain ⟨p, jump, dec₂, hRounds', hSynced', hEnd, hContent₂⟩ :=
            hSynced.run hWorks.reads hWorks.writes hNine codes [] hTail hRest
              (hCond.imp_right fun hRoomy => hRoomy.2 _ _ hFirst)
          obtain ⟨dec', hEnds, hSame⟩ := hSynced'.finish hWorks.reads hNine hEnd
          refine ⟨dec', endsIn_of_rounds (hRounds.trans hRounds') hEnds, ?_⟩
          rw [hSame, hContent₂, hContent₁]
  have hRun := uncompress_of_codes hBegins hEnds
  rw [except_ok_bind, finish_content hWorks.writes, hContent] at hRun
  exact hRun

end

theorem quiet_works (src : Constraint.Word) : (quiet src).Works :=
  ⟨rfl, fun _ hNone => (by cases hNone), fun _ => rfl⟩

/-- Block mode and codes of up to 16 bits. -/
def sixteenBits : Header := ⟨16, true, by decide⟩

/-- The codes 65 and 257, of which the second names the entry that it makes. -/
def threeAs : Bytes := [0x1f, 0x9d, 0x90, 0x41, 0x02, 0x02]

theorem threeAs_file : CodeFile sixteenBits [65, 257] threeAs where
  magic := by decide
  header := ⟨0x90, by decide⟩
  packed := by
    refine ⟨by decide, by decide, fun d s hRead => ?_⟩
    cases hRead
    refine ⟨by decide, by decide, fun d s hRead => ?_⟩
    cases hRead
    change _ < _
    decide

theorem threeAs_uncompressed : Settles (fun n => uncompress (quiet "f.Z".toList) threeAs n) (.ok [65, 65, 65]) :=
  uncompress_denotes (quiet_works _) (by decide) threeAs_file (by decide) (.inl (by decide))

/-! ## Codes of nine bits -/

def nineBits : Header := ⟨9, true, by decide⟩

/-- The code 0, 256 times, which fills the table, and the code 1 twice. -/
def manyCodes (n : Nat) : List Nat := List.replicate n 0 ++ [1, 1]

def manyZeros : Bytes := [0x1f, 0x9d, 0x89] ++ (List.replicate 288 0 ++ [1, 2, 0])

/-- The dictionary after one zero more than it has entries. -/
def zeroDict (n : Nat) : Dict := ⟨List.replicate n [0, 0], some [0]⟩

theorem manyZeros_byte {i : Nat} (hLow : 3 ≤ i) (hHigh : i < 291) : manyZeros[i]? = some 0 := by
  have hFirst : ([0x1f, 0x9d, 0x89] : Bytes).length ≤ i := hLow
  rw [manyZeros, List.getElem?_append_right hFirst,
    List.getElem?_append_left (by rw [List.length_replicate]; simp only [List.length_cons, List.length_nil]; omega),
    List.getElem?_replicate_of_lt (by simp only [List.length_cons, List.length_nil]; omega)]

theorem manyZeros_codes (k : Nat) (hk : k < 256) : codeAt manyZeros (24 + 9 * k) 9 = 0 := by
  refine Nat.eq_of_testBit_eq fun j => ?_
  rw [Nat.zero_testBit, codeAt]
  rcases Nat.lt_or_ge j 9 with hIn | hOut
  · rw [Nat.testBit_ofBits_lt _ _ hIn, bitAt, manyZeros_byte (by simp only; omega) (by simp only; omega)]
    exact Nat.zero_testBit _
  · exact Nat.testBit_ofBits_ge _ _ hOut

theorem nineBits_width (d : Dict) : nineBits.format.width d = 9 := by
  change min 9 (max 9 _) = 9
  omega

theorem zeroDict_free (n : Nat) : (zeroDict n).free nineBits.format = 257 + n := by
  change 257 + (List.replicate n [0, 0]).length = 257 + n
  rw [List.length_replicate]

theorem zeroDict_read {n : Nat} (hRoom : n < 255) : nineBits.format.read (zeroDict n) 0 =
    some (zeroDict (n + 1), [0]) := by
  have hFree := zeroDict_free n
  have hString : (zeroDict n).stringOf nineBits.format 0 = some [0] := by
    change (if 0 = (zeroDict n).free nineBits.format ∧ _ then _ else Dict.lookup _ _ 0) = _
    rw [if_neg (fun hBoth => by omega)]
    rfl
  have hAdd : (zeroDict n).add nineBits.format [0] = zeroDict (n + 1) := by
    change Dict.mk (if (zeroDict n).free nineBits.format < 512 then List.replicate n [0, 0] ++ [[0, 0]] else _)
      (some [0]) = _
    rw [if_pos (by omega), zeroDict, List.replicate_succ']
  change Option.map _ (Dict.stringOf _ _ 0) = _
  rw [hString, Option.map_some, hAdd]

theorem zeroDict_readAll {n m : Nat} (hRoom : n + m ≤ 255) :
    nineBits.format.readAll (zeroDict n) (List.replicate m 0) = some (zeroDict (n + m), List.replicate m 0) := by
  induction m generalizing n with
  | zero => rfl
  | succ m ih =>
    rw [List.replicate_succ, Format.readAll, zeroDict_read (by omega)]
    dsimp only
    rw [ih (by omega), Option.map_some]
    simp only [List.singleton_append, Nat.add_right_comm n 1 m, Nat.add_assoc]
    rfl

theorem manyZeros_length : manyZeros.length = 294 := by
  rw [manyZeros, List.length_append, List.length_append, List.length_replicate]
  rfl

theorem zeros_bit (n : Nat) : Place.bit 9 ⟨3, n⟩ = 24 + 9 * n := by
  simp only [Place.bit]
  omega

theorem zeroDict_packed {n m : Nat} (hSum : n + 1 + m = 256) :
    nineBits.format.Packed manyZeros 9 ⟨3, n + 1⟩ (zeroDict n) (manyCodes m) := by
  have hLength := manyZeros_length
  induction m generalizing n with
  | zero =>
    obtain rfl : n = 255 := by omega
    have hAfter : ∀ p, nineBits.format.after 9 1 p = p.next := fun p => if_neg (by decide)
    have hNotClear : nineBits.format.isClear 1 = false := rfl
    simp only [manyCodes, List.replicate_zero, List.nil_append, Format.Packed, nineBits_width, Place.forWidth, if_true,
      hAfter,
      hNotClear, Bool.false_eq_true, if_false]
    refine ⟨?_, by decide, fun d s _ => ⟨?_, by decide, fun d s _ => ?_⟩⟩
    · rw [zeros_bit]
      omega
    · rw [Place.next, zeros_bit]
      dsimp only
      omega
    · rw [Place.next, Place.next, zeros_bit]
      dsimp only
      omega
  | succ m ih =>
    rw [manyCodes, List.replicate_succ, List.cons_append, Format.Packed, nineBits_width, Place.forWidth, if_pos rfl,
      zeros_bit]
    refine ⟨by omega, manyZeros_codes _ (by omega), fun d' s hRead => ?_⟩
    rw [zeroDict_read (by omega)] at hRead
    cases hRead
    exact ih (n := n + 1) (by omega)

theorem manyZeros_file : CodeFile nineBits (manyCodes 256) manyZeros where
  magic := by decide
  header := ⟨0x89, by decide⟩
  packed := by
    have hLength := manyZeros_length
    rw [manyCodes, List.replicate_succ, List.cons_append, Format.Packed, nineBits_width, Place.forWidth, if_pos rfl,
      zeros_bit]
    refine ⟨by omega, manyZeros_codes 0 (by omega), fun d' s hRead => ?_⟩
    cases hRead
    exact zeroDict_packed (n := 0) rfl

set_option maxRecDepth 20000 in
theorem manyZeros_denote : nineBits.format.denote (manyCodes 256) = some (List.replicate 256 0 ++ [1, 1]) := by
  have hFirst : nineBits.format.read .empty 0 = some (zeroDict 0, [0]) := rfl
  have hLast : (nineBits.format.readAll (zeroDict 255) [1, 1]).map Prod.snd = some [1, 1] := by decide
  obtain ⟨⟨d, s⟩, hRun, hSame⟩ := Option.map_eq_some_iff.mp hLast
  have hSame : s = [1, 1] := hSame
  have hMany : manyCodes 256 = 0 :: (List.replicate 255 0 ++ [1, 1]) := rfl
  rw [Format.denote, hMany, if_neg (by decide), Format.readAll, hFirst]
  dsimp only
  rw [Format.readAll_append, zeroDict_readAll (by decide), Option.bind_some, Nat.zero_add, hRun, hSame]
  rfl

/-- The zeros are read with nine bits each. -/
theorem zeros_read {io : Channel} (hWorks : io.Works) {n m : Nat} {jump : Bool} {dec : Decoder} (hSum : n + m = 255)
    (hSynced : Synced nineBits manyZeros ⟨3, n + 1⟩ (zeroDict n) jump dec) :
    ∃ jump' dec', ReflTransGen (Round io nineBits) (jump, dec) (jump', dec') ∧
      Synced nineBits manyZeros ⟨3, 256⟩ (zeroDict 255) jump' dec' := by
  have hLength := manyZeros_length
  induction m generalizing n jump dec with
  | zero =>
    obtain rfl : n = 255 := by omega
    exact ⟨jump, dec, .refl, hSynced⟩
  | succ m ih =>
    have hBits : dec.coder.nBits = 9 := Nat.le_antisymm hSynced.fits.high hSynced.fits.low
    have hCatch := hSynced.catchesUp hWorks.reads (.inr (by rw [zeroDict_free]; change 257 + n < 512; omega))
    rw [nineBits_width, hBits, Place.forWidth, if_pos rfl] at hCatch
    cases hCatch with
    | done _ hShort _ _ =>
      rw [nineBits_width, zeros_bit] at hShort
      omega
    | ready ready hRounds hReady _ =>
      have hCode : codeAt manyZeros (Place.bit (nineBits.format.width (zeroDict n)) ⟨3, n + 1⟩)
          (nineBits.format.width (zeroDict n)) = 0 := by
        rw [nineBits_width, zeros_bit]
        exact manyZeros_codes _ (by omega)
      obtain ⟨jump', dec', hTurn, hNext, -, -⟩ := hReady.reads (by decide) hWorks.writes hCode
          (zeroDict_read (by omega))
      obtain ⟨jump'', dec'', hRounds', hLast⟩ := ih (n := n + 1) (by omega) hNext
      exact ⟨jump'', dec'', (hRounds.trans hTurn).trans hRounds', hLast⟩

/-- At the full table the decoder goes on to ten bits, and finds a code beyond the table. -/
theorem full_table_throws {io : Channel} (hWorks : io.Works) {jump : Bool} {dec : Decoder}
    (hSynced : Synced nineBits manyZeros ⟨3, 256⟩ (zeroDict 255) jump dec) :
    EndsIn io nineBits (jump, dec) (.error Coder.corrupt) := by
  have hLength := manyZeros_length
  have hBits : dec.coder.nBits = 9 := Nat.le_antisymm hSynced.fits.high hSynced.fits.low
  have hFree := zeroDict_free 255
  have hFull := hSynced.mirrors.free_eq hFree.ge
  obtain ⟨o, hOld⟩ := hSynced.mirrors.oldcode
  have hMax : dec.coder.maxcode = 511 := by
    rw [hSynced.standing.wide.maxcode, hBits]
    rfl
  rcases hSynced.fetch hWorks.reads with ⟨hShort, -⟩ | ⟨input, hRounds, hNext, hReady⟩
  · rw [hBits, zeros_bit] at hShort
    omega
  · have hWide : dec.coder.maxcode < dec.coder.freeEnt := by omega
    have hWidened := hNext.standing.widened hWide
    have hTurn := hRounds.tail (.turn hReady (.always fun _ => turn_widen hWide))
    refine endsIn_of_rounds hTurn ?_
    have hPlace : Place.skip dec.coder.nBits ⟨3, 256⟩ = ⟨291, 0⟩ := by
      rw [hBits]
      rfl
    have hPlace' : Place.skip ({ dec with input := input } : Decoder).coder.nBits ⟨3, 256⟩ = ⟨291, 0⟩ := hPlace
    rw [hPlace'] at hWidened
    cases hWidened.fetch io with
    | failed message hFails _ =>
      obtain ⟨k, hNone⟩ := hFails
      exact absurd hNone (hWorks.reads k)
    | done _ hShort _ =>
      have hShort : 8 * manyZeros.length < Place.bit (dec.coder.nBits + 1) ⟨291, 0⟩ + (dec.coder.nBits + 1) := hShort
      rw [hBits, hLength] at hShort
      exact absurd hShort (by decide)
    | code input' hRounds' hAt hReady' =>
      refine endsIn_of_rounds hRounds' (endsIn_of_turn hReady' (.always fun n => ?_))
      have hBits' : (dec.coder.widen nineBits).nBits = 10 := congrArg (· + 1) hBits
      have hValue : codeAt manyZeros (Place.bit 10 ⟨291, 0⟩) 10 = 513 := by decide
      have hCode : input'.code (dec.coder.widen nineBits).nBits = .ok 513 := by
        refine (hAt.code hWidened.wide.low hWidened.wide.high hReady').2.trans (congrArg Except.ok ?_)
        dsimp only
        rw [hBits', hValue]
      have hMax' : (dec.coder.widen nineBits).maxcode = 1023 := by
        rw [Coder.widen, hBits]
        rfl
      rw [turn_decode (d := { dec with input := input', coder := dec.coder.widen nineBits })
        (by dsimp only; rw [hMax']; exact hFull.le.trans (hFree ▸ by decide)) hCode hOld (by decide), Coder.decode]
      dsimp only
      rw [if_pos (by change dec.coder.freeEnt < 513; omega), except_error_bind]

theorem nine_bits_misread : CodeFile nineBits (manyCodes 256) manyZeros ∧
    nineBits.format.denote (manyCodes 256) = some (List.replicate 256 0 ++ [1, 1]) ∧
    ¬ Settles (fun n => uncompress (quiet "f.Z".toList) manyZeros n) (.ok (List.replicate 256 0 ++ [1, 1])) := by
  refine ⟨manyZeros_file, manyZeros_denote, fun hRun => ?_⟩
  have hWorks := quiet_works "f.Z".toList
  obtain ⟨dec, hBegins, hStanding, hCoder, hOutput⟩ := manyZeros_file.prepared hWorks
  have hFirst : nineBits.format.read .empty 0 = some (zeroDict 0, [0]) := rfl
  obtain ⟨dec', hRounds, hSynced, -, -⟩ :=
    first_code hWorks.reads (by decide) hStanding hCoder hOutput manyZeros_file.packed (by decide) hFirst
  obtain ⟨jump, last, hRounds', hLast⟩ := zeros_read hWorks (n := 0) (m := 255) rfl hSynced
  have hEnds := endsIn_of_rounds (hRounds.trans hRounds') (full_table_throws hWorks hLast)
  cases hRun.unique (uncompress_of_codes hBegins hEnds)

end Libdap.Bes.BESUncompress3Z
