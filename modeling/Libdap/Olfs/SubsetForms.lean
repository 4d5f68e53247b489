import Mathlib
import Libdap.Olfs.DimensionSubset

/-! # The two forms of a dimension's subset

What each constructor accepts and rejects, when the printed trim is a hyperslab of the constraint grammar, and when an
element that is written can be read back.
-/

namespace Libdap.Olfs
open Core Constraint
set_option autoImplicit false

namespace DimensionSubset

variable {unicode : Char → Option Nat} {s dim w low high rest : Word} {d d' : DimensionSubset}

/-! ## Key-value texts -/

theorem indexOrNone_some {c : Char} (h : c ∉ w) (rest : Word) : indexOrNone (w ++ c :: rest) c = w.length := by
  have hPlace : indexOf (w ++ c :: rest) c 0 = some (([] : Word).length + w.length) := indexOf_behind rfl rfl h
  rw [indexOrNone, hPlace, List.length_nil, Nat.zero_add]

theorem indexOrNone_none {c : Char} (h : c ∉ w) : indexOrNone w c = -1 := by
  have hFind : w.findIdx? (· = c) = none := List.findIdx?_eq_none_iff.mpr fun d hd => by
    simpa using fun hSame : d = c => h (hSame ▸ hd)
  rw [indexOrNone, indexOf, List.drop_zero, hFind]
  rfl

/-- A name, and a text in parentheses. -/
structure Clause (s dim w rest : Word) : Prop where
  split : s = dim ++ '(' :: (w ++ ')' :: rest)
  name : '(' ∉ dim ∧ ')' ∉ dim
  closed : ')' ∉ w

/-- The interval or the point of a clause. -/
def ofClause (unicode : Char → Option Nat) (dim w : Word) : Except WcsFault DimensionSubset :=
  if w.contains ',' then
    let low := trimQuotesAndWhiteSpace (w.takeWhile (· ≠ ','))
    let high := trimQuotesAndWhiteSpace ((w.dropWhile (· ≠ ',')).drop 1)
    (trimIsArraySubset unicode low high).map fun isArray => ⟨some .trim, dim, some low, some high, none, isArray⟩
  else
    let slicePoint := trimQuotesAndWhiteSpace w
    .ok ⟨some .slicePoint, dim, none, none, some slicePoint, isArraySubsetString unicode slicePoint⟩

theorem before_comma (hLow : ',' ∉ low) (high : Word) :
    (low ++ ',' :: high).takeWhile (· ≠ ',') = low ∧ ((low ++ ',' :: high).dropWhile (· ≠ ',')).drop 1 = high := by
  have hPassed : ∀ c ∈ low, decide (c ≠ ',') = true := fun c hc => decide_eq_true fun hSame => hLow (hSame ▸ hc)
  rw [List.takeWhile_append_of_pos hPassed, List.takeWhile_cons_of_neg (by simp), List.append_nil,
    List.dropWhile_append_of_pos hPassed, List.dropWhile_cons_of_neg (by simp)]
  exact ⟨rfl, rfl⟩

theorem ofKvp_clause (h : Clause s dim w rest) : ofKvp unicode s = ofClause unicode dim w := by
  obtain ⟨rfl, ⟨hOpen, hClose⟩, hClosed⟩ := h
  have hRight : indexOrNone (dim ++ '(' :: (w ++ ')' :: rest)) ')' = ((dim ++ '(' :: w).length : Int) := by
    have hNot : ')' ∉ dim ++ '(' :: w := by simp [hClose, hClosed]
    have hPlace := indexOrNone_some hNot rest
    rwa [List.append_assoc, List.cons_append] at hPlace
  have hName : substring (dim ++ '(' :: (w ++ ')' :: rest)) 0 dim.length = .ok dim :=
    substring_eq (u := []) rfl rfl (by simp)
  have hInner : substring (dim ++ '(' :: (w ++ ')' :: rest)) (dim.length + 1) (dim ++ '(' :: w).length = .ok w := by
    refine substring_eq (u := dim ++ ['(']) (v := w) (w := ')' :: rest) ?_ ?_ ?_
    · simp
    · simp
    · simp only [List.length_append, List.length_cons, List.length_nil]
      omega
  rw [ofKvp, indexOrNone_some hOpen, hRight, hName, hInner, ofClause]
  simp only [orJava, ok_bind]
  by_cases hComma : ',' ∈ w
  · obtain ⟨low, high, rfl, hLow⟩ := List.eq_append_cons_of_mem hComma
    obtain ⟨hTake, hDrop⟩ := before_comma hLow high
    have hFirst : substring (low ++ ',' :: high) 0 low.length = .ok low := substring_eq (u := []) rfl rfl (by simp)
    have hSecond : substring (low ++ ',' :: high) (low.length + 1) (low ++ ',' :: high).length = .ok high := by
      refine substring_eq (u := low ++ [',']) (v := high) (w := []) ?_ ?_ ?_
      · simp
      · simp
      · simp only [List.length_append, List.length_cons, List.length_nil]
        omega
    rw [List.contains_iff_mem.mpr hComma, if_pos rfl, if_pos rfl, indexOrNone_some hLow, hFirst, hSecond, hTake, hDrop]
    simp only [ok_bind]
    cases trimIsArraySubset unicode (trimQuotesAndWhiteSpace low) (trimQuotesAndWhiteSpace high) <;> rfl
  · have hNot : w.contains ',' = false := Bool.eq_false_iff.mpr fun hMem => hComma (List.contains_iff_mem.mp hMem)
    rw [hNot, if_neg Bool.false_ne_true, if_neg Bool.false_ne_true]

/-- A text that is not a clause is cut outside its bounds. -/
theorem ofKvp_other (h : ∀ dim w rest, ¬Clause s dim w rest) : ofKvp unicode s = .error (.java .indexOutOfBounds) := by
  rw [ofKvp]
  by_cases hOpen : '(' ∈ s
  · obtain ⟨dim, t, rfl, hName⟩ := List.eq_append_cons_of_mem hOpen
    have hFirst : substring (dim ++ '(' :: t) 0 dim.length = .ok dim := substring_eq (u := []) rfl rfl (by simp)
    have hSecond : substring (dim ++ '(' :: t) ((dim.length : Int) + 1) (indexOrNone (dim ++ '(' :: t) ')') =
        .error .indexOutOfBounds := by
      rw [substring, if_neg]
      rintro ⟨-, hLess, -⟩
      by_cases hClose : ')' ∈ dim ++ '(' :: t
      · obtain ⟨u, rest, hSplit, hNot⟩ := List.eq_append_cons_of_mem hClose
        rw [hSplit, indexOrNone_some hNot] at hLess
        rcases List.append_eq_append_iff.mp hSplit with ⟨bs, rfl, hBehind⟩ | ⟨bs, rfl, hBehind⟩
        · cases bs with
          | nil => cases hBehind
          | cons c bs =>
            cases hBehind
            have hNot' : ')' ∉ dim ∧ ')' ∉ bs := by simpa using hNot
            exact h dim bs rest ⟨rfl, ⟨hName, hNot'.1⟩, hNot'.2⟩
        · rw [List.length_append] at hLess
          omega
      · rw [indexOrNone_none hClose] at hLess
        omega
    rw [indexOrNone_some hName, hFirst]
    simp only [orJava, ok_bind]
    rw [hSecond]
    rfl
  · have hFirst : substring s 0 (-1) = .error .indexOutOfBounds := by
      rw [substring, if_neg]
      omega
    rw [indexOrNone_none hOpen, hFirst]
    rfl

/-- One bound is an index, and the other one is not. -/
def Mixed (unicode : Char → Option Nat) (low high : Word) : Prop :=
  isArraySubsetString unicode (trimQuotesAndWhiteSpace low) ≠ isArraySubsetString unicode (trimQuotesAndWhiteSpace high)

theorem trimIsArraySubset_cases (unicode : Char → Option Nat) (low high : Word) :
    (isArraySubsetString unicode low ≠ isArraySubsetString unicode high ∧
      trimIsArraySubset unicode low high = .error (.wcs mixed)) ∨
    (isArraySubsetString unicode low = isArraySubsetString unicode high ∧
      trimIsArraySubset unicode low high = .ok (isArraySubsetString unicode low)) := by
  rw [trimIsArraySubset]
  cases isArraySubsetString unicode low <;> cases isArraySubsetString unicode high <;> simp

/-- The clause of a text has two bounds, which are mixed. -/
def KvpMixed (unicode : Char → Option Nat) (s : Word) : Prop :=
  ∃ dim low high rest, Clause s dim (low ++ ',' :: high) rest ∧ ',' ∉ low ∧ Mixed unicode low high

theorem ofClause_trim (hLow : ',' ∉ low) (dim high : Word) : ofClause unicode dim (low ++ ',' :: high) =
    (trimIsArraySubset unicode (trimQuotesAndWhiteSpace low) (trimQuotesAndWhiteSpace high)).map fun isArray =>
      ⟨some .trim, dim, some (trimQuotesAndWhiteSpace low), some (trimQuotesAndWhiteSpace high), none, isArray⟩ := by
  obtain ⟨hTake, hDrop⟩ := before_comma hLow high
  have hComma : (low ++ ',' :: high).contains ',' = true := by simp
  rw [ofClause, if_pos hComma, hTake, hDrop]

theorem ofClause_point (h : ',' ∉ w) (dim : Word) : ofClause unicode dim w =
    .ok ⟨some .slicePoint, dim, none, none, some (trimQuotesAndWhiteSpace w),
      isArraySubsetString unicode (trimQuotesAndWhiteSpace w)⟩ := by
  rw [ofClause, if_neg (by simpa using h)]

theorem kvp_rejected_iff (s : Word) : (∃ e, ofKvp unicode s = .error (.wcs e)) ↔ KvpMixed unicode s := by
  constructor
  · rintro ⟨e, hRejected⟩
    by_cases hClause : ∃ dim w rest, Clause s dim w rest
    · obtain ⟨dim, w, rest, hClause⟩ := hClause
      rw [ofKvp_clause hClause] at hRejected
      by_cases hComma : ',' ∈ w
      · obtain ⟨low, high, rfl, hLow⟩ := List.eq_append_cons_of_mem hComma
        refine ⟨dim, low, high, rest, hClause, hLow, fun hSame => ?_⟩
        rw [ofClause_trim hLow] at hRejected
        rcases trimIsArraySubset_cases unicode (trimQuotesAndWhiteSpace low) (trimQuotesAndWhiteSpace high)
          with ⟨hOther, -⟩ | ⟨-, hTrim⟩
        · exact hOther hSame
        · rw [hTrim] at hRejected
          cases hRejected
      · rw [ofClause_point hComma] at hRejected
        cases hRejected
    · rw [ofKvp_other fun dim w rest hThis => hClause ⟨dim, w, rest, hThis⟩] at hRejected
      cases hRejected
  · rintro ⟨dim, low, high, rest, hClause, hLow, hMixed⟩
    rw [ofKvp_clause hClause, ofClause_trim hLow]
    rcases trimIsArraySubset_cases unicode (trimQuotesAndWhiteSpace low) (trimQuotesAndWhiteSpace high)
      with ⟨-, hTrim⟩ | ⟨hSame, -⟩
    · rw [hTrim]
      exact ⟨mixed, rfl⟩
    · exact absurd hSame hMixed

/-- What the text constructor makes. -/
theorem kvp_made (h : ofKvp unicode s = .ok d) :
    (∃ low high, d.myDimensionType = some .trim ∧ d.trimLow = some low ∧ d.trimHigh = some high ∧
      (d.isArrayIndexSubset = true → isArraySubsetString unicode low = true ∧ isArraySubsetString unicode high =
        true)) ∨
    (d.myDimensionType = some .slicePoint ∧ d.trimLow = none) := by
  by_cases hClause : ∃ dim w rest, Clause s dim w rest
  · obtain ⟨dim, w, rest, hClause⟩ := hClause
    rw [ofKvp_clause hClause] at h
    by_cases hComma : ',' ∈ w
    · obtain ⟨low, high, rfl, hLow⟩ := List.eq_append_cons_of_mem hComma
      rw [ofClause_trim hLow] at h
      rcases trimIsArraySubset_cases unicode (trimQuotesAndWhiteSpace low) (trimQuotesAndWhiteSpace high)
        with ⟨-, hTrim⟩ | ⟨hSame, hTrim⟩
      · rw [hTrim] at h
        cases h
      · rw [hTrim] at h
        cases h
        exact .inl ⟨_, _, rfl, rfl, rfl, fun hArray => ⟨hArray, hSame ▸ hArray⟩⟩
    · rw [ofClause_point hComma] at h
      cases h
      exact .inr ⟨rfl, rfl⟩
  · rw [ofKvp_other fun dim w rest hThis => hClause ⟨dim, w, rest, hThis⟩] at h
    cases h

/-! ## Index trims -/

/-- The index that a lower bound asks for. -/
def firstIndex (unicode : Char → Option Nat) (low : Word) : Option Int :=
  if low = ['*'] then some 0 else parseInt unicode low

/-- The index that an upper bound asks for; -1 stands for the last one, as in the grammar. -/
def lastIndex (unicode : Char → Option Nat) (high : Word) : Option Int :=
  if high = ['*'] then some (-1) else parseInt unicode high

/-- The printed trim is one index of the grammar, and its range is the one that the bounds ask for. -/
def Selects (unicode : Char → Option Nat) (d : DimensionSubset) : Prop :=
  ∃ low high text i first last, d.trimLow = some low ∧ d.trimHigh = some high ∧
    firstIndex unicode low = some first ∧ lastIndex unicode high = some last ∧
    d.getDapArrayIndexConstraint = .ok text ∧ Constraint.scan text = .ok (ArrayIndex.tokens i) ∧
    i.action = .ok ⟨first, 1, last⟩

/-- The grammar reads a bound as Java does. -/
def ReadAlike (unicode : Char → Option Nat) (t : Word) : Prop :=
  t = ['*'] ∨ ∃ word, Constraint.scan t = .ok [.scanWord word] ∧ checkUint32 word = true ∧
    parseInt unicode t = some (atoi word)

theorem isSilent_of_unicode {c : Char} (h : 128 ≤ c.toNat) : isSilent c = true := by
  have hOther : ∀ d ∈ "-+_/%.\\".toList ++ "=!><*\"$[]:,&()\x7b\x7d#".toList, d.toNat < 128 :=
    forall_mem_of_all (by decide)
  have hNot (d : Char) (hd : d ∈ "-+_/%.\\".toList ++ "=!><*\"$[]:,&()\x7b\x7d#".toList) : c ≠ d := fun hSame =>
    Nat.not_lt.mpr h (hSame ▸ hOther d hd)
  have hWord : "-+_/%.\\".toList.contains c = false := Bool.eq_false_iff.mpr fun hMem =>
    hNot c (List.mem_append_left _ (List.contains_iff_mem.mp hMem)) rfl
  have hPunct : "=!><*\"$[]:,&()\x7b\x7d#".toList.contains c = false := Bool.eq_false_iff.mpr fun hMem =>
    hNot c (List.mem_append_right _ (List.contains_iff_mem.mp hMem)) rfl
  have hLetter : c.isAlphanum = false := by
    rw [Bool.eq_false_iff]
    intro hAlpha
    simp only [Char.isAlphanum, Char.isAlpha, Char.isUpper, Char.isLower, Char.isDigit, Bool.or_eq_true,
      Bool.and_eq_true, decide_eq_true_eq, UInt32.le_iff_toNat_le] at hAlpha
    rw [Char.toNat] at h
    have h₁ : ('Z').val.toNat = 90 := rfl
    have h₂ : ('z').val.toNat = 122 := rfl
    have h₃ : ('9').val.toNat = 57 := rfl
    omega
  rw [isSilent, isWordStart, hLetter, hWord, hPunct]
  rfl

/-- The characters of a number are the scanner's or no token's. -/
theorem digit_scanned {c : Char} (h : (digit unicode c).isSome = true) : isWordStart c = true ∨ isSilent c = true := by
  by_cases hAscii : c.toNat < 128
  · left
    rw [digit, if_pos hAscii] at h
    split at h
    next hDigit =>
      have hAlpha : c.isAlphanum = true := by
        have hIs : c.isDigit = true := by
          rw [Char.isDigit, Bool.and_eq_true, decide_eq_true_eq, decide_eq_true_eq]
          exact hDigit
        rw [Char.isAlphanum, hIs, Bool.or_true]
      rw [isWordStart, hAlpha, Bool.true_or]
    next => cases h
  · exact .inr (isSilent_of_unicode (Nat.not_lt.mp hAscii))

theorem decimal_digits {digits : Word} {value v : Nat}
    (h : digits.foldlM (fun value c => (digit unicode c).map (value * 10 + ·)) value = some v) :
    ∀ c ∈ digits, (digit unicode c).isSome = true := by
  induction digits generalizing value with
  | nil => exact fun c hc => absurd hc List.not_mem_nil
  | cons c digits ih =>
    rw [List.foldlM_cons] at h
    obtain ⟨next, hNext, hRest⟩ := Option.bind_eq_some_iff.mp h
    obtain ⟨k, hk, -⟩ := Option.map_eq_some_iff.mp hNext
    exact List.forall_mem_cons.mpr ⟨hk ▸ rfl, ih hRest⟩

theorem parseInt_scanned {t : Word} (h : (parseInt unicode t).isSome = true) :
    ∀ c ∈ t, isWordStart c = true ∨ isSilent c = true := by
  obtain ⟨negative, digits, hSign⟩ : ∃ negative digits, sign t = (negative, digits) := ⟨_, _, rfl⟩
  have hDigits : ∀ c ∈ digits, isWordStart c = true ∨ isSilent c = true := by
    simp only [parseInt, hSign] at h
    split at h
    next => cases h
    next =>
      cases hDecimal : decimal unicode digits with
      | none =>
        rw [hDecimal] at h
        cases h
      | some v => exact fun c hc => digit_scanned (decimal_digits hDecimal c hc)
  unfold sign at hSign
  split at hSign <;> cases hSign
  · exact List.forall_mem_cons.mpr ⟨.inl (by decide), hDigits⟩
  · exact List.forall_mem_cons.mpr ⟨.inl (by decide), hDigits⟩
  · exact hDigits

/-- The words before the first colon of a strided index, and what the second colon leaves. -/
theorem tokens_strided {ws : List Word} {stride : Word} {tokens : List Token} {i : ArrayIndex}
    (h : ArrayIndex.tokens i =
      .punct '[' :: (ws.map Token.scanWord ++ .punct ':' :: .scanWord stride :: .punct ':' :: tokens)) :
    ∃ first, ws = [first] ∧
      ((∃ last, i = .strided first stride last ∧ tokens = [.scanWord last, .punct ']']) ∨
        (i = .stridedStar first stride ∧ tokens = [.scanStar, .punct ']'])) := by
  obtain - | ⟨first, - | ⟨second, ws⟩⟩ := ws
  · cases i <;> simp [ArrayIndex.tokens] at h
  · refine ⟨first, rfl, ?_⟩
    cases i with
    | «at» | star | range | rangeStar => simp [ArrayIndex.tokens] at h
    | strided n s m =>
      simp only [ArrayIndex.tokens, List.map_cons, List.map_nil, List.cons_append, List.nil_append, List.cons.injEq,
        Token.scanWord.injEq, true_and] at h
      obtain ⟨rfl, rfl, rfl⟩ := h
      exact .inl ⟨m, rfl, rfl⟩
    | stridedStar n s =>
      simp only [ArrayIndex.tokens, List.map_cons, List.map_nil, List.cons_append, List.nil_append, List.cons.injEq,
        Token.scanWord.injEq, true_and] at h
      obtain ⟨rfl, rfl, rfl⟩ := h
      exact .inr ⟨rfl, rfl⟩
  · cases i <;> simp [ArrayIndex.tokens] at h

/-- The tokens of the printed index, up to its upper bound. -/
theorem scan_printed (hLow : ∀ c ∈ low, isWordStart c = true ∨ isSilent c = true) :
    ∃ ws : List Word, Constraint.scan low = .ok (ws.map Token.scanWord) ∧ ∀ rest,
      Constraint.scan ('[' :: (low ++ ':' :: '1' :: ':' :: rest)) = (Constraint.scan rest).map fun tokens =>
        .punct '[' :: (ws.map Token.scanWord ++ .punct ':' :: .scanWord ['1'] :: .punct ':' :: tokens) := by
  obtain ⟨ws, hWs, hBehind⟩ := scan_words hLow
  refine ⟨ws, hWs, fun rest => ?_⟩
  rw [scan_punct (by decide), hBehind ':' _ (by decide), scan_word (by decide)]
  rw [List.dropWhile_cons_of_neg (by decide), List.takeWhile_cons_of_neg (by decide), scan_punct (by decide)]
  cases Constraint.scan rest <;> rfl

theorem checked_ok {word : Word} {v : Int} :
    ArrayIndex.checked word = .ok v ↔ checkUint32 word = true ∧ v = atoi word := by
  rw [ArrayIndex.checked]
  split
  next hCheck => simp [hCheck, eq_comm]
  next hCheck => simp [hCheck]

theorem strided_action {n m : Word} {i j : Int} : (ArrayIndex.strided n ['1'] m).action = .ok ⟨i, 1, j⟩ ↔
    (checkUint32 n = true ∧ i = atoi n) ∧ (checkUint32 m = true ∧ j = atoi m) := by
  have hOne : ArrayIndex.checked ['1'] = .ok 1 := by decide
  rw [ArrayIndex.action, hOne, ← checked_ok, ← checked_ok]
  cases ArrayIndex.checked n with
  | error f => simp [error_bind]
  | ok i' =>
    cases ArrayIndex.checked m with
    | error f => simp [ok_bind, error_bind]
    | ok j' => simp [ok_bind]

theorem stridedStar_action {n : Word} {i j : Int} : (ArrayIndex.stridedStar n ['1']).action = .ok ⟨i, 1, j⟩ ↔
    (checkUint32 n = true ∧ i = atoi n) ∧ j = -1 := by
  have hOne : ArrayIndex.checked ['1'] = .ok 1 := by decide
  rw [ArrayIndex.action, hOne, ← checked_ok]
  cases ArrayIndex.checked n with
  | error f => simp [error_bind]
  | ok i' => simp [ok_bind, eq_comm]

/-- The lower bound as it is printed. -/
def lowText (low : Word) : Word := if low = ['*'] then ['0'] else low

theorem printed (hType : d.myDimensionType = some .trim) (hLow : d.trimLow = some low) (hHigh : d.trimHigh = some high)
    (hIndex : d.isArrayIndexSubset = true) :
    d.getDapArrayIndexConstraint = .ok ('[' :: (lowText low ++ ':' :: '1' :: ':' :: (high ++ [']']))) := by
  have hNot : ¬(high = ['*'] ∧ lowText low = ['*']) := by
    rintro ⟨-, hStar⟩
    rw [lowText] at hStar
    split at hStar
    next => cases hStar
    next h => exact h hStar
  rw [getDapArrayIndexConstraint, if_pos hIndex, hType, hLow, hHigh]
  change (if high = ['*'] ∧ lowText low = ['*'] then _
    else Except.ok ('[' :: (lowText low ++ ":1:".toList ++ high ++ [']']))) = _
  rw [if_neg hNot, List.append_assoc, List.append_assoc]
  rfl

theorem subset_scanned {t : Word} (h : isArraySubsetString unicode t = true) (hStar : t ≠ ['*']) :
    ∀ c ∈ t, isWordStart c = true ∨ isSilent c = true := by
  rw [isArraySubsetString, decide_eq_false hStar, Bool.false_or] at h
  exact parseInt_scanned h

theorem lowText_scanned (h : isArraySubsetString unicode low = true) :
    ∀ c ∈ lowText low, isWordStart c = true ∨ isSilent c = true := by
  by_cases hStar : low = ['*']
  · rw [lowText, if_pos hStar]
    exact forall_mem_of_all (by decide)
  · rw [lowText, if_neg hStar]
    exact subset_scanned h hStar

theorem readAlike_low : ReadAlike unicode low ↔ ∃ word, Constraint.scan (lowText low) = .ok [.scanWord word] ∧
    checkUint32 word = true ∧ firstIndex unicode low = some (atoi word) := by
  by_cases hStar : low = ['*']
  · rw [lowText, firstIndex, if_pos hStar, if_pos hStar]
    exact iff_of_true (.inl hStar) ⟨['0'], by decide, by decide, by decide⟩
  · rw [ReadAlike, lowText, firstIndex, if_neg hStar, if_neg hStar]
    exact or_iff_right hStar

theorem selects_iff (hType : d.myDimensionType = some .trim) (hLow : d.trimLow = some low)
    (hHigh : d.trimHigh = some high) (hIndex : d.isArrayIndexSubset = true)
    (hLowIndex : isArraySubsetString unicode low = true) (hHighIndex : isArraySubsetString unicode high = true) :
    Selects unicode d ↔ ReadAlike unicode low ∧ ReadAlike unicode high := by
  obtain ⟨ws, hWs, hScan⟩ := scan_printed (lowText_scanned hLowIndex)
  rw [readAlike_low, hWs]
  constructor
  · rintro ⟨low', high', text, i, first, last, hLow', hHigh', hFirst, hLast, hText, hTokens, hAction⟩
    cases Option.some.inj (hLow'.symm.trans hLow)
    cases Option.some.inj (hHigh'.symm.trans hHigh)
    rw [printed hType hLow hHigh hIndex] at hText
    cases Except.ok.inj hText
    rw [hScan] at hTokens
    by_cases hStar : high = ['*']
    · subst hStar
      obtain ⟨word, rfl, ⟨w, rfl, hRest⟩ | ⟨rfl, -⟩⟩ := tokens_strided (Except.ok.inj hTokens).symm
      · cases hRest
      · obtain ⟨⟨hCheck, rfl⟩, -⟩ := stridedStar_action.mp hAction
        exact ⟨⟨word, rfl, hCheck, hFirst⟩, .inl rfl⟩
    · obtain ⟨ws', hWs', hEnd⟩ := scan_words (subset_scanned hHighIndex hStar)
      rw [hEnd ']' [] (by decide)] at hTokens
      obtain ⟨word, rfl, ⟨w, rfl, hRest⟩ | ⟨rfl, hRest⟩⟩ := tokens_strided (Except.ok.inj hTokens).symm
      · obtain ⟨⟨hCheck, rfl⟩, hCheck', rfl⟩ := strided_action.mp hAction
        obtain - | ⟨w', - | ⟨w'', ws'⟩⟩ := ws'
        · cases hRest
        · cases hRest
          rw [lastIndex, if_neg hStar] at hLast
          exact ⟨⟨word, rfl, hCheck, hFirst⟩, .inr ⟨w, hWs', hCheck', hLast⟩⟩
        · cases hRest
      · obtain - | ⟨w', ws'⟩ := ws' <;> cases hRest
  · rintro ⟨⟨word, hWord, hCheck, hFirst⟩, hHighAlike⟩
    rw [Except.ok.injEq] at hWord
    by_cases hStar : high = ['*']
    · subst hStar
      refine ⟨low, _, _, .stridedStar word ['1'], atoi word, -1, hLow, hHigh, hFirst, rfl,
        printed hType hLow hHigh hIndex, ?_, stridedStar_action.mpr ⟨⟨hCheck, rfl⟩, rfl⟩⟩
      rw [hScan, hWord]
      rfl
    · obtain ⟨w, hW, hCheck', hLast⟩ := hHighAlike.resolve_left hStar
      obtain ⟨ws', hWs', hEnd⟩ := scan_words (subset_scanned hHighIndex hStar)
      rw [hWs', Except.ok.injEq] at hW
      refine ⟨low, high, _, .strided word ['1'] w, atoi word, atoi w, hLow, hHigh, hFirst, ?_,
        printed hType hLow hHigh hIndex, ?_, strided_action.mpr ⟨⟨hCheck, rfl⟩, hCheck', rfl⟩⟩
      · rw [lastIndex, if_neg hStar, hLast]
      · rw [hScan, hEnd ']' [] (by decide), hWord, hW]
        rfl

/-! ## Elements -/

theorem javaTrim_again (s : Word) : javaTrim (javaTrim s) = javaTrim s := by
  let isBlank : Char → Bool := fun c => decide (c.toNat ≤ 32)
  change ((s.dropWhile isBlank).rdropWhile isBlank |>.dropWhile isBlank).rdropWhile isBlank =
    (s.dropWhile isBlank).rdropWhile isBlank
  have hFront : ((s.dropWhile isBlank).rdropWhile isBlank).dropWhile isBlank =
      (s.dropWhile isBlank).rdropWhile isBlank := by
    rw [List.dropWhile_eq_self_iff]
    intro hPos
    have hPrefix := List.rdropWhile_prefix isBlank (l := s.dropWhile isBlank)
    rw [hPrefix.getElem hPos]
    exact List.dropWhile_eq_self_iff.mp (List.dropWhile_idempotent isBlank s) _
  rw [hFront, List.rdropWhile_idempotent]

/-- What the constructor keeps of an element's text. -/
def elementText (t : Word) : Word := trimQuotesAndWhiteSpace (javaTrim t)

theorem bound_text (t : Word) : boundOf (bound t) = elementText t := by
  by_cases hStar : t = ['*']
  · rw [hStar]
    decide
  · rw [bound, if_neg hStar, elementText, boundOf]

theorem ofElement_trim (dimension low high : Word) :
    ofElement unicode ⟨DimensionTrim, some dimension, none, bound low, bound high⟩ =
      (trimIsArraySubset unicode (elementText low) (elementText high)).map fun isArray =>
        ⟨none, javaTrim dimension, some (elementText low), some (elementText high), none, isArray⟩ := by
  have hNot : DimensionTrim ≠ DimensionSlice := by decide
  rw [ofElement.eq_def]
  simp only [bound_text]
  rw [if_neg hNot, if_pos True.intro]
  cases trimIsArraySubset unicode (elementText low) (elementText high) <;> rfl

theorem ofElement_slice (dimension point : Word) :
    ofElement unicode ⟨DimensionSlice, some dimension, some point, none, none⟩ =
      .ok ⟨none, javaTrim dimension, none, none, some (elementText point),
        isArraySubsetString unicode (elementText point)⟩ := by
  rw [ofElement.eq_def, elementText]
  simp only [if_pos]

/-- What the element constructor makes. -/
theorem element_made {e : DimensionSubsetElement} (h : ofElement unicode e = .ok d) :
    ∃ dimension, (∃ low high, isArraySubsetString unicode low = isArraySubsetString unicode high ∧
      d = ⟨none, javaTrim dimension, some low, some high, none, isArraySubsetString unicode low⟩) ∨
    ∃ point, d = ⟨none, javaTrim dimension, none, none, some point, isArraySubsetString unicode point⟩ := by
  rw [ofElement.eq_def] at h
  cases hDimension : e.dimension with
  | none =>
    rw [hDimension] at h
    cases h
  | some dimension =>
    simp only [hDimension] at h
    refine ⟨dimension, ?_⟩
    split at h
    next =>
      cases hPoint : e.slicePoint with
      | none =>
        rw [hPoint] at h
        cases h
      | some point =>
        simp only [hPoint] at h
        cases h
        exact .inr ⟨_, rfl⟩
    next =>
      split at h
      next =>
        rcases trimIsArraySubset_cases unicode (boundOf e.trimLow) (boundOf e.trimHigh) with ⟨-, hTrim⟩ | ⟨hSame, hTrim⟩
        · rw [hTrim] at h
          cases h
        · rw [hTrim] at h
          cases h
          exact .inl ⟨_, _, hSame, rfl⟩
      next => cases h

theorem element_type {e : DimensionSubsetElement} (h : ofElement unicode e = .ok d) : d.myDimensionType = none := by
  obtain ⟨-, ⟨-, -, -, rfl⟩ | ⟨-, rfl⟩⟩ := element_made h <;> rfl

theorem kvp_type (h : ofKvp unicode s = .ok d) : d.myDimensionType ≠ none := by
  rcases kvp_made h with ⟨-, -, hType, -⟩ | ⟨hType, -⟩ <;> simp [hType]

/-- The element that is written is read back as the subset it was written for. -/
def ReadsBack (unicode : Char → Option Nat) (d : DimensionSubset) : Prop :=
  ∃ e, d.getDimensionSubsetElement = some e ∧ ofElement unicode e = .ok d

/-- Trimming the texts of a subset again changes none of them. -/
def Settled (d : DimensionSubset) : Prop :=
  ∀ t ∈ d.trimLow.toList ++ d.trimHigh.toList ++ d.slicePoint.toList, elementText t = t

theorem readsBack_iff {e : DimensionSubsetElement} (h : ofElement unicode e = .ok d) :
    ReadsBack unicode d ↔ Settled d := by
  obtain ⟨dimension, ⟨low, high, hSame, rfl⟩ | ⟨point, rfl⟩⟩ := element_made h
  · constructor
    · rintro ⟨e', hElement, hRead⟩
      cases Option.some.inj hElement
      rw [ofElement_trim] at hRead
      rcases trimIsArraySubset_cases unicode (elementText low) (elementText high) with ⟨-, hTrim⟩ | ⟨-, hTrim⟩
      · rw [hTrim] at hRead
        cases hRead
      · rw [hTrim] at hRead
        have hTexts := Except.ok.inj hRead
        rw [DimensionSubset.mk.injEq, Option.some.injEq, Option.some.injEq] at hTexts
        obtain ⟨-, -, hLow, hHigh, -⟩ := hTexts
        simpa [Settled] using ⟨hLow, hHigh⟩
    · intro hSettled
      have hTexts : elementText low = low ∧ elementText high = high := by simpa [Settled] using hSettled
      refine ⟨_, rfl, ?_⟩
      rw [ofElement_trim, hTexts.1, hTexts.2, javaTrim_again]
      rcases trimIsArraySubset_cases unicode low high with ⟨hOther, -⟩ | ⟨-, hTrim⟩
      · exact absurd hSame hOther
      · rw [hTrim]
        rfl
  · constructor
    · rintro ⟨e', hElement, hRead⟩
      cases Option.some.inj hElement
      rw [ofElement_slice] at hRead
      have hTexts := Except.ok.inj hRead
      rw [DimensionSubset.mk.injEq, Option.some.injEq] at hTexts
      obtain ⟨-, -, -, -, hPoint, -⟩ := hTexts
      simpa [Settled] using hPoint
    · intro hSettled
      have hText : elementText point = point := by simpa [Settled] using hSettled
      refine ⟨_, rfl, ?_⟩
      rw [ofElement_slice, hText, javaTrim_again]

/-! ## Both forms -/

/-- Both constructors refuse with the service's exception, or make equal subsets with the same printed texts. -/
def Agree (a b : Except WcsFault DimensionSubset) : Prop :=
  (∃ e e', a = .error (.wcs e) ∧ b = .error (.wcs e')) ∨
  ∃ d d', a = .ok d ∧ b = .ok d' ∧ d.myDimensionType = d'.myDimensionType ∧
    (d.trimLow = d'.trimLow ∧ d.trimHigh = d'.trimHigh ∧ d.slicePoint = d'.slicePoint) ∧
    d.isArrayIndexSubset = d'.isArrayIndexSubset ∧
    (∃ text, d.getDapArrayIndexConstraint = .ok text ∧ d'.getDapArrayIndexConstraint = .ok text) ∧
    ∃ text, d.getDapGridValueConstraint = .ok text ∧ d'.getDapGridValueConstraint = .ok text

theorem agree_iff_rejected (s : Word) (e : DimensionSubsetElement) : Agree (ofKvp unicode s) (ofElement unicode e) ↔
    (∃ exc, ofKvp unicode s = .error (.wcs exc)) ∧ ∃ exc, ofElement unicode e = .error (.wcs exc) := by
  constructor
  · rintro (⟨exc, exc', hKvp, hElement⟩ | ⟨d, d', hKvp, hElement, hType, -⟩)
    · exact ⟨⟨exc, hKvp⟩, exc', hElement⟩
    · exact absurd (hType.trans (element_type hElement)) (kvp_type hKvp)
  · rintro ⟨⟨exc, hKvp⟩, exc', hElement⟩
    exact .inl ⟨exc, exc', hKvp, hElement⟩

theorem element_rejected_iff (dimension low high : Word) :
    (∃ exc, ofElement unicode ⟨DimensionTrim, some dimension, none, bound low, bound high⟩ = .error (.wcs exc)) ↔
      Mixed unicode (javaTrim low) (javaTrim high) := by
  rw [ofElement_trim, Mixed, ← elementText, ← elementText]
  rcases trimIsArraySubset_cases unicode (elementText low) (elementText high) with ⟨hOther, hTrim⟩ | ⟨hSame, hTrim⟩
  · rw [hTrim]
    exact iff_of_true ⟨mixed, rfl⟩ hOther
  · rw [hTrim]
    refine iff_of_false ?_ (not_not_intro hSame)
    rintro ⟨exc, hRejected⟩
    cases hRejected

theorem element_selects {e : DimensionSubsetElement} (h : ofElement unicode e = .ok d)
    (hIndex : d.isArrayIndexSubset = true) : ¬Selects unicode d := by
  rintro ⟨-, -, text, -, -, -, -, -, -, -, hText, -⟩
  rw [getDapArrayIndexConstraint, if_pos hIndex, element_type h] at hText
  cases hText

/-- The two forms agree where both are refused and nowhere else. Only a text with mixed bounds is refused. An index trim
is the hyperslab it asks for if it comes from a text whose bounds the grammar reads alike, and an element is read back
if the subset came from an element. -/
theorem forms_iff (unicode : Char → Option Nat) :
    (∀ dimension x, ¬Agree (ofKvp unicode (dimension ++ '(' :: (x ++ [')'])))
      (ofElement unicode ⟨DimensionSlice, some dimension, some x, none, none⟩)) ∧
    (∀ dimension x y, Agree (ofKvp unicode (dimension ++ '(' :: (x ++ ',' :: (y ++ [')']))))
        (ofElement unicode ⟨DimensionTrim, some dimension, none, bound x, bound y⟩) ↔
      KvpMixed unicode (dimension ++ '(' :: (x ++ ',' :: (y ++ [')']))) ∧ Mixed unicode (javaTrim x) (javaTrim y)) ∧
    (∀ s, (∃ exc, ofKvp unicode s = .error (.wcs exc)) ↔ KvpMixed unicode s) ∧
    (∀ s d low high, ofKvp unicode s = .ok d → d.isArrayIndexSubset = true → d.trimLow = some low →
      d.trimHigh = some high → (Selects unicode d ↔ ReadAlike unicode low ∧ ReadAlike unicode high)) ∧
    (∀ e d, ofElement unicode e = .ok d → d.isArrayIndexSubset = true → ¬Selects unicode d) ∧
    (∀ s d, ofKvp unicode s = .ok d → ¬ReadsBack unicode d) ∧
    ∀ e d, ofElement unicode e = .ok d → (ReadsBack unicode d ↔ Settled d) := by
  refine ⟨fun dimension x => ?_, fun dimension x y => ?_, kvp_rejected_iff, fun s d low high h hIndex hLow hHigh => ?_,
    fun e d => element_selects, fun s d h => ?_, fun e d => readsBack_iff⟩
  · rw [agree_iff_rejected, ofElement_slice]
    rintro ⟨-, exc, hRejected⟩
    cases hRejected
  · rw [agree_iff_rejected, kvp_rejected_iff, element_rejected_iff]
  · rcases kvp_made h with ⟨low', high', hType, hLow', hHigh', hBounds⟩ | ⟨-, hNone⟩
    · cases Option.some.inj (hLow'.symm.trans hLow)
      cases Option.some.inj (hHigh'.symm.trans hHigh)
      exact selects_iff hType hLow hHigh hIndex (hBounds hIndex).1 (hBounds hIndex).2
    · cases hNone.symm.trans hLow
  · rintro ⟨e, -, hRead⟩
    exact kvp_type h (element_type hRead)

/-- An index trim as it is read from a text. -/
def zeroToFive : DimensionSubset := ⟨some .trim, ['x'], some ['0'], some ['5'], none, true⟩

theorem zero_to_five_selected : Selects (fun _ => none) zeroToFive :=
  ((forms_iff fun _ => none).2.2.2.1 "x(0,5)".toList zeroToFive ['0'] ['5'] (by decide) rfl rfl rfl).mpr
    ⟨.inr ⟨['0'], by decide, by decide, by decide⟩, .inr ⟨['5'], by decide, by decide, by decide⟩⟩

/-- The element's subset has no type. -/
theorem trim_forms_differ : ¬Agree (ofKvp (fun _ => none) "time(1,5)".toList)
    (ofElement (fun _ => none) ⟨DimensionTrim, some "time".toList, none, some ['1'], some ['5']⟩) := by
  have hKvp : ofKvp (fun _ => none) "time(1,5)".toList =
      .ok ⟨some .trim, "time".toList, some ['1'], some ['5'], none, true⟩ := by decide
  rw [agree_iff_rejected, hKvp]
  rintro ⟨⟨exc, hRejected⟩, -⟩
  cases hRejected

end DimensionSubset

end Libdap.Olfs
