import Libdap.Constraint.Word
import Libdap.Core.Fault
import Mathlib.Data.List.TakeWhile

/-! # Bracket indices: the scanner's tokens and the rules of `array_index` -/

namespace Libdap.Constraint
open Core
set_option autoImplicit false

def ID_MAX : Nat := 256

/-- What `strncpy` leaves in an identifier of the parser. -/
def truncated (w : Word) : Word := w.take (ID_MAX - 1)

inductive Token
  | punct (c : Char)
  | scanWord (id : Word)
  | scanStr (s : Word)
  | scanEqual
  | scanNotEqual
  | scanGreater
  | scanGreaterEql
  | scanLess
  | scanLessEql
  | scanRegexp
  | scanStar
  | scanHash (type : Word)
  deriving DecidableEq, Repr

def isWordStart (c : Char) : Bool := c.isAlphanum || "-+_/%.\\".toList.contains c

def isWordChar (c : Char) : Bool := isWordStart c || c = '#'

def hashTypes : List Word :=
  ["Byte", "Int16", "UInt16", "Int32", "UInt32", "Float32", "Float64"].map String.toList

/-- The text up to the closing quote and what follows it. -/
def quoted : Word → Option (Word × Word)
  | [] => none
  | '"' :: cs => some ([], cs)
  | '\\' :: c :: cs => (quoted cs).map fun (s, rest) => ('\\' :: c :: s, rest)
  | c :: cs => (quoted cs).map fun (s, rest) => (c :: s, rest)

/-- The scanner takes the longest match at each place. Blanks and characters that are in no token
are passed over. -/
def scanFrom : Nat → Word → Except Fault (List Token)
  | 0, _ => .ok []
  | _ + 1, [] => .ok []
  | n + 1, '=' :: '~' :: cs => (scanFrom n cs).map (.scanRegexp :: ·)
  | n + 1, '=' :: cs => (scanFrom n cs).map (.scanEqual :: ·)
  | n + 1, '!' :: '=' :: cs => (scanFrom n cs).map (.scanNotEqual :: ·)
  | n + 1, '>' :: '=' :: cs => (scanFrom n cs).map (.scanGreaterEql :: ·)
  | n + 1, '>' :: cs => (scanFrom n cs).map (.scanGreater :: ·)
  | n + 1, '<' :: '=' :: cs => (scanFrom n cs).map (.scanLessEql :: ·)
  | n + 1, '<' :: cs => (scanFrom n cs).map (.scanLess :: ·)
  | n + 1, '*' :: cs => (scanFrom n cs).map (.scanStar :: ·)
  | n + 1, '"' :: cs =>
    match quoted cs with
    | none => .error (.Error "Error scanning constraint expression text: Unterminated quote\n")
    | some (s, rest) => (scanFrom n rest).map (.scanStr s :: ·)
  | n + 1, '$' :: cs =>
    match hashTypes.find? fun type => type.isPrefixOf cs with
    | none => scanFrom n cs
    | some type => (scanFrom n (cs.drop type.length)).map (.scanHash type :: ·)
  | n + 1, c :: cs =>
    if "[]:,&()\x7b\x7d".toList.contains c then (scanFrom n cs).map (.punct c :: ·)
    else if isWordStart c then
      (scanFrom n (cs.dropWhile isWordChar)).map
        (.scanWord (truncated (c :: cs.takeWhile isWordChar)) :: ·)
    else scanFrom n cs

attribute [local grind =] quoted scanFrom

def scan (text : Word) : Except Fault (List Token) := scanFrom text.length text

/-- The six right-hand sides of the rule `array_index`. -/
inductive ArrayIndex
  | at (n : Word)
  | star
  | range (n m : Word)
  | rangeStar (n : Word)
  | strided (n s m : Word)
  | stridedStar (n s : Word)
  deriving DecidableEq, Repr

/-- The three numbers of an `int_list` that `make_array_index` builds. -/
structure Index where
  start : Int
  stride : Int
  stop : Int
  deriving DecidableEq, Repr

/-- `make_array_index` on one value. -/
def makeArrayIndex (i : Int) : Index := ⟨if i = -1 then 0 else i, 1, i⟩

namespace ArrayIndex

def tokens : ArrayIndex → List Token
  | .at n => [.punct '[', .scanWord n, .punct ']']
  | star => [.punct '[', .scanStar, .punct ']']
  | range n m => [.punct '[', .scanWord n, .punct ':', .scanWord m, .punct ']']
  | rangeStar n => [.punct '[', .scanWord n, .punct ':', .scanStar, .punct ']']
  | strided n s m =>
    [.punct '[', .scanWord n, .punct ':', .scanWord s, .punct ':', .scanWord m, .punct ']']
  | stridedStar n s =>
    [.punct '[', .scanWord n, .punct ':', .scanWord s, .punct ':', .scanStar, .punct ']']

def checked (w : Word) : Except Fault Int :=
  if checkUint32 w then .ok (atoi w)
  else .error (.Error ("The word `" ++ String.ofList w ++ "' is not a valid array index."))

/-- The action of the rule. -/
def action : ArrayIndex → Except Fault Index
  | .at n => do
    let i ← checked n
    .ok (makeArrayIndex i)
  | star => .ok (makeArrayIndex (-1))
  | range n m => do
    let i ← checked n
    let j ← checked m
    .ok ⟨i, 1, j⟩
  | rangeStar n => do
    let i ← checked n
    .ok ⟨i, 1, -1⟩
  | strided n s m => do
    let i ← checked n
    let j ← checked s
    let k ← checked m
    .ok ⟨i, j, k⟩
  | stridedStar n s => do
    let i ← checked n
    let j ← checked s
    .ok ⟨i, j, -1⟩

theorem checked_error {w : Word} {f : Fault} (h : checked w = .error f) : ∃ msg, f = .Error msg := by
  rw [checked] at h
  split at h
  · cases h
  · cases h
    exact ⟨_, rfl⟩

end ArrayIndex

/-- The actions of the rule `array_indices`, one index after the other. -/
def arrayIndices (indices : List ArrayIndex) : Except Fault (List Index) :=
  indices.mapM ArrayIndex.action

example : scan "[0:2:*][7]".toList =
    .ok ([ArrayIndex.stridedStar ['0'] ['2'], .at ['7']].flatMap ArrayIndex.tokens) := by
  decide

end Libdap.Constraint

/-! ## Texts that are scanned piece by piece

The scanner's rounds are as many as it needs, and a word ends where the next punctuation is.
-/

namespace Libdap.Constraint
open Core
set_option autoImplicit false

theorem quoted_length {cs s rest : Word} (h : quoted cs = some (s, rest)) : rest.length < cs.length := by
  fun_induction quoted cs generalizing s rest with
  | case1 => cases h
  | case2 cs =>
    cases h
    exact Nat.lt_succ_self _
  | case3 c cs ih =>
    obtain ⟨p, hp, hPair⟩ := Option.map_eq_some_iff.mp h
    cases hPair
    have hLess := ih hp
    simp only [List.length_cons]
    omega
  | case4 c cs _ _ ih =>
    obtain ⟨p, hp, hPair⟩ := Option.map_eq_some_iff.mp h
    cases hPair
    have hLess := ih hp
    simp only [List.length_cons]
    omega

theorem scanFrom_congr {n : Nat} {text : Word} (hn : text.length ≤ n) {m : Nat} (hm : text.length ≤ m) :
    scanFrom n text = scanFrom m text := by
  fun_induction scanFrom n text generalizing m
  case case1 text =>
    cases text with
    | nil => cases m <;> rfl
    | cons => exact absurd hn (Nat.not_succ_le_zero _)
  case case2 => cases m <;> rfl
  all_goals
    obtain ⟨m, rfl⟩ := Nat.exists_eq_succ_of_ne_zero (Nat.ne_of_gt (Nat.lt_of_lt_of_le (Nat.succ_pos _) hm))
    simp only [List.length_cons, Nat.succ_eq_add_one, Nat.add_le_add_iff_right] at hn hm
  case case11 hQuoted => simp only [scanFrom, hQuoted]
  case case12 hQuoted ih =>
    have hLess := quoted_length hQuoted
    simp only [scanFrom, hQuoted]
    rw [ih (by omega) (m := m) (by omega)]
  case case13 hFind ih =>
    simp only [scanFrom, hFind]
    exact ih hn hm
  case case14 hFind ih =>
    simp only [scanFrom, hFind]
    have hLess (k : Nat) (cs : Word) : (cs.drop k).length ≤ cs.length := (List.drop_sublist k cs).length_le
    rw [ih ((hLess _ _).trans hn) (m := m) ((hLess _ _).trans hm)]
  case case15 hPunct ih =>
    rw [scanFrom, if_pos hPunct, ih hn hm]
    all_goals assumption
  case case16 hPunct hWord ih =>
    rw [scanFrom, if_neg hPunct, if_pos hWord, ih ((List.length_dropWhile_le ..).trans hn)
      ((List.length_dropWhile_le ..).trans hm)]
    all_goals assumption
  case case17 hPunct hWord ih =>
    rw [scanFrom, if_neg hPunct, if_neg hWord, ih hn hm]
    all_goals assumption
  all_goals
    rename_i ih
    simp only [scanFrom]
    rw [ih (by omega) (m := m) (by omega)]
theorem scan_fuel {n : Nat} {text : Word} (h : text.length ≤ n) : scanFrom n text = scan text :=
  scanFrom_congr h (Nat.le_refl _)

/-- A character that belongs to no token. -/
def isSilent (c : Char) : Bool := !(isWordStart c || "=!><*\"$[]:,&()\x7b\x7d#".toList.contains c)

section
variable {c : Char} {cs : Word}

theorem scan_punct (h : "[]:,&()\x7b\x7d".toList.contains c = true) :
    scan (c :: cs) = (scan cs).map (.punct c :: ·) := by
  have hOther : ∀ d ∈ "[]:,&()\x7b\x7d".toList, d ≠ '=' ∧ d ≠ '!' ∧ d ≠ '>' ∧ d ≠ '<' ∧ d ≠ '*' ∧ d ≠ '"' ∧
      d ≠ '$' :=
    forall_mem_of_all (by decide)
  obtain ⟨h₁, h₂, h₃, h₄, h₅, h₆, h₇⟩ := hOther c (List.contains_iff_mem.mp h)
  clear hOther
  rw [scan, List.length_cons, scanFrom, if_pos h, scan]
  all_goals
    intros
    contradiction

theorem word_not_punct (h : isWordStart c = true) :
    (c ≠ '=' ∧ c ≠ '!' ∧ c ≠ '>' ∧ c ≠ '<' ∧ c ≠ '*' ∧ c ≠ '"' ∧ c ≠ '$') ∧
      "[]:,&()\x7b\x7d".toList.contains c = false := by
  have hAll : ∀ d ∈ "=!><*\"$[]:,&()\x7b\x7d".toList, isWordStart d = false := forall_mem_of_all (by decide)
  have hNot (d : Char) (hd : d ∈ "=!><*\"$[]:,&()\x7b\x7d".toList) : c ≠ d := by
    rintro rfl
    rw [hAll c hd] at h
    cases h
  refine ⟨⟨hNot _ (by decide), hNot _ (by decide), hNot _ (by decide), hNot _ (by decide), hNot _ (by decide),
    hNot _ (by decide), hNot _ (by decide)⟩, Bool.eq_false_iff.mpr fun hPunct => ?_⟩
  have hSubset : "[]:,&()\x7b\x7d".toList ⊆ "=!><*\"$[]:,&()\x7b\x7d".toList := by decide
  exact hNot c (hSubset (List.contains_iff_mem.mp hPunct)) rfl

theorem scan_word (h : isWordStart c = true) : scan (c :: cs) =
    (scan (cs.dropWhile isWordChar)).map (.scanWord (truncated (c :: cs.takeWhile isWordChar)) :: ·) := by
  obtain ⟨⟨h₁, h₂, h₃, h₄, h₅, h₆, h₇⟩, hPunct⟩ := word_not_punct h
  rw [scan, List.length_cons, scanFrom, if_neg (by rw [hPunct]; nofun), if_pos h,
    scan_fuel (List.length_dropWhile_le ..)]
  all_goals
    intros
    contradiction

theorem scan_silent (h : isSilent c = true) : scan (c :: cs) = scan cs := by
  rw [isSilent, Bool.not_eq_true', Bool.or_eq_false_iff] at h
  obtain ⟨hStart, hOther⟩ := h
  have hNot (d : Char) (hd : d ∈ "=!><*\"$[]:,&()\x7b\x7d#".toList) : c ≠ d := by
    rintro rfl
    rw [List.contains_iff_mem.mpr hd] at hOther
    cases hOther
  have hPunct : "[]:,&()\x7b\x7d".toList.contains c = false := by
    refine Bool.eq_false_iff.mpr fun hPunct => ?_
    have hSubset : "[]:,&()\x7b\x7d".toList ⊆ "=!><*\"$[]:,&()\x7b\x7d#".toList := by decide
    exact hNot c (hSubset (List.contains_iff_mem.mp hPunct)) rfl
  have h₁ := hNot '=' (by decide)
  have h₂ := hNot '!' (by decide)
  have h₃ := hNot '>' (by decide)
  have h₄ := hNot '<' (by decide)
  have h₅ := hNot '*' (by decide)
  have h₆ := hNot '"' (by decide)
  have h₇ := hNot '$' (by decide)
  rw [scan, List.length_cons, scanFrom, if_neg (by rw [hPunct]; nofun), if_neg (by rw [hStart]; nofun), scan]
  all_goals
    intros
    contradiction

end

/-- The words of a text without other tokens, up to the next punctuation. -/
theorem scan_words {text : Word} (hText : ∀ c ∈ text, isWordStart c = true ∨ isSilent c = true) :
    ∃ ws : List Word, scan text = .ok (ws.map Token.scanWord) ∧
      ∀ (p : Char) (rest : Word), "[]:,&()\x7b\x7d".toList.contains p = true →
        scan (text ++ p :: rest) = (scan rest).map fun tokens => ws.map Token.scanWord ++ .punct p :: tokens := by
  induction hLength : text.length using Nat.strong_induction_on generalizing text with
  | _ length ih =>
    cases text with
    | nil =>
      refine ⟨[], rfl, fun p rest hPunct => ?_⟩
      exact scan_punct hPunct
    | cons c cs =>
      obtain ⟨hFirst, hOthers⟩ := List.forall_mem_cons.mp hText
      rw [List.length_cons] at hLength
      rcases hFirst with hStart | hSilent
      · have hSub : ∀ d ∈ cs.dropWhile isWordChar, isWordStart d = true ∨ isSilent d = true := fun d hd =>
          hOthers d ((List.dropWhile_suffix _).subset hd)
        have hLess := List.length_dropWhile_le isWordChar cs
        obtain ⟨ws, hWs, hBehind⟩ := ih (cs.dropWhile isWordChar).length (by omega) hSub rfl
        refine ⟨truncated (c :: cs.takeWhile isWordChar) :: ws, ?_, fun p rest hPunct => ?_⟩
        · rw [scan_word hStart, hWs]
          rfl
        · have hNotWord : isWordChar p = false := by
            have hAll : ∀ d ∈ "[]:,&()\x7b\x7d".toList, isWordChar d = false := forall_mem_of_all (by decide)
            exact hAll p (List.contains_iff_mem.mp hPunct)
          have hStop : ¬isWordChar p = true := ne_true_of_eq_false hNotWord
          have hTake : (cs ++ p :: rest).takeWhile isWordChar = cs.takeWhile isWordChar := by
            rw [List.takeWhile_append, List.takeWhile_cons_of_neg hStop, List.append_nil]
            split
            next hWhole => exact ((List.takeWhile_prefix _).eq_of_length hWhole).symm
            next => rfl
          have hDrop : (cs ++ p :: rest).dropWhile isWordChar = cs.dropWhile isWordChar ++ p :: rest := by
            rw [List.dropWhile_append, List.dropWhile_cons_of_neg hStop]
            split
            next hNone => rw [List.isEmpty_iff.mp hNone, List.nil_append]
            next => rfl
          rw [List.cons_append, scan_word hStart, hTake, hDrop, hBehind p rest hPunct]
          cases scan rest <;> rfl
      · obtain ⟨ws, hWs, hBehind⟩ := ih cs.length (by omega) hOthers rfl
        refine ⟨ws, (scan_silent hSilent).trans hWs, fun p rest hPunct => ?_⟩
        rw [List.cons_append, scan_silent hSilent, hBehind p rest hPunct]

end Libdap.Constraint
