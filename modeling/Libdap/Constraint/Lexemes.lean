import Libdap.Constraint.Index
import Libdap.Escaping.Www
import Mathlib.Data.List.ProdSigma

/-! # The tokens of an expression and the texts they are scanned from

A text of words, strings and signs is scanned one after the other as long as none of them takes up what follows. What
is scanned from any text is never more than the text's characters, an escaped blank counted as one.
-/

namespace Libdap.Escaping
open Constraint
set_option autoImplicit false

theorem valueOf_digit {ds : Word} (hLength : ds.length ≤ 1) (hDigits : ∀ d ∈ ds, isDigitOf 16 d = true) :
    valueOf 16 ds < 16 := by
  obtain _ | ⟨d, _ | ⟨e, ds⟩⟩ := ds
  · decide
  · have hDigit := hDigits d List.mem_cons_self
    rw [isDigitOf, Option.any_eq_true] at hDigit
    obtain ⟨v, hv, hLess⟩ := hDigit
    simp only [valueOf, List.foldl_cons, List.foldl_nil, hv, Option.getD_some]
    have := of_decide_eq_true hLess
    omega
  · simp at hLength

set_option maxRecDepth 20000 in
theorem charString_percent {v : Int} (h : Dap2.charString v = ['%']) : v % 256 = 37 := by
  have hAll : ∀ n : Fin 256, Char.ofNat n = '%' → n.val = 37 := by decide
  rw [Dap2.charString] at h
  split at h
  · cases h
  · have hChar := hAll ⟨(v % 256).toNat, by omega⟩ (List.cons.inj h).1
    dsimp only at hChar
    omega

theorem sign_suffix (s : Word) : (sign s).2 <:+ s := by
  rw [sign.eq_def]
  split
  · exact List.suffix_cons _ _
  · exact List.suffix_cons _ _
  · exact List.suffix_refl _

theorem sign_shorter {s : Word} (h : (sign s).1 = true) : (sign s).2.length < s.length := by
  rw [sign.eq_def] at h ⊢
  split at h
  · exact Nat.lt_succ_self _
  · cases h
  · cases h

/-- The digits that a hexadecimal number is read from. -/
theorem number_digits {base : Word → Nat × Word} (hBase : ∀ cs, (base cs).1 = 16 ∧ (base cs).2 <:+ cs) {s : Word}
    {negative : Bool} {v : Nat} {rest : Word} (h : number base s = some (negative, v, rest)) :
    ∃ ds, ds <:+: s ∧ (negative = true → ds.length < s.length) ∧ (∀ d ∈ ds, isDigitOf 16 d = true) ∧
      v = valueOf 16 ds := by
  obtain ⟨hSixteen, hSuffix⟩ := hBase (sign (s.dropWhile isSpace)).2
  rw [number] at h
  dsimp only at h
  rw [hSixteen] at h
  split at h
  · cases h
  · cases h
    have hDigits := (List.takeWhile_prefix (isDigitOf 16) (l := (base (sign (s.dropWhile isSpace)).2).2)).isInfix.trans
      hSuffix.isInfix
    have hBehind := List.dropWhile_suffix isSpace (l := s)
    refine ⟨_, hDigits.trans ((sign_suffix _).trans hBehind).isInfix, fun hNegative => ?_,
      fun d hd => List.all_eq_true.mp List.all_takeWhile d hd, rfl⟩
    exact Nat.lt_of_le_of_lt hDigits.length_le (Nat.lt_of_lt_of_le (sign_shorter hNegative) hBehind.length_le)

set_option maxRecDepth 20000 in
/-- Two hexadecimal digits are needed for it. -/
theorem unhexstring_percent {s : Word} (hs : s.length ≤ 2) (h : Dap2.unhexstring [] s = ['%']) : s = ['2', '5'] := by
  rw [Dap2.unhexstring] at h
  split at h
  · cases h
  · split at h
    · cases h
    · rename_i negative v rest hNumber
      obtain ⟨ds, hInfix, hNegative, hDigits, rfl⟩ := number_digits (fun cs => by
        split
        · exact ⟨rfl, (List.suffix_cons _ _).trans (List.suffix_cons _ _)⟩
        · exact ⟨rfl, (List.suffix_cons _ _).trans (List.suffix_cons _ _)⟩
        · exact ⟨rfl, List.suffix_refl _⟩) hNumber
      have hByte := charString_percent h
      by_cases hShort : ds.length ≤ 1
      · have hValue := valueOf_digit hShort hDigits
        split at hByte <;> omega
      · have hAll : ds = s := hInfix.eq_of_length (Nat.le_antisymm hInfix.length_le (by omega))
        subst hAll
        obtain _ | ⟨hi, _ | ⟨lo, _ | ⟨c, ds⟩⟩⟩ := ds
        · simp at hShort
        · simp at hShort
        · have hPairs : ∀ p ∈ hexDigits.product hexDigits, byteOf p.1 p.2 = 37 → p.1 = '2' ∧ p.2 = '5' :=
            forall_mem_of_all (by decide)
          have hPair : HexDigits hi lo := ⟨hDigits hi (by simp), hDigits lo (by simp)⟩
          have hLess : valueOf 16 [hi, lo] < 256 := byteOf_lt hPair
          have hValue : byteOf hi lo = 37 := by
            rw [byteOf]
            split at hByte
            · rename_i hMinus
              exact absurd (hNegative hMinus) (Nat.lt_irrefl _)
            · omega
          obtain ⟨rfl, rfl⟩ := hPairs (hi, lo) (List.mem_product.mpr ⟨mem_hexDigits hPair.1, mem_hexDigits hPair.2⟩) hValue
          rfl
        · simp at hs

end Libdap.Escaping

namespace Libdap.Constraint
open Core
set_option autoImplicit false

/-- A token that is always written the same way. -/
def IsSign : Token → Prop
  | .punct c => "[]:,&()\x7b\x7d".toList.contains c = true
  | .scanWord _ | .scanStr _ => False
  | .scanHash type => type ∈ hashTypes
  | _ => True

def signText : Token → Word
  | .punct c => [c]
  | .scanWord _ | .scanStr _ => []
  | .scanEqual => ['=']
  | .scanNotEqual => ['!', '=']
  | .scanGreater => ['>']
  | .scanGreaterEql => ['>', '=']
  | .scanLess => ['<']
  | .scanLessEql => ['<', '=']
  | .scanRegexp => ['=', '~']
  | .scanStar => ['*']
  | .scanHash type => '$' :: type

/-- What the scanner's rules read as the token. -/
inductive Spells : Word → Token → Prop
  | word (c : Char) (cs : Word) (hStart : isWordStart c = true) (hChars : ∀ d ∈ cs, isWordChar d = true) :
      Spells (c :: cs) (.scanWord (truncated (c :: cs)))
  | string (s : Word) (hClosed : quoted (s ++ ['"']) = some (s, [])) : Spells ('"' :: (s ++ ['"'])) (.scanStr s)
  | sign (token : Token) (hSign : IsSign token) : Spells (signText token) token

/-- A character that the token would take up. -/
def takesUp : Token → Char → Bool
  | .scanWord _, c => isWordChar c
  | .scanEqual, c => c = '~'
  | .scanGreater, c | .scanLess, c => c = '='
  | _, _ => false

/-- The token ends where the text begins. -/
def EndsAt (token : Token) (rest : Word) : Prop := ∀ c ∈ rest.head?, takesUp token c = false

theorem quoted_append {cs s rest : Word} (h : quoted cs = some (s, rest)) (more : Word) :
    quoted (cs ++ more) = some (s, rest ++ more) := by
  fun_induction quoted cs generalizing s rest with
  | case1 => cases h
  | case2 cs =>
    cases h
    rfl
  | case3 c cs ih =>
    obtain ⟨⟨s', rest'⟩, hRest, hPair⟩ := Option.map_eq_some_iff.mp h
    cases hPair
    rw [List.cons_append, List.cons_append, quoted, ih hRest, Option.map_some]
  | case4 c cs hQuote hEscape ih =>
    obtain ⟨⟨s', rest'⟩, hRest, hPair⟩ := Option.map_eq_some_iff.mp h
    cases hPair
    cases cs with
    | nil => cases hRest
    | cons d cs =>
      have hNotEscape : ∀ e es, c = '\\' → d :: cs ++ more = e :: es → False := by
        intro e es hBack _
        exact hEscape d cs hBack rfl
      rw [List.cons_append, quoted, ih hRest, Option.map_some]
      · exact hQuote
      · exact hNotEscape

theorem quoted_split {cs s rest : Word} (h : quoted cs = some (s, rest)) :
    cs = s ++ '"' :: rest ∧ quoted (s ++ ['"']) = some (s, []) := by
  fun_induction quoted cs generalizing s rest with
  | case1 => cases h
  | case2 cs =>
    cases h
    exact ⟨rfl, rfl⟩
  | case3 c cs ih =>
    obtain ⟨⟨s', rest'⟩, hRest, hPair⟩ := Option.map_eq_some_iff.mp h
    cases hPair
    obtain ⟨hText, hClosed⟩ := ih hRest
    refine ⟨by rw [hText]; rfl, ?_⟩
    rw [List.cons_append, List.cons_append, quoted, hClosed, Option.map_some]
  | case4 c cs hQuote hEscape ih =>
    obtain ⟨⟨s', rest'⟩, hRest, hPair⟩ := Option.map_eq_some_iff.mp h
    cases hPair
    obtain ⟨hText, hClosed⟩ := ih hRest
    refine ⟨by rw [hText]; rfl, ?_⟩
    rw [List.cons_append, quoted, hClosed, Option.map_some]
    · exact hQuote
    · intro e es hBack hCons
      obtain _ | ⟨d, ds⟩ := s'
      · exact hEscape '"' rest hBack hText
      · exact hEscape d (ds ++ '"' :: rest) hBack hText

section
variable {c : Char} {cs rest : Word}

theorem scan_regexp : scan ('=' :: '~' :: cs) = (scan cs).map (.scanRegexp :: ·) := by
  rw [scan, List.length_cons, List.length_cons, scanFrom, scan_fuel (Nat.le_succ _)]

theorem scan_equal (h : ∀ c ∈ cs.head?, c ≠ '~') : scan ('=' :: cs) = (scan cs).map (.scanEqual :: ·) := by
  rw [scan, List.length_cons, scanFrom, scan]
  rintro cs' rfl
  exact h '~' rfl rfl

theorem scan_notEqual : scan ('!' :: '=' :: cs) = (scan cs).map (.scanNotEqual :: ·) := by
  rw [scan, List.length_cons, List.length_cons, scanFrom, scan_fuel (Nat.le_succ _)]

theorem scan_greaterEql : scan ('>' :: '=' :: cs) = (scan cs).map (.scanGreaterEql :: ·) := by
  rw [scan, List.length_cons, List.length_cons, scanFrom, scan_fuel (Nat.le_succ _)]

theorem scan_greater (h : ∀ c ∈ cs.head?, c ≠ '=') : scan ('>' :: cs) = (scan cs).map (.scanGreater :: ·) := by
  rw [scan, List.length_cons, scanFrom, scan]
  rintro cs' rfl
  exact h '=' rfl rfl

theorem scan_lessEql : scan ('<' :: '=' :: cs) = (scan cs).map (.scanLessEql :: ·) := by
  rw [scan, List.length_cons, List.length_cons, scanFrom, scan_fuel (Nat.le_succ _)]

theorem scan_less (h : ∀ c ∈ cs.head?, c ≠ '=') : scan ('<' :: cs) = (scan cs).map (.scanLess :: ·) := by
  rw [scan, List.length_cons, scanFrom, scan]
  rintro cs' rfl
  exact h '=' rfl rfl

theorem scan_star : scan ('*' :: cs) = (scan cs).map (.scanStar :: ·) := by
  rw [scan, List.length_cons, scanFrom, scan]

theorem scan_passed (hStart : isWordStart c = false) (hPunct : "[]:,&()\x7b\x7d".toList.contains c = false)
    (hOther : c = '#' ∨ c = '!' ∧ (∀ d ∈ cs.head?, d ≠ '=') ∨
      c = '$' ∧ hashTypes.find? (fun type => type.isPrefixOf cs) = none ∨ isSilent c) : scan (c :: cs) = scan cs := by
  rcases hOther with rfl | ⟨rfl, hEnd⟩ | ⟨rfl, hNone⟩ | hSilent
  · rw [scan, List.length_cons, scanFrom, if_neg (by decide), if_neg (by decide), scan]
    all_goals
      intros
      contradiction
  · rw [scan, List.length_cons, scanFrom, if_neg (by decide), if_neg (by decide), scan]
    all_goals
      intros
      try contradiction
    rename_i hText
    subst hText
    exact hEnd '=' rfl rfl
  · rw [scan, List.length_cons, scanFrom, hNone, scan]
  · exact scan_silent hSilent

theorem scan_hash {type : Word} (h : type ∈ hashTypes) :
    scan ('$' :: (type ++ cs)) = (scan cs).map (.scanHash type :: ·) := by
  have hFind : hashTypes.find? (fun t => t.isPrefixOf (type ++ cs)) = some type := by
    simp only [hashTypes, List.map_cons, List.map_nil, List.mem_cons, List.not_mem_nil, or_false] at h
    rcases h with rfl | rfl | rfl | rfl | rfl | rfl | rfl <;> rfl
  rw [scan, List.length_cons, scanFrom, hFind]
  dsimp only
  rw [List.drop_left, scan_fuel (by rw [List.length_append]; omega)]

theorem scan_string {s : Word} (h : quoted cs = some (s, rest)) :
    scan ('"' :: cs) = (scan rest).map (.scanStr s :: ·) := by
  rw [scan, List.length_cons, scanFrom, h]
  dsimp only
  rw [scan_fuel (Nat.le_of_lt (quoted_length h))]

theorem scan_wordText {w : Word} (hStart : isWordStart c = true) (hChars : ∀ d ∈ w, isWordChar d = true)
    (hEnd : ∀ d ∈ rest.head?, isWordChar d = false) :
    scan (c :: (w ++ rest)) = (scan rest).map (.scanWord (truncated (c :: w)) :: ·) := by
  have hStop : rest.takeWhile isWordChar = [] ∧ rest.dropWhile isWordChar = rest := by
    cases rest with
    | nil => exact ⟨rfl, rfl⟩
    | cons d ds =>
      have hNot : ¬isWordChar d = true := ne_true_of_eq_false (hEnd d rfl)
      exact ⟨List.takeWhile_cons_of_neg hNot, List.dropWhile_cons_of_neg hNot⟩
  rw [scan_word hStart, List.takeWhile_append_of_pos hChars, List.dropWhile_append_of_pos hChars, hStop.1, hStop.2,
    List.append_nil]

end

/-- One token, before a text that it does not take up. -/
theorem scan_spelled {w rest : Word} {token : Token} (h : Spells w token) (hEnd : EndsAt token rest) :
    scan (w ++ rest) = (scan rest).map (token :: ·) := by
  cases h with
  | word c cs hStart hChars => exact scan_wordText hStart hChars hEnd
  | string s hClosed =>
    rw [List.cons_append]
    exact scan_string (quoted_append hClosed rest)
  | sign _ hSign =>
    cases token with
    | punct c => exact scan_punct hSign
    | scanWord id => exact hSign.elim
    | scanStr s => exact hSign.elim
    | scanEqual => exact scan_equal fun c hc => of_decide_eq_false (hEnd c hc)
    | scanNotEqual => exact scan_notEqual
    | scanGreater => exact scan_greater fun c hc => of_decide_eq_false (hEnd c hc)
    | scanGreaterEql => exact scan_greaterEql
    | scanLess => exact scan_less fun c hc => of_decide_eq_false (hEnd c hc)
    | scanLessEql => exact scan_lessEql
    | scanRegexp => exact scan_regexp
    | scanStar => exact scan_star
    | scanHash type => exact scan_hash hSign

/-! ## What is never more than the text -/

/-- The characters of a text, an escaped blank being one. -/
def units : Word → Nat
  | '%' :: '2' :: '0' :: cs => units cs + 1
  | _ :: cs => units cs + 1
  | [] => 0

attribute [local grind =] units

section
variable {a b c : Char} {cs r w v : Word}

theorem units_plain (h : c ≠ '%') : units (c :: cs) = units cs + 1 := by
  rw [units]
  rintro cs' rfl
  exact absurd rfl h

theorem units_cons_le : units (c :: cs) ≤ units cs + 1 := by
  rw [units.eq_def]
  split
  · rename_i hEq
    cases hEq
    rw [units_plain (by decide), units_plain (by decide)]
    omega
  · rename_i hEq
    cases hEq
    exact Nat.le_refl _
  · rename_i hEq
    cases hEq

theorem units_tail_le : units cs ≤ units (c :: cs) + 1 := by
  rw [units.eq_def (c :: cs)]
  split
  · rename_i hEq
    cases hEq
    rw [units_plain (by decide), units_plain (by decide)]
  · rename_i hEq
    cases hEq
    omega
  · rename_i hEq
    cases hEq

theorem units_drop_two : units r ≤ units (a :: b :: r) := by
  rw [units.eq_def (a :: b :: r)]
  split
  · rename_i hEq
    cases hEq
    rw [units_plain (by decide)]
  · rename_i hEq
    cases hEq
    exact units_tail_le
  · rename_i hEq
    cases hEq

theorem units_drop_three : units r ≤ units (a :: b :: c :: r) := by
  rw [units.eq_def (a :: b :: c :: r)]
  split
  · rename_i hEq
    cases hEq
    exact Nat.le_succ _
  · rename_i hEq
    cases hEq
    exact Nat.le_succ_of_le units_drop_two
  · rename_i hEq
    cases hEq

theorem units_percent (h : ∀ r, cs ≠ '2' :: '0' :: r) : units ('%' :: cs) = units cs + 1 := by
  rw [units]
  rintro r - rfl
  exact h r rfl

theorem units_drop_less : units r < units (a :: b :: c :: r) := by
  rw [units.eq_def (a :: b :: c :: r)]
  split
  · rename_i hEq
    cases hEq
    exact Nat.lt_succ_self _
  · rename_i hEq
    cases hEq
    exact Nat.lt_succ_of_le units_drop_two
  · rename_i hEq
    cases hEq

/-- No escaped blank goes across the border. -/
theorem units_append (hBorder : ∀ c ∈ r.head?, c ≠ '2' ∧ c ≠ '0') (w : Word) :
    units (w ++ r) = units w + units r := by
  fun_induction units w with
  | case1 cs ih =>
    rw [List.cons_append, List.cons_append, List.cons_append, units, ih]
    omega
  | case2 c cs hNot ih =>
    rw [List.cons_append, units, ih]
    · omega
    · intro cs' hc hText
      cases cs with
      | nil =>
        obtain rfl : r = '2' :: '0' :: cs' := hText
        exact (hBorder '2' rfl).1 rfl
      | cons d cs =>
        obtain ⟨hd, hText⟩ := List.cons.inj hText
        cases cs with
        | nil =>
          obtain rfl : r = '0' :: cs' := hText
          exact (hBorder '0' rfl).2 rfl
        | cons e cs =>
          obtain ⟨he, -⟩ := List.cons.inj hText
          exact hNot cs hc (by rw [hd, he])
  | case3 => exact (Nat.zero_add _).symm

end

/-! ### What is read back of a word -/

section
variable {k : Nat} {cs : Word}

theorem null_short : ([] : Word).length ≤ 1 := Nat.zero_le 1

theorem www2idFrom_nil : Dap2.www2idFrom [] k [] = [] := by cases k <;> rfl

/-- What an escape is read as, and what is read on. -/
theorem www2idFrom_percent (k : Nat) (cs : Word) :
    (∃ d, Dap2.unhexstring [] (cs.take 2) = [d] ∧
      Dap2.www2idFrom [] (k + 1) ('%' :: cs) = d :: Dap2.www2idFrom [] k (cs.drop 2)) ∨
    Dap2.www2idFrom [] (k + 1) ('%' :: cs) = (cs.drop 2).take 1 ++ Dap2.www2idFrom [] k ((cs.drop 2).drop 1) := by
  have hShort := Escaping.unhexstring_length null_short (cs.take 2)
  rw [Dap2.www2idFrom, if_pos rfl]
  cases hValue : Dap2.unhexstring [] (cs.take 2) with
  | nil => exact .inr rfl
  | cons d ds =>
    rw [hValue, List.length_cons] at hShort
    obtain rfl : ds = [] := List.length_eq_zero_iff.mp (by omega)
    exact .inl ⟨d, rfl, rfl⟩

/-- A part of a word that is read back, where a variable that was never set holds the null character. -/
theorem www2idFrom_units {v w : Word} (hPrefix : v <+: w) (hk : v.length ≤ k) :
    (Dap2.www2idFrom [] k v).length ≤ units w := by
  induction k using Nat.strong_induction_on generalizing v w with
  | _ k ih =>
    obtain ⟨more, rfl⟩ := hPrefix
    cases v with
    | nil =>
      rw [www2idFrom_nil]
      exact Nat.zero_le _
    | cons c cs =>
      obtain ⟨k, rfl⟩ := Nat.exists_eq_succ_of_ne_zero (Nat.ne_of_gt (Nat.lt_of_lt_of_le (Nat.succ_pos _) hk))
      have hk : cs.length ≤ k := Nat.le_of_succ_le_succ hk
      have hRest {x : Word} (hx : x.length ≤ k) (y : Word) : (Dap2.www2idFrom [] k x).length ≤ units (x ++ y) :=
        ih k (Nat.lt_succ_self k) ⟨y, rfl⟩ hx
      by_cases hPercent : c = '%'
      · subst hPercent
        rw [List.cons_append]
        by_cases hBlank : ∃ r, cs ++ more = '2' :: '0' :: r
        · obtain ⟨r, hText⟩ := hBlank
          have hSpace : Dap2.unhexstring [] ['2', '0'] = [' '] := by decide
          obtain _ | ⟨a, _ | ⟨b, cs⟩⟩ := cs
          · simp [Dap2.www2idFrom, www2idFrom_nil, Dap2.unhexstring]
          · rcases www2idFrom_percent k [a] with ⟨d, -, hd⟩ | hNone
            · rw [hd, hText, units, List.drop_succ_cons, List.drop_nil, www2idFrom_nil]
              exact Nat.succ_le_succ (Nat.zero_le _)
            · rw [hNone]
              simp [www2idFrom_nil]
          · obtain ⟨rfl, hTail⟩ := List.cons.inj hText
            obtain ⟨rfl, -⟩ := List.cons.inj hTail
            rw [List.cons_append, List.cons_append, units, Dap2.www2idFrom, if_pos rfl,
              show ('2' :: '0' :: cs).take 2 = ['2', '0'] from rfl, hSpace]
            exact Nat.succ_le_succ (hRest (x := cs) (by simp at hk; omega) more)
        · rw [units_percent fun r hr => hBlank ⟨r, hr⟩]
          rcases www2idFrom_percent k cs with ⟨d, -, hd⟩ | hNone
          · rw [hd, List.length_cons]
            refine Nat.succ_le_succ ?_
            obtain _ | ⟨a, _ | ⟨b, r⟩⟩ := cs
            · rw [List.drop_nil, www2idFrom_nil]
              exact Nat.zero_le _
            · rw [List.drop_succ_cons, List.drop_nil, www2idFrom_nil]
              exact Nat.zero_le _
            · exact (hRest (x := r) (by simp at hk; omega) more).trans units_drop_two
          · rw [hNone]
            obtain _ | ⟨a, _ | ⟨b, _ | ⟨e, r⟩⟩⟩ := cs
            · simp [www2idFrom_nil]
            · simp [www2idFrom_nil]
            · simp [www2idFrom_nil]
            · have hLess := hRest (x := r) (by simp at hk; omega) more
              have hDrop := units_drop_less (a := a) (b := b) (c := e) (r := r ++ more)
              change (Dap2.www2idFrom [] k r).length + 1 ≤ units (a :: b :: e :: (r ++ more)) + 1
              omega
      · rw [Dap2.www2idFrom, if_neg hPercent, List.length_cons, List.cons_append, units_plain hPercent]
        exact Nat.succ_le_succ (hRest hk more)

/-- A percent sign that does not begin an escaped blank is not read back as itself, or fewer characters are. -/
theorem www2id_percent (hBlank : ∀ r, cs ≠ '2' :: '0' :: r) :
    (Dap2.www2id [] ('%' :: cs)).head? ≠ some '%' ∨ (Dap2.www2id [] ('%' :: cs)).length < units ('%' :: cs) := by
  rw [units_percent hBlank, Dap2.www2id, List.length_cons]
  rcases www2idFrom_percent cs.length cs with ⟨d, hValue, hd⟩ | hNone
  · by_cases hPercent : d = '%'
    · right
      subst hPercent
      have hText := Escaping.unhexstring_percent (by simp) hValue
      obtain _ | ⟨a, _ | ⟨b, r⟩⟩ := cs
      · cases hText
      · cases hText
      · obtain ⟨rfl, rfl⟩ : a = '2' ∧ b = '5' := by simpa using hText
        have hLess := www2idFrom_units (k := ('2' :: '5' :: r).length) (List.prefix_refl r) (by simp; omega)
        rw [hd, List.length_cons, units_plain (by decide), units_plain (by decide)]
        change (Dap2.www2idFrom [] _ r).length + 1 < _
        omega
    · left
      rw [hd]
      exact fun hHead => hPercent (Option.some.inj hHead)
  · right
    rw [hNone]
    obtain _ | ⟨a, _ | ⟨b, _ | ⟨e, r⟩⟩⟩ := cs
    · simp [www2idFrom_nil]
    · simp [www2idFrom_nil]
    · simp [www2idFrom_nil]
    · have hLess := www2idFrom_units (k := (a :: b :: e :: r).length) (List.prefix_refl r) (by simp; omega)
      have hDrop := units_drop_less (a := a) (b := b) (c := e) (r := r)
      change (Dap2.www2idFrom [] _ r).length + 1 < _
      omega

end

/-! ## What a scan is made of -/

/-- The character is passed, or a token is read, or the scan stops. -/
theorem scan_cases (c : Char) (cs : Word) : (∃ f, scan (c :: cs) = .error f) ∨
    (isWordStart c = false ∧ scan (c :: cs) = scan cs) ∨
    ∃ w token rest, c :: cs = w ++ rest ∧ Spells w token ∧ EndsAt token rest ∧
      scan (c :: cs) = (scan rest).map (token :: ·) := by
  have hSign (token : Token) (rest : Word) {w : Word} (hText : c :: cs = w ++ rest) (hw : w = signText token)
      (hSign : IsSign token)
      (hEnd : EndsAt token rest) : ∃ w token rest, c :: cs = w ++ rest ∧ Spells w token ∧ EndsAt token rest ∧
        scan (c :: cs) = (scan rest).map (token :: ·) := by
    subst hw
    exact ⟨_, token, rest, hText, .sign token hSign, hEnd, hText ▸ scan_spelled (.sign token hSign) hEnd⟩
  have hFree {token : Token} {rest : Word} (h : ∀ d, takesUp token d = false) : EndsAt token rest := fun d _ => h d
  have hNext (d : Char) : (∃ r, cs = d :: r) ∨ ∀ e ∈ cs.head?, e ≠ d := by
    obtain _ | ⟨e, r⟩ := cs
    · exact .inr fun e he => absurd he (by simp)
    · by_cases h : e = d
      · exact .inl ⟨r, by rw [h]⟩
      · exact .inr fun e' he => by rwa [← Option.some.inj he]
  by_cases hEqual : c = '='
  · subst hEqual
    rcases hNext '~' with ⟨r, rfl⟩ | hEnd
    · exact .inr (.inr (hSign .scanRegexp r rfl rfl trivial (hFree fun _ => rfl)))
    · exact .inr (.inr (hSign .scanEqual cs rfl rfl trivial fun e he => decide_eq_false (hEnd e he)))
  by_cases hGreater : c = '>'
  · subst hGreater
    rcases hNext '=' with ⟨r, rfl⟩ | hEnd
    · exact .inr (.inr (hSign .scanGreaterEql r rfl rfl trivial (hFree fun _ => rfl)))
    · exact .inr (.inr (hSign .scanGreater cs rfl rfl trivial
        fun e he => decide_eq_false (hEnd e he)))
  by_cases hLess : c = '<'
  · subst hLess
    rcases hNext '=' with ⟨r, rfl⟩ | hEnd
    · exact .inr (.inr (hSign .scanLessEql r rfl rfl trivial (hFree fun _ => rfl)))
    · exact .inr (.inr (hSign .scanLess cs rfl rfl trivial fun e he => decide_eq_false (hEnd e he)))
  by_cases hNot : c = '!'
  · subst hNot
    rcases hNext '=' with ⟨r, rfl⟩ | hEnd
    · exact .inr (.inr (hSign .scanNotEqual r rfl rfl trivial (hFree fun _ => rfl)))
    · exact .inr (.inl ⟨by decide, scan_passed (by decide) (by decide) (.inr (.inl ⟨rfl, hEnd⟩))⟩)
  by_cases hStar : c = '*'
  · subst hStar
    exact .inr (.inr (hSign .scanStar cs rfl rfl trivial (hFree fun _ => rfl)))
  by_cases hQuote : c = '"'
  · subst hQuote
    cases hQuoted : quoted cs with
    | none =>
      left
      rw [scan, List.length_cons, scanFrom, hQuoted]
      exact ⟨_, rfl⟩
    | some p =>
      obtain ⟨s, rest⟩ := p
      obtain ⟨hText, hClosed⟩ := quoted_split hQuoted
      refine .inr (.inr ⟨'"' :: (s ++ ['"']), .scanStr s, rest, ?_, .string s hClosed, hFree fun _ => rfl,
        scan_string hQuoted⟩)
      rw [hText, List.cons_append, List.append_assoc, List.singleton_append]
  by_cases hHash : c = '$'
  · subst hHash
    cases hFind : hashTypes.find? (fun type => type.isPrefixOf cs) with
    | none => exact .inr (.inl ⟨by decide, scan_passed (by decide) (by decide) (.inr (.inr (.inl ⟨rfl, hFind⟩)))⟩)
    | some type =>
      have hPrefix := List.find?_some (p := fun type => List.isPrefixOf type cs) hFind
      obtain ⟨rest, rfl⟩ := List.isPrefixOf_iff_prefix.mp hPrefix
      exact .inr (.inr (hSign (.scanHash type) rest rfl rfl (List.mem_of_find?_eq_some hFind)
        (hFree fun _ => rfl)))
  by_cases hPunct : "[]:,&()\x7b\x7d".toList.contains c = true
  · exact .inr (.inr (hSign (.punct c) cs rfl rfl hPunct (hFree fun _ => rfl)))
  by_cases hStart : isWordStart c = true
  · refine .inr (.inr ⟨c :: cs.takeWhile isWordChar, _, cs.dropWhile isWordChar, ?_,
      .word c _ hStart fun d hd => List.all_eq_true.mp List.all_takeWhile d hd, fun d hd => ?_, scan_word hStart⟩)
    · rw [List.cons_append, List.takeWhile_append_dropWhile]
    · have hFirst := List.head?_dropWhile_not isWordChar cs
      rw [Option.mem_def.mp hd] at hFirst
      exact hFirst
  · have hOther : c = '#' ∨ isSilent c = true := by
      by_cases hSharp : c = '#'
      · exact .inl hSharp
      · right
        have hParts : "=!><*\"$[]:,&()\x7b\x7d#".toList =
            ['=', '!', '>', '<', '*', '"', '$'] ++ "[]:,&()\x7b\x7d".toList ++ ['#'] := rfl
        rw [isSilent, hParts, Bool.eq_false_iff.mpr hStart]
        simp_all
    exact .inr (.inl ⟨Bool.eq_false_iff.mpr hStart, scan_passed (Bool.eq_false_iff.mpr hStart)
      (Bool.eq_false_iff.mpr hPunct) (hOther.imp_right fun h => .inr (.inr h))⟩)

/-! ## What the tokens mean -/

/-- A word stands for what is read back of it. -/
def Token.readBack (unset : Word) : Token → Token
  | .scanWord id => .scanWord (Dap2.www2id unset id)
  | token => token

/-- The meaning of a text for the rules of the parser. -/
def denote (unset text : Word) : Except Fault (List Token) := (scan text).map (List.map (Token.readBack unset))

def Token.weight : Token → Nat
  | .scanWord id => id.length
  | .scanStr s => units s + 2
  | token => (signText token).length

theorem denote_map {unset text rest : Word} {token : Token} (h : scan text = (scan rest).map (token :: ·)) :
    denote unset text = (denote unset rest).map (token.readBack unset :: ·) := by
  rw [denote, denote, h]
  cases scan rest <;> rfl

theorem map_eq_ok {α β : Type} {f : α → β} {x : Except Fault α} {b : β} (h : x.map f = .ok b) :
    ∃ a, x = .ok a ∧ f a = b := by
  cases x with
  | error e => cases h
  | ok a => exact ⟨a, rfl, Except.ok.inj h⟩

theorem units_free {w : Word} (h : '%' ∉ w) (r : Word) : units (w ++ r) = w.length + units r := by
  induction w with
  | nil => exact (Nat.zero_add _).symm
  | cons c w ih =>
    obtain ⟨hc, hw⟩ := not_or.mp (mt List.mem_cons.mpr h)
    rw [List.cons_append, units_plain (Ne.symm hc), ih hw, List.length_cons]
    omega

theorem sign_free {token : Token} (h : IsSign token) : '%' ∉ signText token := by
  have hAll : ∀ type ∈ hashTypes, '%' ∉ '$' :: type := by decide
  cases token with
  | punct c =>
    intro hPercent
    obtain rfl : '%' = c := List.mem_singleton.mp hPercent
    have hNot : "[]:,&()\x7b\x7d".toList.contains '%' = false := by decide
    exact Bool.false_ne_true (hNot.symm.trans h)
  | scanHash type => exact hAll type h
  | scanWord | scanStr => exact h.elim
  | _ => decide

theorem isSign_of_spells {token : Token} (h : Spells (signText token) token) : IsSign token := by
  generalize hText : signText token = w at h
  cases h with
  | word | string => cases hText
  | sign _ hSign => exact hSign

theorem spells_ne_nil {w : Word} {token : Token} (h : Spells w token) : w ≠ [] := by
  cases h with
  | word | string => exact List.cons_ne_nil _ _
  | sign _ hSign =>
    cases token with
    | scanWord | scanStr => exact hSign.elim
    | _ => exact List.cons_ne_nil _ _

/-- A token is never more than its text. -/
theorem weight_spelled {w rest : Word} {token : Token} (h : Spells w token) (hEnd : EndsAt token rest) :
    (token.readBack []).weight + units rest ≤ units (w ++ rest) := by
  cases h with
  | word c cs hStart hChars =>
    have hBorder : ∀ d ∈ rest.head?, d ≠ '2' ∧ d ≠ '0' := by
      intro d hd
      have hWord : isWordChar d = false := hEnd d hd
      constructor <;>
      · rintro rfl
        exact absurd hWord (by decide)
    have hWord := www2idFrom_units (k := (truncated (c :: cs)).length) (List.take_prefix (ID_MAX - 1) (c :: cs))
        (Nat.le_refl _)
    rw [units_append hBorder]
    exact Nat.add_le_add_right hWord _
  | string s hClosed =>
    change units s + 2 + units rest ≤ units ('"' :: (s ++ ['"']) ++ rest)
    rw [List.cons_append, List.append_assoc, List.singleton_append, units_plain (by decide), units_append (by simp),
      units_plain (by decide)]
    omega
  | sign _ hSign =>
    rw [units_free (sign_free hSign)]
    cases token with
    | scanWord | scanStr => exact hSign.elim
    | _ => exact Nat.le_refl _

theorem denote_weight {text : Word} {tokens : List Token} (h : denote [] text = .ok tokens) :
    (tokens.map Token.weight).sum ≤ units text := by
  induction hLength : text.length using Nat.strong_induction_on generalizing text tokens with
  | _ n ih =>
    cases text with
    | nil =>
      cases h
      exact Nat.zero_le _
    | cons c cs =>
      rcases scan_cases c cs with ⟨f, hError⟩ | ⟨hStart, hPassed⟩ | ⟨w, token, rest, hText, hSpelled, hEnd, hScan⟩
      · rw [denote, hError] at h
        cases h
      · rw [denote, hPassed] at h
        have hPercent : c ≠ '%' := by
          rintro rfl
          exact absurd hStart (by decide)
        rw [units_plain hPercent]
        exact Nat.le_succ_of_le (ih cs.length (by rw [← hLength]; exact Nat.lt_succ_self _) h rfl)
      · have hShorter : rest.length < n := by
          have hPos := List.length_pos_of_ne_nil (spells_ne_nil hSpelled)
          rw [← hLength, hText, List.length_append]
          omega
        rw [denote_map hScan] at h
        obtain ⟨rest', hRest, rfl⟩ := map_eq_ok h
        have hToken := weight_spelled hSpelled hEnd
        have hOthers := ih rest.length hShorter hRest rfl
        rw [hText, List.map_cons, List.sum_cons]
        omega

end Libdap.Constraint
