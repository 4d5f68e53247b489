import Libdap.Dap2.ErrorObject

/-! # Error objects, printed and parsed again

What comes back is what was printed as long as the scanner takes the message for one string: no double quote in it that a
backslash does not stand in front of, no backslash at its end or at the end of a line.
-/

namespace Libdap.ErrorObject
open Core Constraint Http
set_option autoImplicit false

/-! ## A quoted string -/

/-- What the scanner takes for the inside of one string. -/
def Clean : Word → Bool
  | [] => true
  | c :: cs =>
    if c = '"' then false
    else if c = '\\' then
      match cs with
      | [] => false
      | d :: ds => d ≠ '\n' && Clean ds
    else Clean cs

attribute [local grind =] Clean

theorem clean_char {c : Char} (hQuote : c ≠ '"') (hSlash : c ≠ '\\') (cs : Word) : Clean (c :: cs) = Clean cs := by
  rw [Clean.eq_def]
  simp only [hQuote, hSlash, if_false]

theorem clean_escape (d : Char) (ds : Word) : Clean ('\\' :: d :: ds) = (d ≠ '\n' && Clean ds) := by
  rw [Clean.eq_def]
  rfl

section
variable (startLine : Nat) (text : Word) (line : Nat)

theorem quote_end (cs : Word) :
    quote startLine text ('"' :: cs) line = .ok (.str (text ++ ['"']), ⟨cs, .initial, line, startLine⟩) := by
  rw [quote.eq_def]
  rfl

theorem quote_line (cs : Word) :
    quote startLine text ('\n' :: cs) line = quote startLine (text ++ ['\n']) cs (line + 1) := by
  rw [quote.eq_def]
  rfl

theorem quote_escape {d : Char} (h : d ≠ '\n') (ds : Word) :
    quote startLine text ('\\' :: d :: ds) line = quote startLine (text ++ ['\\', d]) ds line := by
  rw [quote.eq_def]
  exact if_neg h

theorem quote_loss (ds : Word) :
    quote startLine text ('\\' :: '\n' :: ds) line = quote startLine ['\n'] ds (line + 1) := by
  rw [quote.eq_def]
  rfl

theorem quote_char {c : Char} (hQuote : c ≠ '"') (hLine : c ≠ '\n') (hSlash : c ≠ '\\') (cs : Word) :
    quote startLine text (c :: cs) line = quote startLine (text ++ [c]) cs line := by
  rw [quote.eq_def]
  simp only [hQuote, hLine, hSlash, if_false]

end

theorem quote_complete {startLine : Nat} {body : Word} (h : Clean body = true) (text rest : Word) (line : Nat) :
    ∃ last, quote startLine text (body ++ '"' :: rest) line =
      .ok (.str (text ++ (body ++ ['"'])), ⟨rest, .initial, last, startLine⟩) := by
  induction body using Clean.induct generalizing text line with
  | case1 => exact ⟨line, quote_end startLine text line rest⟩
  | case2 cs =>
    rw [Clean.eq_def] at h
    cases h
  | case3 => cases h
  | case4 d ds hSlash ih =>
    rw [clean_escape, Bool.and_eq_true, decide_eq_true_eq] at h
    obtain ⟨last, hLast⟩ := ih h.2 (text ++ ['\\', d]) line
    exact ⟨last, by simpa [quote_escape, h.1] using hLast⟩
  | case5 c cs hQuote hSlash ih =>
    rw [clean_char hQuote hSlash] at h
    rcases eq_or_ne c '\n' with rfl | hLine
    · obtain ⟨last, hLast⟩ := ih h (text ++ ['\n']) (line + 1)
      exact ⟨last, by simpa [quote_line] using hLast⟩
    · obtain ⟨last, hLast⟩ := ih h (text ++ [c]) line
      exact ⟨last, by simpa [quote_char, hQuote, hSlash, hLine] using hLast⟩

/-- All that was matched is in the string, or all from the end of a line on. -/
theorem quote_sound {startLine : Nat} {text input : Word} {line : Nat} {r : Token × Scanner}
    (h : quote startLine text input line = .ok r) :
    ∃ body, Clean body = true ∧
      (r.1 = .str (text ++ (body ++ ['"'])) ∨ r.1 = .str ('\n' :: (body ++ ['"']))) := by
  induction text, input, line using quote.induct with
  | case1 => cases h
  | case2 text cs line =>
    rw [quote_end] at h
    cases h
    exact ⟨[], rfl, Or.inl rfl⟩
  | case3 text cs line hQuote ih =>
    rw [quote_line] at h
    obtain ⟨body, hBody, hText | hText⟩ := ih h
    · refine ⟨'\n' :: body, ?_, Or.inl (by simpa using hText)⟩
      rw [clean_char (by decide) (by decide), hBody]
    · exact ⟨body, hBody, Or.inr hText⟩
  | case4 => cases h
  | case5 text line ds hQuote hLine ih =>
    rw [quote_loss] at h
    obtain ⟨body, hBody, hText | hText⟩ := ih h
    · exact ⟨body, hBody, Or.inr hText⟩
    · exact ⟨body, hBody, Or.inr hText⟩
  | case6 text line d ds hd hQuote hLine ih =>
    rw [quote_escape _ _ _ hd] at h
    obtain ⟨body, hBody, hText | hText⟩ := ih h
    · refine ⟨'\\' :: d :: body, ?_, Or.inl (by simpa using hText)⟩
      rw [clean_escape, hBody, decide_eq_true hd, Bool.and_self]
    · exact ⟨body, hBody, Or.inr hText⟩
  | case7 text c cs line hQuote hLine hSlash ih =>
    rw [quote_char _ _ _ hQuote hLine hSlash] at h
    obtain ⟨body, hBody, hText | hText⟩ := ih h
    · refine ⟨c :: body, ?_, Or.inl (by simpa using hText)⟩
      rw [clean_char hQuote hSlash, hBody]
    · exact ⟨body, hBody, Or.inr hText⟩

theorem quote_chars {startLine : Nat} {text input : Word} {line : Nat} {w : Word} {s : Scanner}
    (h : quote startLine text input line = .ok (.str w, s)) : ∀ c ∈ w, c ∈ text ++ input := by
  induction text, input, line using quote.induct with
  | case1 => cases h
  | case2 text cs line =>
    rw [quote_end] at h
    cases h
    rintro c hc
    rw [← List.singleton_append, ← List.append_assoc]
    exact List.mem_append_left cs hc
  | case3 text cs line hQuote ih =>
    rw [quote_line] at h
    simpa using ih h
  | case4 => cases h
  | case5 text line ds hQuote hLine ih =>
    rw [quote_loss] at h
    rintro c hc
    exact List.mem_append_right text (List.mem_cons_of_mem _ (ih h c hc))
  | case6 text line d ds hd hQuote hLine ih =>
    rw [quote_escape _ _ _ hd] at h
    simpa using ih h
  | case7 text c cs line hQuote hLine hSlash ih =>
    rw [quote_char _ _ _ hQuote hLine hSlash] at h
    simpa using ih h

/-! ## The code -/

theorem keyword_digit {c : Char} (h : isDigit c = true) (cs : Word) : keyword (c :: cs) = none := by
  have hAll : "eEcCmM".toList.all (fun c => !isDigit c) = true := by decide
  apply keyword_none
  rintro hc
  have hOther := List.all_eq_true.mp hAll c hc
  rw [h] at hOther
  cases hOther

theorem isDigit_takeWhile {ds rest : Word} (hDigits : ∀ c ∈ ds, isDigit c = true) (hRest : Stops rest) :
    (ds ++ rest).takeWhile isDigit = ds := by
  rw [List.takeWhile_append_of_pos hDigits]
  exact (congrArg (ds ++ ·) hRest.takeWhile).trans (List.append_nil ds)

theorem isDigit_dropWhile {ds rest : Word} (hDigits : ∀ c ∈ ds, isDigit c = true) (hRest : Stops rest) :
    (ds ++ rest).dropWhile isDigit = rest := by
  rw [List.dropWhile_append_of_pos hDigits]
  exact hRest.dropWhile

theorem lex_digits {ds rest : Word} (hDigits : ∀ c ∈ ds, isDigit c = true) (hNe : ds ≠ []) (hRest : Stops rest)
    (line startLine : Nat) : lex .initial (ds ++ rest) line startLine =
      .ok (some (.int (storeInteger ds)), ⟨rest, .initial, line, startLine⟩) := by
  have hTake := isDigit_takeWhile hDigits hRest
  have hDrop := isDigit_dropWhile hDigits hRest
  cases ds with
  | nil => exact absurd rfl hNe
  | cons c ds =>
    have hDigit := hDigits c List.mem_cons_self
    rw [List.cons_append] at hTake hDrop ⊢
    rw [lex, keyword_digit hDigit]
    simp only [hDigit, if_true, hTake, hDrop]

/-- The code that is read: the sign of a printed one is not looked at. -/
def readCode (code : ErrorCode) : ErrorCode := storeInteger (decimal code.val.natAbs)

theorem lex_integer (code : ErrorCode) {rest : Word} (hRest : Stops rest) (line startLine : Nat) :
    lex .initial (integer code.val ++ rest) line startLine =
      .ok (some (.int (readCode code)), ⟨rest, .initial, line, startLine⟩) := by
  obtain ⟨n | n, hCode⟩ := code
  · exact lex_digits (digits_of_decimal n) (decimal_ne_nil n) hRest line startLine
  · rw [integer, List.cons_append, lex_minus]
    exact lex_digits (digits_of_decimal (n + 1)) (decimal_ne_nil (n + 1)) hRest line startLine

theorem atoi_decimal {n : Nat} (h : n ≤ 2147483648) : atoi (decimal n) = int32 n := by
  have hRead := (decimalNumber_digits [] (by simp) (digits_of_decimal n) (decimal_ne_nil n) Stops.nil).1
  rw [List.nil_append, List.append_nil, decimalNumber, valueOf_decimal] at hRead
  rw [atoi, hRead]
  have hMin : min LONG_MAX (n : Int) = n := min_eq_right (by simp only [LONG_MAX]; omega)
  simp only [Bool.false_eq_true, if_false, hMin]

theorem readCode_eq_iff (code : ErrorCode) : readCode code = code ↔ 0 ≤ code.val ∨ code.val = -2147483648 := by
  obtain ⟨z, hLow, hHigh⟩ := code
  have hRead : (readCode ⟨z, hLow, hHigh⟩).val = int32 (z.natAbs : Int) := atoi_decimal (n := z.natAbs) (by omega)
  rw [Subtype.ext_iff, hRead]
  simp only [int32]
  omega

/-! ## The object -/

/-- What is printed behind the message. -/
def closing : Word := ";\n\x7d;\n".toList

/-- The parser behind the message. -/
def afterMessage (e : Error) (w : Word) (s : Scanner) : Except Fault Error := do
  let s ← s.expect (some (.char ';'))
  let s ← s.expect (some (.char '\x7d'))
  parseEnd (e.setErrorMessage (cString w)) s

theorem print_eq (e : Error) : e.print = "Error".toList ++ ' ' :: '\x7b' :: '\n' :: ' ' :: ' ' :: ' ' :: ' ' ::
    ("code".toList ++ ' ' :: '=' :: ' ' :: (integer e.code.val ++ ';' :: '\n' :: ' ' :: ' ' :: ' ' :: ' ' ::
    ("message".toList ++ ' ' :: '=' :: ' ' :: (printed e.message ++ closing)))) := rfl

theorem errorparse_print (e e₀ : Error) (line startLine : Nat) :
    errorparse e₀ ⟨e.print, .initial, line, startLine⟩ = (do
      let r ← (⟨printed e.message ++ closing, .initial, line + 2, startLine⟩ : Scanner).expectStr
      afterMessage (e₀.setErrorCode (readCode e.code)) r.1 r.2) := by
  have hStops (cs : Word) : Stops (';' :: cs) := Stops.cons (by decide) cs
  have hBlank (cs : Word) (line : Nat) : (⟨' ' :: cs, .initial, line, startLine⟩ : Scanner).expectStr =
      (⟨cs, .initial, line, startLine⟩ : Scanner).expectStr := by
    simp only [Scanner.expectStr, Scanner.next, lex_blank]
  rw [print_eq]
  simp only [errorparse, parseCode, parseMessage, Scanner.expect, Scanner.expectInt, Scanner.next, lex_error, lex_blank,
    lex_char, lex_newline, lex_code, lex_message, lex_integer e.code (hStops _), ok_bind, if_true, true_or, or_true,
    hBlank, bind_assoc, afterMessage]

theorem afterMessage_closing (e : Error) (w : Word) (line startLine : Nat) :
    afterMessage e w ⟨closing, .initial, line, startLine⟩ = .ok (e.setErrorMessage (cString w)) := rfl

theorem afterMessage_ok {e e' : Error} {w : Word} {s : Scanner} (h : afterMessage e w s = .ok e') :
    e' = e.setErrorMessage (cString w) := by
  obtain ⟨s, _, h⟩ := bind_eq_ok h
  obtain ⟨s, _, h⟩ := bind_eq_ok h
  obtain ⟨s, _, h⟩ := bind_eq_ok h
  obtain ⟨s, _, h⟩ := bind_eq_ok h
  cases h
  rfl

theorem expectStr_iff {cs w : Word} {line startLine : Nat} {s : Scanner} :
    (⟨'"' :: cs, .initial, line, startLine⟩ : Scanner).expectStr = .ok (w, s) ↔
      quote line ['"'] cs line = .ok (.str w, s) := by
  rw [Scanner.expectStr, Scanner.next, lex_quote]
  cases hQuote : quote line ['"'] cs line with
  | error f => exact ⟨nofun, nofun⟩
  | ok r =>
    obtain ⟨t, s'⟩ := r
    obtain ⟨body, -, hText | hText⟩ := quote_sound hQuote <;> cases hText <;>
      simp only [ok_bind, Except.ok.injEq, Prod.mk.injEq, Token.str.injEq]

/-- A text that the scanner does not begin outside of quotes and comments is no error object. -/
theorem start_of_errorparse {e e₀ e' : Error} {s : Scanner} (h : errorparse e₀ { s with rest := e.print } = .ok e') :
    s.start = .initial := by
  obtain ⟨rest, start, line, startLine⟩ := s
  cases start with
  | initial => rfl
  | comment => cases h
  | quote =>
    obtain ⟨s, hError, -⟩ := bind_eq_ok h
    obtain ⟨t, hNext, hToken⟩ := bind_eq_ok hError
    obtain ⟨r, hQuote, hOk⟩ := bind_eq_ok hNext
    cases hOk
    obtain ⟨body, -, hText | hText⟩ := quote_sound hQuote <;> simp [hText] at hToken

/-! ## The message -/

/-- Enclosing double quotes do not count. -/
def unquote (message : Word) : Word :=
  if wrapped message ∧ 2 ≤ message.length then message.tail.dropLast else message

theorem wrapped_cases {message : Word} (h : wrapped message = true) :
    message = ['"'] ∨ ∃ inner, message = '"' :: (inner ++ ['"']) := by
  rw [wrapped, Bool.and_eq_true, decide_eq_true_eq, decide_eq_true_eq] at h
  obtain ⟨rest, rfl⟩ := List.head?_eq_some_iff.mp h.1
  rcases List.eq_nil_or_concat rest with rfl | ⟨inner, c, rfl⟩
  · exact Or.inl rfl
  · obtain ⟨-, hLast⟩ := h
    rw [List.concat_eq_append, ← List.cons_append, List.getLast?_append] at hLast
    have hChar : c = '"' := by simpa using hLast
    exact Or.inr ⟨inner, by rw [List.concat_eq_append, hChar]⟩

@[simp] theorem unquote_wrapped (inner : Word) : unquote ('"' :: (inner ++ ['"'])) = inner := by
  have hWrapped : wrapped ('"' :: (inner ++ ['"'])) = true := by
    simp [wrapped, List.getLast?_cons]
  rw [unquote, if_pos ⟨hWrapped, by simp⟩]
  simp

theorem unquote_of_not_wrapped {message : Word} (h : wrapped message = false) : unquote message = message :=
  if_neg (by simp [h])

theorem eq_or_unquote (message : Word) :
    unquote message = message ∨ message = '"' :: (unquote message ++ ['"']) := by
  cases h : wrapped message with
  | false => exact Or.inl (unquote_of_not_wrapped h)
  | true =>
    obtain rfl | ⟨inner, rfl⟩ := wrapped_cases h
    · exact Or.inl rfl
    · exact Or.inr (by rw [unquote_wrapped])

theorem nul_unquote (message : Word) : Char.ofNat 0 ∉ unquote message ↔ Char.ofNat 0 ∉ message := by
  obtain hSame | hWrapped := eq_or_unquote message
  · rw [hSame]
  · rw [hWrapped, unquote_wrapped]
    simp

theorem printed_eq {message : Word} (hNul : Char.ofNat 0 ∉ message) (hLone : message ≠ ['"']) :
    printed message = '"' :: (unquote message ++ ['"']) := by
  rw [printed, cString_of_no_null hNul]
  cases h : wrapped message with
  | false => rw [unquote_of_not_wrapped h]; rfl
  | true =>
    obtain rfl | ⟨inner, rfl⟩ := wrapped_cases h
    · exact absurd rfl hLone
    · rw [unquote_wrapped]; rfl

/-- What is printed starts with a double quote, and no null character is in it. -/
theorem printed_cons (message : Word) : ∃ cs, printed message = '"' :: cs ∧ Char.ofNat 0 ∉ cs := by
  have hNul : Char.ofNat 0 ∉ cString message := fun h => by simpa using List.mem_takeWhile_imp h
  cases h : wrapped message with
  | false => exact ⟨cString message ++ ['"'], by rw [printed, h]; rfl, by simpa using hNul⟩
  | true =>
    obtain rfl | ⟨inner, rfl⟩ := wrapped_cases h
    · exact ⟨[], rfl, by simp⟩
    · exact ⟨cString (inner ++ ['"']), by rw [printed, h]; rfl, fun hMem => hNul (List.mem_cons_of_mem _ hMem)⟩

/-! ## Printing and parsing -/

def RoundTrips (e : Error) (s : Scanner) : Prop :=
  ∀ e₀ : Error, ∃ e', e₀.parse e.print s = .ok (e', true) ∧ e'.code = e.code ∧
    unquote e'.message = unquote e.message

theorem ok_of_message {e : Error} (h : e.message ≠ []) : e.OK = true ↔ e.code ≠ undefinedError := by
  simp [Error.OK, h]

theorem ok_of_empty {e : Error} (h : e.message = []) : e.OK = true ↔ e.code = undefinedError := by
  simp [Error.OK, h]

theorem parse_ok {e₀ e' : Error} {file : Word} {s : Scanner} (h : e₀.parse file s = .ok (e', true)) :
    errorparse e₀ { s with rest := file } = .ok e' ∧ e'.OK = true := by
  rw [Error.parse] at h
  cases hParse : errorparse e₀ { s with rest := file } with
  | error f =>
    rw [hParse] at h
    cases f <;> cases h
  | ok e₁ =>
    rw [hParse] at h
    have hPair := Except.ok.inj h
    obtain rfl : e₁ = e' := congrArg Prod.fst hPair
    exact ⟨rfl, congrArg Prod.snd hPair⟩

theorem parse_print {e : Error} (hNul : Char.ofNat 0 ∉ e.message) (hClean : Clean (unquote e.message) = true)
    (e₀ : Error) (line startLine : Nat) :
    errorparse e₀ ⟨e.print, .initial, line, startLine⟩ =
      .ok ⟨readCode e.code, '"' :: (unquote e.message ++ ['"'])⟩ := by
  have hLone : e.message ≠ ['"'] := by
    rintro hMessage
    rw [hMessage] at hClean
    cases hClean
  have hInner := (nul_unquote e.message).mpr hNul
  have hWord : cString ('"' :: (unquote e.message ++ ['"'])) = '"' :: (unquote e.message ++ ['"']) :=
    cString_of_no_null (by simpa using hInner)
  obtain ⟨last, hQuote⟩ := quote_complete hClean ['"'] closing (line + 2)
  have hStr : Scanner.expectStr ⟨_, .initial, line + 2, startLine⟩ = .ok (_, _) := expectStr_iff.mpr hQuote
  rw [errorparse_print, printed_eq hNul hLone, List.cons_append, List.append_assoc]
  simp only [List.singleton_append] at hStr ⊢
  rw [hStr, ok_bind, afterMessage_closing, hWord]
  rfl

/-- The message that is stored is that of the printed object when the two are the same without double quotes. -/
theorem clean_of_parse {e e₀ e' : Error} {line startLine : Nat}
    (h : errorparse e₀ ⟨e.print, .initial, line, startLine⟩ = .ok e') :
    e'.code = readCode e.code ∧ e'.message ≠ [] ∧ (unquote e'.message = unquote e.message →
      Char.ofNat 0 ∉ e.message ∧ Clean (unquote e.message) = true) := by
  obtain ⟨cs, hPrinted, hNul⟩ := printed_cons e.message
  rw [errorparse_print, hPrinted, List.cons_append] at h
  obtain ⟨⟨w, s⟩, hStr, hAfter⟩ := bind_eq_ok h
  have hQuote := expectStr_iff.mp hStr
  have hWord : Char.ofNat 0 ∉ w := by
    rintro hMem
    have hFrom := quote_chars hQuote _ hMem
    simp [closing, hNul] at hFrom
  rw [afterMessage_ok hAfter, Error.setErrorMessage, cString_of_no_null hWord]
  obtain ⟨body, hBody, hText | hText⟩ := quote_sound hQuote
  · have hString : w = '"' :: (body ++ ['"']) := Token.str.inj hText
    refine ⟨rfl, by simp [hString], ?_⟩
    rintro hSame
    rw [hString, unquote_wrapped] at hSame
    rw [← nul_unquote, ← hSame]
    exact ⟨fun h => hWord (by simp [hString, h]), hBody⟩
  -- The start of the text is lost, so that the message that is stored starts with the end of a line.
  · have hString : w = '\n' :: (body ++ ['"']) := Token.str.inj hText
    refine ⟨rfl, by simp [hString], ?_⟩
    rintro hSame
    have hInner : unquote e.message = '\n' :: (body ++ ['"']) := by
      rw [← hSame, hString]
      exact unquote_of_not_wrapped (by simp [wrapped])
    have hMessage : Char.ofNat 0 ∉ e.message := by
      rw [← nul_unquote, hInner, ← hString]
      exact hWord
    have hLone : e.message ≠ ['"'] := by
      rintro hLone
      rw [hLone] at hInner
      cases hInner
    rw [printed_eq hMessage hLone, hInner] at hPrinted
    have hText : cs ++ closing = ('\n' :: body) ++ '"' :: '"' :: closing := by
      rw [← List.tail_eq_of_cons_eq hPrinted]
      simp
    have hLine : Clean ('\n' :: body) = true := by
      rw [clean_char (by decide) (by decide), hBody]
    obtain ⟨last, hComplete⟩ := quote_complete hLine ['"'] ('"' :: closing) (line + 2)
    rw [hText, hComplete, hString] at hQuote
    cases hQuote

/-- The text of a valid object is parsed to the same object exactly for a scanner that is outside of quotes and comments,
a message that is one string for it, and a code without a sign. -/
theorem roundTrips_iff (e : Error) (s : Scanner) (h : e.OK = true) :
    RoundTrips e s ↔ s.start = .initial ∧ e.message ≠ [] ∧ (0 ≤ e.code.val ∨ e.code.val = -2147483648) ∧
      Char.ofNat 0 ∉ e.message ∧ Clean (unquote e.message) = true := by
  obtain ⟨rest, start, line, startLine⟩ := s
  constructor
  · rintro hTrips
    obtain ⟨e', hParse, hCode, hMessage⟩ := hTrips e
    obtain ⟨hParse, hOK⟩ := parse_ok hParse
    obtain rfl : start = .initial := start_of_errorparse hParse
    obtain ⟨hRead, hNe, hClean⟩ := clean_of_parse hParse
    refine ⟨rfl, ?_, (readCode_eq_iff e.code).mp (hRead ▸ hCode), hClean hMessage⟩
    rintro hEmpty
    have hUndefined := (ok_of_empty hEmpty).mp h
    exact (ok_of_message hNe).mp hOK (hCode.trans hUndefined)
  · rintro ⟨hStart, hNe, hCode, hNul, hClean⟩ e₀
    obtain rfl : start = .initial := hStart
    refine ⟨⟨readCode e.code, '"' :: (unquote e.message ++ ['"'])⟩, ?_, (readCode_eq_iff e.code).mpr hCode,
      unquote_wrapped _⟩
    have hOK : (⟨readCode e.code, '"' :: (unquote e.message ++ ['"'])⟩ : Error).OK = true := by
      rw [ok_of_message (List.cons_ne_nil _ _), (readCode_eq_iff e.code).mpr hCode]
      exact (ok_of_message hNe).mp h
    rw [Error.parse, parse_print hNul hClean]
    exact congrArg (fun ok => Except.ok (_, ok)) hOK

theorem escaped_message_round_trips : RoundTrips ⟨⟨1003, by decide⟩, "no \\\"x\\\"\nhere".toList⟩
    ⟨[], .initial, 1, 1⟩ :=
  of_literal (p := fun l => RoundTrips ⟨⟨1003, by decide⟩, l⟩ ⟨[], .initial, 1, 1⟩) rfl
    ((roundTrips_iff _ _ (by decide)).mpr ⟨rfl, by decide, Or.inl (by decide), by decide, by decide⟩)

-- In one block: the kernel evaluates one text behind the other.
mutual

theorem inner_quotes_ok : Error.OK ⟨⟨1003, by decide⟩, "no \"x\" here".toList⟩ = true := by decide

theorem inner_quotes_parsed : (Error.mk undefinedError []).parse
    (Error.print ⟨⟨1003, by decide⟩, "no \"x\" here".toList⟩) ⟨[], .initial, 1, 1⟩ =
      .error (.InternalErr "syntax error line: 3\n") := by decide +kernel

end

/-- A double quote in the message ends it, and what is behind it is a syntax error. -/
theorem inner_quotes_refused :
    Error.OK ⟨⟨1003, by decide⟩, "no \"x\" here".toList⟩ = true ∧
    ¬ RoundTrips ⟨⟨1003, by decide⟩, "no \"x\" here".toList⟩ ⟨[], .initial, 1, 1⟩ := by
  refine ⟨inner_quotes_ok, ?_⟩
  rintro hTrips
  obtain ⟨e', hParse, -⟩ := hTrips ⟨undefinedError, []⟩
  rw [inner_quotes_parsed] at hParse
  cases hParse

end Libdap.ErrorObject
