import Libdap.Constraint.Keywords
import Mathlib.Data.List.Induction

/-! # Expressions behind keyword clauses

The clauses of keywords are taken off, and of what is left the escapes have been undone once before the scanner's names
are read back. The two readings agree where no escape hides a character that the scanner tells apart.
-/

namespace Libdap.Constraint
open Core
set_option autoImplicit false

/-! ## Expressions -/

/-- A keyword with one of its values. -/
structure Keyword where
  word : Word
  value : Word
  hKnown : ∃ values, Keywords.knownKeywords.lookup word = some values ∧ value ∈ values

namespace Keyword

def text (k : Keyword) : Word := k.word ++ '(' :: (k.value ++ [')'])

end Keyword

/-- A part of a projection or selection, in which characters may be escaped. -/
inductive Piece
  | name (tokens : List Escaping.Token)
  | str (tokens : List Escaping.Token)
  | sign (token : Token)

/-- The text after its escapes other than `%20` have been undone. -/
def undoneOf (tokens : List Escaping.Token) : Word := tokens.flatMap (Escaping.Token.left [Keywords.except])

namespace Piece

def text : Piece → Word
  | name tokens => Escaping.textOf tokens
  | str tokens => '"' :: (Escaping.textOf tokens ++ ['"'])
  | sign token => signText token

def undone : Piece → Word
  | name tokens => undoneOf tokens
  | str tokens => '"' :: (undoneOf tokens ++ ['"'])
  | sign token => signText token

/-- What the scanner reads of the text. -/
def token : Piece → Token
  | name tokens => .scanWord (truncated (Escaping.textOf tokens))
  | str tokens => .scanStr (Escaping.textOf tokens)
  | sign token => token

/-- The name is no longer than an identifier of the scanner. -/
def Fits : Piece → Prop
  | name tokens => (Escaping.textOf tokens).length < ID_MAX
  | _ => True

end Piece

def textOf (pieces : List Piece) : Word := pieces.flatMap Piece.text

def undoneText (pieces : List Piece) : Word := pieces.flatMap Piece.undone

/-- Each piece ends where the next begins. -/
def Reads : List Piece → Prop
  | [] => True
  | p :: ps => Spells p.text p.token ∧ EndsAt p.token (textOf ps) ∧ Reads ps

/-- The clause that the loop looks at is not one of a keyword. -/
def NoKeyword (text : Word) : Prop :=
  ∀ word value, Keywords.fParseKeyword ((text.takeWhile (· ≠ '&')).takeWhile (· ≠ ',')) = some (word, value) →
    Keywords.knownKeywords.lookup word = none

/-- The projection and the selection behind the keyword clauses. -/
structure Remainder where
  pieces : List Piece
  hReads : Reads pieces
  hNoKeyword : NoKeyword (textOf pieces)

/-- The clauses with their commas; no comma stands before a selection or at the end. -/
def expression (kws : List Keyword) (rest : Word) : Word :=
  if kws = [] then rest
  else [','].intercalate (kws.map Keyword.text) ++
    (if rest = [] ∨ rest.head? = some '&' then [] else [',']) ++ rest

def lastValue (kws : List Keyword) (word : Word) : Option Word :=
  (kws.reverse.find? fun k => k.word = word).map Keyword.value

/-- The last values are recorded, and what is returned means what the text behind the clauses does, whatever a variable
that was never set holds. -/
def KeywordsParsed (kws : List Keyword) (rest : Remainder) : Prop :=
  ∀ unset : Word, unset.length ≤ 1 →
    ∃ parsed ce, Keywords.parseKeywords unset (fun _ => none) (expression kws (textOf rest.pieces)) =
        some (.ok (parsed, ce)) ∧
      parsed = lastValue kws ∧ denote unset ce = denote unset (textOf rest.pieces)

namespace Piece

/-- An escape that can be undone: a blank, which is kept, or a character of names. -/
def Harmless (token : Escaping.Token) : Prop :=
  token.text = Keywords.except ∨ ∃ c, token.meaning = [c] ∧ isWordChar c = true ∧ c ≠ '%'

/-- Names have escapes of blanks and of their own characters only, and names that are cut, as strings, of blanks only. -/
def Kept : Piece → Prop
  | name tokens => (∀ token ∈ tokens, Harmless token) ∧ (∀ c ∈ (undoneOf tokens).head?, isWordStart c = true) ∧
    ((name tokens).Fits ∨ undoneOf tokens = Escaping.textOf tokens)
  | str tokens => ∀ token ∈ tokens, token.left [Keywords.except] = token.text
  | sign _ => True

end Piece

/-- No escape hides a character that separates, and undoing them makes no clause of a keyword. -/
def Remainder.Kept (rest : Remainder) : Prop := (∀ p ∈ rest.pieces, p.Kept) ∧ NoKeyword (undoneText rest.pieces)

/-! ## The loop over the clauses -/

namespace Keywords

theorem keywordLoop_congr {n m : Nat} {projection : Word} (parsed : Parsed) (hn : projection.length ≤ n)
    (hm : projection.length ≤ m) : keywordLoop n parsed projection = keywordLoop m parsed projection := by
  have hNil (k : Nat) (parsed : Parsed) : keywordLoop k parsed [] = .ok (parsed, []) := by cases k <;> rfl
  induction n generalizing m parsed projection with
  | zero => rw [List.length_eq_zero_iff.mp (Nat.le_zero.mp hn), hNil, hNil]
  | succ n ih =>
    obtain _ | ⟨c, cs⟩ := projection
    · rw [hNil, hNil]
    · obtain ⟨m, rfl⟩ := Nat.exists_eq_succ_of_ne_zero (Nat.ne_of_gt (Nat.lt_of_lt_of_le (Nat.succ_pos _) hm))
      have hShorter : (((c :: cs).dropWhile (· ≠ ',')).drop 1).length ≤ cs.length := by
        rw [List.length_drop]
        have hLess := List.length_dropWhile_le (· ≠ ',') (c :: cs)
        rw [List.length_cons] at hLess
        omega
      rw [keywordLoop, keywordLoop, if_neg (by simp), if_neg (by simp)]
      split
      · rfl
      · rename_i word value _
        have hRest := ih (m := m) (mAddKeyword parsed word value) (hShorter.trans (Nat.le_of_succ_le_succ hn))
          (hShorter.trans (Nat.le_of_succ_le_succ hm))
        rw [hRest]

theorem keywordLoop_nil (n : Nat) (parsed : Parsed) : keywordLoop n parsed [] = .ok (parsed, []) := by cases n <;> rfl

/-- The loop with as many rounds as it needs. -/
def loop (parsed : Parsed) (projection : Word) : Except Fault (Parsed × Word) :=
  keywordLoop projection.length parsed projection

theorem keywordLoop_eq {n : Nat} {projection : Word} (parsed : Parsed) (hn : projection.length ≤ n) :
    keywordLoop n parsed projection = loop parsed projection :=
  keywordLoop_congr parsed hn (Nat.le_refl _)

theorem loop_step {parsed : Parsed} {projection word value : Word} (hSome : projection ≠ [])
    (hParse : fParseKeyword (projection.takeWhile (· ≠ ',')) = some (word, value))
    (hValid : mIsValidKeyword word value = .ok true) :
    loop parsed projection = loop (mAddKeyword parsed word value) ((projection.dropWhile (· ≠ ',')).drop 1) := by
  obtain ⟨c, cs, rfl⟩ := List.exists_cons_of_ne_nil hSome
  have hLess := List.length_dropWhile_le (· ≠ ',') (c :: cs)
  rw [List.length_cons] at hLess
  rw [loop, List.length_cons, keywordLoop, if_neg (by simp), hParse]
  dsimp only
  rw [hValid]
  exact keywordLoop_eq _ (by rw [List.length_drop]; omega)

theorem loop_stop {parsed : Parsed} {projection : Word}
    (h : ∀ word value, fParseKeyword (projection.takeWhile (· ≠ ',')) = some (word, value) →
      knownKeywords.lookup word = none) : loop parsed projection = .ok (parsed, projection) := by
  obtain _ | ⟨c, cs⟩ := projection
  · rfl
  · rw [loop, List.length_cons, keywordLoop, if_neg (by simp)]
    split
    · rfl
    · rename_i word value hParse
      rw [mIsValidKeyword, h word value hParse]
      rfl

end Keywords

namespace Keyword
open Keywords

theorem mIsValidKeyword_eq (k : Keyword) : mIsValidKeyword k.word k.value = .ok true := by
  obtain ⟨values, hWord, hValue⟩ := k.hKnown
  rw [mIsValidKeyword, hWord]
  exact if_pos (List.contains_iff_mem.mpr hValue)

theorem listed (k : Keyword) : ∃ values, (k.word, values) ∈ knownKeywords ∧ k.value ∈ values := by
  obtain ⟨values, hWord, hValue⟩ := k.hKnown
  obtain ⟨before, after, hSplit, -⟩ := List.lookup_eq_some_iff.mp hWord
  exact ⟨values, by rw [hSplit]; simp, hValue⟩

theorem fParseKeyword_text (k : Keyword) : fParseKeyword k.text = some (k.word, k.value) := by
  have hAll : ∀ p ∈ knownKeywords, ∀ v ∈ p.2, fParseKeyword (p.1 ++ '(' :: (v ++ [')'])) = some (p.1, v) := by decide
  obtain ⟨values, hWord, hValue⟩ := k.listed
  exact hAll _ hWord _ hValue

theorem text_free (k : Keyword) {c : Char} (hc : c = '%' ∨ c = '&' ∨ c = ',') : c ∉ k.text := by
  have hAll : ∀ p ∈ knownKeywords, ∀ v ∈ p.2,
      '%' ∉ p.1 ++ '(' :: (v ++ [')']) ∧ '&' ∉ p.1 ++ '(' :: (v ++ [')']) ∧ ',' ∉ p.1 ++ '(' :: (v ++ [')']) := by
    decide
  obtain ⟨values, hWord, hValue⟩ := k.listed
  obtain ⟨hPercent, hAmpersand, hComma⟩ := hAll _ hWord _ hValue
  rcases hc with rfl | rfl | rfl
  · exact hPercent
  · exact hAmpersand
  · exact hComma

theorem text_ne_nil (k : Keyword) : k.text ≠ [] := List.append_ne_nil_of_right_ne_nil _ (List.cons_ne_nil _ _)

end Keyword

namespace Keywords

theorem takeWhile_free {c : Char} {w : Word} (h : c ∉ w) : w.takeWhile (· ≠ c) = w ∧ w.dropWhile (· ≠ c) = [] := by
  have hAll : ∀ d ∈ w, decide (d ≠ c) = true := fun d hd => decide_eq_true fun hSame => h (hSame ▸ hd)
  exact ⟨List.takeWhile_eq_self_iff.mpr hAll, List.dropWhile_eq_nil_iff.mpr hAll⟩

theorem takeWhile_before {c : Char} {w : Word} (h : c ∉ w) (r : Word) :
    (w ++ r).takeWhile (· ≠ c) = w ++ r.takeWhile (· ≠ c) ∧ (w ++ r).dropWhile (· ≠ c) = r.dropWhile (· ≠ c) := by
  have hAll : ∀ d ∈ w, decide (d ≠ c) = true := fun d hd => decide_eq_true fun hSame => h (hSame ▸ hd)
  exact ⟨List.takeWhile_append_of_pos hAll, List.dropWhile_append_of_pos hAll⟩

/-- The clauses of keywords are all taken. -/
theorem loop_keywords (k : Keyword) (ks : List Keyword) (parsed : Parsed) {sep projection : Word}
    (hSep : sep = [','] ∨ sep = [] ∧ projection = []) :
    loop parsed ([','].intercalate ((k :: ks).map Keyword.text) ++ sep ++ projection) =
      loop ((k :: ks).foldl (fun parsed k => mAddKeyword parsed k.word k.value) parsed) projection := by
  have hComma (k : Keyword) (parsed : Parsed) (r : Word) :
      loop parsed (k.text ++ ',' :: r) = loop (mAddKeyword parsed k.word k.value) r := by
    obtain ⟨hTake, hDrop⟩ := takeWhile_before (k.text_free (.inr (.inr rfl))) (',' :: r)
    have hParse : fParseKeyword ((k.text ++ ',' :: r).takeWhile (· ≠ ',')) = some (k.word, k.value) := by
      rw [hTake, List.takeWhile_cons_of_neg (by simp), List.append_nil, k.fParseKeyword_text]
    rw [loop_step (List.append_ne_nil_of_left_ne_nil k.text_ne_nil _) hParse k.mIsValidKeyword_eq, hDrop,
      List.dropWhile_cons_of_neg (by simp), List.drop_succ_cons, List.drop_zero]
  induction ks generalizing k parsed with
  | nil =>
    rw [List.map_singleton, List.intercalate_singleton, List.foldl_cons, List.foldl_nil]
    rcases hSep with rfl | ⟨rfl, rfl⟩
    · rw [List.append_assoc, List.singleton_append, hComma]
    · obtain ⟨hTake, hDrop⟩ := takeWhile_free (k.text_free (.inr (.inr rfl)))
      rw [List.append_nil, List.append_nil, loop_step k.text_ne_nil (by rw [hTake, k.fParseKeyword_text])
        k.mIsValidKeyword_eq, hDrop, List.drop_nil]
  | cons k' ks ih =>
    rw [List.map_cons, List.map_cons, List.intercalate_cons_cons, List.append_assoc, List.append_assoc,
      List.append_assoc,
      List.singleton_append, hComma, List.foldl_cons, ← List.map_cons, ← List.append_assoc]
    exact ih k' _

theorem lastValue_concat (kws : List Keyword) (k : Keyword) :
    lastValue (kws ++ [k]) = Function.update (lastValue kws) k.word (some k.value) := by
  funext word
  rw [lastValue, List.reverse_append, List.reverse_singleton, List.singleton_append]
  by_cases hWord : k.word = word
  · rw [List.find?_cons_of_pos (by simpa using hWord), ← hWord, Function.update_self]
    rfl
  · rw [List.find?_cons_of_neg (by simpa using hWord), Function.update_of_ne (Ne.symm hWord)]
    rfl

theorem foldl_lastValue (kws : List Keyword) :
    kws.foldl (fun parsed k => mAddKeyword parsed k.word k.value) (fun _ => none) = lastValue kws := by
  induction kws using List.reverseRecOn with
  | nil => rfl
  | append_singleton kws k ih =>
    rw [List.foldl_append, List.foldl_cons, List.foldl_nil, ih, lastValue_concat]
    rfl

/-! ## The escapes undone -/

theorem isCode_except : ∀ code ∈ [except], Escaping.IsCode code := by
  rintro code hCode
  rw [List.mem_singleton.mp hCode]
  exact ⟨'2', '0', rfl, by decide, by decide⟩

/-- A text and what it becomes when its escapes are undone. -/
def Undone (text undone : Word) : Prop := ∃ tokens, Escaping.textOf tokens = text ∧ undoneOf tokens = undone

theorem Undone.append {text text' undone undone' : Word} (h : Undone text undone) (h' : Undone text' undone') :
    Undone (text ++ text') (undone ++ undone') := by
  obtain ⟨tokens, rfl, rfl⟩ := h
  obtain ⟨tokens', rfl, rfl⟩ := h'
  exact ⟨tokens ++ tokens', List.flatMap_append, List.flatMap_append⟩

theorem left_plain (codes : List Word) (c : Char) (hPlain : c ≠ '%') :
    (Escaping.Token.plain c hPlain).left codes = [c] := by
  rw [Escaping.Token.left]
  split <;> rfl

theorem undone_free {w : Word} (h : '%' ∉ w) : Undone w w := by
  induction w with
  | nil => exact ⟨[], rfl, rfl⟩
  | cons c w ih =>
    obtain ⟨hc, hw⟩ := not_or.mp (mt List.mem_cons.mpr h)
    have hFirst : Undone [c] [c] :=
      ⟨[.plain c (Ne.symm hc)], rfl, by rw [undoneOf, List.flatMap_singleton, left_plain]⟩
    exact hFirst.append (ih hw)

theorem undone_pieces {ps : List Piece} (h : Reads ps) : Undone (Constraint.textOf ps) (undoneText ps) := by
  induction ps with
  | nil => exact ⟨[], rfl, rfl⟩
  | cons p ps ih =>
    obtain ⟨hSpells, -, hRest⟩ := h
    refine Undone.append ?_ (ih hRest)
    have hQuote : Undone ['"'] ['"'] := undone_free (by decide)
    cases p with
    | name tokens => exact ⟨tokens, rfl, rfl⟩
    | str tokens => exact hQuote.append (Undone.append ⟨tokens, rfl, rfl⟩ hQuote)
    | sign token => exact undone_free (sign_free (isSign_of_spells hSpells))

theorem www2id_undone {text undone : Word} (h : Undone text undone) (unset : Word) :
    Escaping.www2id unset text ['%'] except = some undone := by
  obtain ⟨tokens, rfl, rfl⟩ := h
  exact Escaping.www2id_tokens unset tokens isCode_except

theorem Undone.nil {undone : Word} (h : Undone [] undone) : undone = [] := by
  obtain ⟨_ | ⟨token, tokens⟩, hText, rfl⟩ := h
  · rfl
  · cases token <;> cases hText

theorem Undone.head {c : Char} {r undone : Word} (h : Undone (c :: r) undone) (hc : c ≠ '%') :
    ∃ u, undone = c :: u := by
  obtain ⟨_ | ⟨token, tokens⟩, hText, rfl⟩ := h
  · cases hText
  · cases token with
    | plain d hPlain =>
      obtain ⟨rfl, -⟩ := List.cons.inj hText
      rw [undoneOf, List.flatMap_cons, left_plain]
      exact ⟨_, rfl⟩
    | triple hi lo hDigits hByte => exact absurd (List.cons.inj hText).1.symm hc

theorem joined_free (kws : List Keyword) {c : Char} (hc : c = '%' ∨ c = '&') :
    c ∉ [','].intercalate (kws.map Keyword.text) := by
  have hText (k : Keyword) : c ∉ k.text := k.text_free (hc.imp_right .inl)
  induction kws with
  | nil => exact List.not_mem_nil
  | cons k ks ih =>
    by_cases hLast : ks = []
    · rw [hLast, List.map_singleton, List.intercalate_singleton]
      exact hText k
    · rw [List.map_cons, List.intercalate_cons_of_ne_nil (by simpa using hLast)]
      have hComma : c ≠ ',' := by
        rintro rfl
        revert hc
        decide
      simp only [List.mem_append, List.mem_singleton, hText k, ih, hComma, or_self, not_false_eq_true]

/-- What is left behind the keyword clauses is what the loop leaves of it. -/
theorem parseKeywords_eq (kws : List Keyword) {ps : List Piece} (hReads : Reads ps) (unset : Word) :
    parseKeywords unset (fun _ => none) (expression kws (Constraint.textOf ps)) =
      some (do
        let (parsed, projection) ← loop (lastValue kws) ((undoneText ps).takeWhile (· ≠ '&'))
        .ok (parsed, projection ++ (undoneText ps).dropWhile (· ≠ '&'))) := by
  obtain _ | ⟨k, ks⟩ := kws
  · rw [parseKeywords, expression, if_pos rfl, www2id_undone (undone_pieces hReads)]
    rfl
  · have hRest := undone_pieces hReads
    obtain ⟨sep, hSep, hFree⟩ : ∃ sep, expression (k :: ks) (Constraint.textOf ps) =
        [','].intercalate ((k :: ks).map Keyword.text) ++ sep ++ Constraint.textOf ps ∧
          (sep = [','] ∨ sep = [] ∧ (undoneText ps).takeWhile (· ≠ '&') = []) := by
      rw [expression, if_neg (List.cons_ne_nil k ks)]
      split
      · rename_i hNone
        refine ⟨[], rfl, .inr ⟨rfl, ?_⟩⟩
        rcases hNone with hNil | hSelection
        · rw [hNil] at hRest
          rw [hRest.nil, List.takeWhile_nil]
        · obtain ⟨r, hCons⟩ := List.head?_eq_some_iff.mp hSelection
          rw [hCons] at hRest
          obtain ⟨u, hu⟩ := hRest.head (by decide)
          rw [hu, List.takeWhile_cons_of_neg (by simp)]
      · exact ⟨[','], rfl, .inl rfl⟩
    have hNoAmp : '&' ∉ [','].intercalate ((k :: ks).map Keyword.text) ++ sep := by
      rw [List.mem_append]
      refine not_or_intro (joined_free _ (.inr rfl)) ?_
      rcases hFree with rfl | ⟨rfl, -⟩ <;> decide
    have hNoPercent : '%' ∉ [','].intercalate ((k :: ks).map Keyword.text) ++ sep := by
      rw [List.mem_append]
      refine not_or_intro (joined_free _ (.inl rfl)) ?_
      rcases hFree with rfl | ⟨rfl, -⟩ <;> decide
    obtain ⟨hTake, hDrop⟩ := takeWhile_before hNoAmp (undoneText ps)
    rw [parseKeywords, hSep, www2id_undone ((undone_free hNoPercent).append hRest), Option.map_some, parseText]
    dsimp only
    rw [hTake, hDrop, ← loop, loop_keywords k ks _ hFree, foldl_lastValue]

end Keywords

end Libdap.Constraint
