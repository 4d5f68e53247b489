import Libdap.Constraint.KeywordClauses

/-! # Names read back twice

Behind the keyword clauses a text has its escapes undone, and the names that are scanned of it are read back. This is
compared with the names of the text as it was written.
-/

namespace Libdap.Constraint
open Core
set_option autoImplicit false

/-! ## The meaning of an expression as it is written -/

theorem textOf_cons (p : Piece) (ps : List Piece) : textOf (p :: ps) = p.text ++ textOf ps := List.flatMap_cons

theorem undoneText_cons (p : Piece) (ps : List Piece) : undoneText (p :: ps) = p.undone ++ undoneText ps :=
  List.flatMap_cons

theorem denote_reads {ps : List Piece} (h : Reads ps) (unset : Word) :
    denote unset (textOf ps) = .ok (ps.map fun p => p.token.readBack unset) := by
  induction ps with
  | nil => rfl
  | cons p ps ih =>
    obtain ⟨hSpells, hEnd, hRest⟩ := h
    rw [textOf_cons, denote_map (scan_spelled hSpells hEnd), ih hRest]
    rfl

/-- The tokens in front of a text are read back one by one. -/
theorem www2id_append {unset : Word} (hUnset : unset.length ≤ 1) (tokens : List Escaping.Token) (r : Word) :
    Dap2.www2id unset (Escaping.textOf tokens ++ r) = Escaping.meaningOf tokens ++ Dap2.www2id unset r := by
  have hNil : ∀ code ∈ ([] : List Word), Escaping.IsCode code := fun _ h => absurd h List.not_mem_nil
  have hSweep : InPlace.sweep (Escaping.unescapeAt unset ['%'] []) (tokens.length + (r.length + 1))
      (Escaping.textOf tokens ++ r) 0 = some (Escaping.meaningOf tokens ++ Dap2.www2id unset r) := by
    induction tokens with
    | nil =>
      rw [List.length_nil, Nat.zero_add]
      exact Escaping.www2id_eq hUnset r
    | cons token tokens ih =>
      have hStep := Escaping.sweep_token unset hNil token ih
      rw [Escaping.left_nil] at hStep
      rw [List.length_cons, Nat.add_right_comm, Escaping.textOf, List.flatMap_cons, Escaping.meaningOf,
        List.flatMap_cons, List.append_assoc, List.append_assoc]
      exact hStep
  have hLength := Escaping.length_le_textOf tokens
  have hAll := Escaping.www2id_eq hUnset (Escaping.textOf tokens ++ r)
  rw [Escaping.www2id, InPlace.sweep_mono hSweep (by rw [List.length_append]; omega)] at hAll
  exact (Option.some.inj hAll).symm

theorem www2id_textOf {unset : Word} (hUnset : unset.length ≤ 1) (tokens : List Escaping.Token) :
    Dap2.www2id unset (Escaping.textOf tokens) = Escaping.meaningOf tokens := by
  have h := www2id_append hUnset tokens []
  rwa [List.append_nil, show Dap2.www2id unset [] = [] from rfl, List.append_nil] at h

/-! ## Escapes that can be undone -/

theorem left_of_text {token : Escaping.Token} (h : token.text = Keywords.except) :
    token.left [Keywords.except] = token.text := by
  rw [Escaping.Token.left, if_pos (by rw [h]; rfl)]

theorem left_of_not {token : Escaping.Token} (h : token.text ≠ Keywords.except) :
    token.left [Keywords.except] = token.meaning := by
  rw [Escaping.Token.left, if_neg (by simpa using h)]

theorem meaning_single (token : Escaping.Token) : ∃ c, token.meaning = [c] := by
  cases token with
  | plain c hPlain => exact ⟨c, rfl⟩
  | triple hi lo hDigits hByte => exact ⟨_, rfl⟩

/-- After the escapes have been undone the text is still one of tokens with the same meaning. -/
theorem harmless_tokens {tokens : List Escaping.Token} (h : ∀ token ∈ tokens, Piece.Harmless token) :
    ∃ tokens' : List Escaping.Token, Escaping.textOf tokens' = undoneOf tokens ∧
      Escaping.meaningOf tokens' = Escaping.meaningOf tokens := by
  induction tokens with
  | nil => exact ⟨[], rfl, rfl⟩
  | cons token tokens ih =>
    obtain ⟨hToken, hTokens⟩ := List.forall_mem_cons.mp h
    obtain ⟨tokens', hText, hMeaning⟩ := ih hTokens
    obtain ⟨token', hText', hMeaning'⟩ : ∃ token' : Escaping.Token, token'.text = token.left [Keywords.except] ∧
        token'.meaning = token.meaning := by
      by_cases hBlank : token.text = Keywords.except
      · exact ⟨token, (left_of_text hBlank).symm, rfl⟩
      · rcases hToken with hExcept | ⟨c, hMeans, -, hPercent⟩
        · exact absurd hExcept hBlank
        · exact ⟨.plain c hPercent, by rw [left_of_not hBlank, hMeans]; rfl, hMeans.symm⟩
    refine ⟨token' :: tokens', ?_, ?_⟩
    · rw [Escaping.textOf, List.flatMap_cons, undoneOf, List.flatMap_cons, hText', ← undoneOf, ← hText]
      rfl
    · rw [Escaping.meaningOf, List.flatMap_cons, Escaping.meaningOf, List.flatMap_cons, hMeaning', ← Escaping.meaningOf,
        ← Escaping.meaningOf, hMeaning]

theorem www2id_undoneOf {unset : Word} (hUnset : unset.length ≤ 1) {tokens : List Escaping.Token}
    (h : ∀ token ∈ tokens, Piece.Harmless token) (r : Word) :
    Dap2.www2id unset (undoneOf tokens ++ r) = Escaping.meaningOf tokens ++ Dap2.www2id unset r := by
  obtain ⟨tokens', hText, hMeaning⟩ := harmless_tokens h
  rw [← hText, ← hMeaning, www2id_append hUnset]

theorem harmless_word {tokens : List Escaping.Token} (h : ∀ token ∈ tokens, Piece.Harmless token) :
    ∀ c ∈ undoneOf tokens, isWordChar c = true := by
  intro c hc
  obtain ⟨token, hToken, hIn⟩ := List.mem_flatMap.mp hc
  by_cases hBlank : token.text = Keywords.except
  · rw [left_of_text hBlank, hBlank] at hIn
    have hAll : ∀ d ∈ Keywords.except, isWordChar d = true := forall_mem_of_all (by decide)
    exact hAll c hIn
  · rcases h token hToken with hExcept | ⟨d, hMeans, hWord, -⟩
    · exact absurd hExcept hBlank
    · rw [left_of_not hBlank, hMeans, List.mem_singleton] at hIn
      rwa [hIn]

theorem length_undoneOf (tokens : List Escaping.Token) :
    (undoneOf tokens).length ≤ (Escaping.textOf tokens).length := by
  induction tokens with
  | nil => exact Nat.le_refl 0
  | cons token tokens ih =>
    rw [undoneOf, List.flatMap_cons, List.length_append, Escaping.textOf, List.flatMap_cons, List.length_append]
    refine Nat.add_le_add ?_ ih
    by_cases hBlank : token.text = Keywords.except
    · exact le_of_eq (congrArg List.length (left_of_text hBlank))
    · rw [left_of_not hBlank]
      cases token with
      | plain c hPlain => exact Nat.le_refl 1
      | triple hi lo hDigits hByte => exact Nat.succ_le_succ (Nat.zero_le 2)

theorem undoneOf_kept {tokens : List Escaping.Token} (h : ∀ token ∈ tokens, token.left [Keywords.except] = token.text) :
    undoneOf tokens = Escaping.textOf tokens :=
  List.flatMap_congr h

theorem undoneOf_ne_nil {tokens : List Escaping.Token} (h : tokens ≠ []) : undoneOf tokens ≠ [] := by
  obtain ⟨token, tokens, rfl⟩ := List.exists_cons_of_ne_nil h
  rw [undoneOf, List.flatMap_cons]
  refine List.append_ne_nil_of_left_ne_nil ?_ _
  by_cases hBlank : token.text = Keywords.except
  · rw [left_of_text hBlank, hBlank]
    exact List.cons_ne_nil _ _
  · obtain ⟨c, hMeans⟩ := meaning_single token
    rw [left_of_not hBlank, hMeans]
    exact List.cons_ne_nil _ _

/-! ## Pieces whose escapes can be undone -/

theorem word_of_spells {w id : Word} (h : Spells w (.scanWord id)) :
    ∃ c cs, w = c :: cs ∧ isWordStart c = true ∧ ∀ d ∈ cs, isWordChar d = true := by
  cases h with
  | word c cs hStart hChars => exact ⟨c, cs, rfl, hStart, hChars⟩
  | sign _ hSign => exact hSign.elim

theorem truncated_short {w : Word} (h : w.length < ID_MAX) : truncated w = w :=
  List.take_of_length_le (Nat.le_pred_of_lt h)

theorem isWordChar_of_start {c : Char} (h : isWordStart c = true) : isWordChar c = true := by
  rw [isWordChar, h, Bool.true_or]

theorem spelled_undone {p : Piece} (hKept : p.Kept) (hSpells : Spells p.text p.token) :
    ∃ token, Spells p.undone token ∧ (∀ c, takesUp token c = takesUp p.token c) ∧
      ∀ unset : Word, unset.length ≤ 1 → token.readBack unset = p.token.readBack unset := by
  cases p with
  | name tokens =>
    obtain ⟨hHarmless, hStart, hLength⟩ := hKept
    obtain ⟨c₀, cs₀, hText, -, -⟩ := word_of_spells hSpells
    have hSome : tokens ≠ [] := by
      rintro rfl
      cases hText
    obtain ⟨c, cs, hUndone⟩ := List.exists_cons_of_ne_nil (undoneOf_ne_nil hSome)
    have hWord := harmless_word hHarmless
    rw [hUndone] at hWord
    have hFirst : isWordStart c = true := hStart c (by rw [hUndone]; rfl)
    refine ⟨.scanWord (truncated (undoneOf tokens)), ?_, fun _ => rfl, fun unset hUnset => congrArg Token.scanWord ?_⟩
    · change Spells (undoneOf tokens) _
      rw [hUndone]
      exact .word c cs hFirst fun d hd => hWord d (List.mem_cons_of_mem c hd)
    · rcases hLength with hFits | hSame
      · have hShort : (Escaping.textOf tokens).length < ID_MAX := hFits
        have hBack := www2id_undoneOf hUnset hHarmless []
        rw [List.append_nil, show Dap2.www2id unset [] = [] from rfl, List.append_nil] at hBack
        rw [truncated_short hShort, truncated_short (Nat.lt_of_le_of_lt (length_undoneOf tokens) hShort), hBack,
          www2id_textOf hUnset]
      · rw [hSame]
  | str tokens =>
    have hSame := undoneOf_kept hKept
    refine ⟨.scanStr (Escaping.textOf tokens), ?_, fun _ => rfl, fun _ _ => rfl⟩
    change Spells ('"' :: (undoneOf tokens ++ ['"'])) _
    rw [hSame]
    exact hSpells
  | sign token => exact ⟨token, hSpells, fun _ => rfl, fun _ _ => rfl⟩

/-- Before a name that begins as one, a token ends where it did. -/
theorem ends_undone {token : Token} {ps : List Piece} (hReads : Reads ps) (hEnd : EndsAt token (textOf ps))
    (hStart : ∀ tokens qs, ps = .name tokens :: qs → ∀ c ∈ (undoneOf tokens).head?, isWordStart c = true) :
    EndsAt token (undoneText ps) := by
  cases ps with
  | nil => exact fun c hc => absurd hc (by simp [undoneText])
  | cons p ps =>
    intro c hc
    rw [undoneText_cons] at hc
    cases p with
    | name tokens =>
      obtain ⟨c₀, cs₀, hText, hStart₀, -⟩ := word_of_spells hReads.1
      have hEnd₀ := hEnd c₀ (by rw [textOf_cons, hText]; rfl)
      have hSome : tokens ≠ [] := by
        rintro rfl
        cases hText
      have hc : c ∈ (undoneOf tokens).head? := by
        rwa [Piece.undone, List.head?_append_of_ne_nil _ (undoneOf_ne_nil hSome)] at hc
      have hFirst := hStart tokens ps rfl c hc
      cases token with
      | scanWord id => exact absurd (hEnd₀.symm.trans (isWordChar_of_start hStart₀)) Bool.false_ne_true
      | scanEqual | scanGreater | scanLess =>
        refine decide_eq_false ?_
        rintro rfl
        exact absurd hFirst (by decide)
      | _ => rfl
    | str tokens => exact hEnd c (by rw [textOf_cons]; exact hc)
    | sign token' =>
      have hSign : signText token' ≠ [] := spells_ne_nil hReads.1
      refine hEnd c ?_
      rw [textOf_cons, Piece.text, List.head?_append_of_ne_nil _ hSign]
      rwa [Piece.undone, List.head?_append_of_ne_nil _ hSign] at hc

/-- Expressions whose escapes can be undone mean the same afterwards. -/
theorem denote_kept {ps : List Piece} (hReads : Reads ps) (hKept : ∀ p ∈ ps, p.Kept) {unset : Word}
    (hUnset : unset.length ≤ 1) : denote unset (undoneText ps) = denote unset (textOf ps) := by
  rw [denote_reads hReads]
  induction ps with
  | nil => rfl
  | cons p ps ih =>
    obtain ⟨hSpells, hEnd, hRest⟩ := hReads
    obtain ⟨hFirst, hOthers⟩ := List.forall_mem_cons.mp hKept
    obtain ⟨token, hSpells', hTakes, hBack⟩ := spelled_undone hFirst hSpells
    have hEnd' : EndsAt token (undoneText ps) := by
      intro c hc
      rw [hTakes]
      refine ends_undone hRest hEnd (fun tokens qs hPs => ?_) c hc
      exact (hOthers (.name tokens) (by rw [hPs]; exact List.mem_cons_self)).2.1
    rw [undoneText_cons, denote_map (scan_spelled hSpells' hEnd'), ih hRest hOthers, hBack unset hUnset]
    rfl

/-! ## What is never more than the undone text -/

theorem units_left {token : Escaping.Token} (r : Word) :
    units (token.left [Keywords.except] ++ r) ≤ units r + 1 := by
  by_cases hBlank : token.text = Keywords.except
  · rw [left_of_text hBlank, hBlank]
    exact Nat.le_refl _
  · obtain ⟨c, hMeans⟩ := meaning_single token
    rw [left_of_not hBlank, hMeans]
    exact units_cons_le

theorem units_undoneOf (tokens : List Escaping.Token) (r : Word) :
    units (undoneOf tokens ++ r) ≤ tokens.length + units r := by
  induction tokens with
  | nil => exact le_of_eq (Nat.zero_add _).symm
  | cons token tokens ih =>
    rw [undoneOf, List.flatMap_cons, List.append_assoc, ← undoneOf, List.length_cons]
    have hFirst : units (token.left [Keywords.except] ++ (undoneOf tokens ++ r)) ≤ _ := units_left _
    omega

/-- The escapes that are undone shorten a text. -/
theorem units_textOf (tokens : List Escaping.Token) :
    tokens.length ≤ units (Escaping.textOf tokens) ∧
      ((∃ token ∈ tokens, token.left [Keywords.except] ≠ token.text) →
        tokens.length < units (Escaping.textOf tokens)) := by
  induction tokens with
  | nil =>
    refine ⟨Nat.le_refl 0, ?_⟩
    rintro ⟨t, ht, -⟩
    exact absurd ht List.not_mem_nil
  | cons token tokens ih =>
    obtain ⟨hLe, hLess⟩ := ih
    rw [Escaping.textOf, List.flatMap_cons, ← Escaping.textOf, List.length_cons]
    by_cases hSame : token.left [Keywords.except] = token.text
    · have hFirst : units (token.text ++ Escaping.textOf tokens) = units (Escaping.textOf tokens) + 1 := by
        by_cases hBlank : token.text = Keywords.except
        · rw [hBlank]
          rfl
        · cases token with
          | plain c hPlain => exact units_plain hPlain
          | triple hi lo hDigits hByte =>
            rw [left_of_not hBlank] at hSame
            exact absurd (congrArg List.length hSame) (by simp [Escaping.Token.meaning, Escaping.Token.text])
      rw [hFirst]
      refine ⟨by omega, ?_⟩
      rintro ⟨t, ht, hNot⟩
      rcases List.mem_cons.mp ht with rfl | ht
      · exact absurd hSame hNot
      · exact Nat.succ_lt_succ (hLess ⟨t, ht, hNot⟩)
    · have hFirst : units (token.text ++ Escaping.textOf tokens) = units (Escaping.textOf tokens) + 3 := by
        cases token with
        | plain c hPlain => exact absurd (Keywords.left_plain _ c hPlain) hSame
        | triple hi lo hDigits hByte =>
          have hBlank : ∀ r, hi :: lo :: Escaping.textOf tokens ≠ '2' :: '0' :: r := by
            intro r hr
            obtain ⟨hHigh, hLow⟩ := List.cons.inj hr
            refine hSame (left_of_text ?_)
            rw [Escaping.Token.text, hHigh, (List.cons.inj hLow).1]
            rfl
          change units ('%' :: hi :: lo :: Escaping.textOf tokens) = _
          rw [units_percent hBlank, units_plain (Escaping.not_percent hDigits.1),
            units_plain (Escaping.not_percent hDigits.2)]
      omega

/-- The sum of what the tokens of the expression weigh. -/
def weightOf (ps : List Piece) : Nat := (ps.map fun p => (p.token.readBack []).weight).sum

theorem weightOf_cons (p : Piece) (ps : List Piece) :
    weightOf (p :: ps) = (p.token.readBack []).weight + weightOf ps := by
  rw [weightOf, List.map_cons, List.sum_cons, weightOf]

theorem length_meaningOf (tokens : List Escaping.Token) : (Escaping.meaningOf tokens).length = tokens.length := by
  induction tokens with
  | nil => rfl
  | cons token tokens ih =>
    obtain ⟨c, hMeans⟩ := meaning_single token
    rw [Escaping.meaningOf, List.flatMap_cons, hMeans, ← Escaping.meaningOf, List.singleton_append, List.length_cons,
      ih,
      List.length_cons]

theorem readBack_name {tokens : List Escaping.Token} (hFits : (Piece.name tokens).Fits) :
    (Piece.name tokens).token.readBack [] = .scanWord (Escaping.meaningOf tokens) := by
  refine congrArg Token.scanWord ?_
  rw [truncated_short hFits, www2id_textOf null_short]

theorem units_undone {p : Piece} (hSpells : Spells p.text p.token) (hFits : p.Fits) (r : Word) :
    units (p.undone ++ r) ≤ (p.token.readBack []).weight + units r := by
  cases p with
  | name tokens =>
    rw [readBack_name hFits]
    change units (undoneOf tokens ++ r) ≤ (Escaping.meaningOf tokens).length + units r
    rw [length_meaningOf]
    exact units_undoneOf tokens r
  | str tokens =>
    have hUndone := units_undoneOf tokens ('"' :: r)
    have hText := (units_textOf tokens).1
    change units ('"' :: (undoneOf tokens ++ ['"']) ++ r) ≤ units (Escaping.textOf tokens) + 2 + units r
    rw [List.cons_append, List.append_assoc, List.singleton_append, units_plain (by decide)]
    rw [units_plain (by decide)] at hUndone
    omega
  | sign token =>
    have hSign := isSign_of_spells hSpells
    change units (signText token ++ r) ≤ _
    rw [units_free (sign_free hSign)]
    cases token with
    | scanWord | scanStr => exact hSign.elim
    | _ => exact Nat.le_refl _

theorem units_undoneText {ps : List Piece} (hReads : Reads ps) (hFits : ∀ p ∈ ps, p.Fits) :
    units (undoneText ps) ≤ weightOf ps := by
  induction ps with
  | nil => exact Nat.le_refl 0
  | cons p ps ih =>
    obtain ⟨hFirst, hOthers⟩ := List.forall_mem_cons.mp hFits
    rw [undoneText_cons, weightOf_cons]
    exact (units_undone hReads.1 hFirst _).trans (Nat.add_le_add_left (ih hReads.2.2 hOthers) _)

/-- Too short a text cannot mean the expression. -/
theorem not_denote_short {ps : List Piece} {text : Word} (hShort : units text < weightOf ps) :
    denote [] text ≠ .ok (ps.map fun p => p.token.readBack []) := by
  intro h
  have hWeight := denote_weight h
  rw [List.map_map] at hWeight
  exact absurd hShort (Nat.not_lt.mpr hWeight)

/-! ## Expressions that do not change are of such pieces -/

theorem denote_cons {unset text rest : Word} {token first : Token} {tokens : List Token}
    (hScan : scan text = (scan rest).map (token :: ·)) (h : denote unset text = .ok (first :: tokens)) :
    token.readBack unset = first ∧ denote unset rest = .ok tokens := by
  rw [denote_map hScan] at h
  obtain ⟨others, hRest, hCons⟩ := map_eq_ok h
  obtain ⟨hFirst, hTokens⟩ := List.cons.inj hCons
  exact ⟨hFirst, hTokens ▸ hRest⟩

/-- A sign that takes up what follows is another one. -/
theorem ends_of_denote {token : Token} {rest : Word} {tokens : List Token} (hSign : IsSign token)
    (h : denote [] (signText token ++ rest) = .ok (token :: tokens)) : EndsAt token rest := by
  intro c hc
  obtain ⟨r, rfl⟩ := List.head?_eq_some_iff.mp hc
  by_contra hTakes
  rw [Bool.not_eq_false] at hTakes
  cases token with
  | scanWord | scanStr => exact hSign
  | scanEqual =>
    obtain rfl : c = '~' := of_decide_eq_true hTakes
    exact absurd (denote_cons scan_regexp h).1 (by decide)
  | scanGreater =>
    obtain rfl : c = '=' := of_decide_eq_true hTakes
    exact absurd (denote_cons scan_greaterEql h).1 (by decide)
  | scanLess =>
    obtain rfl : c = '=' := of_decide_eq_true hTakes
    exact absurd (denote_cons scan_lessEql h).1 (by decide)
  | _ => exact Bool.false_ne_true hTakes

/-- A character that begins no word, where a name was. -/
theorem start_of_denote {c : Char} {r id : Word} {tokens : List Token} (hPercent : c ≠ '%')
    (hWeight : units (c :: r) ≤ id.length + (tokens.map Token.weight).sum)
    (h : denote [] (c :: r) = .ok (.scanWord id :: tokens)) : isWordStart c = true := by
  rcases scan_cases c r with ⟨f, hError⟩ | ⟨-, hPassed⟩ | ⟨w, token, rest, hText, hSpelled, -, hScan⟩
  · rw [denote, hError] at h
    cases h
  · rw [denote, hPassed] at h
    have hLess := denote_weight h
    rw [units_plain hPercent] at hWeight
    rw [List.map_cons, List.sum_cons] at hLess
    change id.length + _ ≤ _ at hLess
    omega
  · obtain ⟨hToken, -⟩ := denote_cons hScan h
    cases token with
    | scanWord id' =>
      obtain ⟨d, ds, hWord, hStart, -⟩ := word_of_spells hSpelled
      rw [hWord] at hText
      obtain ⟨rfl, -⟩ := List.cons.inj hText
      exact hStart
    | _ => cases hToken

/-- The first escape that cannot be undone. -/
theorem harmless_or (tokens : List Escaping.Token) : (∀ token ∈ tokens, Piece.Harmless token) ∨
    ∃ before token after, tokens = before ++ token :: after ∧ (∀ token ∈ before, Piece.Harmless token) ∧
      ¬ Piece.Harmless token := by
  induction tokens with
  | nil => exact .inl fun _ h => absurd h List.not_mem_nil
  | cons token tokens ih =>
    by_cases hToken : Piece.Harmless token
    · rcases ih with hAll | ⟨before, bad, after, rfl, hBefore, hBad⟩
      · exact .inl (List.forall_mem_cons.mpr ⟨hToken, hAll⟩)
      · exact .inr ⟨token :: before, bad, after, rfl, List.forall_mem_cons.mpr ⟨hToken, hBefore⟩, hBad⟩
    · exact .inr ⟨[], token, tokens, rfl, fun _ h => absurd h List.not_mem_nil, hToken⟩

theorem units_harmless {tokens : List Escaping.Token} (h : ∀ token ∈ tokens, Piece.Harmless token) (r : Word) :
    units (undoneOf tokens ++ r) = tokens.length + units r := by
  induction tokens with
  | nil => exact (Nat.zero_add _).symm
  | cons token tokens ih =>
    obtain ⟨hToken, hTokens⟩ := List.forall_mem_cons.mp h
    have hFirst : units (token.left [Keywords.except] ++ (undoneOf tokens ++ r)) =
        units (undoneOf tokens ++ r) + 1 := by
      by_cases hBlank : token.text = Keywords.except
      · rw [left_of_text hBlank, hBlank]
        rfl
      · rcases hToken with hExcept | ⟨c, hMeans, -, hPercent⟩
        · exact absurd hExcept hBlank
        · rw [left_of_not hBlank, hMeans]
          exact units_plain hPercent
    rw [undoneOf, List.flatMap_cons, List.append_assoc, ← undoneOf, hFirst, ih hTokens, List.length_cons]
    omega

theorem www2id_blank (r : Word) : (Dap2.www2id [] ('%' :: '2' :: '0' :: r)).head? = some ' ' := by
  have hSpace : Dap2.unhexstring [] ['2', '0'] = [' '] := by decide
  rw [Dap2.www2id, List.length_cons, Dap2.www2idFrom, if_pos rfl, show ('2' :: '0' :: r).take 2 = ['2', '0'] from rfl,
    hSpace]
  rfl

/-- The word that the scanner reads from where a name was. -/
theorem scan_front {w rest : Word} (hSome : w ≠ []) (hStart : ∀ c ∈ w.head?, isWordStart c = true)
    (hChars : ∀ c ∈ w, isWordChar c = true) (hEnd : ∀ c ∈ rest.head?, isWordChar c = false) :
    scan (w ++ rest) = (scan rest).map (.scanWord (truncated w) :: ·) := by
  obtain ⟨c, cs, rfl⟩ := List.exists_cons_of_ne_nil hSome
  exact scan_wordText (hStart c rfl) (fun d hd => hChars d (List.mem_cons_of_mem c hd)) hEnd

theorem harmless_of_denote {tokens : List Escaping.Token} {r : Word} {others : List Token}
    (hFits : (Piece.name tokens).Fits) (hStart : ∀ c ∈ (undoneOf tokens).head?, isWordStart c = true)
    (hEnd : ∀ c ∈ r.head?, isWordChar c = false)
    (hWeight : units (undoneOf tokens ++ r) ≤ (Escaping.meaningOf tokens).length + (others.map Token.weight).sum)
    (h : denote [] (undoneOf tokens ++ r) = .ok (.scanWord (Escaping.meaningOf tokens) :: others)) :
    ∀ token ∈ tokens, Piece.Harmless token := by
  rcases harmless_or tokens with hAll | ⟨before, bad, after, hTokens, hBefore, hBad⟩
  · exact hAll
  exfalso
  obtain ⟨c, hMeans⟩ := meaning_single bad
  have hBlank : bad.text ≠ Keywords.except := fun hExcept => hBad (.inl hExcept)
  have hUndone : undoneOf tokens = undoneOf before ++ c :: undoneOf after := by
    rw [hTokens, undoneOf, List.flatMap_append, List.flatMap_cons, left_of_not hBlank, hMeans]
    rfl
  have hMeaning : Escaping.meaningOf tokens = Escaping.meaningOf before ++ c :: Escaping.meaningOf after := by
    rw [hTokens, Escaping.meaningOf, List.flatMap_append, List.flatMap_cons, hMeans]
    rfl
  have hShort : (undoneOf tokens).length < ID_MAX := Nat.lt_of_le_of_lt (length_undoneOf tokens) hFits
  rw [hUndone, List.length_append, List.length_cons] at hShort
  by_cases hPercent : c = '%'
  · subst hPercent
    have hNone : r.takeWhile isWordChar = [] := by
      cases r with
      | nil => rfl
      | cons d ds => exact List.takeWhile_cons_of_neg (ne_true_of_eq_false (hEnd d rfl))
    have hTake : (undoneOf after ++ r).takeWhile isWordChar = (undoneOf after).takeWhile isWordChar := by
      rw [List.takeWhile_append, hNone, List.append_nil]
      split
      · rename_i hWhole
        exact ((List.takeWhile_prefix _).eq_of_length hWhole).symm
      · rfl
    have hSplit := List.takeWhile_append_dropWhile (p := isWordChar) (l := undoneOf after ++ r)
    rw [hTake] at hSplit
    have hLength := (List.takeWhile_prefix isWordChar (l := undoneOf after)).length_le
    generalize hs : (undoneOf after).takeWhile isWordChar = s at hSplit hLength
    generalize hRest : (undoneOf after ++ r).dropWhile isWordChar = rest at hSplit
    have hRestEnd : ∀ d ∈ rest.head?, isWordChar d = false := by
      intro d hd
      have hFirst := List.head?_dropWhile_not isWordChar (undoneOf after ++ r)
      rw [hRest, Option.mem_def.mp hd] at hFirst
      exact hFirst
    have hText : undoneOf tokens ++ r = (undoneOf before ++ '%' :: s) ++ rest := by
      rw [hUndone, List.append_assoc, List.append_assoc, List.cons_append, List.cons_append, hSplit]
    have hFront : ∀ d ∈ (undoneOf before ++ '%' :: s).head?, isWordStart d = true := by
      intro d hd
      refine hStart d ?_
      rw [hUndone]
      cases hCons : undoneOf before with
      | nil =>
        rw [hCons] at hd
        exact hd
      | cons e es =>
        rw [hCons] at hd
        exact hd
    have hChars : ∀ d ∈ undoneOf before ++ '%' :: s, isWordChar d = true := by
      intro d hd
      rcases List.mem_append.mp hd with hd | hd
      · exact harmless_word hBefore d hd
      · rcases List.mem_cons.mp hd with rfl | hd
        · decide
        · exact List.all_eq_true.mp List.all_takeWhile d (hs ▸ hd)
    rw [hText] at h
    obtain ⟨hWord, hOthers⟩ := denote_cons (scan_front (List.append_ne_nil_of_right_ne_nil _ (List.cons_ne_nil _ _))
      hFront hChars hRestEnd) h
    rw [truncated_short (by rw [List.length_append, List.length_cons]; omega)] at hWord
    have hBack := Token.scanWord.inj hWord
    rw [www2id_undoneOf null_short hBefore, hMeaning] at hBack
    have hBack := List.append_cancel_left hBack
    have hNotBlank : ∀ q, s ≠ '2' :: '0' :: q := by
      rintro q rfl
      have hHead := www2id_blank q
      rw [hBack] at hHead
      exact absurd (Option.some.inj hHead) (by decide)
    rcases www2id_percent hNotBlank with hHead | hLess
    · exact hHead (by rw [hBack]; rfl)
    · -- The escape that the scanner undoes makes the name shorter.
      have hRestWeight := denote_weight hOthers
      have hBorder : ∀ d ∈ rest.head?, d ≠ '2' ∧ d ≠ '0' := by
        intro d hd
        have hNotWord := hRestEnd d hd
        constructor <;>
        · rintro rfl
          exact absurd hNotWord (by decide)
      rw [hText, List.append_assoc, units_harmless hBefore, units_append hBorder, hMeaning, List.length_append,
        length_meaningOf, ← hBack] at hWeight
      omega
  · -- The word ends at the character.
    have hNotWord : isWordChar c = false := by
      by_contra hWord
      exact hBad (.inr ⟨c, hMeans, Bool.not_eq_false _ ▸ hWord, hPercent⟩)
    have hSome : undoneOf before ≠ [] := by
      intro hNil
      have hFirst := hStart c (by rw [hUndone, hNil]; rfl)
      exact absurd (hNotWord.symm.trans (isWordChar_of_start hFirst)) Bool.false_ne_true
    have hFront : ∀ d ∈ (undoneOf before).head?, isWordStart d = true := by
      intro d hd
      refine hStart d ?_
      rwa [hUndone, List.head?_append_of_ne_nil _ hSome]
    have hScan : scan (undoneOf before ++ (c :: undoneOf after ++ r)) = _ :=
        scan_front hSome hFront (harmless_word hBefore) (by
      intro d hd
      rw [← Option.some.inj hd]
      exact hNotWord)
    rw [hUndone, List.append_assoc] at h
    have hWord := (denote_cons hScan h).1
    rw [truncated_short (by omega)] at hWord
    have hBack := www2id_undoneOf null_short hBefore []
    rw [List.append_nil, show Dap2.www2id [] [] = [] from rfl, List.append_nil] at hBack
    have hLength := congrArg List.length (Token.scanWord.inj hWord)
    rw [hBack, hMeaning, List.length_append, List.length_cons] at hLength
    omega

theorem kept_of_denote {ps : List Piece} (hReads : Reads ps) (hFits : ∀ p ∈ ps, p.Fits)
    (h : denote [] (undoneText ps) = .ok (ps.map fun p => p.token.readBack [])) : ∀ p ∈ ps, p.Kept := by
  induction ps with
  | nil => exact fun _ h => absurd h List.not_mem_nil
  | cons p ps ih =>
    have hWeight := units_undoneText hReads hFits
    obtain ⟨hSpells, hEnd, hRest⟩ := hReads
    obtain ⟨hFirst, hOthers⟩ := List.forall_mem_cons.mp hFits
    rw [undoneText_cons, weightOf_cons] at hWeight
    rw [undoneText_cons, List.map_cons] at h
    have hNext (hKept : p.Kept) (hEnds : EndsAt p.token (undoneText ps)) : ∀ q ∈ p :: ps, q.Kept := by
      obtain ⟨token, hSpells', hTakes, -⟩ := spelled_undone hKept hSpells
      have hScan := scan_spelled hSpells' (show EndsAt token (undoneText ps) from fun c hc => (hTakes c).trans
          (hEnds c hc))
      exact List.forall_mem_cons.mpr ⟨hKept, ih hRest hOthers (denote_cons hScan h).2⟩
    cases p with
    | sign token =>
      have hSign := isSign_of_spells hSpells
      have hSigned : denote [] (signText token ++ undoneText ps) =
          .ok (token :: ps.map fun p => p.token.readBack []) := by
        cases token with
        | scanWord | scanStr => exact hSign.elim
        | _ => exact h
      exact hNext trivial (ends_of_denote hSign hSigned)
    | str tokens =>
      by_cases hKept : (Piece.str tokens).Kept
      · exact hNext hKept fun _ _ => rfl
      · obtain ⟨token, hToken, hNot⟩ : ∃ token ∈ tokens, token.left [Keywords.except] ≠ token.text := by
          simpa [Piece.Kept] using hKept
        have hText := (units_textOf tokens).2 ⟨token, hToken, hNot⟩
        have hUndone := units_undoneOf tokens ('"' :: undoneText ps)
        have hBehind := units_undoneText hRest hOthers
        refine absurd h (@not_denote_short (.str tokens :: ps) _ ?_)
        rw [weightOf_cons]
        change units ('"' :: (undoneOf tokens ++ ['"']) ++ undoneText ps) < units
          (Escaping.textOf tokens) + 2 + weightOf ps
        rw [List.cons_append, List.append_assoc, List.singleton_append, units_plain (by decide)]
        rw [units_plain (by decide)] at hUndone
        omega
    | name tokens =>
      rw [readBack_name hFirst] at h hWeight
      have hWeights : weightOf ps = ((ps.map fun p => p.token.readBack []).map Token.weight).sum := by
        rw [List.map_map]
        rfl
      rw [hWeights] at hWeight
      have hStart : ∀ c ∈ (undoneOf tokens).head?, isWordStart c = true := by
        intro c hc
        by_cases hPercent : c = '%'
        · rw [hPercent]
          decide
        · obtain ⟨r, hCons⟩ := List.head?_eq_some_iff.mp hc
          rw [Piece.undone, hCons, List.cons_append] at h hWeight
          exact start_of_denote hPercent hWeight h
      have hEnds : EndsAt (Piece.name tokens).token (undoneText ps) := by
        refine ends_undone hRest hEnd fun tokens' qs hPs => ?_
        subst hPs
        obtain ⟨c, cs, hText, hWord, -⟩ := word_of_spells hRest.1
        have hNot := hEnd c (by rw [textOf_cons, hText]; rfl)
        exact absurd (hNot.symm.trans (isWordChar_of_start hWord)) Bool.false_ne_true
      exact hNext ⟨harmless_of_denote hFirst hStart hEnds hWeight h, hStart, .inl hFirst⟩ hEnds

/-! ## The clauses that are taken by mistake -/

theorem units_pos {w : Word} (h : w ≠ []) : 0 < units w := by
  obtain ⟨c, cs, rfl⟩ := List.exists_cons_of_ne_nil h
  rw [units.eq_def]
  split <;> first | exact Nat.succ_pos _ | contradiction

/-- A clause that is taken shortens the text. -/
theorem units_clause {sel : Word} (hSel : ∀ c ∈ sel.head?, c = '&') {projection : Word} (h : projection ≠ []) :
    units ((projection.dropWhile (· ≠ ',')).drop 1 ++ sel) < units (projection ++ sel) := by
  have hSplit := List.takeWhile_append_dropWhile (p := fun c => decide (c ≠ ',')) (l := projection)
  have hFirst := List.head?_dropWhile_not (fun c => decide (c ≠ ',')) projection
  generalize projection.takeWhile (· ≠ ',') = clause at hSplit
  cases hBehind : projection.dropWhile (· ≠ ',') with
  | nil =>
    have hPos := units_pos h
    have hBorder : ∀ c ∈ sel.head?, c ≠ '2' ∧ c ≠ '0' := by
      intro c hc
      rw [hSel c hc]
      decide
    rw [List.drop_nil, List.nil_append, units_append hBorder]
    omega
  | cons c r =>
    rw [hBehind] at hSplit hFirst
    obtain rfl : c = ',' := by simpa using hFirst
    have hBorder : ∀ c ∈ (',' :: (r ++ sel)).head?, c ≠ '2' ∧ c ≠ '0' := by simp
    rw [← hSplit, List.append_assoc, List.cons_append, List.drop_succ_cons, List.drop_zero, units_append hBorder,
      units_plain (by decide)]
    omega

theorem units_keywordLoop {sel : Word} (hSel : ∀ c ∈ sel.head?, c = '&') {n : Nat} {parsed parsed' : Keywords.Parsed}
    {projection left : Word} (h : Keywords.keywordLoop n parsed projection = .ok (parsed', left)) :
    units (left ++ sel) ≤ units (projection ++ sel) := by
  induction n generalizing parsed projection with
  | zero =>
    cases h
    exact Nat.le_refl _
  | succ n ih =>
    rw [Keywords.keywordLoop] at h
    split at h
    · cases h
      exact Nat.le_refl _
    · rename_i hSome
      split at h
      · cases h
        exact Nat.le_refl _
      · rename_i word value _
        cases hValid : Keywords.mIsValidKeyword word value with
        | error f =>
          rw [hValid] at h
          cases h
        | ok valid =>
          rw [hValid] at h
          cases valid with
          | true => exact (ih h).trans (Nat.le_of_lt (units_clause hSel (by simpa using hSome)))
          | false =>
            cases h
            exact Nat.le_refl _

def dapFour : Keyword :=
  ⟨"dap".toList, "4.0".toList, ["2", "2.0", "3.2", "3.3", "3.4", "4", "4.0"].map String.toList, rfl, by decide⟩

/-- `u%2Cv` -/
def escapedComma : Remainder where
  pieces := [.name [.plain 'u' (by decide), .triple '2' 'C' (by decide) (by decide), .plain 'v' (by decide)]]
  hReads := by
    refine ⟨.word 'u' "%2Cv".toList (by decide) (forall_mem_of_all (by decide)), ?_, trivial⟩
    intro c hc
    cases hc
  hNoKeyword := fun _ _ h => by cases h

end Libdap.Constraint
