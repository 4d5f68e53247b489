import Mathlib.Data.List.Basic
import Libdap.Bes.BESKeys
import Libdap.Core.Call

/-! # Values separated by a delimiter

`BESUtil::explode` breaks a string at the delimiter, which may stand in a value in quotes; `BESUtil::implode` puts the
values together again.
-/

namespace Libdap.Bes
open Core Constraint
set_option autoImplicit false

/-- The search for the end quote, with the characters `b` and `a` before: the text up to it and what is behind it. -/
def endQuote : Char → Char → Word → Option (Word × Word)
  | _, _, [] => none
  | b, a, c :: cs =>
    if c = '"' ∧ (a ≠ '\\' ∨ b = '\\') then some ([c], cs)
    else (endQuote a c cs).map fun found => (c :: found.1, found.2)

/-- The value at the start of the rest, and what is behind its delimiter, if it has one. -/
def nextValue (delim : Char) (rest : Word) : Except BESError (Word × Option Word) :=
  match rest with
  | '"' :: cs =>
    match endQuote '"' '"' cs with
    | none => .error (.internal ("BESUtil::explode - No end quote after value ".toList ++ rest))
    | some (quoted, []) => .ok ('"' :: quoted, none)
    | some (quoted, c :: behind) =>
      if c ≠ delim then .error (.internal ("BESUtil::explode - No delim after end quote ".toList ++ '"' :: quoted))
      else .ok ('"' :: quoted, some behind)
  | _ =>
    let adelim := rest.idxOf delim
    if adelim = rest.length then .ok (rest, none) else .ok (rest.take adelim, some (rest.drop (adelim + 1)))

/-- The loop of `explode`; behind a value without a delimiter `start` is 0. -/
def explodeLoop (delim : Char) (str : Word) : Nat → Word → EStateM BESError (List Word) Unit
  | 0, _ => pure ()
  | n + 1, rest =>
    match nextValue delim rest with
    | .error e => throw e
    | .ok (aval, behind) => do
      modify fun values => values ++ [aval]
      match behind with
      | none => if str = [] then modify fun values => values ++ [[]]
      | some [] => modify fun values => values ++ [[]]
      | some (c :: cs) => explodeLoop delim str n (c :: cs)

/-- Every value but the last takes a character of the string. -/
def explode (delim : Char) (str : Word) : EStateM BESError (List Word) Unit :=
  explodeLoop delim str (str.length + 1) str

def implodeLoop (delim : Char) : Bool → Word → List Word → Except BESError Word
  | _, result, [] => .ok result
  | first, result, value :: values =>
    let result := if !first then result ++ [delim] else result
    if delim ∈ value ∧ value.head? ≠ some '"' then
      .error (.internal ("BESUtil::implode - delimiter exists in value ".toList ++ value))
    else implodeLoop delim false (result ++ value) values

attribute [local grind =] endQuote nextValue explodeLoop implodeLoop

def implode (values : List Word) (delim : Char) : Except BESError Word := implodeLoop delim true [] values

/-! ## Values -/

def escapeQuoted (c : Char) : Word := if c = '"' ∨ c = '\\' then ['\\', c] else [c]

/-- A value that needs no quotes, or a text in quotes. -/
inductive DelimitedValue (delim : Char)
  | plain (value : Word) (free : delim ∉ value) (unquoted : value.head? ≠ some '"')
  | quoted (text : Word)

namespace DelimitedValue

variable {delim : Char}

def text : DelimitedValue delim → Word
  | plain value _ _ => value
  | quoted t => '"' :: t.flatMap escapeQuoted ++ ['"']

/-- It is read up to its end: no quote in it is taken for the end quote, and it does not begin with a delimiter that is a
quote. -/
def Kept (last : Bool) : DelimitedValue delim → Prop
  | plain value _ _ => delim = '"' → value ≠ [] ∨ last = true
  | quoted t => ¬ ['\\', '"'] <:+: t

end DelimitedValue

section
variable {delim a b c : Char} {t rest behind : Word} {last : Bool}

/-! ## The end quote -/

theorem quote_infix_cons {a x : Char} {t : Word} :
    ['\\', '"'] <:+: a :: x :: t ↔ (a = '\\' ∧ x = '"') ∨ ['\\', '"'] <:+: x :: t := by
  rw [List.infix_cons_iff]
  apply or_congr_left
  constructor
  · rintro ⟨s, hs⟩
    obtain ⟨ha, hTail⟩ := List.cons.inj hs
    exact ⟨ha.symm, (List.cons.inj hTail).1.symm⟩
  · rintro ⟨rfl, rfl⟩
    exact ⟨t, rfl⟩

theorem not_quote_infix_singleton (a : Char) : ¬ ['\\', '"'] <:+: [a] := by
  intro h
  have hLength := h.length_le
  simp at hLength

theorem endQuote_other {cs : Word} (h : c ≠ '"') :
    endQuote b a (c :: cs) = (endQuote a c cs).map fun found => (c :: found.1, found.2) := by
  rw [endQuote, if_neg fun hBoth => h hBoth.1]

/-- A backslash before is the second of two. -/
theorem endQuote_kept (hPair : a = '\\' → b = '\\') (h : ¬ ['\\', '"'] <:+: a :: t) :
    endQuote b a (t.flatMap escapeQuoted ++ '"' :: rest) = some (t.flatMap escapeQuoted ++ ['"'], rest) := by
  induction t generalizing a b with
  | nil =>
    have hEnd : a ≠ '\\' ∨ b = '\\' := by
      by_cases ha : a = '\\'
      · exact .inr (hPair ha)
      · exact .inl ha
    rw [List.flatMap_nil, List.nil_append, endQuote, if_pos ⟨rfl, hEnd⟩]
    rfl
  | cons x t ih =>
    rw [quote_infix_cons, not_or] at h
    rw [List.flatMap_cons, escapeQuoted]
    by_cases hQuote : x = '"'
    · subst hQuote
      have ha : a ≠ '\\' := fun ha => h.1 ⟨ha, rfl⟩
      rw [if_pos (.inl rfl), List.append_assoc]
      change endQuote b a ('\\' :: '"' :: (t.flatMap escapeQuoted ++ '"' :: rest)) = _
      rw [endQuote_other (by decide), endQuote, if_neg (by simp [ha]), ih (by decide) h.2]
      rfl
    · by_cases hSlash : x = '\\'
      · subst hSlash
        rw [if_pos (.inr rfl), List.append_assoc]
        change endQuote b a ('\\' :: '\\' :: (t.flatMap escapeQuoted ++ '"' :: rest)) = _
        rw [endQuote_other (by decide), endQuote_other (by decide), ih (fun _ => rfl) h.2]
        rfl
      · rw [if_neg (by simp [hQuote, hSlash]), List.append_assoc]
        change endQuote b a (x :: (t.flatMap escapeQuoted ++ '"' :: rest)) = _
        rw [endQuote_other hQuote, ih (fun hx => absurd hx hSlash) h.2]
        rfl

theorem endQuote_early (b : Char) (rest : Word) (h : ['\\', '"'] <:+: a :: t) :
    ∃ found behind, endQuote b a (t.flatMap escapeQuoted ++ '"' :: rest) = some (found, behind) ∧
      found.length ≤ (t.flatMap escapeQuoted).length := by
  induction t generalizing a b with
  | nil => exact absurd h (not_quote_infix_singleton a)
  | cons x t ih =>
    rw [quote_infix_cons] at h
    rw [List.flatMap_cons, escapeQuoted]
    by_cases hQuote : x = '"'
    · subst hQuote
      rw [if_pos (.inl rfl), List.append_assoc]
      change ∃ found behind, endQuote b a ('\\' :: '"' :: (t.flatMap escapeQuoted ++ '"' :: rest)) = _ ∧ _
      rw [endQuote_other (by decide), endQuote]
      by_cases ha : a = '\\'
      · rw [if_pos ⟨rfl, .inr ha⟩]
        exact ⟨_, _, rfl, by simp⟩
      · obtain ⟨found, behind, hFound, hLength⟩ := ih (b := '\\') (h.resolve_left fun hBoth => ha hBoth.1)
        rw [if_neg (by simp [ha]), hFound]
        exact ⟨_, _, rfl, by simpa using hLength⟩
    · have hRest := h.resolve_left fun hBoth => hQuote hBoth.2
      by_cases hSlash : x = '\\'
      · subst hSlash
        rw [if_pos (.inr rfl), List.append_assoc]
        change ∃ found behind, endQuote b a ('\\' :: '\\' :: (t.flatMap escapeQuoted ++ '"' :: rest)) = _ ∧ _
        obtain ⟨found, behind, hFound, hLength⟩ := ih (b := '\\') hRest
        rw [endQuote_other (by decide), endQuote_other (by decide), hFound]
        exact ⟨_, _, rfl, by simpa using hLength⟩
      · rw [if_neg (by simp [hQuote, hSlash]), List.append_assoc]
        change ∃ found behind, endQuote b a (x :: (t.flatMap escapeQuoted ++ '"' :: rest)) = _ ∧ _
        obtain ⟨found, behind, hFound, hLength⟩ := ih (b := a) hRest
        rw [endQuote_other hQuote, hFound]
        exact ⟨_, _, rfl, by simpa using hLength⟩

/-! ## One value -/

/-- The text behind a value, from its delimiter on. -/
def behindDelim (delim : Char) (behind : Option Word) : Word := behind.elim [] (delim :: ·)

theorem nextValue_unquoted (h : rest.head? ≠ some '"') :
    nextValue delim rest = if rest.idxOf delim = rest.length then .ok (rest, none)
      else .ok (rest.take (rest.idxOf delim), some (rest.drop (rest.idxOf delim + 1))) := by
  rw [nextValue]
  rintro cs rfl
  exact h rfl

theorem nextValue_ok {aval : Word} {behind : Option Word} (h : nextValue delim rest = .ok (aval, behind)) :
    rest = aval ++ behindDelim delim behind ∧ (delim ∈ aval → aval.head? = some '"') := by
  by_cases hHead : rest.head? = some '"'
  · obtain ⟨cs, rfl⟩ := List.head?_eq_some_iff.mp hHead
    rw [nextValue] at h
    have hEnd {b a : Char} {cs quoted rest : Word} (hRun : endQuote b a cs = some (quoted, rest)) :
        cs = quoted ++ rest := by
      induction cs generalizing b a quoted with
      | nil => cases hRun
      | cons c cs ih =>
        rw [endQuote] at hRun
        split at hRun
        · cases hRun
          rfl
        · obtain ⟨⟨found, rest'⟩, hFound, hPair⟩ := Option.map_eq_some_iff.mp hRun
          cases hPair
          rw [ih hFound]
          rfl
    split at h
    · cases h
    · rename_i quoted hRun
      cases h
      rw [hEnd hRun]
      exact ⟨by simp [behindDelim], fun _ => rfl⟩
    · rename_i quoted c behind' hRun
      split at h
      · cases h
      · rename_i hDelim
        cases h
        rw [hEnd hRun, not_not.mp hDelim]
        exact ⟨rfl, fun _ => rfl⟩
  · rw [nextValue_unquoted hHead] at h
    split at h
    · rename_i hNone
      cases h
      exact ⟨by simp [behindDelim], fun hMem => absurd hMem (List.idxOf_eq_length_iff.mp hNone)⟩
    · rename_i hSome
      cases h
      have hMem : delim ∈ rest := by
        by_contra hNot
        exact hSome (List.idxOf_eq_length hNot)
      obtain ⟨first, behind, rfl, hFirst⟩ := List.eq_append_cons_of_mem hMem
      have hIdx : (first ++ delim :: behind).idxOf delim = first.length := by
        rw [List.idxOf_append_of_notMem hFirst, List.idxOf_cons_self, Nat.add_zero]
      rw [hIdx, List.take_left]
      exact ⟨by simp [behindDelim], fun hMem => absurd hMem hFirst⟩

theorem nextValue_kept (v : DelimitedValue delim) (behind : Option Word) (h : v.Kept behind.isNone) :
    nextValue delim (v.text ++ behindDelim delim behind) = .ok (v.text, behind) := by
  cases v with
  | plain value hFree hHead =>
    rw [DelimitedValue.text]
    have hUnquoted : (value ++ behindDelim delim behind).head? ≠ some '"' := by
      cases value with
      | cons c cs => exact hHead
      | nil =>
        cases behind with
        | none => simp [behindDelim]
        | some rest =>
          have hDelim : delim ≠ '"' := fun hDelim => (h hDelim).elim (fun hNe => hNe rfl) Bool.false_ne_true
          simp [behindDelim, hDelim]
    rw [nextValue_unquoted hUnquoted]
    cases behind with
    | none =>
      rw [behindDelim, Option.elim_none, List.append_nil, if_pos (List.idxOf_eq_length hFree)]
    | some rest =>
      have hIdx : (value ++ delim :: rest).idxOf delim = value.length := by
        rw [List.idxOf_append_of_notMem hFree, List.idxOf_cons_self, Nat.add_zero]
      rw [behindDelim, Option.elim_some, hIdx, if_neg (by simp), List.take_left]
      simp
  | quoted t =>
    have hStart : ¬ ['\\', '"'] <:+: '"' :: t := by
      rw [List.infix_cons_iff, not_or]
      exact ⟨fun ⟨s, hs⟩ => absurd (List.cons.inj hs).1 (by decide), h⟩
    have hText : (DelimitedValue.quoted t : DelimitedValue delim).text ++ behindDelim delim behind =
        '"' :: (t.flatMap escapeQuoted ++ '"' :: behindDelim delim behind) := by
      rw [DelimitedValue.text]
      simp
    rw [hText, nextValue, endQuote_kept (by decide) hStart]
    cases behind with
    | none => rfl
    | some rest => simp [behindDelim, DelimitedValue.text]

theorem nextValue_changed (v : DelimitedValue delim) (behind : Option Word) (h : ¬ v.Kept behind.isNone)
    {next : Word × Option Word} (hNext : nextValue delim (v.text ++ behindDelim delim behind) = .ok next) :
    next.1 ≠ v.text := by
  cases v with
  | plain value hFree hHead =>
    rw [DelimitedValue.Kept, Classical.not_imp, not_or, not_not] at h
    obtain ⟨rfl, rfl, hSome⟩ := h
    cases behind with
    | none => exact absurd rfl hSome
    | some rest =>
      obtain ⟨hText, -⟩ := nextValue_ok hNext
      rintro hEmpty
      rw [DelimitedValue.text] at hEmpty hText hNext
      change nextValue '"' ('"' :: rest) = _ at hNext
      rw [nextValue] at hNext
      split at hNext
      · cases hNext
      · cases hNext
        cases hEmpty
      · split at hNext
        · cases hNext
        · cases hNext
          cases hEmpty
  | quoted t =>
    have hStart : ['\\', '"'] <:+: '"' :: t := List.infix_cons (not_not.mp h)
    have hText : (DelimitedValue.quoted t : DelimitedValue delim).text ++ behindDelim delim behind =
        '"' :: (t.flatMap escapeQuoted ++ '"' :: behindDelim delim behind) := by
      rw [DelimitedValue.text]
      simp
    obtain ⟨found, rest', hFound, hLength⟩ := endQuote_early '"' (behindDelim delim behind) hStart
    rw [hText, nextValue, hFound] at hNext
    intro hSame
    rw [DelimitedValue.text] at hSame
    have hFirst : next.1 = '"' :: found := by
      cases rest' with
      | nil =>
        cases hNext
        rfl
      | cons c cs =>
        dsimp only at hNext
        split at hNext
        · cases hNext
        · cases hNext
          rfl
    rw [hFirst] at hSame
    have hLengths := congrArg List.length hSame
    simp only [List.length_cons, List.length_append, List.length_nil] at hLengths
    omega

/-! ## All values -/

/-- The values with the delimiter between them. -/
def joined (delim : Char) : List Word → Word
  | [] => []
  | [v] => v
  | v :: w :: vs => v ++ delim :: joined delim (w :: vs)

/-- What is behind the first of some values. -/
def behindFirst (delim : Char) : List Word → Option Word
  | [] => none
  | w :: vs => some (joined delim (w :: vs))

theorem joined_cons (v : Word) (vs : List Word) :
    joined delim (v :: vs) = v ++ behindDelim delim (behindFirst delim vs) := by
  cases vs with
  | nil => exact (List.append_nil v).symm
  | cons w vs => rfl

theorem implodeLoop_eq {values : List Word} (h : ∀ v ∈ values, delim ∈ v → v.head? = some '"') (first : Bool)
    (result : Word) : implodeLoop delim first result values =
      .ok (result ++ if first || values.isEmpty then joined delim values else delim :: joined delim values) := by
  induction values generalizing first result with
  | nil =>
    rw [implodeLoop]
    simp [joined]
  | cons v vs ih =>
    have hv : ¬ (delim ∈ v ∧ v.head? ≠ some '"') := fun hBoth => hBoth.2 (h v List.mem_cons_self hBoth.1)
    rw [implodeLoop, if_neg hv, ih (fun w hw => h w (List.mem_cons_of_mem _ hw)), joined_cons]
    cases first <;> cases vs <;> simp [behindFirst, behindDelim, joined]

theorem implode_eq {values : List Word} (h : ∀ v ∈ values, delim ∈ v → v.head? = some '"') :
    implode values delim = .ok (joined delim values) := by
  rw [implode, implodeLoop_eq h]
  rfl

/-! What the loop does behind a value. -/

section
variable {str : Word} {n : Nat} {acc : List Word} {aval : Word}

theorem explodeLoop_last (hStr : str ≠ []) (h : nextValue delim rest = .ok (aval, none)) :
    explodeLoop delim str (n + 1) rest acc = .ok () (acc ++ [aval]) := by
  rw [explodeLoop, h]
  simp only [if_neg hStr]
  rfl

theorem explodeLoop_empty (h : nextValue delim rest = .ok (aval, some [])) :
    explodeLoop delim str (n + 1) rest acc = .ok () (acc ++ [aval, []]) := by
  have hTwo : acc ++ [aval, []] = acc ++ [aval] ++ [[]] := by simp
  rw [explodeLoop, h, hTwo]
  rfl

theorem explodeLoop_next {cs : Word} (h : nextValue delim rest = .ok (aval, some (c :: cs))) :
    explodeLoop delim str (n + 1) rest acc = explodeLoop delim str n (c :: cs) (acc ++ [aval]) := by
  rw [explodeLoop, h]
  rfl

end

theorem explodeLoop_extends {str : Word} (hStr : str ≠ []) {n : Nat} {rest : Word} {acc result : List Word}
    (h : explodeLoop delim str n rest acc = .ok () result) : ∃ more, result = acc ++ more := by
  induction n generalizing rest acc with
  | zero =>
    have hSame : EStateM.Result.ok () acc = .ok () result := h
    exact ⟨[], by rw [List.append_nil]; exact (EStateM.Result.ok.inj hSame).2.symm⟩
  | succ n ih =>
    cases hNext : nextValue delim rest with
    | error e =>
      rw [explodeLoop, hNext] at h
      cases h
    | ok next =>
      obtain ⟨aval, _ | _ | ⟨c, cs⟩⟩ := next
      · rw [explodeLoop_last hStr hNext] at h
        exact ⟨[aval], (EStateM.Result.ok.inj h).2.symm⟩
      · rw [explodeLoop_empty hNext] at h
        exact ⟨[aval, []], (EStateM.Result.ok.inj h).2.symm⟩
      · rw [explodeLoop_next hNext] at h
        obtain ⟨more, rfl⟩ := ih h
        exact ⟨aval :: more, List.append_assoc ..⟩

theorem explodeLoop_joined {str : Word} {n : Nat} (acc : List Word) {values : List Word} (hStr : str ≠ [])
    (hFuel : rest.length < n)
    (h : explodeLoop delim str n rest acc = .ok () (acc ++ values)) :
    values ≠ [] ∧ joined delim values = rest ∧ ∀ v ∈ values, delim ∈ v → v.head? = some '"' := by
  induction n generalizing rest acc values with
  | zero => omega
  | succ n ih =>
    cases hNext : nextValue delim rest with
    | error e =>
      rw [explodeLoop, hNext] at h
      cases h
    | ok next =>
      obtain ⟨aval, behind⟩ := next
      obtain ⟨hRest, hQuoted⟩ := nextValue_ok hNext
      cases behind with
      | none =>
        rw [explodeLoop_last hStr hNext] at h
        obtain rfl := List.append_cancel_left (EStateM.Result.ok.inj h).2
        refine ⟨List.cons_ne_nil _ _, ?_, by simpa using hQuoted⟩
        rw [hRest, behindDelim, Option.elim_none, List.append_nil]
        rfl
      | some behind =>
        cases behind with
        | nil =>
          rw [explodeLoop_empty hNext] at h
          obtain rfl := List.append_cancel_left (EStateM.Result.ok.inj h).2
          exact ⟨List.cons_ne_nil _ _, hRest.symm, by simpa using hQuoted⟩
        | cons c cs =>
          rw [explodeLoop_next hNext] at h
          obtain ⟨more, hMore⟩ := explodeLoop_extends hStr h
          rw [List.append_assoc] at hMore
          obtain rfl := List.append_cancel_left hMore
          have hLess : (c :: cs).length < n := by
            rw [hRest, behindDelim, Option.elim_some, List.length_append, List.length_cons] at hFuel
            omega
          rw [← List.append_assoc] at h
          obtain ⟨hNonempty, hJoined, hAll⟩ := ih _ hLess h
          refine ⟨List.cons_ne_nil _ _, ?_, ?_⟩
          · obtain ⟨w, ws, rfl⟩ := List.exists_cons_of_ne_nil hNonempty
            rw [List.singleton_append, joined, hJoined, hRest]
            rfl
          · intro v hv
            rcases List.mem_cons.mp hv with rfl | hv
            · exact hQuoted
            · exact hAll v hv

/-- Every value is read up to its end. -/
def AllKept : List (DelimitedValue delim) → Prop
  | [] => True
  | v :: vs => v.Kept vs.isEmpty ∧ AllKept vs

def texts (values : List (DelimitedValue delim)) : List Word := values.map DelimitedValue.text

theorem behindFirst_isNone (vs : List (DelimitedValue delim)) :
    (behindFirst delim (texts vs)).isNone = vs.isEmpty := by
  cases vs with
  | nil => rfl
  | cons v vs => rfl

theorem text_ne_nil_of_quoted (t : Word) : (DelimitedValue.quoted t : DelimitedValue delim).text ≠ [] := by
  rw [DelimitedValue.text]
  simp

theorem joined_eq_nil {vs : List (DelimitedValue delim)} (hNonempty : vs ≠ []) (h : joined delim (texts vs) = []) :
    texts vs = [[]] ∧ AllKept vs := by
  obtain ⟨v, vs, rfl⟩ := List.exists_cons_of_ne_nil hNonempty
  cases vs with
  | cons w vs =>
    rw [texts, List.map_cons, List.map_cons, joined] at h
    exact absurd h (by simp)
  | nil =>
    have hText : v.text = [] := h
    refine ⟨by rw [texts, List.map_singleton, hText], ?_, trivial⟩
    cases v with
    | plain value hFree hHead => exact fun _ => .inr rfl
    | quoted t => exact absurd hText (text_ne_nil_of_quoted t)

theorem explodeLoop_texts_iff {str : Word} (hStr : str ≠ []) (values : List (DelimitedValue delim))
    (hNonempty : values ≠ []) {n : Nat} (hFuel : (joined delim (texts values)).length < n) (acc : List Word) :
    explodeLoop delim str n (joined delim (texts values)) acc = .ok () (acc ++ texts values) ↔ AllKept values := by
  induction values generalizing n acc with
  | nil => exact absurd rfl hNonempty
  | cons v vs ih =>
    obtain ⟨n, rfl⟩ : ∃ m, n = m + 1 := ⟨n - 1, by omega⟩
    have hJoined : joined delim (texts (v :: vs)) = v.text ++ behindDelim delim (behindFirst delim (texts vs)) :=
      joined_cons _ _
    rw [hJoined] at hFuel ⊢
    rw [AllKept, ← behindFirst_isNone]
    by_cases hKept : v.Kept (behindFirst delim (texts vs)).isNone
    · have hNext := nextValue_kept v _ hKept
      rw [and_iff_right hKept]
      cases vs with
      | nil =>
        rw [explodeLoop_last hStr hNext]
        exact iff_of_true rfl trivial
      | cons w ws =>
        cases hBehind : joined delim (texts (w :: ws)) with
        | nil =>
          obtain ⟨hTexts, hAll⟩ := joined_eq_nil (List.cons_ne_nil w ws) hBehind
          have hSome : behindFirst delim (texts (w :: ws)) = some [] := congrArg some hBehind
          rw [hSome] at hNext ⊢
          rw [explodeLoop_empty hNext, iff_true_right hAll]
          change EStateM.Result.ok () (acc ++ [v.text, []]) = .ok () (acc ++ v.text :: texts (w :: ws))
          rw [hTexts]
        | cons c cs =>
          have hSome : behindFirst delim (texts (w :: ws)) = some (c :: cs) := congrArg some hBehind
          rw [hSome, behindDelim, Option.elim_some, List.length_append, List.length_cons] at hFuel
          have hIh := ih (List.cons_ne_nil w ws) (n := n) (by rw [hBehind]; omega) (acc ++ [v.text])
          rw [hBehind, List.append_assoc] at hIh
          rw [hSome] at hNext ⊢
          rw [explodeLoop_next hNext]
          exact hIh
    · rw [iff_false_right fun hAll => hKept hAll.1]
      intro hRun
      cases hNext : nextValue delim (v.text ++ behindDelim delim (behindFirst delim (texts vs))) with
      | error e =>
        rw [explodeLoop, hNext] at hRun
        cases hRun
      | ok next =>
        obtain ⟨aval, behind⟩ := next
        have hChanged := nextValue_changed v _ hKept hNext
        apply hChanged
        -- the value read is the first of the result
        have hFirst : ∃ more, acc ++ texts (v :: vs) = acc ++ [aval] ++ more := by
          rcases behind with _ | _ | ⟨c, cs⟩
          · rw [explodeLoop_last hStr hNext] at hRun
            exact ⟨[], by rw [List.append_nil]; exact (EStateM.Result.ok.inj hRun).2.symm⟩
          · rw [explodeLoop_empty hNext] at hRun
            exact ⟨[[]], by rw [List.append_assoc]; exact (EStateM.Result.ok.inj hRun).2.symm⟩
          · rw [explodeLoop_next hNext] at hRun
            exact explodeLoop_extends hStr hRun
        obtain ⟨more, hMore⟩ := hFirst
        rw [List.append_assoc] at hMore
        exact (List.cons.inj (List.append_cancel_left hMore)).1.symm

theorem kept_iff (v : DelimitedValue delim) : v.Kept last ↔
    (∀ t, .quoted t = v → ¬ ['\\', '"'] <:+: t) ∧ (last = false → delim = '"' → v.text ≠ []) := by
  cases v with
  | plain value hFree hHead =>
    have hQuoted : ∀ t, DelimitedValue.quoted t = .plain value hFree hHead → ¬ ['\\', '"'] <:+: t := by
      intro t ht
      cases ht
    rw [DelimitedValue.Kept, and_iff_right hQuoted]
    cases last with
    | true => simp
    | false => simp [DelimitedValue.text]
  | quoted t =>
    rw [DelimitedValue.Kept]
    constructor
    · intro h
      refine ⟨?_, fun _ _ => text_ne_nil_of_quoted t⟩
      rintro s hs
      cases hs
      exact h
    · intro h
      exact h.1 t rfl

theorem allKept_iff (values : List (DelimitedValue delim)) : AllKept values ↔
    (∀ t, .quoted t ∈ values → ¬ ['\\', '"'] <:+: t) ∧ (delim = '"' → [] ∉ (texts values).dropLast) := by
  induction values with
  | nil => exact iff_of_true trivial ⟨fun _ ht => absurd ht List.not_mem_nil, fun _ => List.not_mem_nil⟩
  | cons v vs ih =>
    rw [AllKept, kept_iff, ih]
    cases vs with
    | nil => simp [texts]
    | cons w ws =>
      have hDrop : (texts (v :: w :: ws)).dropLast = v.text :: (texts (w :: ws)).dropLast := rfl
      rw [hDrop]
      simp only [List.isEmpty_cons, List.mem_cons (b := v), List.mem_cons (b := v.text), not_or, forall_true_left,
        or_imp, forall_and]
      constructor
      · rintro ⟨⟨hv, hText⟩, hvs, hTexts⟩
        exact ⟨⟨hv, hvs⟩, fun hDelim hNil => hText hDelim hNil.symm, hTexts⟩
      · rintro ⟨⟨hv, hvs⟩, hTexts⟩
        exact ⟨⟨hv, fun hDelim hNil => hTexts.1 hDelim hNil.symm⟩, hvs, hTexts.2⟩

theorem texts_delimited (values : List (DelimitedValue delim)) :
    ∀ v ∈ texts values, delim ∈ v → v.head? = some '"' := by
  intro v hv hMem
  obtain ⟨value, -, rfl⟩ := List.mem_map.mp hv
  cases value with
  | plain value hFree hHead => exact absurd hMem hFree
  | quoted t => rfl

/-- Behind the empty string the next start is the length. -/
theorem explode_nil (delim : Char) : explode delim [] [] = .ok () [[], []] := rfl

theorem joined_texts_eq_nil {values : List (DelimitedValue delim)} :
    joined delim (texts values) = [] ↔ texts values = [] ∨ texts values = [[]] := by
  constructor
  · intro h
    cases values with
    | nil => exact .inl rfl
    | cons v vs => exact .inr (joined_eq_nil (List.cons_ne_nil v vs) h).1
  · rintro (h | h) <;> rw [h] <;> rfl

end

/-- Values come back unless the string is empty, a backslash of a quoted text stands before a quote, or an empty value
before a delimiter that is a quote is read as a quoted one. -/
theorem exploded_iff (delim : Char) :
    (∀ values : List (DelimitedValue delim),
      (∃ str, implode (texts values) delim = .ok str ∧ explode delim str [] = .ok () (texts values)) ↔
        texts values ≠ [] ∧ texts values ≠ [[]] ∧ (∀ t, .quoted t ∈ values → ¬ ['\\', '"'] <:+: t) ∧
          (delim = '"' → [] ∉ (texts values).dropLast)) ∧
      ∀ str values, explode delim str [] = .ok () values → (implode values delim = .ok str ↔ str ≠ []) := by
  constructor
  · intro values
    rw [implode_eq (texts_delimited values), ← allKept_iff, ← and_assoc, ← not_or, ← joined_texts_eq_nil]
    by_cases hStr : joined delim (texts values) = []
    · rw [iff_false_right fun h => h.1 hStr]
      rintro ⟨str, hImplode, hExplode⟩
      obtain rfl := Except.ok.inj hImplode
      rw [hStr, explode_nil] at hExplode
      rw [← (EStateM.Result.ok.inj hExplode).2] at hStr
      cases hStr
    · have hNonempty : values ≠ [] := by
        rintro rfl
        exact hStr rfl
      rw [and_iff_right hStr, ← explodeLoop_texts_iff hStr values hNonempty (Nat.lt_succ_self _) []]
      constructor
      · rintro ⟨str, hImplode, hExplode⟩
        obtain rfl := Except.ok.inj hImplode
        exact hExplode
      · intro h
        exact ⟨_, rfl, h⟩
  · intro str values h
    by_cases hStr : str = []
    · subst hStr
      rw [explode_nil] at h
      obtain rfl := (EStateM.Result.ok.inj h).2
      exact iff_of_false (fun hImplode => by cases hImplode) fun hNe => hNe rfl
    · obtain ⟨-, hJoined, hDelimited⟩ := explodeLoop_joined [] hStr (Nat.lt_succ_self _) h
      rw [implode_eq hDelimited, hJoined]
      exact iff_of_true rfl hStr

/-- One empty value becomes two. -/
theorem empty_value_doubled :
    ¬ ∀ (delim : Char) (values : List (DelimitedValue delim)), ∃ str,
      implode (texts values) delim = .ok str ∧ explode delim str [] = .ok () (texts values) := by
  intro h
  obtain ⟨str, hImplode, hExplode⟩ := h ',' [.plain [] List.not_mem_nil (by decide)]
  obtain rfl := Except.ok.inj hImplode
  cases (EStateM.Result.ok.inj hExplode).2

end Libdap.Bes
