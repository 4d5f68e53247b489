import Libdap.Core.InPlace
import Libdap.Dap2.Escaping

/-! # Escapes of an HDF attribute

`escattr` edits its text in three passes: backslashes, characters that are not printable, quotes. `unescattr` undoes
them with three regular expressions, and searches the whole text again after each match.
-/

namespace Libdap.Escaping
open Constraint InPlace
set_option autoImplicit false

def printable : Word :=
  (" ABCDEFGHIJKLMNOPQRSTUVWXYZabcdefghijklmnopqrstuvwxyz0123456789~`!@#$%^&*()_-+=\x7b[\x7d]|\\:;<,>.?/'\"").toList

def octalDigit (n : Nat) : Char := Char.ofNat (48 + n)

/-- Three octal digits, padded with zeros. -/
def octstring (c : Char) : Word :=
  [octalDigit (c.toNat / 64), octalDigit (c.toNat / 8 % 8), octalDigit (c.toNat % 8)]

/-- `>> oct` on three octal digits; the string of the null character is empty. -/
def unoctstring (s : Word) : Word := Dap2.charString (valueOf 8 s)

def backslashAt : Word → Option (Edit Char)
  | [] => none
  | c :: _ => if c = '\\' then some ⟨1, ['\\', '\\'], 2⟩ else none

/-- The index stays at what was put in. -/
def nonPrintableAt : Word → Option (Edit Char)
  | [] => none
  | c :: _ => if c ∈ printable then none else some ⟨1, '\\' :: octstring c, 0⟩

def quoteAt : Word → Option (Edit Char)
  | [] => none
  | c :: _ => if c = '"' then some ⟨1, ['\\', '"'], 2⟩ else none

def escattr (s : Word) : Option Word := do
  let s ← sweep backslashAt (s.length + 1) s 0
  let s ← sweep nonPrintableAt (s.length + 1) s 0
  sweep quoteAt (s.length + 1) s 0

/-- The match of `\\\\` -/
def escEscAt : Word → Option (Edit Char)
  | '\\' :: '\\' :: _ => some ⟨2, ['\\'], 0⟩
  | _ => none

/-- The match of `\\"` -/
def escQuoteAt : Word → Option (Edit Char)
  | '\\' :: '"' :: _ => some ⟨2, ['"'], 0⟩
  | _ => none

def isOctal (c : Char) : Bool := '0' ≤ c && c ≤ '7'

/-- The match of `\\[0-3][0-7][0-7]` -/
def octalAt : Word → Option (Edit Char)
  | '\\' :: a :: b :: c :: _ =>
    if '0' ≤ a ∧ a ≤ '3' ∧ isOctal b ∧ isOctal c then some ⟨4, unoctstring [a, b, c], 0⟩ else none
  | _ => none

/-- `Regex::search` gives no match in a text that is longer. -/
def SEARCH_MAX : Nat := 32766

/-- One of the loops of `unescattr`. -/
def unescapeAll (f : Word → Option (Edit Char)) : Nat → Word → Option Word
  | 0, _ => none
  | k + 1, s =>
    if s.length > SEARCH_MAX then some s
    else match find f s 0 with
      | none => some s
      | some (j, e) => unescapeAll f k (replace s j e.cut e.put)

def unescattr (s : Word) : Option Word := do
  let s ← unescapeAll escEscAt (s.length + 1) s
  let s ← unescapeAll escQuoteAt (s.length + 1) s
  unescapeAll octalAt (s.length + 1) s

/-- What the three passes of `escattr` make of a character. -/
def escapedAttr (c : Char) : Word :=
  if c = '\\' then ['\\', '\\']
  else if c = '"' then ['\\', '"']
  else if c ∈ printable then [c]
  else '\\' :: octstring c

/-- The same, once the backslashes are single again. -/
def halfEscaped (c : Char) : Word := if c = '\\' then ['\\'] else escapedAttr c

/-- Only what is not printable is escaped. -/
def octalEscaped (c : Char) : Word := if c ∈ printable then [c] else '\\' :: octstring c

/-- No backslash stands before a backslash, a quote or what is not printable. -/
def Calm (s : Word) : Prop := ∀ c, ['\\', c] <:+: s → c ∈ printable ∧ c ≠ '\\' ∧ c ≠ '"'

theorem octstring_digits {c : Char} (hByte : c.toNat < 256) : ∃ x y z, octstring c = [x, y, z] ∧
    ('0' ≤ x ∧ x ≤ '3' ∧ isOctal y = true ∧ isOctal z = true) ∧ valueOf 8 [x, y, z] = c.toNat := by
  have hDigit : ∀ n : Fin 8, isOctal (octalDigit n) = true ∧ digitOf (octalDigit n) = some n.val := by decide
  have hFirst : ∀ n : Fin 4, '0' ≤ octalDigit n ∧ octalDigit n ≤ '3' := by decide
  have hx := hDigit ⟨c.toNat / 64, by omega⟩
  have hy := hDigit ⟨c.toNat / 8 % 8, by omega⟩
  have hz := hDigit ⟨c.toNat % 8, by omega⟩
  obtain ⟨hLow, hHigh⟩ := hFirst ⟨c.toNat / 64, by omega⟩
  refine ⟨_, _, _, rfl, ⟨hLow, hHigh, hy.1, hz.1⟩, ?_⟩
  simp only [valueOf, List.foldl_cons, List.foldl_nil, hx.2, hy.2, hz.2, Option.getD_some]
  omega

theorem mem_printable {c : Char} (hLow : 32 ≤ c.toNat) (hHigh : c.toNat ≤ 126) : c ∈ printable := by
  have hAll : ∀ n : Fin 95, 32 + n.val ∈ printable.map Char.toNat :=
    of_literal (p := fun l => ∀ n : Fin 95, 32 + n.val ∈ l.map Char.toNat) rfl (by decide)
  obtain ⟨d, hMem, hNat⟩ := List.mem_map.mp (hAll ⟨c.toNat - 32, by omega⟩)
  have hSame : d = c := Char.toNat_inj.mp (hNat.trans (Nat.add_sub_cancel' hLow))
  exact hSame ▸ hMem

theorem backslash_printable : '\\' ∈ printable := mem_printable (by decide) (by decide)

theorem quote_printable : '"' ∈ printable := mem_printable (by decide) (by decide)

theorem plain_of_isOctal {d : Char} (h : isOctal d = true) : d ∈ printable ∧ d ≠ '\\' ∧ d ≠ '"' := by
  rw [isOctal, Bool.and_eq_true, decide_eq_true_eq, decide_eq_true_eq] at h
  have hLow : 48 ≤ d.toNat := h.1
  have hHigh : d.toNat ≤ 55 := h.2
  refine ⟨mem_printable (by omega) (by omega), ?_, ?_⟩
  · rintro rfl
    exact absurd hHigh (by decide)
  · rintro rfl
    exact absurd hLow (by decide)

theorem isOctal_of_le {d : Char} (hLow : '0' ≤ d) (hHigh : d ≤ '3') : isOctal d = true := by
  rw [isOctal, Bool.and_eq_true, decide_eq_true_eq, decide_eq_true_eq]
  exact ⟨hLow, Char.le_trans hHigh (by decide)⟩

theorem octstring_plain {c : Char} (hByte : c.toNat < 256) :
    ∀ d ∈ octstring c, d ∈ printable ∧ d ≠ '\\' ∧ d ≠ '"' := by
  obtain ⟨x, y, z, hOct, ⟨hLow, hHigh, hy, hz⟩, -⟩ := octstring_digits hByte
  rw [hOct]
  intro d hd
  simp only [List.mem_cons, List.not_mem_nil, or_false] at hd
  rcases hd with rfl | rfl | rfl
  · exact plain_of_isOctal (isOctal_of_le hLow hHigh)
  · exact plain_of_isOctal hy
  · exact plain_of_isOctal hz

theorem nonPrintableAt_none {d : Char} (hd : d ∈ printable) (ds : Word) : nonPrintableAt (d :: ds) = none := if_pos hd

theorem escattr_eq {s : Word} (hBytes : ∀ c ∈ s, c.toNat < 256) : escattr s = some (s.flatMap escapedAttr) := by
  let double := fun c : Char => if c = '\\' then ['\\', '\\'] else [c]
  let quoted := fun c : Char => if c = '"' then ['\\', '"'] else [c]
  have hFirst (s : Word) : sweep backslashAt (s.length + 1) s 0 = some (s.flatMap double) := by
    apply sweep_flatMap
    intro c _ cs
    by_cases hc : c = '\\'
    · subst hc
      exact .inr ⟨2, Nat.le_refl 2, rfl, by simp [double]⟩
    · exact .inl ⟨if_neg hc, if_neg hc⟩
  have hSecond (s : Word) (hBytes : ∀ c ∈ s, c.toNat < 256) :
      sweep nonPrintableAt (s.length + 1) s 0 = some (s.flatMap octalEscaped) := by
    apply sweep_flatMap
    intro c hMem cs
    by_cases hc : c ∈ printable
    · exact .inl ⟨if_pos hc, if_pos hc⟩
    · have hSplit : octalEscaped c = '\\' :: octstring c := if_neg hc
      refine .inr ⟨0, Nat.zero_le _, hSplit ▸ if_neg hc, ?_⟩
      rw [hSplit]
      rintro d (_ | ⟨_, hd⟩) ds
      · exact nonPrintableAt_none backslash_printable ds
      · exact nonPrintableAt_none (octstring_plain (hBytes c hMem) d hd).1 ds
  have hThird (s : Word) : sweep quoteAt (s.length + 1) s 0 = some (s.flatMap quoted) := by
    apply sweep_flatMap
    intro c _ cs
    by_cases hc : c = '"'
    · subst hc
      exact .inr ⟨2, Nat.le_refl 2, rfl, by simp [quoted]⟩
    · exact .inl ⟨if_neg hc, if_neg hc⟩
  have hDoubled : ∀ c ∈ s.flatMap double, c.toNat < 256 := by
    intro c hc
    obtain ⟨d, hd, hIn⟩ := List.mem_flatMap.mp hc
    dsimp only [double] at hIn
    split at hIn
    · simp only [List.mem_cons, List.not_mem_nil, or_false, or_self] at hIn
      subst hIn
      decide
    · rw [List.mem_singleton.mp hIn]
      exact hBytes d hd
  rw [escattr, hFirst]
  dsimp only [bind, Option.bind]
  rw [hSecond _ hDoubled]
  dsimp only
  rw [hThird, List.flatMap_assoc, List.flatMap_assoc]
  congr 1
  apply List.flatMap_congr
  intro c hc
  dsimp only [double]
  rw [escapedAttr]
  by_cases hBackslash : c = '\\'
  · subst hBackslash
    simp [octalEscaped, backslash_printable, quoted]
  · rw [if_neg hBackslash, if_neg hBackslash]
    by_cases hQuote : c = '"'
    · subst hQuote
      simp [octalEscaped, quote_printable, quoted]
    · rw [if_neg hQuote]
      by_cases hPrintable : c ∈ printable
      · simp [octalEscaped, hPrintable, quoted, hQuote]
      · rw [if_neg hPrintable]
        have hKeep : ∀ w : Word, (∀ d ∈ w, d ≠ '"') → w.flatMap quoted = w := by
          intro w hw
          induction w with
          | nil => rfl
          | cons d w ih =>
            rw [List.flatMap_cons, ih fun x hx => hw x (List.mem_cons_of_mem d hx)]
            dsimp only [quoted]
            rw [if_neg (hw d List.mem_cons_self)]
            rfl
        simp only [List.flatMap_cons, List.flatMap_nil, List.append_nil, octalEscaped, hPrintable, if_false]
        rw [← List.flatMap_cons]
        apply hKeep
        rintro d (_ | ⟨_, hd⟩)
        · decide
        · exact (octstring_plain (hBytes c hc) d hd).2.2

theorem Calm.tail {c : Char} {cs : Word} (h : Calm (c :: cs)) : Calm cs :=
    fun d hd => h d (hd.trans (List.suffix_cons c cs).isInfix)

/-- What follows a backslash, if anything does, is a character that no pass of `escattr` changes. -/
theorem Calm.next {cs : Word} (h : Calm ('\\' :: cs)) {g : Char → Word}
    (hg : ∀ c ∈ printable, c ≠ '\\' → c ≠ '"' → g c = [c]) :
    cs.flatMap g = [] ∨ ∃ d ds, cs.flatMap g = d :: ds ∧ d ≠ '\\' ∧ d ≠ '"' := by
  cases cs with
  | nil => exact .inl rfl
  | cons d ds =>
    obtain ⟨hPrintable, hBackslash, hQuote⟩ := h d (List.prefix_append ['\\', d] ds).isInfix
    refine .inr ⟨d, ds.flatMap g, ?_, hBackslash, hQuote⟩
    rw [List.flatMap_cons, hg d hPrintable hBackslash hQuote]
    rfl

theorem gives_plain_attr {f : Word → Option (Edit Char)} (hf : ∀ d ds, d ≠ '\\' → f (d :: ds) = none) {p s t : Word}
    (hp : ∀ d ∈ p, d ≠ '\\') (h : Gives f s t) : Gives f (p ++ s) (p ++ t) := by
  induction p with
  | nil => exact h
  | cons d p ih => exact .skip (hf d _ (hp d List.mem_cons_self)) (ih fun x hx => hp x (List.mem_cons_of_mem d hx))

theorem escEscAt_plain (d : Char) (ds : Word) (hd : d ≠ '\\') : escEscAt (d :: ds) = none := by
  unfold escEscAt
  split
  · rename_i h
    cases h
    exact absurd rfl hd
  · rfl

theorem escEscAt_pair {d : Char} (ds : Word) (hd : d ≠ '\\') : escEscAt ('\\' :: d :: ds) = none := by
  unfold escEscAt
  split
  · rename_i h
    cases h
    exact absurd rfl hd
  · rfl

theorem escQuoteAt_plain (d : Char) (ds : Word) (hd : d ≠ '\\') : escQuoteAt (d :: ds) = none := by
  unfold escQuoteAt
  split
  · rename_i h
    cases h
    exact absurd rfl hd
  · rfl

theorem escQuoteAt_pair {d : Char} (ds : Word) (hd : d ≠ '"') : escQuoteAt ('\\' :: d :: ds) = none := by
  unfold escQuoteAt
  split
  · rename_i h
    cases h
    exact absurd rfl hd
  · rfl

theorem escEscAt_eq_none {a b : Char} {x : Word} : escEscAt (a :: b :: x) = none ↔ ¬ (a = '\\' ∧ b = '\\') := by
  constructor
  · rintro h ⟨rfl, rfl⟩
    cases h
  · intro h
    by_cases ha : a = '\\'
    · subst ha
      exact escEscAt_pair x fun hb => h ⟨rfl, hb⟩
    · exact escEscAt_plain _ _ ha

theorem escQuoteAt_eq_none {a b : Char} {x : Word} : escQuoteAt (a :: b :: x) = none ↔ ¬ (a = '\\' ∧ b = '"') := by
  constructor
  · rintro h ⟨rfl, rfl⟩
    cases h
  · intro h
    by_cases ha : a = '\\'
    · subst ha
      exact escQuoteAt_pair x fun hb => h ⟨rfl, hb⟩
    · exact escQuoteAt_plain _ _ ha

/-- The pass over the backslashes, at its own places. -/
theorem gives_escEsc {s : Word} (hBytes : ∀ c ∈ s, c.toNat < 256) (h : Calm s) :
    Gives escEscAt (s.flatMap escapedAttr) (s.flatMap halfEscaped) := by
  induction s with
  | nil => exact .nil _
  | cons c cs ih =>
    have ih := ih (fun d hd => hBytes d (List.mem_cons_of_mem c hd)) h.tail
    rw [List.flatMap_cons, List.flatMap_cons]
    by_cases hBackslash : c = '\\'
    · subst hBackslash
      rw [show escapedAttr '\\' = ['\\', '\\'] from if_pos rfl, show halfEscaped '\\' = ['\\'] from if_pos rfl]
      refine (Gives.hit_iff (by simp) (e := ⟨2, ['\\'], 0⟩) rfl rfl).mpr ?_
      refine .skip ?_ ih
      have hNext := h.next (g := escapedAttr) fun d hd hb hq => by rw [escapedAttr, if_neg hb, if_neg hq, if_pos hd]
      rcases hNext with hNil | ⟨d, ds, hCons, hd, -⟩
      · rw [hNil]
        rfl
      · rw [hCons]
        exact escEscAt_pair ds hd
    · rw [halfEscaped, if_neg hBackslash, escapedAttr, if_neg hBackslash]
      by_cases hQuote : c = '"'
      · subst hQuote
        exact .skip (escEscAt_pair _ (by decide)) (.skip (escEscAt_plain _ _ (by decide)) ih)
      · rw [if_neg hQuote]
        by_cases hPrintable : c ∈ printable
        · rw [if_pos hPrintable]
          exact .skip (escEscAt_plain _ _ hBackslash) ih
        · rw [if_neg hPrintable]
          have hPlain := octstring_plain (hBytes c List.mem_cons_self)
          refine .skip ?_ (gives_plain_attr escEscAt_plain (fun d hd => (hPlain d hd).2.1) ih)
          obtain ⟨x, y, z, hOct, -, -⟩ := octstring_digits (hBytes c List.mem_cons_self)
          rw [hOct] at hPlain ⊢
          exact escEscAt_pair _ (hPlain x List.mem_cons_self).2.1

/-- Searching the whole text again finds nothing before the place of the last match. -/
theorem rests_escEsc {s : Word} (hBytes : ∀ c ∈ s, c.toNat < 256) (h : Calm s) :
    Rests escEscAt (s.flatMap escapedAttr) (s.flatMap halfEscaped) := by
  apply Rests.of_gives (I := fun _ => True) _ _ trivial (gives_escEsc hBytes h)
  · intro r e he
    unfold escEscAt at he
    split at he
    · cases he
      rfl
    · cases he
  · intro p r e _ hBefore he
    unfold escEscAt at he
    split at he
    · rename_i r
      cases he
      refine ⟨trivial, fun i hi => ?_⟩
      have hOld := hBefore i hi
      rw [List.drop_append_of_le_length (Nat.le_of_lt hi)] at hOld ⊢
      cases hRest : p.drop i with
      | nil => exact absurd (List.drop_eq_nil_iff.mp hRest) (Nat.not_le_of_lt hi)
      | cons a w =>
        rw [hRest] at hOld
        cases w with
        | nil => exact escEscAt_eq_none.mpr (escEscAt_eq_none.mp hOld)
        | cons b w => exact escEscAt_eq_none.mpr (escEscAt_eq_none.mp hOld)
    · cases he

theorem gives_escQuote {s : Word} (hBytes : ∀ c ∈ s, c.toNat < 256) (h : Calm s) :
    Gives escQuoteAt (s.flatMap halfEscaped) (s.flatMap octalEscaped) := by
  induction s with
  | nil => exact .nil _
  | cons c cs ih =>
    have ih := ih (fun d hd => hBytes d (List.mem_cons_of_mem c hd)) h.tail
    rw [List.flatMap_cons, List.flatMap_cons]
    by_cases hBackslash : c = '\\'
    · subst hBackslash
      have hOpen : octalEscaped '\\' = ['\\'] := if_pos backslash_printable
      rw [show halfEscaped '\\' = ['\\'] from if_pos rfl, hOpen]
      refine .skip ?_ ih
      have hNext := h.next (g := halfEscaped) fun d hd hb hq => by
        rw [halfEscaped, if_neg hb, escapedAttr, if_neg hb, if_neg hq, if_pos hd]
      rcases hNext with hNil | ⟨d, ds, hCons, -, hd⟩
      · rw [hNil]
        rfl
      · rw [hCons]
        exact escQuoteAt_pair ds hd
    · rw [halfEscaped, if_neg hBackslash, escapedAttr, if_neg hBackslash]
      by_cases hQuote : c = '"'
      · subst hQuote
        have hOpen : octalEscaped '"' = ['"'] := if_pos quote_printable
        rw [if_pos rfl, hOpen]
        refine (Gives.hit_iff (by simp) (e := ⟨2, ['"'], 0⟩) rfl rfl).mpr ?_
        exact .skip (escQuoteAt_plain _ _ (by decide)) ih
      · rw [if_neg hQuote, octalEscaped]
        by_cases hPrintable : c ∈ printable
        · simp only [if_pos hPrintable]
          exact .skip (escQuoteAt_plain _ _ hBackslash) ih
        · simp only [if_neg hPrintable]
          have hPlain := octstring_plain (hBytes c List.mem_cons_self)
          refine .skip ?_ (gives_plain_attr escQuoteAt_plain (fun d hd => (hPlain d hd).2.1) ih)
          obtain ⟨x, y, z, hOct, -, -⟩ := octstring_digits (hBytes c List.mem_cons_self)
          rw [hOct] at hPlain ⊢
          exact escQuoteAt_pair _ (hPlain x List.mem_cons_self).2.2

/-- No two backslashes stand together. -/
def Single (s : Word) : Prop := ∀ i < s.length, escEscAt (s.drop i) = none

theorem rests_escQuote {s : Word} (hBytes : ∀ c ∈ s, c.toNat < 256) (h : Calm s) :
    Rests escQuoteAt (s.flatMap halfEscaped) (s.flatMap octalEscaped) := by
  have hSingle : Single (s.flatMap halfEscaped) := find_eq_none.mp (rests_escEsc hBytes h).find_eq_none
  apply Rests.of_gives (I := Single) _ _ hSingle (gives_escQuote hBytes h)
  · intro r e he
    unfold escQuoteAt at he
    split at he
    · cases he
      rfl
    · cases he
  · intro p r e hInv hBefore he
    unfold escQuoteAt at he
    split at he
    · rename_i r
      cases he
      change Single (p ++ '"' :: r) ∧ ∀ i < p.length, escQuoteAt ((p ++ '"' :: r).drop i) = none
      constructor
      · intro i hi
        rcases Nat.lt_or_ge i p.length with hLess | hGe
        · have hOld := hInv i (by rw [List.length_append]; omega)
          rw [List.drop_append_of_le_length (Nat.le_of_lt hLess)] at hOld ⊢
          cases hRest : p.drop i with
          | nil => exact absurd (List.drop_eq_nil_iff.mp hRest) (Nat.not_le_of_lt hLess)
          | cons a w =>
            rw [hRest] at hOld
            cases w with
            | nil => exact escEscAt_eq_none.mpr fun hBoth => absurd hBoth.2 (by decide)
            | cons b w => exact escEscAt_eq_none.mpr (escEscAt_eq_none.mp hOld)
        · obtain ⟨i, rfl⟩ := Nat.exists_eq_add_of_le hGe
          rw [List.drop_length_add_append]
          cases i with
          | zero => exact escEscAt_plain _ _ (by decide)
          | succ i =>
            have hOld := hInv (p.length + (i + 2)) (by
              simp only [List.length_append, List.length_cons] at hi ⊢
              omega)
            rw [List.drop_length_add_append] at hOld
            exact hOld
      · intro i hi
        have hOld := hBefore i hi
        have hPair := hInv i (by rw [List.length_append]; omega)
        rw [List.drop_append_of_le_length (Nat.le_of_lt hi)] at hOld hPair ⊢
        cases hRest : p.drop i with
        | nil => exact absurd (List.drop_eq_nil_iff.mp hRest) (Nat.not_le_of_lt hi)
        | cons a w =>
          rw [hRest] at hOld hPair
          cases w with
          | nil => exact escQuoteAt_eq_none.mpr fun hBoth => escEscAt_eq_none.mp hPair ⟨hBoth.1, rfl⟩
          | cons b w => exact escQuoteAt_eq_none.mpr (escQuoteAt_eq_none.mp hOld)
    · cases he

theorem octalAt_eq_some {r : Word} {e : Edit Char} : octalAt r = some e ↔ ∃ a b c rest,
    r = '\\' :: a :: b :: c :: rest ∧
    ('0' ≤ a ∧ a ≤ '3' ∧ isOctal b = true ∧ isOctal c = true) ∧ e = ⟨4, unoctstring [a, b, c], 0⟩ := by
  constructor
  · intro h
    unfold octalAt at h
    split at h
    · rename_i a b c rest
      split at h
      · rename_i hDigits
        cases h
        exact ⟨a, b, c, rest, rfl, hDigits, rfl⟩
      · cases h
    · cases h
  · rintro ⟨a, b, c, rest, rfl, hDigits, rfl⟩
    exact if_pos hDigits

/-- No match goes over into a text that starts with no octal digit. -/
theorem octalAt_append {w x : Word} (hw : w ≠ []) (hx : ∀ d ∈ x.head?, isOctal d = false) :
    octalAt (w ++ x) = octalAt w := by
  have hNo : ∀ d ds, x = d :: ds → isOctal d ≠ true := by
    rintro d ds rfl
    rw [hx d rfl]
    decide
  ext e
  rw [octalAt_eq_some, octalAt_eq_some]
  constructor
  · rintro ⟨a, b, c, rest, hEq, hDigits, rfl⟩
    obtain ⟨hLow, hHigh, hb, hc⟩ := hDigits
    match w, hw with
    | [p], _ =>
      injection hEq with _ hRest
      exact absurd (isOctal_of_le hLow hHigh) (hNo _ _ hRest)
    | [p, q], _ =>
      injection hEq with _ hRest
      injection hRest with _ hRest
      exact absurd hb (hNo _ _ hRest)
    | [p, q, r], _ =>
      injection hEq with _ hRest
      injection hRest with _ hRest
      injection hRest with _ hRest
      exact absurd hc (hNo _ _ hRest)
    | p :: q :: r :: u :: v, _ =>
      injection hEq with hp hRest
      injection hRest with hq hRest
      injection hRest with hr hRest
      injection hRest with hu hRest
      subst hp hq hr hu
      exact ⟨_, _, _, v, rfl, ⟨hLow, hHigh, hb, hc⟩, rfl⟩
  · rintro ⟨a, b, c, rest, rfl, hDigits, rfl⟩
    exact ⟨a, b, c, rest ++ x, rfl, hDigits, rfl⟩

theorem find_octal_append {a x : Word} (hx : ∀ d ∈ x.head?, isOctal d = false) {j : Nat} {e : Edit Char}
    (h : find octalAt a 0 = some (j, e)) : find octalAt (a ++ x) 0 = some (j, e) := by
  obtain ⟨hj, hAt, hBefore⟩ := find_eq_some.mp h
  have hSame : ∀ i < a.length, octalAt ((a ++ x).drop i) = octalAt (a.drop i) := by
    intro i hi
    rw [List.drop_append_of_le_length (Nat.le_of_lt hi)]
    exact octalAt_append (fun hNil => absurd (List.drop_eq_nil_iff.mp hNil) (Nat.not_le_of_lt hi)) hx
  refine find_eq_some.mpr ⟨?_, (hSame j hj).trans hAt, fun i hi => (hSame i (Nat.lt_trans hi hj)).trans (hBefore i hi)⟩
  rw [List.length_append]
  exact Nat.lt_add_right _ hj

theorem octalAt_short (r : Word) (e : Edit Char) (h : octalAt r = some e) : e.cut ≤ r.length ∧
    e.put.length < e.cut := by
  obtain ⟨a, b, c, rest, rfl, -, rfl⟩ := octalAt_eq_some.mp h
  refine ⟨Nat.le_add_left 4 rest.length, ?_⟩
  change (unoctstring [a, b, c]).length < 4
  rw [unoctstring, Dap2.charString]
  split
  · exact Nat.succ_pos 3
  · exact (by decide : 1 < 4)

/-- A text with escapes of some of its characters: each with what follows it unescaped. -/
def withEscapes (parts : List (Char × Word)) : Word := parts.flatMap fun q => '\\' :: octstring q.1 ++ q.2

def withoutEscapes (parts : List (Char × Word)) : Word := parts.flatMap fun q => q.1 :: q.2

theorem not_octal {c : Char} (h : c ∉ printable) : isOctal c = false := by
  rw [← Bool.not_eq_true]
  exact fun hOctal => h (plain_of_isOctal hOctal).1

theorem octalAt_octstring {c : Char} (hPos : 0 < c.toNat) (hByte : c.toNat < 256) (rest : Word) :
    octalAt ('\\' :: octstring c ++ rest) = some ⟨4, [c], 0⟩ := by
  obtain ⟨x, y, z, hOct, hDigits, hValue⟩ := octstring_digits hByte
  refine octalAt_eq_some.mpr ⟨x, y, z, rest, by rw [hOct]; rfl, hDigits, ?_⟩
  have hMod : (c.toNat : Int) % 256 = c.toNat := Int.emod_eq_of_lt (Int.natCast_nonneg _) (by omega)
  rw [unoctstring, hValue, Dap2.charString, hMod, if_neg (by omega), Int.toNat_natCast, Char.ofNat_toNat]

/-- The octal pass takes the escapes back among what it makes of the text itself. -/
theorem rests_octal {parts : List (Char × Word)}
    (hParts : ∀ q ∈ parts, q.1 ∉ printable ∧ 0 < q.1.toNat ∧ q.1.toNat < 256) (n : Nat) (a t : Word) (hn : a.length ≤ n)
    (h : Rests octalAt (a ++ withoutEscapes parts) t) : Rests octalAt (a ++ withEscapes parts) t := by
  induction parts generalizing n a with
  | nil => exact h
  | cons q parts ihParts =>
    obtain ⟨c, w⟩ := q
    obtain ⟨hNot, hPos, hByte⟩ := hParts (c, w) List.mem_cons_self
    have hRest := fun q hq => hParts q (List.mem_cons_of_mem (c, w) hq)
    have hPlain : withoutEscapes ((c, w) :: parts) = c :: (w ++ withoutEscapes parts) := rfl
    have hFlat : withEscapes ((c, w) :: parts) = '\\' :: octstring c ++ (w ++ withEscapes parts) := by
      rw [withEscapes, List.flatMap_cons, List.append_assoc]
      rfl
    rw [hPlain] at h
    rw [hFlat]
    have hHeadPlain : ∀ d ∈ (c :: (w ++ withoutEscapes parts)).head?, isOctal d = false := by
      rintro d ⟨⟩
      exact not_octal hNot
    have hHeadFlat : ∀ d ∈ ('\\' :: octstring c ++ (w ++ withEscapes parts)).head?, isOctal d = false := by
      rintro d ⟨⟩
      decide
    induction n generalizing a with
    | zero =>
      obtain rfl := List.length_eq_zero_iff.mp (Nat.le_zero.mp hn)
      have hHit : find octalAt ('\\' :: octstring c ++ (w ++ withEscapes parts)) 0 = some (0, ⟨4, [c], 0⟩) :=
        find_eq_some.mpr ⟨by simp, octalAt_octstring hPos hByte _, fun i hi => absurd hi (Nat.not_lt_zero i)⟩
      rw [List.nil_append, Rests.hit_iff hHit]
      exact ihParts hRest (c :: w).length (c :: w) (Nat.le_refl _) h
    | succ n ih =>
      cases hFind : find octalAt a 0 with
      | none =>
        have hHit : find octalAt (a ++ ('\\' :: octstring c ++ (w ++ withEscapes parts))) 0 =
            some (a.length, ⟨4, [c], 0⟩) := by
          refine find_eq_some.mpr ⟨?_, ?_, ?_⟩
          · rw [List.length_append, List.cons_append, List.length_cons]
            omega
          · rw [List.drop_left]
            exact octalAt_octstring hPos hByte _
          · intro i hi
            rw [List.drop_append_of_le_length (Nat.le_of_lt hi),
              octalAt_append (fun hNil => absurd (List.drop_eq_nil_iff.mp hNil) (Nat.not_le_of_lt hi)) hHeadFlat]
            exact find_eq_none.mp hFind i hi
        rw [Rests.hit_iff hHit]
        have hSame : replace (a ++ ('\\' :: octstring c ++ (w ++ withEscapes parts))) a.length 4 [c] =
            a ++ c :: w ++ withEscapes parts := by
          rw [replace, List.take_left, List.drop_length_add_append, List.append_assoc]
          rfl
        dsimp only
        rw [hSame]
        apply ihParts hRest (a ++ c :: w).length _ (Nat.le_refl _)
        rw [List.append_assoc]
        exact h
      | some q =>
        obtain ⟨j, e⟩ := q
        obtain ⟨hj, hAt, -⟩ := find_eq_some.mp hFind
        obtain ⟨hCut, hPut⟩ := octalAt_short _ _ hAt
        rw [List.length_drop] at hCut
        have hReplace : ∀ x : Word, replace (a ++ x) j e.cut e.put = replace a j e.cut e.put ++ x := by
          intro x
          rw [replace, replace, List.take_append_of_le_length (Nat.le_of_lt hj),
            List.drop_append_of_le_length (by omega), List.append_assoc, List.append_assoc]
        rw [Rests.hit_iff (find_octal_append hHeadPlain hFind), hReplace] at h
        rw [Rests.hit_iff (find_octal_append hHeadFlat hFind), hReplace]
        refine ih _ ?_ h
        simp only [replace, List.length_append, List.length_take, List.length_drop]
        omega

theorem octalEscaped_parts {s : Word} (hName : Dap2.IsName s) : ∃ a parts,
    s = a ++ withoutEscapes parts ∧ s.flatMap octalEscaped = a ++ withEscapes parts ∧
      ∀ q ∈ parts, q.1 ∉ printable ∧ 0 < q.1.toNat ∧ q.1.toNat < 256 := by
  induction s with
  | nil => exact ⟨[], [], rfl, rfl, by simp⟩
  | cons c cs ih =>
    obtain ⟨a, parts, hPlain, hFlat, hParts⟩ := ih fun d hd => hName d (List.mem_cons_of_mem c hd)
    obtain ⟨hPos, hByte⟩ := hName c List.mem_cons_self
    rw [List.flatMap_cons, hFlat, octalEscaped]
    by_cases hc : c ∈ printable
    · exact ⟨c :: a, parts, congrArg (c :: ·) hPlain, by rw [if_pos hc]; rfl, hParts⟩
    · refine ⟨[], (c, a) :: parts, ?_, ?_, ?_⟩
      · exact congrArg (c :: ·) hPlain
      · rw [if_neg hc]
        exact (List.append_assoc ('\\' :: octstring c) a (withEscapes parts)).symm
      · rintro q (_ | ⟨_, hq⟩)
        · exact ⟨hc, hPos, hByte⟩
        · exact hParts q hq

/-- Up to the limit the limit is not met. -/
theorem unescapeAll_eq {f : Word → Option (Edit Char)}
    (hShort : ∀ r e, f r = some e → e.cut ≤ r.length ∧ e.put.length < e.cut) {s t : Word}
    (hLimit : s.length ≤ SEARCH_MAX)
    (h : Rests f s t) : unescapeAll f (s.length + 1) s = some t := by
  have hRescan : ∀ (k : Nat) (s : Word), s.length ≤ SEARCH_MAX → unescapeAll f k s = rescan f k s := by
    intro k
    induction k with
    | zero => exact fun s _ => rfl
    | succ k ih =>
      intro s hs
      rw [unescapeAll, rescan, if_neg (Nat.not_lt_of_le hs)]
      cases hFind : find f s 0 with
      | none => rfl
      | some q =>
        obtain ⟨j, e⟩ := q
        obtain ⟨hj, hAt, -⟩ := find_eq_some.mp hFind
        obtain ⟨hCut, hPut⟩ := hShort _ _ hAt
        rw [List.length_drop] at hCut
        apply ih
        simp only [replace, List.length_append, List.length_take, List.length_drop]
        omega
  obtain ⟨t', hTotal⟩ := rescan_total hShort (s.length + 1) s (Nat.lt_succ_self _)
  rw [hRescan _ s hLimit, hTotal, Rests.unique ⟨_, hTotal⟩ h]

theorem escEscAt_short (r : Word) (e : Edit Char) (h : escEscAt r = some e) : e.cut ≤ r.length ∧
    e.put.length < e.cut := by
  unfold escEscAt at h
  split at h
  · cases h
    exact ⟨Nat.le_add_left 2 _, Nat.lt_succ_self 1⟩
  · cases h

theorem escQuoteAt_short (r : Word) (e : Edit Char) (h : escQuoteAt r = some e) :
    e.cut ≤ r.length ∧ e.put.length < e.cut := by
  unfold escQuoteAt at h
  split at h
  · cases h
    exact ⟨Nat.le_add_left 2 _, Nat.lt_succ_self 1⟩
  · cases h

end Libdap.Escaping
