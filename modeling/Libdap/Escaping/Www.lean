import Libdap.Core.InPlace
import Libdap.Dap2.Escaping

/-! # Escapes of a URL

The loops of `id2www` and `www2id` as they edit their text, with the set of allowable characters, the set of characters
that start an escape and the text of the exceptions.
-/

namespace Libdap.Escaping
open Constraint InPlace
set_option autoImplicit false

/-- The default of `allowable` in `id2www`. -/
def idChars : Word := "ABCDEFGHIJKLMNOPQRSTUVWXYZabcdefghijklmnopqrstuvwxyz0123456789-+_/.\\*".toList

/-- The default of `allowable` in `id2www_ce`. -/
def ceChars : Word := "ABCDEFGHIJKLMNOPQRSTUVWXYZabcdefghijklmnopqrstuvwxyz0123456789-+_/.\\".toList

def escapeAt (allowable : Word) : Word → Option (Edit Char)
  | [] => none
  | c :: _ => if c ∈ allowable then none else some ⟨1, '%' :: Dap2.hexstring c, 3⟩

def id2www (s allowable : Word) : Option Word := sweep (escapeAt allowable) (s.length + 1) s 0

def id2wwwCe (s allowable : Word) : Option Word := id2www s allowable

/-- `s.find (w) != npos` -/
def occursIn (w s : Word) : Bool := s.tails.any fun t => w.isPrefixOf t

/-- An exception is stepped over; `unset` is what a variable that was never set holds, as a string. -/
def unescapeAt (unset escape except : Word) : Word → Option (Edit Char)
  | [] => none
  | c :: cs =>
    if c ∈ escape then
      if occursIn ((c :: cs).take 3) except then some ⟨0, [], 3⟩
      else some ⟨3, Dap2.unhexstring unset (cs.take 2), 1⟩
    else none

def www2id (unset s escape except : Word) : Option Word := sweep (unescapeAt unset escape except) (s.length + 1) s 0

/-- The value of two hexadecimal digits. -/
def byteOf (hi lo : Char) : Nat := valueOf 16 [hi, lo]

def HexDigits (hi lo : Char) : Prop := isDigitOf 16 hi = true ∧ isDigitOf 16 lo = true

instance (hi lo : Char) : Decidable (HexDigits hi lo) := inferInstanceAs (Decidable (_ ∧ _))

/-- A character that stands for itself, or the escape of a byte that is not null. -/
inductive Token
  | plain (c : Char) (hPlain : c ≠ '%')
  | triple (hi lo : Char) (hDigits : HexDigits hi lo) (hByte : byteOf hi lo ≠ 0)

namespace Token

def text : Token → Word
  | plain c _ => [c]
  | triple hi lo _ _ => ['%', hi, lo]

def meaning : Token → Word
  | plain c _ => [c]
  | triple hi lo _ _ => [Char.ofNat (byteOf hi lo)]

def Allowed (allowable : Word) : Token → Prop
  | plain c _ => c ∈ allowable
  | triple _ _ _ _ => True

/-- What stays of the token under exceptions. -/
def left (codes : List Word) (token : Token) : Word := if codes.contains token.text then token.text else token.meaning

end Token

/-- The code of an exception. -/
def IsCode (code : Word) : Prop := ∃ hi lo, code = ['%', hi, lo] ∧ HexDigits hi lo

def hexDigits : Word := "0123456789abcdefABCDEF".toList

theorem mem_hexDigits {c : Char} (h : isDigitOf 16 c = true) : c ∈ hexDigits := by
  have hAll : ∀ n : Fin 128, isDigitOf 16 (Char.ofNat n) = true → Char.ofNat n ∈ hexDigits := by decide
  have hSmall : c.toNat < 128 := by
    by_contra hLarge
    have hOut : ∀ d : Char, d.toNat < 128 → ¬ c ≤ d := fun d hd hle =>
      absurd (UInt32.le_iff_toNat_le.mp (Char.le_def.mp hle)) (by change ¬ c.toNat ≤ d.toNat; omega)
    simp [isDigitOf, digitOf, hOut '9' (by decide), hOut 'z' (by decide), hOut 'Z' (by decide)] at h
  have hDigit := hAll ⟨c.toNat, hSmall⟩
  rw [Char.ofNat_toNat] at hDigit
  exact hDigit h

theorem unhexstring_digits (unset : Word) {hi lo : Char} (h : HexDigits hi lo) :
    Dap2.unhexstring unset [hi, lo] = Dap2.charString (byteOf hi lo) := by
  have hAll : hexDigits.all (fun c => !isSpace c && c ≠ '-' && c ≠ '+' && c ≠ 'x' && c ≠ 'X') = true := by
    decide
  simp only [List.all_eq_true, Bool.and_eq_true, decide_eq_true_iff, Bool.not_eq_true'] at hAll
  obtain ⟨⟨⟨⟨hSpace, hMinus⟩, hPlus⟩, -⟩, -⟩ := hAll hi (mem_hexDigits h.1)
  obtain ⟨⟨-, hx⟩, hX⟩ := hAll lo (mem_hexDigits h.2)
  have hSign : sign [hi, lo] = (false, [hi, lo]) := by
    unfold sign
    split
    · rename_i hEq
      exact absurd (List.cons.inj hEq).1 hMinus
    · rename_i hEq
      exact absurd (List.cons.inj hEq).1 hPlus
    · rfl
  have hDrop : [hi, lo].dropWhile isSpace = [hi, lo] := by rw [List.dropWhile_cons, hSpace, if_neg (by decide)]
  have hTake : [hi, lo].takeWhile (isDigitOf 16) = [hi, lo] := by simp [h.1, h.2]
  have hBlank : [hi, lo].all isSpace = false := by rw [List.all_cons, hSpace, Bool.false_and]
  rw [Dap2.unhexstring, hBlank, if_neg (by decide), number, hDrop, hSign]
  dsimp only
  split
  · rename_i hNone
    split at hNone
    · rename_i hEq
      injection hEq with _ hEq
      exact absurd (List.cons.inj hEq).1 hx
    · rename_i hEq
      injection hEq with _ hEq
      exact absurd (List.cons.inj hEq).1 hX
    · rw [hTake] at hNone
      cases hNone
  · rename_i hSome
    split at hSome
    · rename_i hEq
      injection hEq with _ hEq
      exact absurd (List.cons.inj hEq).1 hx
    · rename_i hEq
      injection hEq with _ hEq
      exact absurd (List.cons.inj hEq).1 hX
    · rw [hTake] at hSome
      cases hSome
      rfl

theorem byteOf_lt {hi lo : Char} (h : HexDigits hi lo) : byteOf hi lo < 256 := by
  have hDigit : ∀ c, isDigitOf 16 c = true → (digitOf c).getD 0 < 16 := by
    intro c hc
    rw [isDigitOf, Option.any_eq_true] at hc
    obtain ⟨v, hv, hLess⟩ := hc
    rw [hv]
    exact of_decide_eq_true hLess
  have hHigh := hDigit hi h.1
  have hLow := hDigit lo h.2
  simp only [byteOf, valueOf, List.foldl_cons, List.foldl_nil]
  omega

theorem not_percent {c : Char} (h : isDigitOf 16 c = true) : c ≠ '%' := by
  rintro rfl
  exact absurd h (by decide)

theorem charString_byte {n : Nat} (hPos : n ≠ 0) (hByte : n < 256) : Dap2.charString (n : Int) = [Char.ofNat n] := by
  have hMod : (n : Int) % 256 = n := Int.emod_eq_of_lt (Int.natCast_nonneg n) (by omega)
  rw [Dap2.charString, hMod, if_neg (by omega), Int.toNat_natCast]

@[simp] theorem occursIn_nil (w : Word) : occursIn w [] = w.isEmpty := by
  cases w <;> rfl

theorem occursIn_cons (w : Word) (c : Char) (cs : Word) :
    occursIn w (c :: cs) = (w.isPrefixOf (c :: cs) || occursIn w cs) := by
  simp [occursIn]

/-- In a text of codes a code begins nowhere but at the start of one. -/
theorem occursIn_codes {codes : List Word} (hCodes : ∀ code ∈ codes, IsCode code) {w : Word} (hCode : IsCode w) :
    occursIn w codes.flatten = decide (w ∈ codes) := by
  obtain ⟨hi, lo, rfl, -⟩ := hCode
  induction codes with
  | nil => simp
  | cons code codes ih =>
    obtain ⟨a, b, rfl, ha, hb⟩ := hCodes code List.mem_cons_self
    have hRest := ih fun code hcode => hCodes code (List.mem_cons_of_mem _ hcode)
    have hA := not_percent ha
    have hB := not_percent hb
    rw [List.flatten_cons, List.cons_append, List.cons_append, List.cons_append, List.nil_append, occursIn_cons,
      occursIn_cons, occursIn_cons, hRest]
    have hEq : (hi == a && lo == b) = decide (hi = a ∧ lo = b) := by
      simp only [beq_eq_decide, Bool.decide_and]
    simp [List.isPrefixOf, beq_false_of_ne hA.symm, beq_false_of_ne hB.symm, hEq]

theorem unescapeAt_percent (unset except cs : Word) : unescapeAt unset ['%'] except ('%' :: cs) =
    if occursIn (('%' :: cs).take 3) except then some ⟨0, [], 3⟩ else some ⟨3, Dap2.unhexstring unset (cs.take 2),
      1⟩ := by
  rw [unescapeAt, if_pos List.mem_cons_self]

def textOf (tokens : List Token) : Word := tokens.flatMap Token.text

def meaningOf (tokens : List Token) : Word := tokens.flatMap Token.meaning

/-- One token, before a text that the loop goes through. -/
theorem sweep_token (unset : Word) {codes : List Word} (hCodes : ∀ code ∈ codes, IsCode code) (token : Token) {k : Nat}
    {rest t : Word} (h : sweep (unescapeAt unset ['%'] codes.flatten) k rest 0 = some t) :
    sweep (unescapeAt unset ['%'] codes.flatten) (k + 1) (token.text ++ rest) 0 = some (token.left codes ++ t) := by
  cases token with
  | plain c hPlain =>
    have hLeft : (Token.plain c hPlain).left codes = [c] := by
      rw [Token.left]
      split
      · rfl
      · rfl
    have hSkip : unescapeAt unset ['%'] codes.flatten (c :: rest) = none := by
      rw [unescapeAt, if_neg (by simpa using hPlain)]
    rw [hLeft, Token.text, List.singleton_append, sweep_skip hSkip, sweep_mono h (Nat.le_succ k)]
    rfl
  | triple hi lo hDigits hByte =>
    have hCode : IsCode ['%', hi, lo] := ⟨hi, lo, rfl, hDigits⟩
    by_cases hExcept : ['%', hi, lo] ∈ codes
    · have hHit : unescapeAt unset ['%'] codes.flatten (['%', hi, lo] ++ rest) = some ⟨0, [], 3⟩ := by
        refine (unescapeAt_percent unset _ (hi :: lo :: rest)).trans ?_
        rw [show ('%' :: hi :: lo :: rest).take 3 = ['%', hi, lo] from rfl, occursIn_codes hCodes hCode,
          if_pos (decide_eq_true hExcept)]
      rw [Token.left, Token.text, if_pos (List.contains_iff_mem.mpr hExcept), sweep_hit (by simp) hHit]
      have hBehind := sweep_behind (unescapeAt unset ['%'] codes.flatten) k ['%', hi, lo] rest
      rw [h] at hBehind
      exact hBehind
    · have hHit : unescapeAt unset ['%'] codes.flatten (['%', hi, lo] ++ rest) =
          some ⟨3, [Char.ofNat (byteOf hi lo)], 1⟩ := by
        refine (unescapeAt_percent unset _ (hi :: lo :: rest)).trans ?_
        rw [show ('%' :: hi :: lo :: rest).take 3 = ['%', hi, lo] from rfl, occursIn_codes hCodes hCode,
          decide_eq_false hExcept, if_neg (by decide), show (hi :: lo :: rest).take 2 = [hi, lo] from rfl,
          unhexstring_digits unset hDigits, charString_byte hByte (byteOf_lt hDigits)]
      rw [Token.left, Token.text, if_neg (mt List.contains_iff_mem.mp hExcept), sweep_over (by simp) hHit rfl]
      change Option.map _ (sweep _ k rest 0) = _
      rw [h]
      rfl

theorem length_le_textOf (tokens : List Token) : tokens.length ≤ (textOf tokens).length := by
  induction tokens with
  | nil => exact Nat.le_refl 0
  | cons token tokens ih =>
    have hToken : 0 < token.text.length := by
      cases token with
      | plain c hPlain => exact Nat.one_pos
      | triple hi lo hDigits hByte => exact Nat.succ_pos 2
    rw [textOf, List.flatMap_cons, List.length_append, List.length_cons]
    exact Nat.add_comm tokens.length 1 ▸ Nat.add_le_add hToken ih

/-- What `www2id` makes of a text of characters and escapes: all but the excepted escapes are taken back. -/
theorem www2id_tokens (unset : Word) (tokens : List Token) {codes : List Word} (hCodes : ∀ code ∈ codes, IsCode code) :
    www2id unset (textOf tokens) ['%'] codes.flatten = some (tokens.flatMap (Token.left codes)) := by
  have hScan : ∀ tokens : List Token, sweep (unescapeAt unset ['%'] codes.flatten) (tokens.length + 1)
      (textOf tokens) 0 =
      some (tokens.flatMap (Token.left codes)) := by
    intro tokens
    induction tokens with
    | nil => exact sweep_nil _ 0 0
    | cons token tokens ih => exact sweep_token unset hCodes token ih
  exact sweep_mono (hScan tokens) (Nat.succ_le_succ (length_le_textOf tokens))

theorem left_nil (token : Token) : token.left [] = token.meaning := if_neg Bool.false_ne_true

theorem hexstring_token {c : Char} (hByte : c.toNat < 256) :
    ∃ hi lo, Dap2.hexstring c = [hi, lo] ∧ HexDigits hi lo ∧ byteOf hi lo = c.toNat := by
  have hDigit : ∀ n : Fin 16, isDigitOf 16 (Dap2.hexDigit n) = true ∧
      digitOf (Dap2.hexDigit n) = some n.val := by decide
  have hHigh := hDigit ⟨c.toNat / 16, by omega⟩
  have hLow := hDigit ⟨c.toNat % 16, by omega⟩
  refine ⟨_, _, rfl, ⟨hHigh.1, hLow.1⟩, ?_⟩
  simp only [byteOf, valueOf, List.foldl_cons, List.foldl_nil, hHigh.2, hLow.2, Option.getD_some]
  omega

theorem mem_idChars (c : Char) : c ∈ idChars ↔ Dap2.allowable c = true := by
  by_cases hSmall : c.toNat < 128
  · have hMarks : Dap2.allowable = fun c => c.isAlphanum || ['-', '+', '_', '/', '.', '\\', '*'].contains c :=
      of_literal (p := fun l => (fun c : Char => c.isAlphanum || l.contains c) = _) rfl rfl
    have hAll : ∀ n : Fin 128, n.val ∈ idChars.map Char.toNat ↔ Dap2.allowable (Char.ofNat n) = true := by
      rw [hMarks]
      exact of_literal (p := fun l => ∀ n : Fin 128, n.val ∈ l.map Char.toNat ↔
        ((Char.ofNat n).isAlphanum || ['-', '+', '_', '/', '.', '\\', '*'].contains (Char.ofNat n)) = true)
        rfl (by decide)
    have hChar := hAll ⟨c.toNat, hSmall⟩
    rw [Char.ofNat_toNat, List.mem_map] at hChar
    refine ⟨fun h => hChar.mp ⟨c, h, rfl⟩, fun h => ?_⟩
    obtain ⟨d, hMem, hNat⟩ := hChar.mpr h
    exact Char.toNat_inj.mp hNat ▸ hMem
  · have hChars : idChars.all (fun d => d.toNat < 128) = true :=
      of_literal (p := fun l => l.all (fun d => d.toNat < 128) = true) rfl (by decide)
    constructor
    · exact fun h => absurd (of_decide_eq_true (List.all_eq_true.mp hChars c h)) hSmall
    · intro h
      have hRange : ∀ d : Char, d.isAlphanum = true → d.toNat < 128 := by
        intro d hd
        delta Char.isAlphanum Char.isAlpha Char.isUpper Char.isLower Char.isDigit at hd
        simp only [Bool.or_eq_true,
          Bool.and_eq_true, decide_eq_true_eq, UInt32.le_iff_toNat_le, ge_iff_le] at hd
        change d.val.toNat < 128
        have hz : ('z'.val).toNat = 122 := rfl
        have hZ : ('Z'.val).toNat = 90 := rfl
        have h9 : ('9'.val).toNat = 57 := rfl
        omega
      rw [Dap2.allowable, Bool.or_eq_true] at h
      rcases h with h | h
      · exact absurd (hRange c h) hSmall
      · have hOther : ∀ d ∈ "-+_/.\\*".toList, d.toNat < 128 := by simp
        exact absurd (hOther c (List.contains_iff_mem.mp h)) hSmall

/-- The loop makes the text that the escapes of its characters make. -/
theorem id2www_eq (s : Word) : id2www s idChars = some (Dap2.id2www s) := by
  apply sweep_flatMap
  intro c _ cs
  rw [Dap2.escaped]
  split
  · rename_i hAllowed
    exact .inl ⟨if_pos ((mem_idChars c).mpr hAllowed), rfl⟩
  · rename_i hRefused
    have hHit : escapeAt idChars (c :: cs) = some ⟨1, '%' :: Dap2.hexstring c, 3⟩ :=
      if_neg fun h => hRefused ((mem_idChars c).mp h)
    exact .inr ⟨3, Nat.le_refl 3, hHit, by simp [Dap2.hexstring]⟩

theorem unhexstring_length {unset : Word} (hUnset : unset.length ≤ 1) (s : Word) :
    (Dap2.unhexstring unset s).length ≤ 1 := by
  have hChar : ∀ v : Int, (Dap2.charString v).length ≤ 1 := by
    intro v
    rw [Dap2.charString]
    split
    · exact Nat.zero_le 1
    · exact Nat.le_refl 1
  rw [Dap2.unhexstring]
  split
  · exact hUnset
  · split
    · exact hChar 0
    · exact hChar _

theorem www2id_eq {unset : Word} (hUnset : unset.length ≤ 1) (s : Word) : www2id unset s ['%']
    [] = some (Dap2.www2id unset s) := by
  have hScan : ∀ (k : Nat) (s : Word), s.length ≤ k →
      sweep (unescapeAt unset ['%'] []) (k + 1) s 0 = some (Dap2.www2idFrom unset k s) := by
    intro k
    induction k with
    | zero =>
      intro s hLength
      rw [List.length_eq_zero_iff.mp (Nat.le_zero.mp hLength)]
      exact sweep_nil _ 0 0
    | succ k ih =>
      rintro (_ | ⟨c, cs⟩) hLength
      · exact sweep_nil _ _ 0
      · rw [Dap2.www2idFrom]
        rw [List.length_cons] at hLength
        split
        · rename_i hPercent
          subst hPercent
          have hHit : unescapeAt unset ['%'] [] ('%' :: cs) = some ⟨3, Dap2.unhexstring unset (cs.take 2), 1⟩ := by
            rw [unescapeAt_percent, occursIn_nil, List.take_succ_cons]
            rfl
          have hDrop := List.length_drop (i := 2) (l := cs)
          rw [sweep_hit (by simp) hHit, sweep_from]
          have hShort := unhexstring_length hUnset (cs.take 2)
          cases hValue : Dap2.unhexstring unset (cs.take 2) with
          | nil =>
            have hRest := ih ((cs.drop 2).drop 1) (by rw [List.length_drop]; omega)
            change Option.map _ (sweep _ (k + 1) ((cs.drop 2).drop 1) 0) = _
            rw [hRest]
            rfl
          | cons d ds =>
            rw [hValue, List.length_cons] at hShort
            have hRest := ih (ds ++ cs.drop 2) (by rw [List.length_append]; omega)
            change Option.map _ (sweep _ (k + 1) (ds ++ cs.drop 2) 0) = _
            rw [hRest]
            rfl
        · rename_i hPlain
          have hSkip : unescapeAt unset ['%'] [] (c :: cs) = none := by
            rw [unescapeAt, if_neg (by simpa using hPlain)]
          rw [sweep_skip hSkip, sweep_mono (ih cs (by omega)) (Nat.le_succ _)]
          rfl
  exact hScan s.length s (Nat.le_refl _)

/-- The escaped form is made of tokens that mean the characters. -/
theorem id2www_tokens {allowable s : Word} (hPercent : '%' ∉ allowable) (hName : Dap2.IsName s) :
    ∃ tokens : List Token, id2www s allowable = some (textOf tokens) ∧ meaningOf tokens = s ∧
      ∀ token ∈ tokens, token.Allowed allowable := by
  rw [id2www]
  induction s with
  | nil => exact ⟨[], sweep_nil _ 0 0, rfl, by simp⟩
  | cons c cs ih =>
    obtain ⟨tokens, hScan, hMeaning, hAllowed⟩ := ih fun d hd => hName d (List.mem_cons_of_mem c hd)
    obtain ⟨hPos, hByte⟩ := hName c List.mem_cons_self
    by_cases hc : c ∈ allowable
    · have hPlain : c ≠ '%' := fun h => hPercent (h ▸ hc)
      have hSkip : escapeAt allowable (c :: cs) = none := if_pos hc
      refine ⟨.plain c hPlain :: tokens, ?_, congrArg (c :: ·) hMeaning, ?_⟩
      · rw [sweep_skip hSkip, List.length_cons, sweep_mono hScan (Nat.le_succ _)]
        rfl
      · rintro token (_ | ⟨_, hToken⟩)
        · exact hc
        · exact hAllowed token hToken
    · obtain ⟨hi, lo, hHex, hDigits, hValue⟩ := hexstring_token hByte
      have hHit : escapeAt allowable (c :: cs) = some ⟨1, ['%', hi, lo], 3⟩ := hHex ▸ if_neg hc
      refine ⟨.triple hi lo hDigits (by omega) :: tokens, ?_, ?_, ?_⟩
      · rw [List.length_cons, sweep_over (by simp) hHit rfl]
        change Option.map _ (sweep _ (cs.length + 1) cs 0) = _
        rw [hScan]
        rfl
      · change Char.ofNat (byteOf hi lo) :: meaningOf tokens = c :: cs
        rw [hValue, Char.ofNat_toNat, hMeaning]
      · rintro token (_ | ⟨_, hToken⟩)
        · exact trivial
        · exact hAllowed token hToken

theorem www2id_id2www (unset : Word) {allowable s : Word} (hPercent : '%' ∉ allowable) (hName : Dap2.IsName s) :
    ∃ tokens : List Token, id2www s allowable = some (textOf tokens) ∧ (∀ token ∈ tokens, token.Allowed allowable) ∧
      www2id unset (textOf tokens) ['%'] [] = some s := by
  obtain ⟨tokens, hText, hMeaning, hAllowed⟩ := id2www_tokens hPercent hName
  have hBack := www2id_tokens unset tokens (show ∀ code ∈ ([] : List Word), IsCode code by simp)
  have hLeft : tokens.flatMap (Token.left []) = s := by
    rw [← hMeaning, meaningOf, show Token.left [] = Token.meaning from funext left_nil]
  exact ⟨tokens, hText, hAllowed, hLeft ▸ hBack⟩

/-- Escaped names read back, are of allowable characters and escapes, and exceptions keep their escapes only. -/
theorem www_escapes (unset s : Word) (hName : Dap2.IsName s) :
    (∃ tokens : List Token, id2www s idChars = some (textOf tokens) ∧ (∀ token ∈ tokens, token.Allowed idChars) ∧
      www2id unset (textOf tokens) ['%'] [] = some s) ∧
    (∃ tokens : List Token, id2wwwCe s ceChars = some (textOf tokens) ∧ (∀ token ∈ tokens, token.Allowed ceChars) ∧
      www2id unset (textOf tokens) ['%'] [] = some s) ∧
    ∀ (tokens : List Token) (codes : List Word), (∀ code ∈ codes, IsCode code) →
      www2id unset (textOf tokens) ['%'] codes.flatten = some (tokens.flatMap (Token.left codes)) :=
  ⟨www2id_id2www unset (by decide) hName, www2id_id2www unset (by decide) hName,
    fun tokens _ hCodes => www2id_tokens unset tokens hCodes⟩

theorem www_escapes_percent : Dap2.IsName "a b%20".toList ∧
    ∃ tokens : List Token, id2www "a b%20".toList idChars = some (textOf tokens) ∧
      www2id [] (textOf tokens) ['%'] [] = some "a b%20".toList := by
  have hName : Dap2.IsName "a b%20".toList := by decide
  obtain ⟨⟨tokens, hText, -, hBack⟩, -, -⟩ := www_escapes [] _ hName
  exact ⟨hName, tokens, hText, hBack⟩

end Libdap.Escaping
