import Libdap.Core.Fault
import Libdap.Dap2.AttrTableRun
import Libdap.Escaping.Attr

/-! # Double quotes of texts and of error messages

`escape_double_quotes` puts a backslash before every double quote and `unescape_double_quotes` takes it away.
`munge_error_message` puts a message between double quotes and a backslash before those inside that have none.
-/

namespace Libdap.Escaping
open Core Constraint InPlace
set_option autoImplicit false

def escapeDoubleQuotes (source : Word) : Option Word := sweep quoteAt (source.length + 1) source 0

/-- A backslash and a double quote, where the index moves on over the quote that is left. -/
def escapedQuoteAt : Word → Option (Edit Char)
  | '\\' :: '"' :: _ => some ⟨2, ['"'], 1⟩
  | _ => none

def unescapeDoubleQuotes (source : Word) : Option Word := sweep escapedQuoteAt (source.length + 1) source 0

/-- The message with the quotes around it that it lacks. -/
def enclosed (msg : Word) : Word :=
  let msg := if msg.head? = some '"' then msg else '"' :: msg
  if msg.getLast? = some '"' then msg else msg ++ ['"']

/-- A double quote at `i` without a backslash before it. -/
def bareAt (msg : Word) (i : Nat) : Prop := msg[i]? = some '"' ∧ msg[i - 1]? ≠ some '\\'

instance (msg : Word) (i : Nat) : Decidable (bareAt msg i) := inferInstanceAs (Decidable (_ ∧ _))

/-- After an insertion the iterator is at the backslash, so that the next turn is at the quote again. -/
theorem not_bareAt_insertIdx {msg : Word} {i : Nat} (hi : i < msg.length) : ¬ bareAt (msg.insertIdx i '\\')
    (i + 1) := by
  rintro ⟨-, hBefore⟩
  rw [Nat.add_sub_cancel, List.getElem?_insertIdx_self, if_pos (Nat.le_of_lt hi)] at hBefore
  exact hBefore rfl

/-- The loop of `munge_error_message`, from the place `i` to the last one. -/
def escapeInner (msg : Word) (i : Nat) : Except Fault Word :=
  if i + 1 = msg.length then .ok msg
  else if i < msg.length then
    if bareAt msg i then escapeInner (msg.insertIdx i '\\') (i + 1) else escapeInner msg (i + 1)
  else .error .outOfBounds
termination_by 2 * (msg.length - i) + if bareAt msg i then 1 else 0
decreasing_by
  · rename_i hi hBare
    rw [if_neg (not_bareAt_insertIdx hi), if_pos hBare, List.length_insertIdx_of_le_length (Nat.le_of_lt hi)]
    omega
  · rename_i hBare
    rw [if_neg hBare]
    split <;> omega

/-- The first character of an empty message is not there. -/
def mungeErrorMessage (msg : Word) : Except Fault Word :=
  if msg = [] then .error .outOfBounds else escapeInner (enclosed msg) 1

/-! ## Escaped and unescaped again -/

theorem escapeDoubleQuotes_eq (s : Word) : escapeDoubleQuotes s = some (Dap2.escapeDoubleQuotes s) := by
  apply sweep_flatMap
  intro c _ cs
  rw [quoteAt]
  split
  · exact .inr ⟨2, Nat.le_refl 2, rfl, by simp⟩
  · exact .inl ⟨rfl, rfl⟩

theorem escapedQuoteAt_plain {d : Char} (hd : d ≠ '\\') (ds : Word) : escapedQuoteAt (d :: ds) = none := by
  rw [escapedQuoteAt]
  rintro ds' h
  cases h
  exact hd rfl

theorem escapedQuoteAt_pair {d : Char} (hd : d ≠ '"') (ds : Word) : escapedQuoteAt ('\\' :: d :: ds) = none := by
  rw [escapedQuoteAt]
  rintro ds' h
  cases h
  exact hd rfl

/-- A text that was escaped does not begin with a double quote. -/
theorem escapedQuoteAt_backslash (s : Word) : escapedQuoteAt ('\\' :: Dap2.escapeDoubleQuotes s) = none := by
  cases s with
  | nil => rfl
  | cons c cs =>
    rw [Dap2.escapeDoubleQuotes, List.flatMap_cons]
    split
    · exact escapedQuoteAt_pair (by decide) _
    · rename_i hc
      exact escapedQuoteAt_pair hc _

theorem gives_unescaped (s : Word) : Gives escapedQuoteAt (Dap2.escapeDoubleQuotes s) s := by
  induction s with
  | nil => exact Gives.nil _
  | cons c cs ih =>
    rw [Dap2.escapeDoubleQuotes, List.flatMap_cons]
    split
    · rename_i hc
      rw [hc]
      exact Gives.move (e := ⟨2, ['"'], 1⟩) (by simp) rfl ih
    · rename_i hc
      apply Gives.skip _ ih
      by_cases hBackslash : c = '\\'
      · rw [hBackslash]
        exact escapedQuoteAt_backslash cs
      · exact escapedQuoteAt_plain hBackslash _

theorem escapedQuoteAt_less (r : Word) (e : Edit Char) (h : escapedQuoteAt r = some e) :
    (e.put ++ r.drop e.cut).length < r.length + e.step ∧ e.step ≤ (e.put ++ r.drop e.cut).length := by
  rw [escapedQuoteAt.eq_def] at h
  split at h
  · cases h
    simp
  · cases h

/-- The loop ends on every text. -/
theorem unescapeDoubleQuotes_some (s : Word) : ∃ t, unescapeDoubleQuotes s = some t :=
  sweep_total escapedQuoteAt_less _ s 0 (Nat.zero_le _) (Nat.lt_succ_self _)

theorem unescapeDoubleQuotes_escaped (s : Word) : unescapeDoubleQuotes (Dap2.escapeDoubleQuotes s) = some s :=
  (gives_unescaped s).sweep_eq (unescapeDoubleQuotes_some _)

/-! ## The message -/

/-- What the loop makes of the text behind `prev`. -/
def withBackslashes : Char → Word → Word
  | _, [] => []
  | prev, c :: cs =>
    if c = '"' ∧ prev ≠ '\\' then '\\' :: '"' :: withBackslashes '"' cs else c :: withBackslashes c cs

theorem bareAt_iff (p : Word) (prev c : Char) (r : Word) :
    bareAt (p ++ prev :: c :: r) (p.length + 1) ↔ c = '"' ∧ prev ≠ '\\' := by
  rw [bareAt, Nat.add_sub_cancel, List.getElem?_append_right (Nat.le_succ _),
    List.getElem?_append_right (Nat.le_refl _)]
  simp

theorem place_lt (p r : Word) (prev c last : Char) : p.length + 1 + 1 < (p ++ prev :: c :: (r ++ [last])).length := by
  simp only [List.length_append, List.length_cons, List.length_nil]
  omega

theorem insertIdx_length_append (p r : Word) (c : Char) : (p ++ r).insertIdx p.length c = p ++ c :: r := by
  induction p with
  | nil => rfl
  | cons d p ih => rw [List.cons_append, List.length_cons, List.insertIdx_succ_cons, ih, List.cons_append]

/-- A turn that leaves the text. -/
theorem escapeInner_next {prev c : Char} (h : ¬ (c = '"' ∧ prev ≠ '\\')) (p r : Word) (last : Char) :
    escapeInner (p ++ prev :: c :: (r ++ [last])) (p.length + 1) =
      escapeInner ((p ++ [prev]) ++ c :: (r ++ [last])) ((p ++ [prev]).length + 1) := by
  have hPlace := place_lt p r prev c last
  rw [escapeInner.eq_def, if_neg (Nat.ne_of_lt hPlace), if_pos (Nat.lt_of_succ_lt hPlace),
    if_neg fun hBare => h ((bareAt_iff p prev c _).mp hBare)]
  simp

/-- A turn that puts a backslash in. -/
theorem escapeInner_insert {prev : Char} (h : prev ≠ '\\') (p r : Word) (last : Char) :
    escapeInner (p ++ prev :: '"' :: (r ++ [last])) (p.length + 1) =
      escapeInner ((p ++ [prev]) ++ '\\' :: '"' :: (r ++ [last])) ((p ++ [prev]).length + 1) := by
  have hPlace := place_lt p r prev '"' last
  rw [escapeInner.eq_def, if_neg (Nat.ne_of_lt hPlace), if_pos (Nat.lt_of_succ_lt hPlace),
    if_pos ((bareAt_iff p prev '"' _).mpr ⟨rfl, h⟩)]
  have hText : p ++ prev :: '"' :: (r ++ [last]) = (p ++ [prev]) ++ '"' :: (r ++ [last]) := by simp
  have hLength : (p ++ [prev]).length = p.length + 1 := by simp
  rw [hText, ← hLength, insertIdx_length_append]

theorem escapeInner_eq (body : Word) (p : Word) (prev last : Char) :
    escapeInner (p ++ prev :: (body ++ [last])) (p.length + 1) =
      .ok (p ++ prev :: (withBackslashes prev body ++ [last])) := by
  induction body generalizing p prev with
  | nil =>
    rw [escapeInner.eq_def, if_pos (by simp)]
    rfl
  | cons c cs ih =>
    rw [withBackslashes, List.cons_append]
    split
    · rename_i hBare
      obtain ⟨rfl, hPrev⟩ := hBare
      rw [escapeInner_insert hPrev, escapeInner_next (by simp), ih]
      simp
    · rename_i hKept
      rw [escapeInner_next hKept, ih]
      simp

/-! ## What is between the quotes -/

/-- No double quote but behind a backslash; `prev` is the character before. -/
def Backslashed : Char → Word → Prop
  | _, [] => True
  | prev, c :: cs => (c = '"' → prev = '\\') ∧ Backslashed c cs

/-- No double quote but one that a backslash escapes, where a backslash escapes the character behind it, backslashes
too. Whether the first character is escaped is said. -/
def NoBareQuote : Bool → Word → Prop
  | _, [] => True
  | true, _ :: cs => NoBareQuote false cs
  | false, c :: cs => if c = '\\' then NoBareQuote true cs else c ≠ '"' ∧ NoBareQuote false cs

/-- Every double quote is behind no backslash or behind an odd number of them; `n` are before the text. -/
def OddBackslashes : Nat → Word → Prop
  | _, [] => True
  | n, c :: cs => if c = '\\' then OddBackslashes (n + 1) cs else (c = '"' → n = 0 ∨ n % 2 = 1) ∧ OddBackslashes 0 cs

theorem withBackslashes_backslashed (prev : Char) (body : Word) : Backslashed prev (withBackslashes prev body) := by
  induction body generalizing prev with
  | nil => trivial
  | cons c cs ih =>
    rw [withBackslashes]
    split
    · exact ⟨fun h => absurd h (by decide), fun _ => rfl, ih '"'⟩
    · rename_i hKept
      refine ⟨fun hQuote => ?_, ih c⟩
      by_contra hPrev
      exact hKept ⟨hQuote, hPrev⟩

theorem noBareQuote_backslash (n : Nat) (r : Word) :
    NoBareQuote (n % 2 = 1) ('\\' :: r) ↔ NoBareQuote ((n + 1) % 2 = 1) r := by
  obtain hEven | hOdd := Nat.mod_two_eq_zero_or_one n
  · have hNext : (n + 1) % 2 = 1 := by omega
    rw [hEven, hNext]
    exact Iff.rfl
  · have hNext : (n + 1) % 2 = 0 := by omega
    rw [hOdd, hNext]
    exact Iff.rfl

theorem noBareQuote_other {c : Char} (hc : c ≠ '\\') (n : Nat) (r : Word) :
    NoBareQuote (n % 2 = 1) (c :: r) ↔ (c = '"' → n % 2 = 1) ∧ NoBareQuote false r := by
  obtain hEven | hOdd := Nat.mod_two_eq_zero_or_one n
  · rw [hEven]
    change (if c = '\\' then NoBareQuote true r else c ≠ '"' ∧ NoBareQuote false r) ↔ _
    rw [if_neg hc]
    simp
  · rw [hOdd]
    change NoBareQuote false r ↔ _
    simp

/-- The loop leaves a quote as it is behind any number of backslashes, and they escape it if the number is odd. -/
theorem withBackslashes_noBareQuote {prev : Char} {n : Nat} (hPrev : prev = '\\' ↔ 0 < n) (body : Word) :
    NoBareQuote (n % 2 = 1) (withBackslashes prev body) ↔ OddBackslashes n body := by
  induction body generalizing prev n with
  | nil => cases h : decide (n % 2 = 1) <;> exact Iff.rfl
  | cons c cs ih =>
    rw [withBackslashes, OddBackslashes]
    split
    · rename_i hBare
      obtain ⟨rfl, hNone⟩ := hBare
      obtain rfl : n = 0 := Nat.eq_zero_of_not_pos fun hn => hNone (hPrev.mpr hn)
      have hBehind := ih (show '"' = '\\' ↔ 0 < 0 by decide)
      rw [if_neg (by decide), ← hBehind, noBareQuote_backslash, noBareQuote_other (by decide)]
      simp
    · rename_i hKept
      by_cases hBackslash : c = '\\'
      · rw [hBackslash, if_pos rfl, noBareQuote_backslash]
        exact ih (by simp)
      · have hBehind := ih (show c = '\\' ↔ 0 < 0 by simp [hBackslash])
        rw [if_neg hBackslash, noBareQuote_other hBackslash, ← hBehind]
        apply and_congr_left'
        apply forall_congr'
        intro hQuote
        have hPos : 0 < n := hPrev.mp (by_contra fun hNone => hKept ⟨hQuote, hNone⟩)
        omega

/-! ## The message in its quotes -/

/-- The message without a double quote at its beginning and at its end. -/
def between (msg : Word) : Word :=
  let text := if msg.head? = some '"' then msg.tail else msg
  if text.getLast? = some '"' then text.dropLast else text

/-- A text that is between double quotes, and what is between them. -/
def Quoted (P : Word → Prop) (t : Word) : Prop := ∃ body, t = '"' :: (body ++ ['"']) ∧ P body

theorem close_quote {text : Word} (h : text ≠ []) :
    (if ('"' :: text).getLast? = some '"' then '"' :: text else '"' :: text ++ ['"']) =
      '"' :: ((if text.getLast? = some '"' then text.dropLast else text) ++ ['"']) := by
  have hLast : ('"' :: text).getLast? = text.getLast? := by
    rw [List.getLast?_cons, List.getLast?_eq_getLast_of_ne_nil h]
    rfl
  rw [hLast]
  split
  · rename_i hQuote
    obtain ⟨_, hEnd⟩ := List.getLast?_eq_some_iff.mp hQuote
    rw [hEnd, List.dropLast_concat]
  · rfl

theorem enclosed_eq {msg : Word} (hEmpty : msg ≠ []) (hQuote : msg ≠ ['"']) :
    enclosed msg = '"' :: (between msg ++ ['"']) := by
  rw [enclosed, between]
  cases msg with
  | nil => exact absurd rfl hEmpty
  | cons c cs =>
    by_cases hc : c = '"'
    · subst hc
      have hText : cs ≠ [] := fun h => hQuote (h ▸ rfl)
      exact close_quote hText
    · have hHead : (c :: cs).head? ≠ some '"' := by simpa using hc
      rw [if_neg hHead, if_neg hHead]
      exact close_quote (List.cons_ne_nil c cs)

theorem mungeErrorMessage_eq {msg : Word} (hEmpty : msg ≠ []) (hQuote : msg ≠ ['"']) :
    mungeErrorMessage msg = .ok ('"' :: (withBackslashes '"' (between msg) ++ ['"'])) := by
  rw [mungeErrorMessage, if_neg hEmpty, enclosed_eq hEmpty hQuote]
  exact escapeInner_eq (between msg) [] '"' '"'

/-- The iterator begins behind the only quote, where the loop is not to end. -/
theorem mungeErrorMessage_quote : mungeErrorMessage ['"'] = .error .outOfBounds := by
  rw [mungeErrorMessage, escapeInner.eq_def]
  decide

theorem munged_iff (P : Word → Prop) (msg : Word) :
    (∃ t, mungeErrorMessage msg = .ok t ∧ Quoted P t) ↔
      msg ≠ [] ∧ msg ≠ ['"'] ∧ P (withBackslashes '"' (between msg)) := by
  constructor
  · rintro ⟨t, hRun, body, rfl, hBody⟩
    have hEmpty : msg ≠ [] := by
      rintro rfl
      cases hRun
    have hQuote : msg ≠ ['"'] := by
      rintro rfl
      rw [mungeErrorMessage_quote] at hRun
      cases hRun
    rw [mungeErrorMessage_eq hEmpty hQuote] at hRun
    have hText := Except.ok.inj hRun
    rw [List.cons.injEq, List.append_cancel_right_eq] at hText
    exact ⟨hEmpty, hQuote, hText.2 ▸ hBody⟩
  · rintro ⟨hEmpty, hQuote, hBody⟩
    exact ⟨_, mungeErrorMessage_eq hEmpty hQuote, _, rfl, hBody⟩

/-- What was escaped is unescaped again. A message is between double quotes, with a backslash before each that is
inside, if and only if it is neither empty nor one double quote; and these backslashes escape the quotes if and only
if moreover no quote of the message was behind an even number of backslashes that is not 0. -/
theorem double_quotes_iff (s msg : Word) :
    ((escapeDoubleQuotes s >>= unescapeDoubleQuotes) = some s ∧ ∃ t, unescapeDoubleQuotes s = some t) ∧
      ((∃ t, mungeErrorMessage msg = .ok t ∧ Quoted (Backslashed '"') t) ↔ msg ≠ [] ∧ msg ≠ ['"']) ∧
      ((∃ t, mungeErrorMessage msg = .ok t ∧ Quoted (NoBareQuote false) t) ↔
        msg ≠ [] ∧ msg ≠ ['"'] ∧ OddBackslashes 0 (between msg)) := by
  refine ⟨⟨?_, unescapeDoubleQuotes_some s⟩, ?_, ?_⟩
  · rw [escapeDoubleQuotes_eq]
    exact unescapeDoubleQuotes_escaped s
  · rw [munged_iff]
    exact ⟨fun h => ⟨h.1, h.2.1⟩, fun h => ⟨h.1, h.2, withBackslashes_backslashed '"' _⟩⟩
  · have hInner := withBackslashes_noBareQuote (show '"' = '\\' ↔ 0 < 0 by decide) (between msg)
    rw [munged_iff, ← hInner]
    exact Iff.rfl

/-- The empty message, a double quote, and a double quote behind two backslashes. -/
theorem message_not_munged : mungeErrorMessage [] = .error .outOfBounds ∧
    mungeErrorMessage ['"'] = .error .outOfBounds ∧
    mungeErrorMessage ['\\', '\\', '"', 'a'] = .ok ['"', '\\', '\\', '"', 'a', '"'] ∧
    ¬ NoBareQuote false ['\\', '\\', '"', 'a'] := by
  refine ⟨rfl, mungeErrorMessage_quote, ?_, ?_⟩
  · exact mungeErrorMessage_eq (by decide) (by decide)
  · rintro ⟨hQuote, -⟩
    exact hQuote rfl

end Libdap.Escaping
