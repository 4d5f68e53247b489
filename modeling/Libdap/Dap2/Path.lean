import Libdap.Dap2.Variable
import Libdap.Constraint.Index
import Mathlib.Data.List.Infix
import Mathlib.Data.List.TakeWhile

/-! # The name of a variable in a constraint

The text that names a variable joins the escaped names on the way to it with dots. The element of an
Array has no name of its own on this way.
-/

namespace Libdap.Dap2
open Constraint
set_option autoImplicit false

/-- The address and the list of the variables that a name below this one can be of. -/
def Variable.members : Variable → Addr × List Variable
  | .simple _ => ([], [])
  | .array _ (.fields _ _ vars) => ([0], vars)
  | .array _ (.grid _ arrayVar mapVars) => ([0], arrayVar :: mapVars)
  | .array _ _ => ([0], [])
  | .fields _ _ vars => ([], vars)
  | .grid _ arrayVar mapVars => ([], arrayVar :: mapVars)

/-- The variable at the address, and the names on the way to it. -/
inductive Named : List Variable → Addr → List Word → Variable → Prop
  | last {vars : List Variable} {i : Nat} {v : Variable} (hAt : vars[i]? = some v) :
    Named vars [i] [v.name] v
  | under {vars : List Variable} {i : Nat} {v w : Variable} {a : Addr} {names : List Word}
    (hAt : vars[i]? = some v) (hUnder : Named v.members.2 a names w) :
    Named vars (i :: (v.members.1 ++ a)) (v.name :: names) w

/-- Sibling names are distinct. -/
def DistinctNames (vars : List Variable) : Prop :=
  (vars.map Variable.name).Nodup ∧
    ∀ a v, locate vars a = some v → (v.parts.map Variable.name).Nodup

def joined (names : List Word) : Word := ['.'].intercalate names

/-- The text that a client puts into the constraint. -/
def escapedText (names : List Word) : Word := joined (names.map id2www)

/-- The value of the rule `name` on a word. -/
def nameRule (unset : Word) (text : Word) : Word := truncated (www2id unset text)

/-- An Array gives its element for the empty name and for the element's own, and a Grid knows the
names of its parts only. -/
def Variable.Passes (names : List Word) : Variable → Prop
  | .grid _ _ _ => names.length = 1
  | .array _ (.grid n _ _) => joined names ≠ [] ∧ n ≠ joined names ∧ names.length = 1
  | .array _ (.fields _ n _) => joined names ≠ [] ∧ n ≠ joined names
  | _ => True

inductive Unambiguous : List Variable → Addr → List Word → Variable → Prop
  | last {vars : List Variable} {i : Nat} {v : Variable} (hAt : vars[i]? = some v) :
    Unambiguous vars [i] [v.name] v
  | under {vars : List Variable} {i : Nat} {v w : Variable} {a : Addr} {names : List Word}
    (hAt : vars[i]? = some v) (hDot : '.' ∉ v.name)
    (hSiblings : ∀ u ∈ vars, u.name ≠ joined (v.name :: names)) (hPasses : v.Passes names)
    (hUnder : Unambiguous v.members.2 a names w) :
    Unambiguous vars (i :: (v.members.1 ++ a)) (v.name :: names) w

theorem Unambiguous.named {vars : List Variable} {a : Addr} {names : List Word} {v : Variable}
    (h : Unambiguous vars a names v) : Named vars a names v := by
  induction h with
  | last hAt => exact .last hAt
  | under hAt _ _ _ _ ih => exact .under hAt ih

theorem Unambiguous.names_ne_nil {vars : List Variable} {a : Addr} {names : List Word} {v : Variable}
    (h : Unambiguous vars a names v) : names ≠ [] := by
  cases h <;> exact List.cons_ne_nil _ _

/-! ## The text -/

theorem joined_cons {n : Word} {names : List Word} (h : names ≠ []) :
    joined (n :: names) = n ++ '.' :: joined names := by
  cases names with
  | nil => exact absurd rfl h
  | cons m ms => simp [joined]

theorem length_le_joined (names : List Word) : names.length ≤ (joined names).length + 1 := by
  induction names with
  | nil => exact Nat.zero_le _
  | cons n names ih =>
    by_cases hLast : names = []
    · rw [hLast, List.length_singleton]
      omega
    · rw [joined_cons hLast, List.length_append, List.length_cons, List.length_cons]
      omega

theorem mem_joined {c : Char} {names : List Word} (h : c ∈ joined names) :
    c = '.' ∨ ∃ n ∈ names, c ∈ n := by
  induction names with
  | nil => simp [joined] at h
  | cons n names ih =>
    by_cases hLast : names = []
    · rw [hLast, joined, List.intercalate_singleton] at h
      exact .inr ⟨n, List.mem_cons_self, h⟩
    · rw [joined_cons hLast, List.mem_append, List.mem_cons] at h
      rcases h with hHead | hDot | hTail
      · exact .inr ⟨n, List.mem_cons_self, hHead⟩
      · exact .inl hDot
      · rcases ih hTail with hDot | ⟨m, hMem, hIn⟩
        · exact .inl hDot
        · exact .inr ⟨m, List.mem_cons_of_mem n hMem, hIn⟩

theorem not_mem_joined {names : List Word} (h : ∀ n ∈ names, '%' ∉ n) : '%' ∉ joined names := by
  intro hMem
  rcases mem_joined hMem with hDot | ⟨n, hName, hIn⟩
  · exact absurd hDot (by decide)
  · exact h n hName hIn

theorem splitDot_joined {n : Word} {names : List Word} (hDot : '.' ∉ n) (h : names ≠ []) :
    splitDot (joined (n :: names)) = some (n, joined names) := by
  have hAll : ∀ c ∈ n, decide (c ≠ '.') = true := by
    intro c hc
    rw [decide_eq_true_eq]
    rintro rfl
    exact hDot hc
  rw [joined_cons h, splitDot, if_pos (by simp), List.takeWhile_append_of_pos hAll,
    List.dropWhile_append_of_pos hAll]
  simp

theorem id2www_append (m n : Word) : id2www (m ++ n) = id2www m ++ id2www n := List.flatMap_append

theorem escapedText_eq (names : List Word) : escapedText names = id2www (joined names) := by
  induction names with
  | nil => rfl
  | cons n names ih =>
    by_cases hLast : names = []
    · rw [hLast, escapedText, joined, joined, List.map_singleton, List.intercalate_singleton,
        List.intercalate_singleton]
    · rw [escapedText] at ih ⊢
      rw [List.map_cons, joined_cons (by simpa using hLast), joined_cons hLast, id2www_append, ih]
      rfl

theorem length_le_id2www (n : Word) : n.length ≤ (id2www n).length := by
  induction n with
  | nil => exact Nat.le_refl _
  | cons c cs ih =>
    have hOne : 1 ≤ (escaped c).length := by
      rw [escaped]
      split <;> simp
    rw [id2www] at ih ⊢
    rw [List.flatMap_cons, List.length_append, List.length_cons]
    omega

/-! ## The word that the scanner delivers -/

theorem scanFrom_word {c : Char} {cs : Word} (k : Nat) (hStart : isWordStart c = true)
    (hChars : ∀ d ∈ cs, isWordChar d = true) :
    scanFrom (k + 1) (c :: cs) = .ok [.scanWord (truncated (c :: cs))] := by
  have hOther : ∀ d ∈ "=!><*$[]:,&()\x7b\x7d\"".toList, c ≠ d := by
    have hAll : ("=!><*$[]:,&()\x7b\x7d\"".toList.all fun d => !isWordStart d) = true := by decide
    rintro d hMem rfl
    have hNot := List.all_eq_true.mp hAll c hMem
    rw [hStart] at hNot
    cases hNot
  have hWhole : cs.takeWhile isWordChar = cs := List.takeWhile_eq_self_iff.mpr hChars
  have hRest : cs.dropWhile isWordChar = [] := List.dropWhile_eq_nil_iff.mpr hChars
  have hPunct : "[]:,&()\x7b\x7d".toList.contains c = false := by
    rw [Bool.eq_false_iff]
    intro hMem
    rw [List.contains_iff_mem] at hMem
    have hSubset : "[]:,&()\x7b\x7d".toList ⊆ "=!><*$[]:,&()\x7b\x7d\"".toList := by
      simp
    exact hOther c (hSubset hMem) rfl
  rw [scanFrom]
  · rw [if_neg (by rw [hPunct]; decide), if_pos hStart, hWhole, hRest]
    cases k <;> rfl
  all_goals
    intros
    simp_all

/-- What the text of the names needs for the scanner to take it as one word and for the names to come
back. -/
structure Spellable (names : List Word) : Prop where
  bytes : ∀ n ∈ names, IsName n
  noPercent : ∀ n ∈ names, '%' ∉ n
  noStar : ∀ n ∈ names, '*' ∉ n
  nonempty : joined names ≠ []
  short : (escapedText names).length < ID_MAX

theorem isWordChar_of_mem_escaped {c d : Char} (hByte : c.toNat < 256) (hStar : c ≠ '*')
    (h : d ∈ escaped c) : isWordStart d = true := by
  rw [escaped] at h
  split at h
  · rename_i hAllowed
    rw [List.mem_singleton] at h
    subst h
    rw [allowable, Bool.or_eq_true] at hAllowed
    rw [isWordStart, Bool.or_eq_true]
    apply hAllowed.imp_right
    intro hMem
    rw [List.contains_iff_mem] at hMem ⊢
    have hAll : ("-+_/.\\*".toList.all fun c => c = '*' || "-+_/%.\\".toList.contains c) = true := by
      decide
    have hEither := List.all_eq_true.mp hAll d hMem
    rw [Bool.or_eq_true, decide_eq_true_eq, List.contains_iff_mem] at hEither
    exact hEither.resolve_left hStar
  · rw [hexstring, List.mem_cons, List.mem_cons, List.mem_singleton] at h
    have hDigit : ∀ n : Fin 16, isWordStart (hexDigit n.val) = true := by decide
    rcases h with rfl | rfl | rfl
    · rfl
    · exact hDigit ⟨c.toNat / 16, by omega⟩
    · exact hDigit ⟨c.toNat % 16, by omega⟩

namespace Spellable

variable {names : List Word} (h : Spellable names)
include h

theorem isName : IsName (joined names) := by
  intro c hMem
  rcases mem_joined hMem with rfl | ⟨n, hName, hIn⟩
  · decide
  · exact h.bytes n hName c hIn

theorem isWord : ∀ d ∈ escapedText names, isWordStart d = true := by
  intro d hMem
  rw [escapedText_eq, id2www, List.mem_flatMap] at hMem
  obtain ⟨c, hIn, hEscaped⟩ := hMem
  apply isWordChar_of_mem_escaped (h.isName c hIn).2 ?_ hEscaped
  rintro rfl
  rcases mem_joined hIn with hDot | ⟨n, hName, hStar⟩
  · exact absurd hDot (by decide)
  · exact h.noStar n hName hStar

theorem scan_ok : scan (escapedText names) = .ok [.scanWord (escapedText names)] := by
  cases hText : escapedText names with
  | nil =>
    have hLength := length_le_id2www (joined names)
    rw [← escapedText_eq, hText] at hLength
    exact absurd (List.length_eq_zero_iff.mp (Nat.le_zero.mp hLength)) h.nonempty
  | cons c cs =>
    have hWord := h.isWord
    have hShort := h.short
    rw [hText] at hWord hShort
    have hChars : ∀ d ∈ cs, isWordChar d = true := by
      intro d hMem
      rw [isWordChar, hWord d (List.mem_cons_of_mem c hMem), Bool.true_or]
    rw [scan, List.length_cons, scanFrom_word cs.length (hWord c List.mem_cons_self) hChars, truncated,
      List.take_of_length_le (Nat.le_sub_one_of_lt hShort)]

theorem nameRule_ok (unset : Word) : nameRule unset (escapedText names) = joined names := by
  have hLength := length_le_id2www (joined names)
  rw [← escapedText_eq] at hLength
  have hBack : www2id unset (escapedText names) = joined names := by
    rw [escapedText_eq]
    exact www2idFrom_id2www unset h.isName _ (length_le_id2www (joined names))
  rw [nameRule, hBack, truncated, List.take_of_length_le]
  exact Nat.le_sub_one_of_lt (Nat.lt_of_le_of_lt hLength h.short)

end Spellable

end Libdap.Dap2
