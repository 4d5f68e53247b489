import Libdap.Olfs.ReqInfo

/-! # A function call in the path

The loop over the matches goes on until one of them has hit the end of the path, so the call is only found if its match
is the one that does. That is where no line ends behind its first brace.
-/

namespace Libdap.Olfs
open Core Constraint
set_option autoImplicit false

theorem eq_of_eqIgnoreCase {b c : Char} (hb : b = '{' ∨ b = '}' ∨ b = '_') (h : eqIgnoreCase b c = true) : c = b := by
  rw [eqIgnoreCase, Bool.or_eq_true, decide_eq_true_eq, decide_eq_true_eq] at h
  rcases h with h | h
  · exact h
  · delta Char.toLower at h
    split at h
    next hUpper =>
      have hVal := congrArg Char.val h
      rcases hb with rfl | rfl | rfl <;>
      · rw [← UInt32.toNat_inj] at hVal
        simp [UInt32.le_iff_toNat_le] at hUpper hVal
        omega
    next => exact h

theorem eqIgnoreCase_iff {b : Char} (hb : b = '{' ∨ b = '}' ∨ b = '_') (c : Char) :
    eqIgnoreCase b c = decide (c = b) := by
  by_cases h : c = b
  · rw [decide_eq_true h, h]
    simp [eqIgnoreCase]
  · rw [decide_eq_false h]
    exact Bool.eq_false_iff.mpr fun hEq => h (eq_of_eqIgnoreCase hb hEq)

theorem eqIgnoreCase_self (b : Char) : eqIgnoreCase b b = true := by simp [eqIgnoreCase]

namespace ReqInfo

def BraceFree (text : Word) : Prop := '{' ∉ text ∧ '}' ∉ text

/-- Without a character for which `.` does not stand. -/
def oneLine (text : Word) : Bool := text.all fun c => !isLineTerminator c

/-- A call in the path. -/
def pathFunction (a b : Word) : Word := ['_', 'e', 'x', 'p', 'r', '_', '{'] ++ (a ++ '}' :: '{' :: (b ++ ['}']))

section
variable {a b q : Word} {next : Node Char}

/-- The nodes behind the second function text. -/
def braceEnd : Node Char :=
  literal "\x7d".toList (Node.optional (fun next => literal "\x7b".toList (anything (literal "\x7d".toList next)))
    Node.accept)

theorem literal_brace {c d : Char} (hc : c = '{' ∨ c = '}' ∨ c = '_') (cs text : Word) (h : d ≠ c) :
    literal (c :: cs) next (d :: text) = (none, false) := by
  rw [literal, Node.slice, eqIgnoreCase_iff hc, if_neg (by simpa using h)]

theorem literal_same {c : Char} (cs text : Word) : literal (c :: cs) next (c :: text) = literal cs next text := by
  rw [literal, Node.slice, if_pos (eqIgnoreCase_self c), literal]

theorem literal_nil (text : Word) : literal [] next text = next text := by rw [literal, Node.slice]

theorem braceEnd_other {c : Char} (h : c ≠ '}') (text : Word) : braceEnd (c :: text) = (none, false) :=
  literal_brace (.inr (.inl rfl)) _ _ h

theorem braceEnd_brace (hq : '{' ∉ q) : braceEnd ('}' :: q) = (some q, q.isEmpty) := by
  rw [braceEnd]
  change literal ('}' :: []) _ _ = _
  rw [literal_same, literal_nil, Node.optional]
  cases q with
  | nil => rfl
  | cons c cs =>
    have hOther : c ≠ '{' := fun hSame => hq (hSame ▸ List.mem_cons_self)
    change Try.orElse (literal ('{' :: []) _ (c :: cs)) _ = _
    rw [literal_brace (.inl rfl) _ _ hOther]
    rfl

theorem anything_passed (h : ∀ c ∈ a, ∀ behind, next (c :: behind) = (none, false)) (text : Word) :
    anything next (a ++ text) = if oneLine a then anything next text else (none, false) := Node.many_passed h text

theorem anything_end (h : ∀ c ∈ a, ∀ behind, next (c :: behind) = (none, false)) (hEnd : next [] = (none, true)) :
    anything next a = (none, oneLine a) := by
  have hPassed := anything_passed h []
  rw [List.append_nil] at hPassed
  rw [hPassed]
  change (if oneLine a then ((next []).1, true) else _) = _
  rw [hEnd]
  cases oneLine a <;> rfl

theorem anything_here {c : Char} (hc : isLineTerminator c = false) (text : Word) :
    anything next (c :: text) = (anything next text).orElse (next (c :: text)) := by
  rw [anything, Node.many, if_pos (by rw [hc]; rfl)]

/-- Behind the second brace. -/
theorem second_text (hb : BraceFree b) (hq : BraceFree q) :
    anything braceEnd (b ++ '}' :: q) = if oneLine b then (some q, oneLine q) else (none, false) := by
  rw [anything_passed fun c hc => braceEnd_other fun hSame => hb.2 (hSame ▸ hc)]
  split
  · rw [anything_here (by decide), anything_end (fun c hc => braceEnd_other fun hSame => hq.2 (hSame ▸ hc)) rfl,
      braceEnd_brace hq.1]
    cases q with
    | nil => rfl
    | cons c cs => exact congrArg _ (Bool.or_false _)
  · rfl

/-- The nodes behind the first text. -/
def braces : Node Char := literal "\x7d\x7b".toList (anything braceEnd)

theorem braces_other {c : Char} (h : c ≠ '}') (text : Word) : braces (c :: text) = (none, false) :=
  literal_brace (.inr (.inl rfl)) _ _ h

theorem braces_last (hq : '{' ∉ q) : braces ('}' :: q) = (none, q.isEmpty) := by
  change literal ('}' :: '{' :: []) _ _ = _
  rw [literal_same]
  cases q with
  | nil => rfl
  | cons c cs => exact literal_brace (.inl rfl) _ _ fun hSame => hq (hSame ▸ List.mem_cons_self)

theorem braces_between (text : Word) : braces ('}' :: '{' :: text) = anything braceEnd text := by
  change literal ('}' :: '{' :: []) _ _ = _
  rw [literal_same, literal_same, literal_nil]

theorem first_text (ha : BraceFree a) (hb : BraceFree b) (hq : BraceFree q) :
    anything braces (a ++ '}' :: '{' :: (b ++ '}' :: q)) =
      if oneLine a ∧ oneLine b then (some q, oneLine q) else (none, false) := by
  have hEnd : anything braces q = (none, oneLine q) :=
    anything_end (fun c hc => braces_other fun hSame => hq.2 (hSame ▸ hc)) rfl
  have hLast : anything braces ('}' :: q) = (none, oneLine q) := by
    rw [anything_here (by decide), hEnd, braces_last hq.1]
    cases q with
    | nil => rfl
    | cons c cs => exact congrArg _ (Bool.or_false _)
  have hSecond : anything braces (b ++ '}' :: q) = (none, oneLine b && oneLine q) := by
    rw [anything_passed fun c hc => braces_other fun hSame => hb.2 (hSame ▸ hc), hLast]
    cases oneLine b <;> rfl
  rw [anything_passed fun c hc => braces_other fun hSame => ha.2 (hSame ▸ hc), anything_here (by decide),
    anything_here (by decide), hSecond, braces_other (by decide), braces_between, second_text hb hq]
  cases oneLine a <;> cases oneLine b <;> cases oneLine q <;> rfl

/-- The pattern, where the call begins. -/
theorem pattern_here (ha : BraceFree a) (hb : BraceFree b) (hq : BraceFree q) :
    pathFunctionSyntaxPattern (pathFunction a b ++ q) =
      if oneLine a ∧ oneLine b then (some q, oneLine q) else (none, false) := by
  have hText : pathFunction a b ++ q = ['_', 'e', 'x', 'p', 'r', '_', '{'] ++ (a ++ '}' :: '{' :: (b ++ '}' :: q)) := by
    simp [pathFunction]
  have hSame : List.Forall₂ (fun b c => eqIgnoreCase b c = true) "_expr_\x7b".toList ['_', 'e', 'x', 'p', 'r', '_',
      '{'] :=
    List.forall₂_same.mpr fun c _ => eqIgnoreCase_self c
  rw [hText]
  exact (Node.slice_append hSame _).trans (first_text ha hb hq)

/-! ### Where a call begins -/

/-- The fixed text ends with an underscore and a brace. -/
theorem begin_behind {cs : Word} (hAll : List.Forall₂ (fun b c => eqIgnoreCase b c = true) "_expr_\x7b".toList cs)
    (behind : Word) :
    ∃ v, (cs ++ behind).drop 5 = '_' :: '{' :: v := by
  change List.Forall₂ _ ['_', 'e', 'x', 'p', 'r', '_', '{'] cs at hAll
  rcases hAll with _ | ⟨-, _ | ⟨-, _ | ⟨-, _ | ⟨-, _ | ⟨-, _ | ⟨hScore, _ | ⟨hBrace, _ | _⟩⟩⟩⟩⟩⟩⟩
  rw [eq_of_eqIgnoreCase (.inr (.inr rfl)) hScore, eq_of_eqIgnoreCase (.inl rfl) hBrace]
  exact ⟨behind, rfl⟩

theorem pattern_none {text : Word} (h : ∀ v, text.drop 5 ≠ '_' :: '{' :: v) : (pathFunctionSyntaxPattern text).1 =
    none := by
  cases hPattern : (pathFunctionSyntaxPattern text).1 with
  | none => rfl
  | some rest =>
    obtain ⟨cs, behind, rfl, hAll, -⟩ := Node.slice_some hPattern
    obtain ⟨v, hBegin⟩ := begin_behind hAll behind
    exact absurd hBegin (h v)

theorem pattern_passed {text : Word} (hLength : 7 ≤ text.length) (h : ∀ v, text.drop 5 ≠ '_' :: '{' :: v) :
    pathFunctionSyntaxPattern text = (none, false) := by
  refine Node.slice_other hLength fun cs rest hSplit hAll => ?_
  obtain ⟨v, hBegin⟩ := begin_behind hAll rest
  rw [← hSplit] at hBegin
  exact h v hBegin

/-- There is one brace behind an underscore. -/
theorem one_begin {w r u v : Word} (hw : '{' ∉ w) (hr : ∀ x y, r ≠ x ++ '_' :: '{' :: y)
    (h : w ++ '_' :: '{' :: r = u ++ '_' :: '{' :: v) : u = w := by
  rcases List.append_eq_append_iff.mp h with ⟨bs, rfl, hBehind⟩ | ⟨bs, rfl, hBehind⟩
  · rcases bs with _ | ⟨c, _ | ⟨d, bs⟩⟩
    · rw [List.append_nil]
    · cases hBehind
    · cases hBehind
      exact absurd rfl (hr bs v)
  · rcases bs with _ | ⟨c, _ | ⟨d, bs⟩⟩
    · rw [List.append_nil]
    · cases hBehind
    · cases hBehind
      exact absurd (List.mem_append_right _ (List.mem_cons_of_mem _ List.mem_cons_self)) hw

theorem no_begin_behind (ha : BraceFree a) (hb : BraceFree b) (hq : BraceFree q) (x y : Word) :
    a ++ '}' :: '{' :: (b ++ '}' :: q) ≠ x ++ '_' :: '{' :: y := by
  intro h
  have hBehind : '{' ∉ b ++ '}' :: q := by
    simp [hb.1, hq.1]
  have hFront : '{' ∉ a ++ ['}'] := by simp [ha.1]
  rw [show a ++ '}' :: '{' :: (b ++ '}' :: q) = (a ++ ['}']) ++ '{' :: (b ++ '}' :: q) by
      rw [List.append_assoc, List.singleton_append],
    show x ++ '_' :: '{' :: y = (x ++ ['_']) ++ '{' :: y by rw [List.append_assoc, List.singleton_append]] at h
  have hLast := congrArg List.getLast? ((List.append_cons_inj_of_notMem hFront hBehind).mp h).1
  rw [List.getLast?_concat, List.getLast?_concat] at hLast
  exact absurd (Option.some.inj hLast) (by decide)

/-- The path with the call. -/
theorem only_begin {before : Word} (hBefore : BraceFree before) (ha : BraceFree a) (hb : BraceFree b) (hq : BraceFree q)
    {k : Nat} (hPlace : k ≠ before.length) (v : Word) :
    ((before ++ (pathFunction a b ++ q)).drop k).drop 5 ≠ '_' :: '{' :: v := by
  intro hBegin
  rw [List.drop_drop] at hBegin
  have hSplit : before ++ (pathFunction a b ++ q) =
      (before ++ ['_', 'e', 'x', 'p', 'r']) ++ '_' :: '{' :: (a ++ '}' :: '{' :: (b ++ '}' :: q)) := by
    simp [pathFunction]
  have hFront : '{' ∉ before ++ ['_', 'e', 'x', 'p', 'r'] := by
    have hNot := hBefore.1
    simp [hNot]
  have hTake := List.take_append_drop (k + 5) (before ++ (pathFunction a b ++ q))
  rw [hBegin, hSplit] at hTake
  have hPlaces := congrArg List.length (one_begin hFront (no_begin_behind ha hb hq) hTake.symm)
  have hInside : k + 5 < (before ++ (pathFunction a b ++ q)).length := by
    by_contra hNot
    rw [List.drop_eq_nil_of_le (Nat.not_lt.mp hNot)] at hBegin
    cases hBegin
  rw [hSplit] at hInside
  rw [List.length_take, List.length_append] at hPlaces
  simp only [List.length_append, List.length_cons, List.length_nil] at hPlaces hInside
  omega

theorem pathFunction_length (a b : Word) : (pathFunction a b).length = a.length + b.length + 10 := by
  simp only [pathFunction, List.length_append, List.length_cons, List.length_nil]
  omega

theorem search_call {before : Word} (hBefore : BraceFree before) (ha : BraceFree a) (hb : BraceFree b)
    (hq : BraceFree q) :
    pathFunctionSyntaxPattern.search pathFunctionMinLength (before ++ (pathFunction a b ++ q)) =
      if oneLine a ∧ oneLine b then (some (before.length, q), oneLine q) else (none, true) := by
  have hHere := pattern_here ha hb hq
  have hLength : pathFunctionMinLength ≤ (pathFunction a b ++ q).length := by
    rw [List.length_append, pathFunction_length, pathFunctionMinLength]
    omega
  split
  next hLines =>
    rw [if_pos hLines] at hHere
    rw [Node.search_passed hLength, Node.search_match hLength hHere]
    · rfl
    · intro k hk
      refine pattern_passed ?_ fun v => only_begin hBefore ha hb hq (Nat.ne_of_lt hk) v
      rw [List.length_drop, List.length_append]
      rw [pathFunctionMinLength] at hLength
      omega
  next hLines =>
    rw [if_neg hLines] at hHere
    refine Node.search_none fun k => ?_
    by_cases hPlace : k = before.length
    · rw [hPlace, List.drop_left, hHere]
    · exact pattern_none fun v => only_begin hBefore ha hb hq hPlace v

theorem search_plain (hq : BraceFree q) : pathFunctionSyntaxPattern.search pathFunctionMinLength q = (none, true) := by
  refine Node.search_none fun k => pattern_none fun v hBegin => ?_
  rw [List.drop_drop] at hBegin
  have hMem : '{' ∈ q.drop (k + 5) := hBegin ▸ List.mem_cons_of_mem _ List.mem_cons_self
  exact hq.1 (List.mem_of_mem_drop hMem)

theorem findFunctionSyntax_eq {text : Word} {r : Bool × Matcher Char}
    (h : Matcher.findToEnd pathFunctionSyntaxPattern pathFunctionMinLength (text.length + 1) false (.of text) =
      some r) :
    findFunctionSyntax text = r := Option.get_of_eq_some _ h

/-- The first find, and the second one if the first did not hit the end. -/
theorem findFunctionSyntax_call {before : Word} (hBefore : BraceFree before) (ha : BraceFree a) (hb : BraceFree b)
    (hq : BraceFree q) :
    findFunctionSyntax (before ++ (pathFunction a b ++ q)) =
      let text := before ++ (pathFunction a b ++ q)
      if oneLine a ∧ oneLine b then
        if oneLine q then (true, ⟨text, some before.length, text.length - q.length, true⟩)
        else (false, ⟨text, none, text.length - q.length, true⟩)
      else (false, ⟨text, none, 0, true⟩) := by
  have hSearch := search_call hBefore ha hb hq
  have hPlain := search_plain hq
  have hLength : (before ++ (pathFunction a b ++ q)).length =
      before.length + (a.length + b.length + 10) + q.length := by
    rw [List.length_append, List.length_append, pathFunction_length]
    omega
  have hDrop : (before ++ (pathFunction a b ++ q)).drop ((before ++ (pathFunction a b ++ q)).length - q.length) =
      q := by
    rw [hLength, Nat.add_sub_cancel, ← List.append_assoc, List.drop_left']
    rw [List.length_append, pathFunction_length]
  revert hSearch hLength hDrop
  generalize before ++ (pathFunction a b ++ q) = text
  intro hSearch hLength hDrop
  have hFirst : Matcher.find pathFunctionSyntaxPattern pathFunctionMinLength (.of text) =
      match pathFunctionSyntaxPattern.search pathFunctionMinLength text with
      | (some (n, rest), hitEnd) => (true, ⟨text, some n, text.length - rest.length, hitEnd⟩)
      | (none, hitEnd) => (false, ⟨text, none, 0, hitEnd⟩) := by
    simp only [Matcher.find, Matcher.of, reduceCtorEq, if_false, Nat.not_lt_zero, List.drop_zero, Nat.zero_add]
    rcases pathFunctionSyntaxPattern.search pathFunctionMinLength text with ⟨_ | ⟨n, rest⟩, hitEnd⟩ <;> rfl
  rw [hSearch] at hFirst
  refine findFunctionSyntax_eq ?_
  obtain ⟨n, hn⟩ := Nat.exists_eq_add_of_le' (show 2 ≤ text.length by omega)
  rw [show text.length + 1 = n + 3 by omega, Matcher.findToEnd, if_neg (by exact Bool.false_ne_true), hFirst]
  by_cases hLines : oneLine a ∧ oneLine b
  · rw [if_pos hLines, if_pos hLines]
    dsimp only
    cases hLast : oneLine q with
    | true => rw [Matcher.findToEnd, if_pos rfl]; rfl
    | false =>
      have hSecond : Matcher.find pathFunctionSyntaxPattern pathFunctionMinLength
          ⟨text, some before.length, text.length - q.length, false⟩ =
            (false, ⟨text, none, text.length - q.length, true⟩) := by
        have hOther : ¬some before.length = some (text.length - q.length) := by
          rw [Option.some.injEq]
          omega
        rw [Matcher.find]
        dsimp only
        rw [if_neg hOther, if_neg (Nat.not_lt.mpr (Nat.sub_le _ _)), hDrop, hPlain]
      rw [Matcher.findToEnd, if_neg (by exact Bool.false_ne_true), hSecond]
      dsimp only
      rw [Matcher.findToEnd, if_pos rfl]
      rfl
  · rw [if_neg hLines, if_neg hLines]
    dsimp only
    rw [Matcher.findToEnd, if_pos rfl]

/-- The second text of a call. -/
theorem second_of_call (ha : BraceFree a) (hb : BraceFree b) :
    indexOf (pathFunction a b) '{' 0 = some 6 ∧ indexOf (pathFunction a b) '{' 7 = some (a.length + 8) ∧
      indexOf (pathFunction a b) '}' (a.length + 9) = some (a.length + 9 + b.length) ∧
      ((pathFunction a b).take (a.length + 9 + b.length)).drop (a.length + 9) = b := by
  have hSplit : pathFunction a b = (['_', 'e', 'x', 'p', 'r', '_', '{'] ++ a ++ ['}', '{']) ++ (b ++ '}' :: []) := by
    simp [pathFunction]
  have hLength : (['_', 'e', 'x', 'p', 'r', '_', '{'] ++ a ++ ['}', '{']).length = a.length + 9 := by
    simp only [List.length_append, List.length_cons, List.length_nil]
    omega
  refine ⟨?_, ?_, ?_, ?_⟩
  · exact indexOf_behind (u := []) (v := ['_', 'e', 'x', 'p', 'r', '_']) rfl rfl (by decide)
  · have hText : pathFunction a b = ['_', 'e', 'x', 'p', 'r', '_', '{'] ++ ((a ++ ['}']) ++ '{' :: (b ++ ['}'])) := by
      simp [pathFunction]
    have hFirst : '{' ∉ a ++ ['}'] := by simp [ha.1]
    have hSeven : 7 = ['_', 'e', 'x', 'p', 'r', '_', '{'].length := rfl
    rw [indexOf_behind hText hSeven hFirst]
    simp only [List.length_append, List.length_cons, List.length_nil, Option.some.injEq]
    omega
  · rw [indexOf_behind hSplit hLength.symm hb.2, hLength]
  · rw [hSplit, ← hLength, ← List.length_append, ← List.append_assoc, List.take_left, List.drop_left]

/-- A call is taken out of the path, and its second text is found, if everything behind its first brace is on one
line. -/
theorem call_iff {before : Word} (hBefore : BraceFree before) (ha : BraceFree a) (hb : BraceFree b)
    (hq : BraceFree q) :
    (getLocalUrl (some (before ++ (pathFunction a b ++ q))) = before ++ q ∧
      getPathFunctionCE (some (before ++ (pathFunction a b ++ q))) = b) ↔
      oneLine a ∧ oneLine b ∧ oneLine q := by
  have hFind := findFunctionSyntax_call hBefore ha hb hq
  dsimp only at hFind
  by_cases hLines : oneLine a ∧ oneLine b ∧ oneLine q
  · refine iff_of_true ?_ hLines
    obtain ⟨hA, hB, hQ⟩ := hLines
    rw [if_pos ⟨hA, hB⟩, if_pos hQ] at hFind
    have hLength : (before ++ (pathFunction a b ++ q)).length - q.length = (before ++ pathFunction a b).length := by
      rw [← List.append_assoc, List.length_append, Nat.add_sub_cancel]
    rw [hLength] at hFind
    constructor
    · rw [getLocalUrl, Option.getD_some, hFind]
      dsimp only
      rw [if_pos rfl, Option.getD_some, List.take_left, ← List.append_assoc, List.drop_left]
    · obtain ⟨hFirst, hSecond, hEnd, hText⟩ := second_of_call ha hb
      rw [getPathFunctionCE, Option.getD_some, hFind]
      dsimp only
      rw [if_pos rfl, Option.getD_some, ← List.append_assoc, List.take_left, List.drop_left, hFirst]
      dsimp only
      rw [hSecond]
      dsimp only
      rw [hEnd]
      exact hText
  · refine iff_of_false ?_ hLines
    rintro ⟨hUrl, -⟩
    have hWhole : getLocalUrl (some (before ++ (pathFunction a b ++ q))) = before ++ (pathFunction a b ++ q) := by
      rw [getLocalUrl, Option.getD_some, hFind]
      by_cases hFront : oneLine a ∧ oneLine b
      · rw [if_pos hFront, if_neg fun hQ => hLines ⟨hFront.1, hFront.2, hQ⟩]
        rfl
      · rw [if_neg hFront]
        rfl
    rw [hWhole] at hUrl
    have hLength := congrArg List.length (List.append_cancel_left hUrl)
    rw [List.length_append, pathFunction_length] at hLength
    omega

/-- A path without braces. -/
theorem getLocalUrl_plain (hq : BraceFree q) : getLocalUrl (some q) = q := by
  have hFind : Matcher.find pathFunctionSyntaxPattern pathFunctionMinLength (.of q) = (false, ⟨q, none, 0, true⟩) := by
    simp only [Matcher.find, Matcher.of, reduceCtorEq, if_false, Nat.not_lt_zero, List.drop_zero, search_plain hq]
  have hLoop : findFunctionSyntax q = (false, ⟨q, none, 0, true⟩) := by
    refine findFunctionSyntax_eq ?_
    rw [Matcher.findToEnd, if_neg (by exact Bool.false_ne_true), hFind]
    dsimp only
    cases q.length <;> rfl
  rw [getLocalUrl, Option.getD_some, hLoop]
  rfl

/-- The parts of every path, and the call in every path with one. -/
theorem parts_iff (pathInfo : Option Word) {before : Word} (hBefore : BraceFree before) (ha : BraceFree a)
    (hb : BraceFree b) (hq : BraceFree q) :
    (Fits pathInfo ↔ Dotted (getLocalUrl pathInfo)) ∧
      ((getLocalUrl (some (before ++ (pathFunction a b ++ q))) = before ++ q ∧
        getPathFunctionCE (some (before ++ (pathFunction a b ++ q))) = b) ↔ oneLine a ∧ oneLine b ∧ oneLine q) :=
  ⟨fits_iff pathInfo, call_iff hBefore ha hb hq⟩

end

theorem fnoc_parts :
    BraceFree "/nc/".toList ∧ BraceFree ['x'] ∧ BraceFree ['y'] ∧ BraceFree "fnoc1.nc.dds".toList ∧
      Fits (some "/nc/fnoc1.nc.dds".toList) ∧
      getLocalUrl (some ("/nc/".toList ++ (pathFunction ['x'] ['y'] ++ "fnoc1.nc.dds".toList))) =
        "/nc/".toList ++ "fnoc1.nc.dds".toList ∧
      getPathFunctionCE (some ("/nc/".toList ++ (pathFunction ['x'] ['y'] ++ "fnoc1.nc.dds".toList))) = ['y'] := by
  have hNc : BraceFree "/nc/".toList := by unfold BraceFree; decide
  have hX : BraceFree ['x'] := by unfold BraceFree; decide
  have hY : BraceFree ['y'] := by unfold BraceFree; decide
  have hName : BraceFree "fnoc1.nc.dds".toList := by unfold BraceFree; decide
  have hPath : BraceFree "/nc/fnoc1.nc.dds".toList := by unfold BraceFree; decide
  have hParts := parts_iff (some "/nc/fnoc1.nc.dds".toList) hNc hX hY hName
  refine ⟨hNc, hX, hY, hName, hParts.1.mpr ?_, hParts.2.mpr ⟨by decide, by decide, by decide⟩⟩
  rw [getLocalUrl_plain hPath]
  exact ⟨"/nc".toList, "fnoc1.nc".toList, "dds".toList, by decide, by decide, by decide, by decide, by decide⟩

/-- The dataset of a path without a suffix is the path. -/
theorem no_suffix : ¬Fits (some "/data/nc".toList) := by
  have hPath : BraceFree "/data/nc".toList := by unfold BraceFree; decide
  intro hFits
  obtain ⟨d, n, x, hUrl, -⟩ := dotted_of_fits hFits
  rw [getLocalUrl_plain hPath] at hUrl
  have hDot : '.' ∈ "/data/nc".toList := by
    rw [hUrl]
    simp
  exact absurd hDot (by decide)

end ReqInfo

end Libdap.Olfs
