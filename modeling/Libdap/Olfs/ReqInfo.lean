import Libdap.Constraint.Word
import Libdap.Core.Fault
import Libdap.Core.Matcher
import Libdap.Olfs.JavaString

/-! # The parts of a request's path

`ReqInfo` takes function calls out of the path and divides what is left at its last slash and its last dot. Each of its
methods looks for them again.
-/

namespace Libdap.Olfs
open Core Constraint
set_option autoImplicit false

/-! ## Functions in the path -/

/-- What `.` does not stand for. -/
def isLineTerminator (c : Char) : Bool :=
  c = '\n' || c = '\r' || c.toNat = 0x85 || c.toNat = 0x2028 || c.toNat = 0x2029

def eqIgnoreCase (b c : Char) : Bool := c = b || c.toLower = b

namespace ReqInfo

def anything (next : Node Char) : Node Char := next.many fun c => !isLineTerminator c

def literal (text : Word) (next : Node Char) : Node Char := next.slice eqIgnoreCase text

/-- `_expr_\{.*\}\{.*\}(\{.*\})?`, where a backslash is before each brace. -/
def pathFunctionSyntaxPattern : Node Char :=
  literal "_expr_\x7b".toList (anything (literal "\x7d\x7b".toList (anything (literal "\x7d".toList
    (Node.optional (fun next => literal "\x7b".toList (anything (literal "\x7d".toList next))) Node.accept)))))

/-- The characters that each match has. -/
def pathFunctionMinLength : Nat := 10

theorem pathFunction_consumes : pathFunctionSyntaxPattern.Consumes (9 + 1) := by
  have hEnd : Node.Consumes 1 (literal "\x7d".toList Node.accept) := Node.accept_consumes.slice _
  have hGroup : Node.Consumes 0 (literal "\x7b".toList (anything (literal "\x7d".toList Node.accept))) :=
    (hEnd.many.slice _).weaken (Nat.zero_le _)
  have hOptional : Node.Consumes 0 (Node.optional (fun next => literal "\x7b".toList
      (anything (literal "\x7d".toList next)))
      Node.accept) := Node.accept_consumes.optional hGroup
  exact (((hOptional.slice "\x7d".toList).many.slice "\x7d\x7b".toList).many.slice "_expr_\x7b".toList)

/-- The loop over the matches, which ends. -/
def findFunctionSyntax (requestPath : Word) : Bool × Matcher Char :=
  (Matcher.findToEnd pathFunctionSyntaxPattern pathFunctionMinLength (requestPath.length + 1) false
  (.of requestPath)).get
    (Matcher.findToEnd_ends pathFunction_consumes _ ⟨Nat.zero_le _, nofun⟩ (Nat.lt_succ_self _))

def getLocalUrl (pathInfo : Option Word) : Word :=
  let requestPath := pathInfo.getD ['/']
  let (foundFunctionSyntax, m) := findFunctionSyntax requestPath
  if foundFunctionSyntax then requestPath.take (m.first.getD 0) ++ requestPath.drop m.last else requestPath

def getPathFunctionCE (pathInfo : Option Word) : Word :=
  let requestPath := pathInfo.getD ['/']
  let (foundFunctionSyntax, m) := findFunctionSyntax requestPath
  if foundFunctionSyntax then
    let pathFunction := (requestPath.take m.last).drop (m.first.getD 0)
    match indexOf pathFunction '{' 0 with
    | none => []
    | some firstCurlyBrace =>
      match indexOf pathFunction '{' (firstCurlyBrace + 1) with
      | none => []
      | some secondCurlyBrace =>
        match indexOf pathFunction '}' (secondCurlyBrace + 1) with
        | none => []
        | some endSecondCurlyBrace => (pathFunction.take endSecondCurlyBrace).drop (secondCurlyBrace + 1)
  else []

/-! ## Suffix, data source, dataset and collection -/

def getSuffix (s : Word) : Except JavaException Word :=
  if s.getLast? ≠ some '/' then
    if lastIndexOf ['/'] s < lastIndexOf ['.'] s then substring s (lastIndexOf ['.'] s + 1) s.length else .ok []
  else .ok []

def getDataSetName (pathInfo : Option Word) : Except JavaException (Option Word) :=
  let localUrl := getLocalUrl pathInfo
  if localUrl.getLast? = some '/' then .ok none
  else if lastIndexOf ['/'] localUrl < lastIndexOf ['.'] localUrl then
    (substring localUrl (lastIndexOf ['/'] localUrl + 1) (lastIndexOf ['.'] localUrl)).map some
  else .ok (some localUrl)

def getBesDataSourceID (relativeUrl : Word) : Except JavaException Word :=
  if relativeUrl.getLast? ≠ some '/' then
    if lastIndexOf ['/'] relativeUrl < lastIndexOf ['.'] relativeUrl then
      substring relativeUrl 0 (lastIndexOf ['.'] relativeUrl)
    else .ok relativeUrl
  else .ok relativeUrl

def getCollectionName (pathInfo : Option Word) : Except JavaException Word := do
  let dSrc ← getBesDataSourceID (getLocalUrl pathInfo)
  let dSetName ← getDataSetName pathInfo
  let cName ← (match dSetName with
    | none => .ok dSrc
    | some dSetName => substring dSrc 0 (lastIndexOf dSetName dSrc))
  if cName.getLast? = some '/' ∧ cName ≠ ['/'] then substring cName 0 (cName.length - 1) else .ok cName

end ReqInfo

/-! ## The last dot and the last slash -/

section
variable {s before behind : Word} {c : Char}

/-- Where a text has its last dot behind its last slash. -/
theorem dot_behind_slash (h : lastIndexOf ['/'] s < lastIndexOf ['.'] s) :
    ∃ w x, s = w ++ '.' :: x ∧ '.' ∉ x ∧ '/' ∉ x := by
  by_cases hDot : '.' ∈ s
  · obtain ⟨w, x, rfl, hNot⟩ := exists_last hDot
    refine ⟨w, x, rfl, hNot, fun hSlash => ?_⟩
    obtain ⟨y, z, rfl, hNot'⟩ := exists_last hSlash
    have hPlace : lastIndexOf ['/'] (w ++ '.' :: (y ++ '/' :: z)) = ((w ++ '.' :: y).length : Int) := by
      rw [← List.cons_append, ← List.append_assoc]
      exact lastIndexOf_of_last hNot'
    rw [hPlace, lastIndexOf_of_last hNot, List.length_append] at h
    omega
  · rw [lastIndexOf_none hDot] at h
    by_cases hSlash : '/' ∈ s
    · obtain ⟨w, x, rfl, hNot⟩ := exists_last hSlash
      rw [lastIndexOf_of_last hNot] at h
      omega
    · rw [lastIndexOf_none hSlash] at h
      omega

theorem slash_before_dot {w x : Word} (hDot : '.' ∉ x) (hSlash : '/' ∉ x) :
    lastIndexOf ['/'] (w ++ '.' :: x) = lastIndexOf ['/'] w ∧ lastIndexOf ['.'] (w ++ '.' :: x) = w.length ∧
      lastIndexOf ['/'] (w ++ '.' :: x) < lastIndexOf ['.'] (w ++ '.' :: x) := by
  have hFirst : lastIndexOf ['/'] (w ++ '.' :: x) = lastIndexOf ['/'] w := by
    refine lastIndexOf_before fun hMem => ?_
    rcases List.mem_cons.mp hMem with hChar | hMem
    · exact absurd hChar (by decide)
    · exact hSlash hMem
  rw [hFirst, lastIndexOf_of_last hDot]
  exact ⟨rfl, rfl, lastIndexOf_lt _ _⟩

/-! ## The parts -/

namespace ReqInfo

/-- The parts of a path: with the suffix they make the path, and the dataset is in the collection. -/
def Fits (pathInfo : Option Word) : Prop :=
  ∃ suffix dSrc dSetName cName, getSuffix (getLocalUrl pathInfo) = .ok suffix ∧
    getBesDataSourceID (getLocalUrl pathInfo) = .ok dSrc ∧ getDataSetName pathInfo = .ok (some dSetName) ∧
    getCollectionName pathInfo = .ok cName ∧
    getLocalUrl pathInfo = (if suffix ≠ [] then dSrc ++ '.' :: suffix else dSrc) ∧ '/' ∉ dSetName ∧
    (dSrc = cName ++ '/' :: dSetName ∨ cName = ['/'] ∧ dSrc = '/' :: dSetName)

/-- The last element, which is behind a slash, has a dot with something behind it. -/
def Dotted (localUrl : Word) : Prop :=
  ∃ d n x, localUrl = d ++ '/' :: (n ++ '.' :: x) ∧ '/' ∉ n ∧ '/' ∉ x ∧ '.' ∉ x ∧ x ≠ []

variable {pathInfo : Option Word} {w x : Word}

theorem last_of_dot (hSlash : '/' ∉ x) : (w ++ '.' :: x).getLast? ≠ some '/' := by
  intro hLast
  have hMem : '/' ∈ '.' :: x := by
    rw [List.getLast?_append_of_ne_nil _ (List.cons_ne_nil _ _)] at hLast
    exact List.mem_of_getLast? hLast
  rcases List.mem_cons.mp hMem with hChar | hMem
  · exact absurd hChar (by decide)
  · exact hSlash hMem

theorem dotted_parts (h : getLocalUrl pathInfo = w ++ '.' :: x) (hDot : '.' ∉ x) (hSlash : '/' ∉ x) :
    getSuffix (getLocalUrl pathInfo) = .ok x ∧ getBesDataSourceID (getLocalUrl pathInfo) = .ok w ∧
      getDataSetName pathInfo = (substring (w ++ '.' :: x) (lastIndexOf ['/'] w + 1) w.length).map some := by
  obtain ⟨hFirst, hLast, hLess⟩ := slash_before_dot (w := w) hDot hSlash
  have hEnd := last_of_dot (w := w) hSlash
  rw [getSuffix, getBesDataSourceID, getDataSetName, h, if_pos hEnd, if_pos hLess, if_pos hEnd, if_pos hLess,
    if_neg hEnd, if_pos hLess, hLast, hFirst]
  refine ⟨?_, ?_, rfl⟩
  · refine substring_eq (u := w ++ ['.']) (w := []) ?_ ?_ ?_
    · simp
    · simp
    · simp only [List.length_append, List.length_cons, List.length_nil]
      omega
  · exact substring_eq (u := []) (w := '.' :: x) rfl rfl (by simp)

/-- A dataset with a suffix in a collection. -/
theorem collection_parts {d n : Word} (h : getLocalUrl pathInfo = d ++ '/' :: (n ++ '.' :: x)) (hName : '/' ∉ n)
    (hDot : '.' ∉ x) (hSlash : '/' ∉ x) :
    getDataSetName pathInfo = .ok (some n) ∧
      getCollectionName pathInfo = .ok (if d = [] then ['/'] else d) := by
  have hSplit : getLocalUrl pathInfo = (d ++ '/' :: n) ++ '.' :: x := by
    rw [h, List.append_assoc, List.cons_append]
  obtain ⟨-, hSource, hDataSet⟩ := dotted_parts hSplit hDot hSlash
  have hName : getDataSetName pathInfo = .ok (some n) := by
    rw [hDataSet, lastIndexOf_of_last hName, substring_eq (u := d ++ ['/']) (v := n) (w := '.' :: x)]
    · rfl
    · simp
    · simp
    · simp only [List.length_append, List.length_cons, List.length_nil]
      omega
  refine ⟨hName, ?_⟩
  have hFront : substring (d ++ '/' :: n) 0 (lastIndexOf n (d ++ '/' :: n)) = .ok (d ++ ['/']) := by
    have hPlace := lastIndexOf_end (d ++ ['/']) n
    rw [List.append_assoc, List.singleton_append] at hPlace
    rw [hPlace]
    exact substring_eq (u := []) (v := d ++ ['/']) (w := n) (by simp) rfl (by simp)
  rw [getCollectionName, hSource, ok_bind, hName, ok_bind]
  dsimp only
  rw [hFront, ok_bind]
  by_cases hNone : d = []
  · subst hNone
    rw [if_neg (by simp), if_pos rfl]
    rfl
  · rw [if_pos (by simp [hNone]), if_neg hNone]
    exact substring_eq (u := []) (v := d) (w := ['/']) rfl rfl (by simp)

theorem fits_of_dotted (h : Dotted (getLocalUrl pathInfo)) : Fits pathInfo := by
  obtain ⟨d, n, x, hUrl, hName, hSlash, hDot, hSome⟩ := h
  have hSplit : getLocalUrl pathInfo = (d ++ '/' :: n) ++ '.' :: x := by
    rw [hUrl, List.append_assoc, List.cons_append]
  obtain ⟨hSuffix, hSource, -⟩ := dotted_parts hSplit hDot hSlash
  obtain ⟨hDataSet, hCollection⟩ := collection_parts hUrl hName hDot hSlash
  refine ⟨x, d ++ '/' :: n, n, _, hSuffix, hSource, hDataSet, hCollection, ?_, hName, ?_⟩
  · rw [if_pos hSome, hSplit]
  · split
    next hNone => exact .inr ⟨rfl, by rw [hNone, List.nil_append]⟩
    next => exact .inl rfl

theorem dotted_of_fits (h : Fits pathInfo) : Dotted (getLocalUrl pathInfo) := by
  obtain ⟨suffix, dSrc, dSetName, cName, hSuffix, hSource, hDataSet, hCollection, hUrl, hPlain, hIn⟩ := h
  have hSlash : '/' ∈ dSrc := by
    rcases hIn with rfl | ⟨-, rfl⟩
    · exact List.mem_append_right _ List.mem_cons_self
    · exact List.mem_cons_self
  by_cases hLess : lastIndexOf ['/'] (getLocalUrl pathInfo) < lastIndexOf ['.'] (getLocalUrl pathInfo)
  · obtain ⟨w, x, hSplit, hDot, hNot⟩ := dot_behind_slash hLess
    obtain ⟨hSuffix', hSource', -⟩ := dotted_parts hSplit hDot hNot
    cases hSuffix'.symm.trans hSuffix
    cases hSource'.symm.trans hSource
    obtain ⟨d, n, hw, hName⟩ := exists_last hSlash
    refine ⟨d, n, suffix, ?_, hName, hNot, hDot, ?_⟩
    · rw [hSplit, hw, List.append_assoc, List.cons_append]
    · rintro rfl
      rw [if_neg (not_not_intro rfl), hSplit] at hUrl
      exact absurd (congrArg List.length hUrl) (by simp)
  · rw [getDataSetName, if_neg hLess] at hDataSet
    rw [getBesDataSourceID, if_neg hLess, ite_self] at hSource
    cases hSource
    split at hDataSet
    · cases hDataSet
    · cases hDataSet
      exact absurd hSlash hPlain

theorem fits_iff (pathInfo : Option Word) : Fits pathInfo ↔ Dotted (getLocalUrl pathInfo) :=
  ⟨dotted_of_fits, fits_of_dotted⟩

end ReqInfo

end

end Libdap.Olfs
