import Libdap.Dap2.RequestSize
import Libdap.Constraint.SplitCe

/-! # The limit on a response

A response over the limit of its DDS is refused before anything of it is written. The result of function
calls is a DDS of its own, which has no limit.
-/

namespace Libdap.Dap2
open Core Constraint
set_option autoImplicit false

structure FixedDDS where
  vars : List FixedVariable
  /-- `d_max_response_size` -/
  limit : Int

structure Clause where
  /-- `value_clause ()` -/
  valueClause : Bool
  /-- The variable that the clause's function returns, if it returns one. -/
  value : List FixedVariable → Except String (Option FixedVariable)

def functionClauses (expr : List Clause) : Bool := !expr.isEmpty && expr.all Clause.valueClause

def clauseResult (vars : List FixedVariable) (cp : Clause) : Except String FixedVariable := do
  match ← cp.value vars with
  | some result => .ok result
  | none => .error "A function was called but failed to return a value."

def evalFunctionClauses (vars : List FixedVariable) (expr : List Clause) : Except String FixedDDS := do
  if expr.isEmpty then throw "The constraint expression is empty."
  let results ← expr.mapM (clauseResult vars)
  .ok ⟨results, 0⟩

def FixedDDS.tooLarge (dds : FixedDDS) : String :=
  "The Request for " ++ toString (Int.tdiv (FixedVariable.getRequestSize true dds.vars) 1024) ++
    "KB is too large; requests for this user are limited to " ++ toString (Int.tdiv dds.limit 1024) ++ "KB."

def FixedDDS.overLimit (dds : FixedDDS) : Bool :=
  dds.limit != 0 && FixedVariable.getRequestSize true dds.vars > dds.limit

/-- What else the builder works with: the list of functions, the parser, which marks the variables and adds
clauses to the evaluator's, and the entries of the response cache, if there is one. -/
structure Server where
  isBtp : Word → Bool
  parseConstraint : Word → List FixedVariable → List Clause → Except String (List FixedVariable × List Clause)
  responseCache : Option (List FixedVariable → Word → Option (List FixedVariable))

namespace Server

variable (s : Server)

/-- `d_ce` and `d_btp_func_ce`. The loop of `split_ce` always ends. -/
def split (dCe : Word) : Word × Word := (splitCe s.isBtp dCe []).getD (dCe, [])

/-- The DDS of the function calls, from the cache or evaluated, with the dataset and the clauses as they are
after that. -/
def functionResult (dds : FixedDDS) (btp : Word) (expr : List Clause) :
    Except String (FixedDDS × FixedDDS × List Clause) :=
  match s.responseCache with
  | none => do
    let (vars, expr) ← s.parseConstraint btp dds.vars expr
    let fdds ← evalFunctionClauses vars expr
    .ok ({ dds with vars := vars }, fdds, expr)
  | some entry =>
    match entry dds.vars btp with
    | some vars => .ok (dds, ⟨FixedVariable.setSendPs true vars, 0⟩, expr)
    | none => do
      let (vars, expr) ← s.parseConstraint btp dds.vars expr
      let fdds ← if functionClauses expr then evalFunctionClauses vars expr else .ok { dds with vars := vars }
      .ok (dds, fdds, expr)

/-- The dataset that an error message is about and the one that is tested and sent. -/
def dataResponse (dCe : Word) (dds : FixedDDS) (expr : List Clause) : Except String (FixedDDS × FixedDDS) :=
  if (s.split dCe).2.isEmpty then do
    let (vars, _) ← s.parseConstraint (s.split dCe).1 dds.vars expr
    .ok ({ dds with vars := vars }, { dds with vars := vars })
  else do
    let (dds, fdds, expr) ← s.functionResult dds (s.split dCe).2 expr
    let (vars, _) ← s.parseConstraint (s.split dCe).1 (FixedVariable.setSendPs false fdds.vars) expr
    .ok (dds, { fdds with vars := vars })

/-- `ResponseBuilder::send_data`: the DDS whose data is written. -/
def sendData (dCe : Word) (dds : FixedDDS) (expr : List Clause) : Except String FixedDDS := do
  let (dds, fdds) ← s.dataResponse dCe dds expr
  if fdds.overLimit then throw dds.tooLarge
  .ok fdds

/-- `ResponseBuilder::send_data_ddx` -/
def sendDataDdx (dCe : Word) (dds : FixedDDS) (expr : List Clause) : Except String FixedDDS := do
  let (vars, expr) ← s.parseConstraint dCe dds.vars expr
  let dds := { dds with vars := vars }
  if dds.overLimit then throw dds.tooLarge
  if functionClauses expr then evalFunctionClauses vars expr else .ok dds

/-- The function calls were evaluated, now or for the cache. -/
def evaluated (dds : FixedDDS) (btp : Word) (expr : List Clause) : Bool :=
  match s.responseCache with
  | none => true
  | some entry =>
    match entry dds.vars btp with
    | some _ => true
    | none =>
      match s.parseConstraint btp dds.vars expr with
      | .ok (_, expr) => functionClauses expr
      | .error _ => true

/-- What `send_data` sends is the result of function calls. -/
def sendsResult (dCe : Word) (dds : FixedDDS) (expr : List Clause) : Bool :=
  !(s.split dCe).2.isEmpty && s.evaluated dds (s.split dCe).2 expr

end Server

/-! ## When the limit is kept -/

def FixedDDS.unlimited (dds : FixedDDS) : FixedDDS := { dds with limit := 0 }

/-- A response that is over the limit is refused. `send` of a DDS without a limit is what would be sent. -/
def LimitKept (send : FixedDDS → Except String FixedDDS) (dds : FixedDDS) : Prop :=
  ∀ sent, send dds.unlimited = .ok sent → dds.limit ≠ 0 →
    dds.limit < FixedVariable.projectedBytes exactCount sent.vars → ∃ msg, send dds = .error msg

theorem overLimit_iff (dds : FixedDDS) :
    dds.overLimit = true ↔ dds.limit ≠ 0 ∧ dds.limit < int32 (FixedVariable.projectedBytes countedAs dds.vars) := by
  rw [FixedDDS.overLimit, getRequestSize_eq, Bool.and_eq_true, bne_iff_ne, decide_eq_true_iff]

theorem unlimited_not_over {dds : FixedDDS} (h : dds.limit = 0) : dds.overLimit = false := by
  rw [FixedDDS.overLimit, h]
  rfl

theorem unlimited_eq {dds : FixedDDS} (h : dds.limit = 0) : dds = ⟨dds.vars, 0⟩ := by rw [← h]

theorem evalFunctionClauses_limit {vars : List FixedVariable} {expr : List Clause} {fdds : FixedDDS}
    (h : evalFunctionClauses vars expr = .ok fdds) : fdds.limit = 0 := by
  rw [evalFunctionClauses] at h
  split at h
  · cases h
  · cases hResults : expr.mapM (clauseResult vars) with
    | error e =>
      rw [hResults] at h
      cases h
    | ok results =>
      rw [hResults] at h
      cases h
      rfl

theorem except_bind_ok {ε α β : Type} {x : Except ε α} {f : α → Except ε β} {b : β} (h : x >>= f = .ok b) :
    ∃ a, x = .ok a ∧ f a = .ok b := by
  cases x with
  | error e => cases h
  | ok a => exact ⟨a, rfl, h⟩

namespace Server

variable (s : Server)

theorem functionResult_limit {dds d f : FixedDDS} {btp : Word} {expr expr' : List Clause}
    (h : s.functionResult dds.unlimited btp expr = .ok (d, f, expr')) :
    f.limit = 0 ∧ ∃ d', s.functionResult dds btp expr =
      .ok (d', { f with limit := if s.evaluated dds btp expr then 0 else dds.limit }, expr') := by
  cases hCache : s.responseCache with
  | none =>
    simp only [functionResult, evaluated, hCache] at h ⊢
    obtain ⟨r, hParse, hMore⟩ := except_bind_ok h
    obtain ⟨g, hEval, hLast⟩ := except_bind_ok hMore
    cases hLast
    have hParse' : s.parseConstraint btp dds.vars expr = .ok r := hParse
    have hLimit := evalFunctionClauses_limit hEval
    simp only [hParse', ok_bind, hEval, if_pos, hLimit]
    exact ⟨trivial, { dds with vars := r.1 }, by rw [← unlimited_eq hLimit]⟩
  | some entry =>
    cases hEntry : entry dds.vars btp with
    | some vars =>
      have hSame : entry dds.unlimited.vars btp = some vars := hEntry
      simp only [functionResult, hCache, hSame] at h
      cases h
      simp only [functionResult, evaluated, hCache, hEntry, if_pos]
      exact ⟨trivial, _, rfl⟩
    | none =>
      have hSame : entry dds.unlimited.vars btp = none := hEntry
      simp only [functionResult, hCache, hSame] at h
      obtain ⟨r, hParse, hMore⟩ := except_bind_ok h
      have hParse' : s.parseConstraint btp dds.vars expr = .ok r := hParse
      simp only [functionResult, evaluated, hCache, hEntry, hParse', ok_bind]
      cases hClauses : functionClauses r.2 with
      | true =>
        simp only [hClauses, if_pos] at hMore
        obtain ⟨g, hEval, hLast⟩ := except_bind_ok hMore
        cases hLast
        have hLimit := evalFunctionClauses_limit hEval
        simp only [if_pos, hEval, ok_bind, hLimit]
        exact ⟨trivial, dds, by rw [← unlimited_eq hLimit]⟩
      | false =>
        rw [hClauses] at hMore
        cases hMore
        exact ⟨rfl, _, rfl⟩

/-- The dataset that is tested is the same with the limit of the request's DDS, but for a function's result. -/
theorem dataResponse_limit {dCe : Word} {dds d f : FixedDDS} {expr : List Clause}
    (h : s.dataResponse dCe dds.unlimited expr = .ok (d, f)) :
    f.limit = 0 ∧ ∃ d', s.dataResponse dCe dds expr =
      .ok (d', { f with limit := if s.sendsResult dCe dds expr then 0 else dds.limit }) := by
  rw [dataResponse] at h
  rw [dataResponse, sendsResult]
  cases hBtp : (s.split dCe).2.isEmpty with
  | true =>
    rw [hBtp, if_pos rfl] at h
    obtain ⟨r, hParse, hRest⟩ := except_bind_ok h
    have hParse' : s.parseConstraint (s.split dCe).1 dds.vars expr = .ok r := hParse
    cases hRest
    rw [if_pos rfl, hParse']
    exact ⟨rfl, _, rfl⟩
  | false =>
    rw [hBtp, if_neg Bool.false_ne_true] at h
    obtain ⟨⟨d₁, f₁, expr₁⟩, hResult, hRest⟩ := except_bind_ok h
    obtain ⟨r, hParse, hEnd⟩ := except_bind_ok hRest
    cases hEnd
    obtain ⟨hLimit, d', hSame⟩ := s.functionResult_limit hResult
    rw [if_neg Bool.false_ne_true, Bool.not_false, Bool.true_and, hSame, ok_bind]
    simp only [hParse, ok_bind]
    exact ⟨hLimit, _, rfl⟩

/-- With the dataset that would be sent, `send_data` throws exactly when it tests it and finds it over. -/
theorem sendData_throws {dCe : Word} {dds sent : FixedDDS} {expr : List Clause}
    (h : s.sendData dCe dds.unlimited expr = .ok sent) :
    (∃ msg, s.sendData dCe dds expr = .error msg) ↔
      s.sendsResult dCe dds expr = false ∧ dds.limit ≠ 0 ∧
        dds.limit < int32 (FixedVariable.projectedBytes countedAs sent.vars) := by
  rw [sendData] at h
  obtain ⟨⟨d, f⟩, hResponse, hTest⟩ := except_bind_ok h
  obtain ⟨hLimit, d', hSame⟩ := s.dataResponse_limit hResponse
  simp only [unlimited_not_over hLimit] at hTest
  cases hTest
  rw [sendData, hSame, ok_bind]
  cases hResult : s.sendsResult dCe dds expr with
  | true =>
    have hNot : ({ sent with limit := 0 } : FixedDDS).overLimit = false := unlimited_not_over rfl
    simp only [if_pos, hNot]
    constructor
    · rintro ⟨msg, ⟨⟩⟩
    · rintro ⟨⟨⟩, -⟩
  | false =>
    have hOver := overLimit_iff { sent with limit := dds.limit }
    simp only [if_neg Bool.false_ne_true] at hOver ⊢
    cases hTested : ({ sent with limit := dds.limit } : FixedDDS).overLimit with
    | true =>
      rw [hTested] at hOver
      exact ⟨fun _ => ⟨trivial, hOver.mp rfl⟩, fun _ => ⟨_, rfl⟩⟩
    | false =>
      rw [hTested] at hOver
      constructor
      · rintro ⟨msg, ⟨⟩⟩
      · rintro ⟨-, hBoth⟩
        cases hOver.mpr hBoth

/-- `send_data_ddx` tests the dataset of the request, whatever it sends. -/
theorem sendDataDdx_throws {dCe : Word} {dds sent : FixedDDS} {expr : List Clause}
    (h : s.sendDataDdx dCe dds.unlimited expr = .ok sent) :
    ∃ parsed, s.parseConstraint dCe dds.vars expr = .ok parsed ∧
      ((∃ msg, s.sendDataDdx dCe dds expr = .error msg) ↔
        dds.limit ≠ 0 ∧ dds.limit < int32 (FixedVariable.projectedBytes countedAs parsed.1)) := by
  rw [sendDataDdx] at h
  obtain ⟨r, hParse, hRest⟩ := except_bind_ok h
  have hParse' : s.parseConstraint dCe dds.vars expr = .ok r := hParse
  have hNot : ({ dds.unlimited with vars := r.1 } : FixedDDS).overLimit = false := unlimited_not_over rfl
  have hOver := overLimit_iff { dds with vars := r.1 }
  refine ⟨r, hParse', ?_⟩
  simp only [hNot] at hRest
  rw [sendDataDdx, hParse', ok_bind]
  cases hTested : ({ dds with vars := r.1 } : FixedDDS).overLimit with
  | true =>
    rw [hTested] at hOver
    simp only [hTested, if_pos]
    exact ⟨fun _ => hOver.mp rfl, fun _ => ⟨_, rfl⟩⟩
  | false =>
    rw [hTested] at hOver
    simp only [hTested]
    constructor
    · rintro ⟨msg, hError⟩
      cases hClauses : functionClauses r.2 with
      | true =>
        rw [hClauses] at hRest hError
        have hSent : evalFunctionClauses r.1 r.2 = .ok sent := hRest
        have hThrown : evalFunctionClauses r.1 r.2 = .error msg := hError
        rw [hSent] at hThrown
        cases hThrown
      | false =>
        rw [hClauses] at hError
        cases hError
    · intro hBoth
      cases hOver.mpr hBoth

/-- The limit is kept exactly where a response that is over it is no function's result, or goes out by
`send_data_ddx`, and what the size of the dataset that is tested leaves over is over the limit too. -/
theorem limit_kept_iff (dCe : Word) (dds : FixedDDS) (expr : List Clause) :
    (LimitKept (s.sendData dCe · expr) dds ↔
      ∀ sent, s.sendData dCe dds.unlimited expr = .ok sent → dds.limit ≠ 0 →
        dds.limit < FixedVariable.projectedBytes exactCount sent.vars →
          s.sendsResult dCe dds expr = false ∧
            dds.limit < int32 (FixedVariable.projectedBytes countedAs sent.vars)) ∧
      (LimitKept (s.sendDataDdx dCe · expr) dds ↔
        ∀ sent, s.sendDataDdx dCe dds.unlimited expr = .ok sent → dds.limit ≠ 0 →
          dds.limit < FixedVariable.projectedBytes exactCount sent.vars →
            ∀ parsed, s.parseConstraint dCe dds.vars expr = .ok parsed →
              dds.limit < int32 (FixedVariable.projectedBytes countedAs parsed.1)) := by
  constructor
  · constructor
    · intro hKept sent hSent hLimit hOver
      obtain ⟨hResult, -, hSize⟩ := (s.sendData_throws hSent).mp (hKept sent hSent hLimit hOver)
      exact ⟨hResult, hSize⟩
    · intro hCondition sent hSent hLimit hOver
      obtain ⟨hResult, hSize⟩ := hCondition sent hSent hLimit hOver
      exact (s.sendData_throws hSent).mpr ⟨hResult, hLimit, hSize⟩
  · constructor
    · intro hKept sent hSent hLimit hOver parsed hParsed
      obtain ⟨r, hParse, hThrows⟩ := s.sendDataDdx_throws hSent
      rw [hParsed] at hParse
      cases hParse
      exact (hThrows.mp (hKept sent hSent hLimit hOver)).2
    · intro hCondition sent hSent hLimit hOver
      obtain ⟨r, hParse, hThrows⟩ := s.sendDataDdx_throws hSent
      exact hThrows.mpr ⟨hLimit, hCondition sent hSent hLimit hOver r hParse⟩

end Server

/-- 2^29 numbers of eight bytes each. -/
def bigArray : Shaped where
  array := ⟨"a", [⟨536870912, "i", 0, 536870911, 1, 536870912⟩], 536870912, true⟩
  dims := List.cons_ne_nil _ _
  length_eq := by decide

/-- A server without functions and without a cache, for an expression that leaves the marks alone. -/
def plainServer : Server := ⟨fun _ => false, fun _ vars expr => .ok (vars, expr), none⟩

theorem big_array_sent :
    ¬ ∀ (s : Server) (dCe : Word) (dds : FixedDDS) (expr : List Clause), LimitKept (s.sendData dCe · expr) dds := by
  intro h
  let dds : FixedDDS := ⟨[.array bigArray (.simple .float64 true)], 1024⟩
  have hSent : plainServer.sendData [] dds.unlimited [] = .ok dds.unlimited := rfl
  have hBytes : dds.limit < FixedVariable.projectedBytes exactCount dds.unlimited.vars := by decide
  obtain ⟨msg, hError⟩ := h plainServer [] dds [] dds.unlimited hSent (by decide) hBytes
  have hOk : plainServer.sendData [] dds [] = .ok dds := by
    have hSize : dds.overLimit = false := by decide
    rw [Server.sendData]
    have hResponse : plainServer.dataResponse [] dds [] = .ok (dds, dds) := rfl
    rw [hResponse, ok_bind]
    simp only [hSize]
    rfl
  cases hOk.symm.trans hError

end Libdap.Dap2
