import Libdap.Constraint.Expression

/-! # What split_ce makes of a well-formed expression -/

namespace Libdap.Constraint
open Core
set_option autoImplicit false

/-! ## Text that stays -/

section
variable {isBtp : Word → Bool}

/-- Neither at its start nor behind a parenthesis is there a call to take out. -/
structure Quiet (isBtp : Word → Bool) (w : Word) : Prop where
  start : ∀ name suf, isBtp name = true → w ≠ name ++ '(' :: suf
  behind : NoCallBehind isBtp w

theorem NoCallBehind.after {u v : Word} (h : NoCallBehind isBtp (u ++ ')' :: v)) : Quiet isBtp (dropComma v) := by
  have hLater : ∀ w pre rest, v = w ++ (pre ++ rest) → u ++ ')' :: v = (u ++ ')' :: (w ++ pre)) ++ rest := by
    rintro w pre rest rfl
    simp
  constructor
  · rintro name suf hName hv
    cases v with
    | nil => cases name <;> cases hv
    | cons c v =>
      rw [dropComma] at hv
      split at hv
      · rename_i hComma
        rw [hComma, hv] at h
        exact (h u name suf hName).2 rfl
      · rw [hv] at h
        exact (h u name suf hName).1 rfl
  · intro pre name suf hName
    obtain ⟨w, hw⟩ : ∃ w, v = w ++ dropComma v := ⟨leadingComma v, (leadingComma_dropComma v).symm⟩
    constructor
    · intro hDrop
      rw [hDrop] at hw
      rw [hLater w pre _ hw] at h
      exact (h _ name suf hName).1 rfl
    · intro hDrop
      rw [hDrop] at hw
      rw [hLater w pre _ hw] at h
      exact (h _ name suf hName).2 rfl

/-- A turn over text that stays passes by it. -/
theorem turn_quiet {i : Nat} {s : Scan} {u v n w : Word} (h : Quiet isBtp s.rest) (hClosing : s.rest = u ++ ')' :: v)
    (hFirst : s.rest = n ++ '(' :: w) (hi : n.length = i) :
    (turn isBtp i u.length s).passed ++ (turn isBtp i u.length s).rest = s.passed ++ s.rest ∧
      (turn isBtp i u.length s).btp = s.btp ∧ Quiet isBtp (turn isBtp i u.length s).rest := by
  have hName : isBtp n = false := by
    cases hIs : isBtp n with
    | false => rfl
    | true => exact absurd hFirst (h.start n w hIs)
  have hTake : s.rest.take i = n := by rw [hFirst, ← hi, List.take_left]
  have hDrop : s.rest.drop (u.length + 1) = v := by
    rw [hClosing, ← List.drop_drop, List.drop_left, List.drop_succ_cons, List.drop_zero]
  have hBehind := h.behind
  rw [hClosing] at hBehind
  rw [turn, hTake, hName, if_neg Bool.false_ne_true, hDrop]
  refine ⟨?_, rfl, hBehind.after⟩
  have hSplit := List.take_append_drop (u.length + 1) s.rest
  rw [hDrop] at hSplit
  simp only [List.append_assoc, leadingComma_dropComma, hSplit]

theorem splitLoop_quiet {fuel : Nat} {s : Scan} (h : Quiet isBtp s.rest) (hFuel : s.rest.length < fuel) :
    splitLoop isBtp fuel s = some (s.passed ++ s.rest, s.btp) := by
  induction fuel generalizing s with
  | zero => cases hFuel
  | succ fuel ih =>
    rw [splitLoop]
    split
    · rename_i i j hFirst hClosing
      obtain ⟨n, w, hName, hi, -⟩ := parenthesis_some hFirst
      obtain ⟨u, v, hRest, rfl, -⟩ := parenthesis_some hClosing
      obtain ⟨hText, hBtp, hQuiet⟩ := turn_quiet h hRest hName hi
      have hShorter := turn_shorter isBtp i hRest
      rw [ih hQuiet (Nat.lt_of_lt_of_le hShorter (Nat.le_of_lt_succ hFuel)), hText, hBtp]
    · rfl

/-! ## Calls that are taken out -/

theorem turn_call {name args more : Word} (s : Scan) (hName : isBtp name = true)
    (hRest : s.rest = (name ++ '(' :: (args ++ [')'])) ++ more) :
    turn isBtp name.length (name.length + 1 + args.length) s =
      ⟨s.passed, dropComma more, addFunction s.btp (name ++ '(' :: (args ++ [')']))⟩ := by
  have hLength : (name ++ '(' :: (args ++ [')'])).length = name.length + 1 + args.length + 1 := by
    simp only [List.length_append, List.length_cons, List.length_nil]
    omega
  have hTake : s.rest.take name.length = name := by rw [hRest, List.append_assoc, List.take_left]
  have hCall : s.rest.take (name.length + 1 + args.length + 1) = name ++ '(' :: (args ++ [')']) := by
    rw [hRest, ← hLength, List.take_left]
  have hDrop : s.rest.drop (name.length + 1 + args.length + 1) = more := by
    rw [hRest, ← hLength, List.drop_left]
  rw [turn, hTake, hName, if_pos rfl, hCall, hDrop]

/-- In the loop, up to the first parenthesis that closes. -/
theorem splitLoop_call {name args more : Word} (fuel : Nat) {s : Scan} (hName : isBtp name = true)
    (hPlain : name.all plainChar = true) (hArgs : ')' ∉ args) (hRest : s.rest = (name ++ '(' :: (args ++ [')'])) ++
      more) :
    splitLoop isBtp (fuel + 1) s =
      splitLoop isBtp fuel ⟨s.passed, dropComma more, addFunction s.btp (name ++ '(' :: (args ++ [')']))⟩ := by
  have hOpen : parenthesis '(' s.rest = some name.length := by
    have hHere := parenthesis_here (args ++ [')'] ++ more) (plain_not_mem hPlain (rfl : plainChar '(' = false))
    rw [hRest]
    simpa using hHere
  have hClosing : parenthesis ')' s.rest = some (name.length + 1 + args.length) := by
    have hNot : ')' ∉ name ++ '(' :: args := by
      rw [List.mem_append, List.mem_cons]
      rintro (hMem | hMem | hMem)
      · exact plain_not_mem hPlain rfl hMem
      · exact absurd hMem (by decide)
      · exact hArgs hMem
    have hHere := parenthesis_here more hNot
    have hLength : (name ++ '(' :: args).length = name.length + 1 + args.length := by
      rw [List.length_append, List.length_cons]
      omega
    rw [hLength] at hHere
    rw [hRest]
    simpa using hHere
  rw [splitLoop, hOpen, hClosing]
  simp only [turn_call s hName hRest]

theorem commaJoined_cons {w : Word} {ws vs : List Word} :
    commaJoined (w :: (ws ++ vs)) = w ++ (if (ws ++ vs).isEmpty then [] else ',' :: commaJoined (ws ++ vs)) := by
  cases h : ws ++ vs with
  | nil =>
    rw [List.isEmpty_nil, if_pos rfl, List.append_nil]
    rfl
  | cons v us => rw [commaJoined, List.isEmpty_cons, if_neg Bool.false_ne_true]

theorem commaJoined_append {ws vs : List Word} (hws : ws ≠ []) :
    commaJoined (ws ++ vs) = commaJoined ws ++ (if vs.isEmpty then [] else ',' :: commaJoined vs) := by
  induction ws with
  | nil => exact absurd rfl hws
  | cons w ws ih =>
    cases ws with
    | nil => rw [List.singleton_append, ← List.nil_append vs, commaJoined_cons, commaJoined]
    | cons u ws =>
      rw [List.cons_append, List.cons_append, commaJoined, commaJoined, ← List.cons_append, ih (List.cons_ne_nil u ws),
        List.append_assoc, List.cons_append]

/-- A call of a function, as it stands in the expression. -/
structure IsCall (isBtp : Word → Bool) (p : Projection) (name : Word) (args : List Arg) : Prop where
  eq : p = .call name args
  function : isBtp name = true
  plain : name.all plainChar = true

theorem IsCall.of {p : Projection} (hFunction : p.isFunction isBtp = true) (hWell : p.wellFormed = true) :
    ∃ name args, IsCall isBtp p name args := by
  cases p with
  | var w => cases hFunction
  | call name args =>
    simp only [Projection.wellFormed, Arg.wellFormed, Bool.and_eq_true] at hWell
    exact ⟨name, args, rfl, hFunction, hWell.1.2⟩

def addFunctions (btp : Word) (fs : List Projection) : Word := fs.foldl (fun btp f => addFunction btp f.print) btp

theorem splitLoop_functions {fs : List Projection} (hNe : fs ≠ [])
    (hCall : ∀ f ∈ fs, (∃ name args, IsCall isBtp f name args) ∧ f.Flat) (fuel : Nat) (passed btp more : Word) :
    splitLoop isBtp (fs.length + fuel) ⟨passed, commaJoined (fs.map Projection.print) ++ more, btp⟩ =
      splitLoop isBtp fuel ⟨passed, dropComma more, addFunctions btp fs⟩ := by
  induction fs generalizing btp with
  | nil => exact absurd rfl hNe
  | cons f fs ih =>
    rw [List.forall_mem_cons] at hCall
    obtain ⟨⟨⟨name, args, rfl, hFunction, hPlain⟩, hFlat⟩, hRest⟩ := hCall
    rw [List.length_cons, Nat.add_right_comm]
    cases fs with
    | nil =>
      rw [splitLoop_call _ hFunction hPlain hFlat rfl, List.length_nil, Nat.zero_add]
      rfl
    | cons g fs =>
      have hNext := ih (List.cons_ne_nil g fs) hRest (addFunction btp (Projection.call name args).print)
      rw [List.map_cons, List.map_cons, commaJoined, List.append_assoc, List.cons_append,
        splitLoop_call _ hFunction hPlain hFlat rfl, dropComma, if_pos rfl]
      exact hNext

theorem print_ne_nil (name : Word) (args : List Arg) : (Projection.call name args).print ≠ [] := by
  simp [Projection.print, Arg.print]

theorem addFunctions_some {btp : Word} (hBtp : btp ≠ []) (fs : List Projection) :
    addFunctions btp fs = btp ++ (if fs.isEmpty then [] else ',' :: commaJoined (fs.map Projection.print)) := by
  induction fs generalizing btp with
  | nil => exact (List.append_nil btp).symm
  | cons f fs ih =>
    have hNe : addFunction btp f.print = btp ++ ',' :: f.print := by
      rw [addFunction, if_neg (by simpa using hBtp), List.append_assoc, List.singleton_append]
    rw [addFunctions, List.foldl_cons, hNe]
    have hMore : btp ++ ',' :: f.print ≠ [] := by simp
    have hRest := ih hMore
    rw [addFunctions] at hRest
    rw [hRest, List.isEmpty_cons, if_neg Bool.false_ne_true, List.append_assoc]
    cases fs with
    | nil => simp [commaJoined]
    | cons g fs => simp [commaJoined]

theorem addFunctions_nil {fs : List Projection} (h : ∀ f ∈ fs, ∃ name args, IsCall isBtp f name args) :
    addFunctions [] fs = commaJoined (fs.map Projection.print) := by
  cases fs with
  | nil => rfl
  | cons f fs =>
    obtain ⟨name, args, rfl, -, -⟩ := h f List.mem_cons_self
    have hSome := addFunctions_some (print_ne_nil name args) fs
    rw [addFunctions] at hSome
    rw [addFunctions, List.foldl_cons, addFunction, List.isEmpty_nil, if_pos rfl, List.nil_append, hSome]
    cases fs with
    | nil => simp [commaJoined]
    | cons g fs => simp [commaJoined]

/-! ## What stays of an expression -/

theorem selections_start (ss : List Selection) :
    ss.flatMap Selection.print = [] ∨ ∃ w, ss.flatMap Selection.print = '&' :: w := by
  cases ss with
  | nil => exact Or.inl rfl
  | cons s ss => exact Or.inr ⟨_, by rw [List.flatMap_cons, Selection.print, List.cons_append]⟩

/-- A text that no name goes on into. -/
theorem name_stops {name w t : Word} (hName : name.all plainChar = true) (hw : w.all plainChar = true)
    (ht : t = [] ∨ ∃ c cs, t = c :: cs ∧ plainChar c = false) {suf : Word} (h : w ++ t = name ++ '(' :: suf) :
    w = name ∧ t = '(' :: suf := by
  rcases List.append_eq_append_iff.mp h with ⟨n, rfl, hn⟩ | ⟨n, rfl, hn⟩
  · cases n with
    | nil => exact ⟨(List.append_nil w).symm, hn⟩
    | cons d n =>
      have hd : plainChar d = true := List.all_eq_true.mp hName d (by simp)
      rcases ht with rfl | ⟨c, cs, rfl, hc⟩
      · cases hn
      · rw [List.cons_append] at hn
        rw [(List.cons.inj hn).1, hd] at hc
        cases hc
  · cases n with
    | nil => exact ⟨List.append_nil name, hn.symm⟩
    | cons d n =>
      have hd : plainChar d = true := List.all_eq_true.mp hw d (by simp)
      rw [List.cons_append] at hn
      rw [← (List.cons.inj hn).1] at hd
      cases hd

theorem remaining_quiet (hNames : Registered isBtp) {e : Expression} (hWell : e.WellFormed)
    (hBehind : NoCallBehind isBtp (e.remaining isBtp).print) : Quiet isBtp (e.remaining isBtp).print := by
  refine ⟨?_, hBehind⟩
  intro name suf hName
  obtain ⟨hNe, hPlain⟩ := hNames name hName
  have hSelections : ∀ w, e.selections.flatMap Selection.print = name ++ w → False := by
    intro w hw
    obtain ⟨c, name, rfl⟩ := List.exists_cons_of_ne_nil hNe
    rcases selections_start e.selections with hNil | ⟨v, hv⟩
    · rw [hNil] at hw
      cases hw
    · rw [hv] at hw
      have hc : plainChar c = true := List.all_eq_true.mp hPlain c List.mem_cons_self
      rw [← (List.cons.inj hw).1] at hc
      cases hc
  rw [Expression.print]
  cases hKept : (e.remaining isBtp).projections with
  | nil => exact hSelections _
  | cons p ps =>
    have hp : p ∈ e.projections ∧ p.isFunction isBtp = false := by
      have hMem : p ∈ (e.remaining isBtp).projections := by rw [hKept]; exact List.mem_cons_self
      simpa [Expression.remaining] using hMem
    have hNext : ∀ (w v : Word) (vs : List Word), commaJoined (w :: vs) ++ v = w ++
        ((if vs.isEmpty then [] else ',' :: commaJoined vs) ++ v) := by
      intro w v vs
      rw [← List.nil_append vs, commaJoined_cons, List.append_assoc]
    rw [List.map_cons, hNext]
    intro hText
    have hFirst := hWell.projections p hp.1
    cases p with
    | var w =>
      simp only [Projection.wellFormed, Bool.and_eq_true] at hFirst
      have hStop : ∀ t : Word, t = (if (ps.map Projection.print).isEmpty then [] else ',' ::
          commaJoined (ps.map Projection.print)) ++
          (e.remaining isBtp).selections.flatMap Selection.print → t = [] ∨ ∃ c cs, t = c :: cs ∧ plainChar c = false ∧
            c ≠ '(' := by
        rintro t rfl
        split
        · rcases selections_start (e.remaining isBtp).selections with hNil | ⟨v, hv⟩
          · exact Or.inl hNil
          · exact Or.inr ⟨'&', v, hv, rfl, by decide⟩
        · exact Or.inr ⟨',', _, rfl, rfl, by decide⟩
      have hEnd := hStop _ rfl
      have hEnds := hEnd.imp_right <| by
        rintro ⟨c, cs, hc, hNot, -⟩
        exact (⟨c, cs, hc, hNot⟩ : ∃ c cs, _ = c :: cs ∧ plainChar c = false)
      obtain ⟨-, hParen⟩ := name_stops hPlain hFirst.2 hEnds hText
      rcases hEnd with hNil | ⟨c, cs, hc, -, hOther⟩
      · rw [hNil] at hParen
        cases hParen
      · rw [hc] at hParen
        exact hOther (List.cons.inj hParen).1
    | call n args =>
      simp only [Projection.wellFormed, Arg.wellFormed, Bool.and_eq_true] at hFirst
      rw [Projection.print, Arg.print, List.append_assoc] at hText
      obtain ⟨rfl, -⟩ := name_stops hPlain hFirst.1.2 (Or.inr ⟨'(', _, rfl, rfl⟩) hText
      rw [Projection.isFunction, hName] at hp
      cases hp.2

end

/-! ## Whole expressions -/

section
variable {isBtp : Word → Bool} {e : Expression}

theorem functions_are_calls (hWell : e.WellFormed) :
    ∀ f ∈ e.functions isBtp, ∃ name args, IsCall isBtp f name args := by
  intro f hf
  obtain ⟨hMem, hFunction⟩ := List.mem_filter.mp hf
  exact IsCall.of hFunction (hWell.projections f hMem)

/-- What is behind the functions. -/
def behind (isBtp : Word → Bool) (e : Expression) : Word :=
  (if ((e.remaining isBtp).projections.map Projection.print).isEmpty then []
    else ',' :: commaJoined ((e.remaining isBtp).projections.map Projection.print)) ++
  e.selections.flatMap Selection.print

theorem print_functions (hFirst : FunctionsFirst isBtp e) (hNe : e.functions isBtp ≠ []) :
    e.print = commaJoined ((e.functions isBtp).map Projection.print) ++ behind isBtp e := by
  have hMap : (e.functions isBtp).map Projection.print ≠ [] := by simpa using hNe
  rw [Expression.print, hFirst, List.map_append, commaJoined_append hMap, List.append_assoc, behind]

theorem print_no_functions (hFirst : FunctionsFirst isBtp e) (hNone : e.functions isBtp = []) :
    e.print = (e.remaining isBtp).print := by
  rw [Expression.print, hFirst, hNone, List.nil_append]
  rfl

theorem dropComma_behind : dropComma (behind isBtp e) = (e.remaining isBtp).print := by
  rw [behind, Expression.print]
  split
  · rename_i hNone
    rw [List.isEmpty_iff.mp hNone, commaJoined, List.nil_append, List.nil_append]
    rcases selections_start e.selections with hNil | ⟨w, hw⟩
    · rw [hNil]
      exact hNil.symm
    · rw [hw, dropComma, if_neg (by decide)]
      exact hw.symm
  · rw [List.cons_append, dropComma, if_pos rfl]
    rfl

theorem calls_length {fs : List Projection} (h : ∀ f ∈ fs, ∃ name args, IsCall isBtp f name args) :
    fs.length ≤ (commaJoined (fs.map Projection.print)).length := by
  induction fs with
  | nil => exact Nat.le_refl 0
  | cons f fs ih =>
    rw [List.forall_mem_cons] at h
    obtain ⟨⟨name, args, rfl, -, -⟩, hRest⟩ := h
    have hPositive := List.length_pos_iff.mpr (print_ne_nil name args)
    have hMore := ih hRest
    cases fs with
    | nil => exact hPositive
    | cons g fs =>
      rw [List.map_cons] at hMore
      rw [List.map_cons, List.map_cons, commaJoined]
      simp only [List.length_append, List.length_cons] at hMore ⊢
      omega

/-- The loop, with functions in front of what stays. -/
theorem splitLoop_expression (hQuiet : Quiet isBtp (e.remaining isBtp).print) {fs : List Projection}
    (hCall : ∀ f ∈ fs, (∃ name args, IsCall isBtp f name args) ∧ f.Flat) {fuel : Nat} {rest btp : Word}
    (hRest : rest = if fs.isEmpty then (e.remaining isBtp).print
      else commaJoined (fs.map Projection.print) ++ behind isBtp e) (hFuel : rest.length < fuel) :
    splitLoop isBtp fuel ⟨[], rest, btp⟩ = some ((e.remaining isBtp).print, addFunctions btp fs) := by
  cases fs with
  | nil =>
    rw [List.isEmpty_nil, if_pos rfl] at hRest
    rw [hRest] at hFuel ⊢
    exact splitLoop_quiet (s := ⟨[], _, btp⟩) hQuiet hFuel
  | cons f fs =>
    rw [List.isEmpty_cons, if_neg Bool.false_ne_true] at hRest
    have hCount := calls_length fun g hg => (hCall g hg).1
    have hDrop := dropComma_length (behind isBtp e)
    have hLength := congrArg List.length hRest
    rw [List.length_append] at hLength
    obtain ⟨k, rfl⟩ : ∃ k, fuel = (f :: fs).length + k := ⟨fuel - (f :: fs).length, by omega⟩
    rw [hRest, splitLoop_functions (List.cons_ne_nil f fs) hCall, dropComma_behind]
    rw [dropComma_behind] at hDrop
    exact splitLoop_quiet (s := ⟨[], _, _⟩) hQuiet (by simp only; omega)

theorem splitCe_expression (hNames : Registered isBtp) (hWell : e.WellFormed) (hFirst : FunctionsFirst isBtp e)
    (hBehind : NoCallBehind isBtp (e.remaining isBtp).print) (hFlat : ∀ f ∈ e.functions isBtp, f.Flat)
    {dCe expr : Word} (hText : (if expr.isEmpty then dCe else expr) = e.print) :
    splitCe isBtp dCe expr =
      some ((e.remaining isBtp).print, commaJoined ((e.functions isBtp).map Projection.print)) := by
  have hCalls : ∀ f ∈ e.functions isBtp, ∃ name args, IsCall isBtp f name args := functions_are_calls hWell
  rw [splitCe, ← addFunctions_nil hCalls]
  simp only [hText]
  apply splitLoop_expression (remaining_quiet hNames hWell hBehind)
  · exact fun f hf => ⟨hCalls f hf, hFlat f hf⟩
  · split
    · rename_i hNone
      exact print_no_functions hFirst (List.isEmpty_iff.mp hNone)
    · rename_i hSome
      exact print_functions hFirst (by simpa using hSome)
  · exact Nat.lt_succ_self _

theorem besSplitCe_expression (hNames : Registered isBtp) (hWell : e.WellFormed) (hQuotes : e.OpenQuotes)
    (hFirst : FunctionsFirst isBtp e) (hBehind : NoCallBehind isBtp (e.remaining isBtp).print)
    (hFlat : ∀ f ∈ (e.functions isBtp).tail, f.Flat) {dCe expr : Word}
    (hText : (if expr.isEmpty then dCe else expr) = e.print) :
    besSplitCe isBtp dCe expr =
      .ok (some ((e.remaining isBtp).print, commaJoined ((e.functions isBtp).map Projection.print))) := by
  have hCalls : ∀ f ∈ e.functions isBtp, ∃ name args, IsCall isBtp f name args := functions_are_calls hWell
  have hQuiet := remaining_quiet hNames hWell hBehind
  rw [besSplitCe, ← addFunctions_nil hCalls]
  simp only [hText]
  cases hFunctions : e.functions isBtp with
  | nil =>
    have hPrint := print_no_functions hFirst hFunctions
    cases hOpen : parenthesis '(' e.print with
    | none =>
      simp only [← hPrint]
      rfl
    | some i =>
      obtain ⟨n, w, hName, rfl, hNot⟩ := parenthesis_some hOpen
      have hBalanced := expression_balanced hWell hQuotes
      have hDrop : e.print.drop (n.length + 1) = w := by
        rw [hName, ← List.drop_drop, List.drop_left, List.drop_succ_cons, List.drop_zero]
      have hAgain := hBalanced
      rw [hName] at hAgain
      obtain ⟨j, hClosing⟩ := hAgain.closes hNot
      simp only [hDrop, hClosing]
      obtain ⟨u, v, hRest, rfl⟩ := findClosingParen_some hClosing
      have hPlace : (n ++ '(' :: u).length = n.length + 1 + u.length := by
        rw [List.length_append, List.length_cons]
        omega
      have hClose : e.print = (n ++ '(' :: u) ++ ')' :: v := by
        rw [hName, hRest, List.append_assoc]
        rfl
      have hTurn := turn_quiet (s := ⟨[], e.print, []⟩) (hPrint ▸ hQuiet) hClose hName rfl
      have hShorter := turn_shorter isBtp n.length (s := ⟨[], e.print, []⟩) hClose
      rw [hPlace] at hTurn hShorter
      rw [splitLoop_quiet hTurn.2.2 (Nat.lt_succ_of_lt hShorter), hTurn.1, hTurn.2.1, ← hPrint]
      rfl
  | cons f fs =>
    have hPrint := print_functions hFirst (by rw [hFunctions]; exact List.cons_ne_nil f fs)
    rw [hFunctions] at hPrint hFlat hCalls
    rw [List.forall_mem_cons] at hCalls
    obtain ⟨⟨name, args, rfl, hFunction, hPlain⟩, hRest⟩ := hCalls
    have hMem : Projection.call name args ∈ e.functions isBtp := by
      rw [hFunctions]
      exact List.mem_cons_self
    have hArgs : Balanced (printArgs args) := by
      have hOne := hWell.projections _ (List.mem_filter.mp hMem).1
      simp only [Projection.wellFormed, Arg.wellFormed, Bool.and_eq_true] at hOne
      exact args_balanced args hOne.2 (hQuotes.projections _ (List.mem_filter.mp hMem).1)
    obtain ⟨more, hMore, hNext⟩ : ∃ more, e.print = (Projection.call name args).print ++ more ∧
        dropComma more = if fs.isEmpty then (e.remaining isBtp).print
          else commaJoined (fs.map Projection.print) ++ behind isBtp e := by
      cases fs with
      | nil => exact ⟨behind isBtp e, hPrint, dropComma_behind⟩
      | cons g fs =>
        refine ⟨',' :: (commaJoined ((g :: fs).map Projection.print) ++ behind isBtp e), ?_, ?_⟩
        · rw [hPrint, List.map_cons, List.map_cons, commaJoined, List.append_assoc]
          rfl
        · rw [dropComma, if_pos rfl]
          rfl
    have hText' : e.print = (name ++ '(' :: (printArgs args ++ [')'])) ++ more := hMore
    have hOpen : parenthesis '(' e.print = some name.length := by
      have hHere := parenthesis_here (printArgs args ++ [')'] ++ more)
          (plain_not_mem hPlain (rfl : plainChar '(' = false))
      rw [hText']
      simpa using hHere
    have hDrop : e.print.drop (name.length + 1) = printArgs args ++ (')' :: more) := by
      rw [hText', List.append_assoc, ← List.drop_drop, List.drop_left]
      simp
    have hClosing : findClosingParen 1 (name.length + 1) (printArgs args ++ (')' :: more)) =
        some (name.length + 1 + (printArgs args).length) := by
      rw [hArgs 0, findClosingParen, if_neg (by decide), if_pos rfl, if_pos rfl]
    have hShort : (dropComma more).length < e.print.length + 1 := by
      have hLess := dropComma_length more
      rw [hMore, List.length_append]
      omega
    have hTurn := turn_call ⟨[], e.print, []⟩ hFunction hText'
    simp only [hOpen, hDrop, hClosing, hTurn]
    exact congrArg Except.ok (splitLoop_expression hQuiet (fun g hg => ⟨hRest g hg, hFlat g hg⟩) hNext hShort)

/-- The functions, when they are listed first, and what stays of the expression. -/
theorem split_clauses (hNames : Registered isBtp) (hWell : e.WellFormed) (hFirst : FunctionsFirst isBtp e)
    (hBehind : NoCallBehind isBtp (e.remaining isBtp).print) :
    (∀ dCe expr, (if expr.isEmpty then dCe else expr) = e.print →
      ((∀ f ∈ e.functions isBtp, f.Flat) → splitCe isBtp dCe expr =
        some ((e.remaining isBtp).print, commaJoined ((e.functions isBtp).map Projection.print))) ∧
      (e.OpenQuotes → (∀ f ∈ (e.functions isBtp).tail, f.Flat) → besSplitCe isBtp dCe expr =
        .ok (some ((e.remaining isBtp).print, commaJoined ((e.functions isBtp).map Projection.print))))) ∧
      ∀ dCe expr, (∃ r, splitCe isBtp dCe expr = some r) ∧ besSplitCe isBtp dCe expr ≠ .ok none := by
  constructor
  · intro dCe expr hText
    constructor
    · exact fun hFlat => splitCe_expression hNames hWell hFirst hBehind hFlat hText
    · exact fun hQuotes hFlat => besSplitCe_expression hNames hWell hQuotes hFirst hBehind hFlat hText
  · exact fun dCe expr => ⟨splitCe_ends isBtp dCe expr, besSplitCe_ends isBtp dCe expr⟩

def onlyF (name : Word) : Bool := name = ['f']

theorem onlyF_registered : Registered onlyF := by
  intro name hName
  obtain rfl : name = ['f'] := by simpa [onlyF] using hName
  exact ⟨List.cons_ne_nil _ _, by decide⟩

/-- `f(x),v&v>1` -/
def functionFirst : Expression := ⟨[.call ['f'] [.text ['x']], .var ['v']], [⟨[.text "v>1".toList]⟩]⟩

theorem functionFirst_wellFormed : functionFirst.WellFormed := ⟨by decide, by decide⟩

theorem functionFirst_split :
    splitCe onlyF [] functionFirst.print = some ("v&v>1".toList, "f(x)".toList) ∧
      besSplitCe onlyF [] functionFirst.print = .ok (some ("v&v>1".toList, "f(x)".toList)) := by
  have hNone : ')' ∉ (functionFirst.remaining onlyF).print := by decide
  have hBehind : NoCallBehind onlyF (functionFirst.remaining onlyF).print := by
    intro pre name suf _
    constructor
    · rintro hText
      exact hNone (by rw [hText]; simp)
    · rintro hText
      exact hNone (by rw [hText]; simp)
  have hFlat : ∀ f ∈ functionFirst.functions onlyF, f.Flat := by
    intro f hf
    obtain rfl : f = .call ['f'] [.text ['x']] := List.mem_singleton.mp hf
    have hNot : ')' ∉ printArgs [.text ['x']] := by decide
    exact hNot
  obtain ⟨hSplit, -⟩ := split_clauses onlyF_registered functionFirst_wellFormed rfl hBehind
  obtain ⟨hLibrary, hServer⟩ := hSplit [] functionFirst.print rfl
  exact ⟨hLibrary hFlat, hServer ⟨by decide, by decide⟩ nofun⟩

/-- `v,f(x)` -/
def functionBehind : Expression := ⟨[.var ['v'], .call ['f'] [.text ['x']]], []⟩

theorem functionBehind_kept :
    ¬ (∀ (isBtp : Word → Bool) (e : Expression), Registered isBtp → e.WellFormed →
        splitCe isBtp [] e.print =
          some ((e.remaining isBtp).print, commaJoined ((e.functions isBtp).map Projection.print))) ∧
      ¬ ∀ (isBtp : Word → Bool) (e : Expression), Registered isBtp → e.WellFormed →
        besSplitCe isBtp [] e.print =
          .ok (some ((e.remaining isBtp).print, commaJoined ((e.functions isBtp).map Projection.print))) := by
  have hWell : functionBehind.WellFormed := ⟨by decide, by decide⟩
  constructor
  · intro h
    exact absurd (h onlyF functionBehind onlyF_registered hWell) (by decide)
  · intro h
    have hRun := h onlyF functionBehind onlyF_registered hWell
    have hBes : besSplitCe onlyF [] functionBehind.print = .ok (some ("v,f(x)".toList, [])) := by rfl
    rw [hBes] at hRun
    exact absurd (Except.ok.inj hRun) (by decide)

end

end Libdap.Constraint
