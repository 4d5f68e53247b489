import Libdap.Constraint.ArrayView

/-! # An array that an expression projects more than once -/

namespace Libdap.Constraint
open Core Dap2
set_option autoImplicit false

/-- A mention of the array: whether `send_p` was set before it, and its indices. -/
abbrev Mention := Bool × List Index

/-- The mentions among the actions. A Grid constrains its maps without looking at `send_p`. -/
def mentionsFrom : Bool → List Action → List Mention
  | _, [] => []
  | sent, .process indices :: actions => (sent, indices) :: mentionsFrom sent actions
  | _, .setSendP state :: actions => mentionsFrom state actions
  | _, .constrainMap index :: actions => (false, [index]) :: mentionsFrom true actions

def constrainedByAll (ds : List Dimension) (mention : Mention) : List Dimension :=
  List.zipWith constrainedBy ds mention.2

/-- Each mention was taken by the constraint that the ones before it left. -/
def Taken : List Dimension → List Mention → Prop
  | _, [] => True
  | ds, mention :: mentions =>
    List.Forall₂ (Takes mention.1) ds mention.2 ∧ Taken (constrainedByAll ds mention) mentions

theorem constrainMap_ok {index : Index} {d : Dimension} {a b : Dap2.Array} (hShape : a.shape = [d])
    (h : constrainMap index a = .ok () b) :
    Takes false d index ∧ b.shape = [constrainedBy d index] ∧ b.sendP = true := by
  obtain ⟨_, a₁, hSend, h⟩ := Call.bind_ok.mp h
  cases hSend
  obtain ⟨_, a₂, hReset, h⟩ := Call.bind_ok.mp h
  cases hReset
  obtain ⟨e, e', hAt, hTaken, rfl⟩ := Array.addConstraint_ok.mp h
  rw [Array.resetConstraint_shape, hShape] at hAt
  cases hAt
  obtain ⟨hStart, hStop, hStride, hPositive, hCount, rfl⟩ := Dimension.addConstraint_ok.mp hTaken
  refine ⟨⟨(fun h => nomatch h), hStart, hStop, hStride, hPositive, hCount⟩, ?_, ?_⟩
  · rw [Array.updateLength_shape, Array.resetConstraint_shape, hShape]
    rfl
  · rw [Array.updateLength_sendP, Array.resetConstraint_sendP]

theorem perform_mentions {actions : List Action} {a c : Dap2.Array}
    (hMaps : ∀ index, .constrainMap index ∈ actions → a.shape.length = 1)
    (h : perform actions a = .ok () c) :
    Taken a.shape (mentionsFrom a.sendP actions) ∧
      c.shape = (mentionsFrom a.sendP actions).foldl constrainedByAll a.shape := by
  induction actions generalizing a with
  | nil =>
    obtain ⟨_, rfl⟩ := Call.pure_ok.mp h
    exact ⟨trivial, rfl⟩
  | cons action actions ih =>
    obtain ⟨b, hHead, hTail⟩ := perform_cons_ok.mp h
    cases action with
    | process indices =>
      obtain ⟨hTakes, hEnd⟩ := processArrayIndices_ok hHead
      have hLength : b.shape.length = a.shape.length := by
        rw [hEnd.shape_eq, List.length_zipWith, hTakes.length_eq, Nat.min_self]
      obtain ⟨hTaken, hShape⟩ := ih (fun index hIn =>
        hLength.trans (hMaps index (List.mem_cons_of_mem _ hIn))) hTail
      rw [hEnd.sendP_eq, hEnd.shape_eq] at hTaken hShape
      exact ⟨⟨hTakes, hTaken⟩, hShape⟩
    | setSendP state =>
      cases hHead
      exact @ih { a with sendP := state }
        (fun index hIn => hMaps index (List.mem_cons_of_mem _ hIn)) hTail
    | constrainMap index =>
      obtain ⟨d, hOne⟩ := List.length_eq_one_iff.mp (hMaps index List.mem_cons_self)
      obtain ⟨hTakes, hConstrained, hSend⟩ := constrainMap_ok hOne hHead
      obtain ⟨hTaken, hShape⟩ := ih (fun _ _ => by rw [hConstrained, List.length_singleton]) hTail
      rw [hSend, hConstrained] at hTaken hShape
      rw [hOne]
      exact ⟨⟨.cons hTakes .nil, hTaken⟩, hShape⟩

/-- A later constraint leaves nothing of the one before. -/
theorem constrainedByAll_twice {ds : List Dimension} {first second : Mention}
    (h : ds.length ≤ first.2.length) :
    constrainedByAll (constrainedByAll ds first) second = constrainedByAll ds second := by
  obtain ⟨sent, indices⟩ := first
  obtain ⟨sent', indices'⟩ := second
  induction ds generalizing indices indices' with
  | nil => rfl
  | cons d ds ih =>
    cases indices with
    | nil => cases h
    | cons index indices =>
      cases indices' with
      | nil => rfl
      | cons index' indices' =>
        simp only [constrainedByAll, List.zipWith_cons_cons] at ih ⊢
        rw [ih indices (Nat.le_of_succ_le_succ h) indices']
        rfl

theorem inForce_eq_last {ds : List Dimension} {mention : Mention} {mentions : List Mention}
    (h : Taken ds (mention :: mentions)) :
    (mention :: mentions).foldl constrainedByAll ds =
      constrainedByAll ds ((mention :: mentions).getLast (List.cons_ne_nil _ _)) := by
  induction mentions generalizing ds mention with
  | nil => rfl
  | cons next mentions ih =>
    rw [List.foldl_cons, ih h.2, List.getLast_cons (List.cons_ne_nil _ _),
      constrainedByAll_twice (Nat.le_of_eq h.1.length_eq)]

/-- What a mention denotes: the start, the stride and the last index of each dimension. -/
def denoted (ds : List Dimension) (indices : List Index) : List (Int × Int × Int) :=
  List.zipWith (fun d index => (index.start, index.stride, d.stopOf index.stop)) ds indices

theorem constrained_eq_iff (ds : List Dimension) (first second : Mention) :
    constrainedByAll ds first = constrainedByAll ds second ↔
      denoted ds first.2 = denoted ds second.2 := by
  obtain ⟨sent, indices⟩ := first
  obtain ⟨sent', indices'⟩ := second
  induction ds generalizing indices indices' with
  | nil => exact ⟨fun _ => rfl, fun _ => rfl⟩
  | cons d ds ih =>
    cases indices with
    | nil =>
      cases indices' with
      | nil => exact ⟨fun _ => rfl, fun _ => rfl⟩
      | cons index' indices' => exact ⟨(fun h => nomatch h), (fun h => nomatch h)⟩
    | cons index indices =>
      cases indices' with
      | nil => exact ⟨(fun h => nomatch h), (fun h => nomatch h)⟩
      | cons index' indices' =>
        simp only [constrainedByAll, denoted, List.zipWith_cons_cons, List.cons.injEq] at ih ⊢
        rw [ih indices indices']
        apply and_congr_left
        intro _
        constructor
        · intro h
          injection h with _ _ hStart hStop hStride _
          rw [hStart, hStop, hStride]
        · intro h
          injection h with hStart h
          injection h with hStride hStop
          rw [constrainedBy, constrainedBy, Dimension.constrained, Dimension.constrained, hStart,
            hStride, hStop]

/-- The later mention writes `*` only for dimensions that the first one takes to their end. -/
def NoWidening (ds : List Dimension) (first later : List Index) : Prop :=
  ∀ (k : Nat) (d : Dimension) (i j : Index), ds[k]? = some d → first[k]? = some i → later[k]? = some j →
    j.stop = -1 → d.stopOf i.stop = d.size - 1

/-- The same of the dimensions that the first mention left. -/
def KeepsStops (es : List Dimension) (later : List Index) : Prop :=
  ∀ (k : Nat) (e : Dimension) (j : Index), es[k]? = some e → later[k]? = some j →
    j.stop = -1 → e.stop = e.size - 1

theorem index_at {sendP : Bool} {es : List Dimension} {indices : List Index}
    (h : List.Forall₂ (Takes sendP) es indices) {k : Nat} {e : Dimension} (hAt : es[k]? = some e) :
    ∃ j, indices[k]? = some j ∧ Takes sendP e j := by
  induction h generalizing k with
  | nil => cases hAt
  | cons hTakes _ ih =>
    cases k with
    | zero =>
      cases hAt
      exact ⟨_, rfl, hTakes⟩
    | succ k => exact ih hAt

theorem constrained_at {es : List Dimension} {mention : Mention} {k : Nat} {e : Dimension} {j : Index}
    (hAt : es[k]? = some e) (hIndex : mention.2[k]? = some j) :
    (constrainedByAll es mention)[k]? = some (constrainedBy e j) := by
  rw [constrainedByAll, List.getElem?_zipWith, hAt, hIndex]

theorem noWidening_iff {sendP : Bool} {ds : List Dimension} {mention : Mention} (later : List Index)
    (h : List.Forall₂ (Takes sendP) ds mention.2) :
    NoWidening ds mention.2 later ↔ KeepsStops (constrainedByAll ds mention) later := by
  constructor
  · intro hNo k e j hAt hLater hStar
    rw [constrainedByAll, List.getElem?_zipWith] at hAt
    cases hDimension : ds[k]? with
    | none =>
      rw [hDimension] at hAt
      cases hAt
    | some d =>
      obtain ⟨i, hFirst, _⟩ := index_at h hDimension
      rw [hDimension, hFirst] at hAt
      cases hAt
      exact hNo k d i j hDimension hFirst hLater hStar
  · intro hKeeps k d i j hDimension hFirst hLater hStar
    exact hKeeps k _ j (constrained_at hDimension hFirst) hLater hStar

theorem sameConstraint_iff {e : Dimension} {j : Index} :
    sameConstraint e j = true ↔
      e.start = j.start ∧ (e.stop = j.stop ∨ j.stop = -1) ∧ e.stride = j.stride := by
  simp only [sameConstraint, Bool.not_or, Bool.and_eq_true, Bool.not_eq_true', bne_eq_false_iff_eq,
    Bool.and_eq_false_iff, and_assoc]

/-- What `add_constraint` leaves: the count belongs to the three numbers. -/
def Settled (e : Dimension) : Prop := e.cSize = Dimension.countOf e.start e.stride e.stop

theorem settled_constrainedByAll (ds : List Dimension) (mention : Mention) :
    ∀ e ∈ constrainedByAll ds mention, Settled e := by
  intro e he
  obtain ⟨k, hAt⟩ := List.getElem?_of_mem he
  rw [constrainedByAll, List.getElem?_zipWith] at hAt
  split at hAt
  · cases hAt
    rfl
  · cases hAt

theorem constrainedBy_eq_self_iff {e : Dimension} {j : Index} (hSettled : Settled e)
    (hSame : sameConstraint e j = true) :
    constrainedBy e j = e ↔ (j.stop = -1 → e.stop = e.size - 1) := by
  obtain ⟨hStart, hStop, hStride⟩ := sameConstraint_iff.mp hSame
  constructor
  · intro h hStar
    have hEnd : e.stopOf j.stop = e.stop := congrArg Dimension.stop h
    rw [Dimension.stopOf, if_pos hStar] at hEnd
    exact hEnd.symm
  · intro h
    have hEnd : e.stopOf j.stop = e.stop := by
      rw [Dimension.stopOf]
      split
      · rename_i hStar
        exact (h hStar).symm
      · rename_i hNoStar
        exact (hStop.resolve_right hNoStar).symm
    rw [constrainedBy, Dimension.constrained, hEnd, ← hStart, ← hStride, ← hSettled]

theorem constrainedByAll_eq_self_iff {es : List Dimension} {mention : Mention}
    (hSettled : ∀ e ∈ es, Settled e) (h : List.Forall₂ (Takes true) es mention.2) :
    constrainedByAll es mention = es ↔ KeepsStops es mention.2 := by
  constructor
  · intro hSelf k e j hAt hIndex
    have hKept := @constrained_at es mention k e j hAt hIndex
    rw [hSelf, hAt] at hKept
    obtain ⟨j', hIndex', hTakes⟩ := index_at h hAt
    rw [hIndex] at hIndex'
    cases hIndex'
    exact (constrainedBy_eq_self_iff (hSettled e (List.mem_of_getElem? hAt)) (hTakes.same rfl)).mp
      (Option.some.inj hKept).symm
  · intro hKeeps
    apply List.ext_getElem?
    intro k
    cases hAt : es[k]? with
    | none => rw [constrainedByAll, List.getElem?_zipWith, hAt]
    | some e =>
      obtain ⟨j, hIndex, hTakes⟩ := index_at h hAt
      rw [constrained_at hAt hIndex, (constrainedBy_eq_self_iff
        (hSettled e (List.mem_of_getElem? hAt)) (hTakes.same rfl)).mpr (hKeeps k e j hAt hIndex)]

/-- A dimension that is taken to its end stays so. -/
theorem end_stays {es : List Dimension} {mentions : List Mention} (hTaken : Taken es mentions)
    (hSent : ∀ mention ∈ mentions, mention.1 = true) {k : Nat} {e : Dimension} (hAt : es[k]? = some e)
    (hEnd : e.stop = e.size - 1) :
    ∃ e', (mentions.foldl constrainedByAll es)[k]? = some e' ∧ e'.stop = e.size - 1 := by
  induction mentions generalizing es e with
  | nil => exact ⟨e, hAt, hEnd⟩
  | cons mention mentions ih =>
    obtain ⟨hTakes, hTaken⟩ := hTaken
    obtain ⟨j, hIndex, hTake⟩ := index_at hTakes hAt
    obtain ⟨_, hStop, _⟩ := sameConstraint_iff.mp (hTake.same (hSent mention List.mem_cons_self))
    refine ih (e := constrainedBy e j) hTaken
      (fun m hm => hSent m (List.mem_cons_of_mem mention hm)) (constrained_at hAt hIndex) ?_
    change e.stopOf j.stop = e.size - 1
    rw [Dimension.stopOf]
    split
    · rfl
    · rename_i hNoStar
      rw [← hStop.resolve_right hNoStar, hEnd]

/-- Mentions of an array that was marked leave a constraint as it is exactly when none of them
widens it. -/
theorem inForce_eq_self_iff {es : List Dimension} {mentions : List Mention}
    (hSettled : ∀ e ∈ es, Settled e) (hTaken : Taken es mentions)
    (hSent : ∀ mention ∈ mentions, mention.1 = true) :
    mentions.foldl constrainedByAll es = es ↔ ∀ mention ∈ mentions, KeepsStops es mention.2 := by
  induction mentions with
  | nil => exact ⟨fun _ _ h => (nomatch h), fun _ => rfl⟩
  | cons mention mentions ih =>
    obtain ⟨hTakes, hRest⟩ := hTaken
    have hHead := hSent mention List.mem_cons_self
    have hTail : ∀ m ∈ mentions, m.1 = true := fun m hm => hSent m (List.mem_cons_of_mem mention hm)
    rw [hHead] at hTakes
    rw [List.foldl_cons, List.forall_mem_cons]
    by_cases hKeeps : KeepsStops es mention.2
    · have hSelf := (constrainedByAll_eq_self_iff hSettled hTakes).mpr hKeeps
      rw [hSelf] at hRest ⊢
      rw [ih hRest hTail]
      exact (and_iff_right hKeeps).symm
    · constructor
      · intro hEqual
        -- The first dimension that is widened is at its end from here on.
        exfalso
        apply hKeeps
        intro k e j hAt hIndex hStar
        have hWidened : (constrainedBy e j).stop = (constrainedBy e j).size - 1 := by
          change e.stopOf j.stop = e.size - 1
          rw [Dimension.stopOf, if_pos hStar]
        obtain ⟨e', hAt', hEnd⟩ := end_stays hRest hTail (constrained_at hAt hIndex) hWidened
        rw [hEqual, hAt] at hAt'
        cases hAt'
        exact hEnd
      · intro h
        exact absurd h.1 hKeeps

section
variable {V : Type} [DecidableEq V]

def mentionsOf (D : Dataset V) (t : V) (clauses : List ProjClause) (s : State V) : List Mention :=
  mentionsFrom (s.arrays t).sendP (actionsOf D t clauses)

theorem takes_unsent {sendP : Bool} {ds : List Dimension} {indices : List Index}
    (h : List.Forall₂ (Takes sendP) ds indices) : List.Forall₂ (Takes false) ds indices :=
  h.imp fun _ _ hTakes =>
    ⟨fun hSend => (nomatch hSend), hTakes.start_lt, hTakes.stop_lt, hTakes.stride_le, hTakes.stride_pos,
      hTakes.count_le⟩

/-- When an expression that mentions an array with indices is taken, the constraint in force is that
of the first mention exactly when the last mention denotes the same elements; and when the array was
marked before each later mention, exactly when none of these writes `*` for a dimension which the
first one does not take to its end. -/
theorem repeated_projection (D : Dataset V) (t : V) (clauses : List ProjClause) (s s' : State V)
    (first : Mention) (rest : List Mention)
    (hMaps : ∀ index, .constrainMap index ∈ actionsOf D t clauses → (s.arrays t).shape.length = 1)
    (hRun : projection D clauses s = .ok () s') (hMentions : mentionsOf D t clauses s = first :: rest) :
    ∃ alone, processArrayIndices first.2 { s.arrays t with sendP := false } = .ok () alone ∧
      ((s'.arrays t).shape = alone.shape ↔
        denoted (s.arrays t).shape ((first :: rest).getLast (List.cons_ne_nil _ _)).2 =
          denoted (s.arrays t).shape first.2) ∧
      ((∀ mention ∈ rest, mention.1 = true) →
        ((s'.arrays t).shape = alone.shape ↔
          ∀ mention ∈ rest, NoWidening (s.arrays t).shape first.2 mention.2)) := by
  obtain ⟨hTaken, hShape⟩ := perform_mentions hMaps (projection_views D t clauses s s' () hRun)
  rw [mentionsOf] at hMentions
  rw [hMentions] at hTaken hShape
  obtain ⟨alone, hAlone⟩ := processArrayIndices_of_takes
    (a := { s.arrays t with sendP := false }) (takes_unsent hTaken.1)
  have hAloneShape : alone.shape = constrainedByAll (s.arrays t).shape first :=
    (processArrayIndices_ok hAlone).2.shape_eq
  refine ⟨alone, hAlone, ?_, fun hSent => ?_⟩
  · rw [hShape, hAloneShape, inForce_eq_last hTaken, constrained_eq_iff]
  · rw [hShape, hAloneShape, List.foldl_cons,
      inForce_eq_self_iff (settled_constrainedByAll _ first) hTaken.2 hSent]
    apply forall₂_congr
    intro mention _
    exact (noWidening_iff mention.2 hTaken.1).symm

end

/-- A dataset with one vector of ten elements. -/
def oneVector : Dataset Unit :=
  ⟨fun n => if n = ['a'] then some () else none, fun _ => .array, fun _ => "a", fun _ => [()]⟩

def unmarked : State Unit := ⟨fun _ => ⟨"a", [⟨10, "x", 0, 9, 1, 10⟩], 10, false⟩, fun _ => ⟨-1, 1, -1⟩⟩

def twice (first second : Index) : List ProjClause :=
  [.arrayProjection (.indexed ['a'] [first]), .arrayProjection (.indexed ['a'] [second])]

/-- `a[0:3],a[0:3]` -/
theorem same_range_twice :
    ∃ s' alone, projection oneVector (twice ⟨0, 1, 3⟩ ⟨0, 1, 3⟩) unmarked = .ok () s' ∧
      processArrayIndices [⟨0, 1, 3⟩] (unmarked.arrays ()) = .ok () alone ∧
      (s'.arrays ()).shape = alone.shape := by
  obtain ⟨alone, hAlone, hIff, _⟩ := repeated_projection oneVector () (twice ⟨0, 1, 3⟩ ⟨0, 1, 3⟩)
    unmarked _ (false, [⟨0, 1, 3⟩]) [(true, [⟨0, 1, 3⟩])]
    (fun index hIn => by simp [actionsOf, twice, ProjClause.actions, ArrayProjClause.actions,
      Dataset.bracketActions, Dataset.markActions, oneVector] at hIn) rfl rfl
  exact ⟨_, alone, rfl, hAlone, hIff.mpr rfl⟩

/-- `a[0:3],a[0:*]` ends with all of the vector selected. -/
theorem widened_by_star :
    ∃ s' alone, projection oneVector (twice ⟨0, 1, 3⟩ ⟨0, 1, -1⟩) unmarked = .ok () s' ∧
      processArrayIndices [⟨0, 1, 3⟩] (unmarked.arrays ()) = .ok () alone ∧
      (s'.arrays ()).shape ≠ alone.shape := by
  refine ⟨_, _, rfl, rfl, ?_⟩
  decide

end Libdap.Constraint
