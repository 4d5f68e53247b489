import Libdap.Ppt.PPTConnection
import Mathlib.Data.List.Induction

/-! # The finder of the mark

`markCheck` takes one byte at a time and counts how much of the mark has come. The byte at which a match is given up is
not tried as the first of another one, nor are the bytes that came before it.
-/

namespace Libdap.Ppt
set_option autoImplicit false

/-- `PPTMarkFinder`, and `MarkFinder` of the server's front end. -/
structure MarkFinder (α : Type) where
  mark : List α
  markIndex : Nat

namespace MarkFinder

def PPTMarkFinder_Buffer_Size : Nat := 64

section
variable {α : Type} {mark : List α} {b : α} {i q : Nat}

theorem other_not_mark (hOther : mark[i]? ≠ some b) (hi : i < mark.length) (bs : List α) :
    ¬mark <+: mark.take i ++ b :: bs := by
  rintro ⟨more, hMore⟩
  have hAt : (mark ++ more)[i]? = (mark.take i ++ b :: bs)[i]? := congrArg (·[i]?) hMore
  rw [List.getElem?_append_left hi, List.getElem?_append_right (by rw [List.length_take]; omega),
    List.length_take_of_le (Nat.le_of_lt hi), Nat.sub_self] at hAt
  exact hOther hAt

/-- The text from a byte of the match on. -/
theorem drop_match {bs : List α} (hi : i < mark.length) (hq : q ≤ i) :
    (mark.take i ++ b :: bs).drop q = (mark.take i).drop q ++ b :: bs :=
  List.drop_append_of_le_length (by rw [List.length_take_of_le (Nat.le_of_lt hi)]; exact hq)

end

variable {α : Type}

/-- The constructor of `PPTMarkFinder`. -/
def ofMark (mark : List α) : Except PptFault (MarkFinder α) :=
  if PPTMarkFinder_Buffer_Size < mark.length then
    .error (besInternalError "mark given will overrun internal buffer.")
  else .ok ⟨mark, 0⟩

variable [DecidableEq α]

def markCheck (f : MarkFinder α) (b : α) : Bool × MarkFinder α :=
  if f.mark[f.markIndex]? = some b then
    if f.markIndex + 1 = f.mark.length then (true, { f with markIndex := 0 })
    else (false, { f with markIndex := f.markIndex + 1 })
  else (false, { f with markIndex := 0 })

/-- The answers for the bytes of a stream. -/
def answers (f : MarkFinder α) : List α → List Bool
  | [] => []
  | b :: bs => (f.markCheck b).1 :: (f.markCheck b).2.answers bs

/-- The finder behind the bytes of a stream. -/
def after (f : MarkFinder α) (bs : List α) : MarkFinder α := bs.foldl (fun f b => (f.markCheck b).2) f

/-- The bytes that end an occurrence, the occurrences taken from the left and none within another; of the one that goes
on, a number of bytes is still to come. -/
def leftmostEnds (mark : List α) : Nat → List α → List Bool
  | _, [] => []
  | 0, b :: bs =>
    if mark.isPrefixOf (b :: bs) then (mark.length = 1 : Bool) :: leftmostEnds mark (mark.length - 1) bs
    else false :: leftmostEnds mark 0 bs
  | left + 1, _ :: bs => (left = 0 : Bool) :: leftmostEnds mark left bs

attribute [local grind =] answers leftmostEnds

/-- A match is given up at the byte, and the mark begins behind the first byte of what is given up. -/
def Overlooks (f : MarkFinder α) (b : α) (bs : List α) : Prop :=
  f.mark[f.markIndex]? ≠ some b ∧
    ∃ q, 0 < q ∧ q ≤ f.markIndex ∧ f.mark <+: (f.mark.take f.markIndex).drop q ++ b :: bs

variable {mark bs rest : List α} {b : α} {i j q : Nat}

theorem answers_early (h : (answers ⟨mark, i⟩ bs)[j]? = some true) : mark.length ≤ i + j + 1 := by
  induction bs generalizing i j with
  | nil => cases h
  | cons b bs ih =>
    rw [answers, markCheck] at h
    dsimp only at h
    split at h
    · split at h
      · omega
      · cases j with
        | zero => cases h
        | succ j =>
          have hLess := ih h
          omega
    · cases j with
      | zero => cases h
      | succ j =>
        have hLess := ih h
        omega

theorem leftmostEnds_left {left : Nat} (h : (leftmostEnds mark left bs)[j]? = some true) :
    left ≤ j + 1 ∧ (left = 0 → mark.length ≤ j + 1) := by
  induction bs generalizing left j with
  | nil => cases left <;> cases h
  | cons b bs ih =>
    cases left with
    | zero =>
      refine ⟨Nat.zero_le _, fun _ => ?_⟩
      rw [leftmostEnds] at h
      split at h
      · cases j with
        | zero =>
          have hOne : mark.length = 1 := by simpa using h
          omega
        | succ j =>
          have hLess := (ih h).1
          omega
      · cases j with
        | zero => cases h
        | succ j =>
          have hLess := (ih h).2 rfl
          omega
    | succ left =>
      refine ⟨?_, nofun⟩
      rw [leftmostEnds] at h
      cases j with
      | zero =>
        have hNone : left = 0 := by simpa using h
        omega
      | succ j =>
        have hLess := (ih h).1
        omega

/-- No occurrence ends before a mark's length of bytes. -/
theorem leftmostEnds_early (h : (leftmostEnds mark 0 bs)[j]? = some true) : mark.length ≤ j + 1 :=
  (leftmostEnds_left h).2 rfl

theorem leftmostEnds_within (mark rest : List α) {k : Nat} (h : bs.length = k + 1) :
    leftmostEnds mark (k + 1) (bs ++ rest) = List.replicate k false ++ true :: leftmostEnds mark 0 rest := by
  induction k generalizing bs with
  | zero =>
    obtain ⟨b, rfl⟩ := List.length_eq_one_iff.mp h
    rfl
  | succ k ih =>
    obtain ⟨b, bs, rfl⟩ := List.exists_cons_of_length_eq_add_one h
    rw [List.cons_append, leftmostEnds, ih (Nat.succ.inj h)]
    rfl

/-- An occurrence. -/
theorem leftmostEnds_mark (hMark : mark ≠ []) (rest : List α) : leftmostEnds mark 0 (mark ++ rest) =
    List.replicate (mark.length - 1) false ++ true :: leftmostEnds mark 0 rest := by
  obtain ⟨b, bs, rfl⟩ := List.exists_cons_of_ne_nil hMark
  have hPrefix : (b :: bs).isPrefixOf (b :: (bs ++ rest)) = true :=
    List.isPrefixOf_iff_prefix.mpr (List.prefix_append (b :: bs) rest)
  rw [List.cons_append, leftmostEnds, if_pos hPrefix, List.length_cons, Nat.add_sub_cancel]
  cases hLength : bs.length with
  | zero =>
    rw [List.length_eq_zero_iff.mp hLength]
    rfl
  | succ k =>
    rw [leftmostEnds_within _ rest hLength]
    rfl

/-- Bytes at which no occurrence begins. -/
theorem leftmostEnds_none (h : ∀ q < bs.length, ¬mark <+: bs.drop q ++ rest) :
    leftmostEnds mark 0 (bs ++ rest) = List.replicate bs.length false ++ leftmostEnds mark 0 rest := by
  induction bs with
  | nil => rfl
  | cons b bs ih =>
    have hFirst : ¬mark.isPrefixOf (b :: (bs ++ rest)) = true := fun hPrefix =>
      h 0 (Nat.succ_pos _) (List.isPrefixOf_iff_prefix.mp hPrefix)
    rw [List.cons_append, leftmostEnds, if_neg hFirst, ih fun q hq => h (q + 1) (Nat.succ_lt_succ hq)]
    rfl

/-! ## The steps of a match -/

theorem markCheck_next (h : mark[i]? = some b) (hMore : i + 1 ≠ mark.length) :
    markCheck ⟨mark, i⟩ b = (false, ⟨mark, i + 1⟩) := by
  rw [markCheck, if_pos h, if_neg hMore]

theorem markCheck_last (h : mark[i]? = some b) (hLast : i + 1 = mark.length) :
    markCheck ⟨mark, i⟩ b = (true, ⟨mark, 0⟩) := by
  rw [markCheck, if_pos h, if_pos hLast]

theorem markCheck_other (h : mark[i]? ≠ some b) : markCheck ⟨mark, i⟩ b = (false, ⟨mark, 0⟩) := by
  rw [markCheck, if_neg h]

/-- The splits of a stream, at its first byte or behind. -/
theorem overlooks_cons {f : MarkFinder α} : (∀ pre c post, b :: bs = pre ++ c :: post →
    ¬(f.after pre).Overlooks c post) ↔
    ¬f.Overlooks b bs ∧ ∀ pre c post, bs = pre ++ c :: post → ¬((f.markCheck b).2.after pre).Overlooks c post := by
  constructor
  · intro h
    exact ⟨h [] b bs rfl, fun pre c post hSplit => h (b :: pre) c post (congrArg (b :: ·) hSplit)⟩
  · rintro ⟨hFirst, hRest⟩ (_ | ⟨d, pre⟩) c post hSplit
    · cases hSplit
      exact hFirst
    · obtain ⟨hHead, hTail⟩ := List.cons.inj hSplit
      subst hHead
      exact hRest pre c post hTail

@[simp] theorem length_leftmostEnds (mark : List α) (left : Nat) (bs : List α) :
    (leftmostEnds mark left bs).length = bs.length := by
  induction bs generalizing left with
  | nil => cases left <;> rfl
  | cons b bs ih =>
    cases left with
    | zero =>
      rw [leftmostEnds]
      split
      · rw [List.length_cons, ih, List.length_cons]
      · rw [List.length_cons, ih, List.length_cons]
    | succ left => rw [leftmostEnds, List.length_cons, ih, List.length_cons]

/-- What is given up without an occurrence in it. -/
theorem given_up (hOther : mark[i]? ≠ some b) (hFree : ¬Overlooks ⟨mark, i⟩ b bs) (hi : i < mark.length) :
    (leftmostEnds mark 0 (mark.take i ++ b :: bs)).drop i = false :: leftmostEnds mark 0 bs := by
  have hLength : (mark.take i ++ [b]).length = i + 1 := by
    rw [List.length_append, List.length_take_of_le (Nat.le_of_lt hi), List.length_singleton]
  have hText : mark.take i ++ b :: bs = mark.take i ++ [b] ++ bs := by rw [List.append_assoc, List.singleton_append]
  have hNone : ∀ q < (mark.take i ++ [b]).length, ¬mark <+: (mark.take i ++ [b]).drop q ++ bs := by
    intro q hq hPrefix
    rw [← List.drop_append_of_le_length (Nat.le_of_lt hq), ← hText] at hPrefix
    rw [hLength] at hq
    rcases Nat.eq_zero_or_pos q with rfl | hPos
    · exact other_not_mark hOther hi bs hPrefix
    · rw [drop_match hi (Nat.lt_succ_iff.mp hq)] at hPrefix
      exact hFree ⟨hOther, q, hPos, Nat.lt_succ_iff.mp hq, hPrefix⟩
  rw [hText, leftmostEnds_none hNone, hLength, List.drop_append_of_le_length (by rw [List.length_replicate]; omega),
    List.drop_replicate, Nat.add_sub_cancel_left]
  rfl

/-- What is given up with an occurrence in it: the answers miss the end of the first one. -/
theorem overlooked (h : Overlooks ⟨mark, i⟩ b bs) (hi : i < mark.length) :
    answers ⟨mark, i⟩ (b :: bs) ≠ (leftmostEnds mark 0 (mark.take i ++ b :: bs)).drop i := by
  classical
  obtain ⟨hOther, hOccurs⟩ := h
  obtain ⟨q, ⟨hPos, hq, more, hMore⟩, hLeast⟩ : ∃ q, (0 < q ∧ q ≤ i ∧ mark <+: (mark.take i).drop q ++ b :: bs) ∧
      ∀ p < q, ¬(0 < p ∧ p ≤ i ∧ mark <+: (mark.take i).drop p ++ b :: bs) :=
    ⟨Nat.find hOccurs, Nat.find_spec hOccurs, fun p hp => Nat.find_min hOccurs hp⟩
  have hBefore : ∀ p < q, ¬mark <+: (mark.take i ++ b :: bs).drop p := by
    intro p hp hPrefix
    rcases Nat.eq_zero_or_pos p with rfl | hPosP
    · exact other_not_mark hOther hi bs hPrefix
    · rw [drop_match hi (by omega)] at hPrefix
      exact hLeast p hp ⟨hPosP, by omega, hPrefix⟩
  have hLong : q ≤ (mark.take i ++ b :: bs).length := by
    rw [List.length_append, List.length_take_of_le (Nat.le_of_lt hi)]
    omega
  have hTaken : ((mark.take i ++ b :: bs).take q).length = q := List.length_take_of_le hLong
  have hNone : ∀ p < ((mark.take i ++ b :: bs).take q).length,
      ¬mark <+: ((mark.take i ++ b :: bs).take q).drop p ++ (mark.take i ++ b :: bs).drop q := by
    intro p hp hPrefix
    rw [← List.drop_append_of_le_length (Nat.le_of_lt hp), List.take_append_drop] at hPrefix
    rw [hTaken] at hp
    exact hBefore p hp hPrefix
  have hEnds := leftmostEnds_none hNone
  rw [List.take_append_drop, hTaken, drop_match hi hq, ← hMore,
    leftmostEnds_mark (List.ne_nil_of_length_pos (by omega))] at hEnds
  intro hEq
  have hAt : (answers ⟨mark, i⟩ (b :: bs))[q + (mark.length - 1) - i]? = some true := by
    rw [hEq, List.getElem?_drop, hEnds, show i + (q + (mark.length - 1) - i) = q + (mark.length - 1) by omega,
      List.getElem?_append_right (by rw [List.length_replicate]; omega), List.length_replicate,
      Nat.add_sub_cancel_left, List.getElem?_append_right (by rw [List.length_replicate]), List.length_replicate,
      Nat.sub_self]
    rfl
  rw [answers, markCheck_other hOther, show q + (mark.length - 1) - i = q + (mark.length - 1) - i - 1 + 1 by omega,
    List.getElem?_cons_succ] at hAt
  have hEarly : mark.length ≤ 0 + (q + (mark.length - 1) - i - 1) + 1 := answers_early hAt
  omega

theorem answers_iff (hi : i < mark.length) : answers ⟨mark, i⟩ bs = (leftmostEnds mark 0 (mark.take i ++ bs)).drop i ↔
    ∀ pre b post, bs = pre ++ b :: post → ¬(after ⟨mark, i⟩ pre).Overlooks b post := by
  induction bs generalizing i with
  | nil =>
    have hLength : (leftmostEnds mark 0 (mark.take i ++ [])).length ≤ i := by
      rw [length_leftmostEnds, List.append_nil]
      exact List.length_take_le i mark
    rw [List.drop_eq_nil_of_le hLength]
    exact iff_of_true rfl fun pre b post hSplit => by cases pre <;> cases hSplit
  | cons b bs ih =>
    have hFresh : 0 < mark.length := Nat.lt_of_le_of_lt (Nat.zero_le i) hi
    have hStart := ih hFresh
    rw [List.take_zero, List.nil_append, List.drop_zero] at hStart
    rw [overlooks_cons, answers]
    by_cases hByte : mark[i]? = some b
    · have hKept : ¬Overlooks ⟨mark, i⟩ b bs := fun h => h.1 hByte
      have hTake : mark.take i ++ [b] = mark.take (i + 1) := by
        rw [List.take_add_one, hByte]
        rfl
      have hText : mark.take i ++ b :: bs = mark.take (i + 1) ++ bs := by
        rw [← hTake, List.append_assoc, List.singleton_append]
      rw [and_iff_right hKept, hText]
      by_cases hLast : i + 1 = mark.length
      · have hWhole : mark.take (i + 1) = mark := List.take_of_length_le (Nat.le_of_eq hLast.symm)
        rw [markCheck_last hByte hLast, hWhole, leftmostEnds_mark (List.ne_nil_of_length_pos hFresh), ← hLast,
          Nat.add_sub_cancel, List.drop_left' List.length_replicate, List.cons.injEq]
        exact (and_iff_right rfl).trans hStart
      · have hMore : i + 1 < mark.length := by omega
        have hInside : i < (leftmostEnds mark 0 (mark.take (i + 1) ++ bs)).length := by
          rw [length_leftmostEnds, List.length_append, List.length_take_of_le (Nat.le_of_lt hMore)]
          omega
        have hSilent : (leftmostEnds mark 0 (mark.take (i + 1) ++ bs))[i] = false := by
          by_contra hTrue
          have hEarly := leftmostEnds_early (List.getElem?_eq_some_iff.mpr
              ⟨hInside, Bool.eq_true_of_not_eq_false hTrue⟩)
          omega
        rw [markCheck_next hByte hLast, List.drop_eq_getElem_cons hInside, hSilent, List.cons.injEq]
        exact (and_iff_right rfl).trans (ih hMore)
    · rw [markCheck_other hByte]
      by_cases hFree : Overlooks ⟨mark, i⟩ b bs
      · have hWrong := overlooked hFree hi
        rw [answers, markCheck_other hByte] at hWrong
        exact iff_of_false hWrong fun h => h.1 hFree
      · rw [given_up hByte hFree hi, List.cons.injEq, and_iff_right hFree]
        exact (and_iff_right rfl).trans hStart

theorem right_iff (hMark : mark ≠ []) : answers ⟨mark, 0⟩ bs = leftmostEnds mark 0 bs ↔
    ∀ pre b post, bs = pre ++ b :: post → ¬(after ⟨mark, 0⟩ pre).Overlooks b post := by
  have hIff := @answers_iff α _ mark bs 0 (List.length_pos_iff.mpr hMark)
  rw [List.take_zero, List.nil_append, List.drop_zero] at hIff
  exact hIff

/-- The answers are right unless a match is given up behind whose first byte the mark begins. -/
theorem ends_found_iff (mark stream : List α) (hMark : mark ≠ []) :
    (mark.length ≤ PPTMarkFinder_Buffer_Size → ofMark mark = .ok ⟨mark, 0⟩) ∧
      (answers ⟨mark, 0⟩ stream = leftmostEnds mark 0 stream ↔
        ∀ pre b post, stream = pre ++ b :: post → ¬(after ⟨mark, 0⟩ pre).Overlooks b post) :=
  ⟨fun hBuffer => if_neg (Nat.not_lt.mpr hBuffer), right_iff hMark⟩

def PPT_COMPLETE_DATA_TRANSMITION : List Char := "PPT_COMPLETE_DATA_TRANSMITION".toList

/-- Data that end with the first character of the mark. -/
theorem mark_missed :
    answers ⟨PPT_COMPLETE_DATA_TRANSMITION, 0⟩ ('P' :: PPT_COMPLETE_DATA_TRANSMITION) = List.replicate 30 false ∧
      leftmostEnds PPT_COMPLETE_DATA_TRANSMITION 0 ('P' :: PPT_COMPLETE_DATA_TRANSMITION) =
        List.replicate 29 false ++ [true] := by
  decide

/-- The mark by itself. -/
theorem mark_found : PPT_COMPLETE_DATA_TRANSMITION ≠ [] ∧ ∀ pre b post, PPT_COMPLETE_DATA_TRANSMITION = pre ++
    b :: post →
    ¬(after ⟨PPT_COMPLETE_DATA_TRANSMITION, 0⟩ pre).Overlooks b post := by
  have hMark : PPT_COMPLETE_DATA_TRANSMITION ≠ [] := by decide
  exact ⟨hMark, (ends_found_iff PPT_COMPLETE_DATA_TRANSMITION PPT_COMPLETE_DATA_TRANSMITION hMark).2.mp (by decide)⟩

theorem after_keeps {f : MarkFinder α} (h : f.markIndex < f.mark.length) (pre : List α) :
    (f.after pre).mark = f.mark ∧ (f.after pre).markIndex < f.mark.length := by
  induction pre generalizing f with
  | nil => exact ⟨rfl, h⟩
  | cons b pre ih =>
    have hStep : (f.markCheck b).2.mark = f.mark ∧ (f.markCheck b).2.markIndex < f.mark.length := by
      rw [markCheck]
      split
      · split
        · exact ⟨rfl, Nat.lt_of_le_of_lt (Nat.zero_le _) h⟩
        · exact ⟨rfl, by dsimp only; omega⟩
      · exact ⟨rfl, Nat.lt_of_le_of_lt (Nat.zero_le _) h⟩
    obtain ⟨hMark, hIndex⟩ := ih (f := (f.markCheck b).2) (by rw [hStep.1]; exact hStep.2)
    exact ⟨hMark.trans hStep.1, hStep.1 ▸ hIndex⟩

/-- The beginning of the mark, as far as it is. -/
theorem after_prefix (h : bs ++ b :: rest = mark) : after ⟨mark, 0⟩ bs = ⟨mark, bs.length⟩ := by
  induction bs using List.reverseRec generalizing b rest with
  | nil => rfl
  | append_singleton bs c ih =>
    rw [List.append_assoc, List.singleton_append] at h
    have hAt : mark[bs.length]? = some c := by
      rw [← h, List.getElem?_append_right (Nat.le_refl _), Nat.sub_self]
      rfl
    have hShort : bs.length + 1 ≠ mark.length := by
      rw [← h, List.length_append, List.length_cons, List.length_cons]
      omega
    have hBefore : List.foldl (fun (f : MarkFinder α) b => (f.markCheck b).2) ⟨mark, 0⟩ bs = ⟨mark, bs.length⟩ := ih h
    rw [after, List.foldl_append, hBefore, List.foldl_cons, List.foldl_nil, markCheck_next hAt hShort,
      List.length_append, List.length_singleton]

omit [DecidableEq α] in
theorem exists_other {first : α} {more : List α} (h : ¬∀ b ∈ more, b = first) :
    ∃ k c post, more = List.replicate k first ++ c :: post ∧ c ≠ first := by
  induction more with
  | nil => exact absurd (fun b hb => absurd hb List.not_mem_nil) h
  | cons b more ih =>
    by_cases hFirst : b = first
    · obtain ⟨k, c, post, rfl, hc⟩ := ih fun hAll => h (List.forall_mem_cons.mpr ⟨hFirst, hAll⟩)
      exact ⟨k + 1, c, post, by rw [hFirst, List.replicate_succ, List.cons_append], hc⟩
    · exact ⟨0, b, more, rfl, hFirst⟩

/-- A mark is found in every stream when all its bytes are the same, and only then. -/
theorem every_stream_iff (first : α) (more : List α) :
    (∀ stream, answers ⟨first :: more, 0⟩ stream = leftmostEnds (first :: more) 0 stream) ↔ ∀ b ∈ more, b = first := by
  have hRight (stream : List α) := @right_iff α _ _ stream (List.cons_ne_nil first more)
  constructor
  · intro h
    by_contra hOther
    obtain ⟨k, c, post, rfl, hc⟩ := exists_other hOther
    have hMark : List.replicate (k + 1) first ++ c :: post = first :: (List.replicate k first ++ c :: post) := by
      rw [List.replicate_succ, List.cons_append]
    have hState := after_prefix hMark
    rw [List.length_replicate] at hState
    -- one byte more than the mark begins with
    refine (hRight (List.replicate (k + 1) first ++ first :: c :: post)).mp (h _) _ _ _ rfl ?_
    rw [hState, ← hMark]
    refine ⟨?_, 1, Nat.one_pos, Nat.succ_pos k, ?_⟩
    · dsimp only
      rw [List.getElem?_append_right (Nat.le_of_eq List.length_replicate), List.length_replicate, Nat.sub_self]
      exact fun hEq => hc (Option.some.inj hEq)
    · dsimp only
      have hSame : List.replicate k first ++ first :: c :: post = List.replicate (k + 1) first ++ c :: post := by
        rw [List.append_cons, ← List.replicate_succ']
      rw [List.take_left' List.length_replicate, List.drop_replicate, Nat.add_sub_cancel]
      exact hSame ▸ List.prefix_refl _
  · intro hSame stream
    refine (hRight stream).mpr ?_
    rintro pre b post - ⟨hByte, q, hPos, hq, more', hMore⟩
    obtain ⟨hMark, hIndex⟩ := after_keeps (f := ⟨first :: more, 0⟩) (Nat.succ_pos _) pre
    rw [hMark] at hByte hMore
    generalize hi : (after ⟨first :: more, 0⟩ pre).markIndex = i at hByte hMore hIndex hq
    have hAll : ∀ d ∈ first :: more, d = first := List.forall_mem_cons.mpr ⟨rfl, hSame⟩
    have hShort : i - q < (first :: more).length := by
      dsimp only at hIndex
      omega
    have hAt : (first :: more ++ more')[i - q]? = some b := by
      have hPlace : (((first :: more).take i).drop q).length = i - q := by
        rw [List.length_drop, List.length_take_of_le (Nat.le_of_lt hIndex)]
      refine (congrArg (·[i - q]?) hMore).trans ?_
      dsimp only
      rw [List.getElem?_append_right (Nat.le_of_eq hPlace), hPlace, Nat.sub_self]
      rfl
    rw [List.getElem?_append_left hShort] at hAt
    obtain rfl := hAll b (List.mem_of_getElem? hAt)
    refine hByte ?_
    dsimp only at hIndex ⊢
    rw [List.getElem?_eq_getElem hIndex]
    exact congrArg some (hAll _ (List.getElem_mem hIndex))

end MarkFinder

end Libdap.Ppt
