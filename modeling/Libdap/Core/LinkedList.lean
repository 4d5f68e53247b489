import Mathlib.Data.List.Nodup
import Mathlib.Data.List.Perm.Subperm
import Libdap.Core.Store

/-! # Linked lists

Each object on a heap has a link to the next one. A chain is what the links lead through from the first one up to the
null link, with the place of each object.
-/

namespace Libdap.Core
set_option autoImplicit false

variable {ν : Type}

/-- The objects from the link `p` up to the link `q`. -/
def Segment (link : ν → Option Nat) (s : Store ν) : Option Nat → List (Nat × ν) → Option Nat → Prop
  | p, [], q => p = q
  | p, (r, x) :: nodes, q => p = some r ∧ s.cell r = some x ∧ Segment link s (link x) nodes q

/-- The loop that goes on from `p` to the first object at which `stop` holds, and gives the place before it too. It ends
within as many rounds as there are objects. -/
def seek (link : ν → Option Nat) (stop : ν → Bool) (s : Store ν) :
    Nat → Option Nat → Option Nat → Option (Option Nat × Option (Nat × ν))
  | _, last, none => some (last, none)
  | 0, _, some _ => none
  | n + 1, last, some r =>
    match s.cell r with
    | none => none
    | some x => if stop x then some (last, some (r, x)) else seek link stop s n (some r) (link x)

variable {link : ν → Option Nat} {s s' : Store ν} {p q last : Option Nat} {nodes before after : List (Nat × ν)}
  {r t : Nat}
  {x w y : ν} {f : ν → ν} {stop : ν → Bool}

theorem segment_append :
    Segment link s p (before ++ after) q ↔ ∃ m, Segment link s p before m ∧ Segment link s m after q := by
  induction before generalizing p with
  | nil =>
    constructor
    · exact fun h => ⟨p, rfl, h⟩
    · rintro ⟨m, rfl, h⟩
      exact h
  | cons e before ih =>
    rw [List.cons_append, Segment, ih]
    constructor
    · rintro ⟨hPlace, hCell, m, hBefore, hAfter⟩
      exact ⟨m, ⟨hPlace, hCell, hBefore⟩, hAfter⟩
    · rintro ⟨m, ⟨hPlace, hCell, hBefore⟩, hAfter⟩
      exact ⟨hPlace, hCell, m, hBefore, hAfter⟩

theorem Segment.live (h : Segment link s p nodes q) : ∀ e ∈ nodes, s.cell e.1 = some e.2 := by
  induction nodes generalizing p with
  | nil => exact fun e he => absurd he List.not_mem_nil
  | cons e nodes ih =>
    obtain ⟨-, hCell, hRest⟩ := h
    exact List.forall_mem_cons.mpr ⟨hCell, ih hRest⟩

/-- Other objects do not matter. -/
theorem Segment.congr (h : Segment link s p nodes q) (hSame : ∀ e ∈ nodes, s'.cell e.1 = s.cell e.1) :
    Segment link s' p nodes q := by
  induction nodes generalizing p with
  | nil => exact h
  | cons e nodes ih =>
    obtain ⟨hPlace, hCell, hRest⟩ := h
    obtain ⟨hFirst, hOthers⟩ := List.forall_mem_cons.mp hSame
    exact ⟨hPlace, hFirst.trans hCell, ih hRest hOthers⟩

structure Chain (link : ν → Option Nat) (s : Store ν) (p : Option Nat) (nodes : List (Nat × ν)) : Prop where
  segment : Segment link s p nodes none
  once : (nodes.map Prod.fst).Nodup

namespace Chain

theorem length_le (h : Chain link s p nodes) : nodes.length ≤ s.next := by
  have hSubset : nodes.map Prod.fst ⊆ List.range s.next := by
    intro r hr
    obtain ⟨e, he, rfl⟩ := List.mem_map.mp hr
    exact List.mem_range.mpr (Store.lt_next (h.segment.live e he))
  have hLength := (h.once.subperm hSubset).length_le
  rwa [List.length_map, List.length_range] at hLength

/-- The places before and behind an object are other ones. -/
theorem apart (h : Chain link s p (before ++ (r, x) :: after)) :
    (∀ e ∈ before, e.1 ≠ r) ∧ ∀ e ∈ after, e.1 ≠ r := by
  have hOnce := h.once
  rw [List.map_append, List.map_cons, List.nodup_append, List.nodup_cons] at hOnce
  obtain ⟨-, ⟨hAfter, -⟩, hBefore⟩ := hOnce
  constructor
  · intro e he
    exact hBefore e.1 (List.mem_map_of_mem he) r List.mem_cons_self
  · intro e he hSame
    exact hAfter (List.mem_map.mpr ⟨e, he, hSame⟩)

theorem nil : Chain link s none [] := ⟨rfl, List.nodup_nil⟩

theorem single (hEnd : link y = none) : Chain link (s.alloc y) (some s.next) [(s.next, y)] :=
  ⟨⟨rfl, Store.alloc_self y, hEnd⟩, List.nodup_singleton _⟩

theorem modify (h : Chain link s p (before ++ (r, x) :: after)) (hLink : link (f x) = link x) :
    Chain link (s.modify r f) p (before ++ (r, f x) :: after) := by
  obtain ⟨hBefore, hAfter⟩ := h.apart
  have hOnce := h.once
  obtain ⟨m, hFront, hPlace, hCell, hBack⟩ := segment_append.mp h.segment
  refine ⟨segment_append.mpr ⟨m, ?_, hPlace, Store.modify_self f hCell, ?_⟩, ?_⟩
  · exact hFront.congr fun e he => Store.modify_of_ne f (hBefore e he)
  · rw [hLink]
    exact hBack.congr fun e he => Store.modify_of_ne f (hAfter e he)
  · rw [List.map_append] at hOnce ⊢
    exact hOnce

/-- A new object behind the last one. -/
theorem push (h : Chain link s p (before ++ [(r, x)])) (hEnd : link y = none) (hLink : link (f x) = some s.next) :
    Chain link ((s.alloc y).modify r f) p (before ++ [(r, f x), (s.next, y)]) := by
  obtain ⟨hBefore, -⟩ := h.apart
  have hLive := h.segment.live
  obtain ⟨m, hFront, hPlace, hCell, -⟩ := segment_append.mp h.segment
  have hOther : r ≠ s.next := Store.ne_next hCell
  refine ⟨segment_append.mpr ⟨m, ?_, hPlace, Store.modify_self f (Store.alloc_of_live y hCell), hLink, ?_, hEnd⟩, ?_⟩
  · refine hFront.congr fun e he => ?_
    rw [Store.modify_of_ne f (hBefore e he), Store.alloc_of_ne y]
    exact Store.ne_next (hLive e (List.mem_append_left _ he))
  · rw [Store.modify_of_ne f hOther.symm, Store.alloc_self]
  · have hOnce := h.once
    rw [show before ++ [(r, f x), (s.next, y)] = (before ++ [(r, f x)]) ++ [(s.next, y)] by simp, List.map_append,
      List.nodup_append]
    refine ⟨?_, List.nodup_singleton _, ?_⟩
    · rw [List.map_append] at hOnce ⊢
      exact hOnce
    · intro a ha b hb
      rw [List.mem_singleton.mp hb]
      rw [List.map_append, List.mem_append] at ha
      rcases ha with ha | ha
      · obtain ⟨e, he, rfl⟩ := List.mem_map.mp ha
        exact Store.ne_next (hLive e (List.mem_append_left _ he))
      · rw [List.mem_singleton.mp ha]
        exact hOther

theorem removeFirst (h : Chain link s p ((r, x) :: after)) : Chain link (s.free r) (link x) after := by
  have hSplit : Chain link s p ([] ++ (r, x) :: after) := h
  have hAfter := hSplit.apart.2
  obtain ⟨-, -, hBack⟩ := h.segment
  exact ⟨hBack.congr fun e he => Store.free_of_ne (hAfter e he), (List.nodup_cons.mp h.once).2⟩

/-- The object before takes the link of the one that is freed. -/
theorem remove (h : Chain link s p (before ++ (t, w) :: (r, x) :: after)) (hLink : link (f w) = link x) :
    Chain link ((s.modify t f).free r) p (before ++ (t, f w) :: after) := by
  obtain ⟨hBefore, hBehind⟩ := h.apart
  have hSplit : before ++ (t, w) :: (r, x) :: after = (before ++ [(t, w)]) ++ (r, x) :: after := by simp
  have hSplit' := h
  rw [hSplit] at hSplit'
  obtain ⟨hFront, hBack⟩ := hSplit'.apart
  have hOther : t ≠ r := hFront (t, w) (by simp)
  obtain ⟨m, hSegment, hPlace, hCell, -, -, hRest⟩ := segment_append.mp h.segment
  refine ⟨segment_append.mpr ⟨m, ?_, hPlace, ?_, ?_⟩, ?_⟩
  · refine hSegment.congr fun e he => ?_
    rw [Store.free_of_ne (hFront e (List.mem_append_left _ he)), Store.modify_of_ne f (hBefore e he)]
  · rw [Store.free_of_ne hOther, Store.modify_self f hCell]
  · rw [hLink]
    refine hRest.congr fun e he => ?_
    rw [Store.free_of_ne (hBack e he), Store.modify_of_ne f (hBehind e (List.mem_cons_of_mem _ he))]
  · refine h.once.sublist ?_
    rw [List.map_append, List.map_append]
    exact (List.Sublist.refl _).append ((List.sublist_cons_self _ _).cons_cons _)

/-! ## The loop -/

/-- The place of the last of some objects. -/
def lastPlace (last : Option Nat) (nodes : List (Nat × ν)) : Option Nat := (nodes.getLast?.map Prod.fst).or last

theorem seek_segment (h : Segment link s p before q) (hPassed : ∀ e ∈ before, stop e.2 = false) (n : Nat) :
    seek link stop s (before.length + n) last p = seek link stop s n (lastPlace last before) q := by
  induction before generalizing p last with
  | nil =>
    cases h
    rw [List.length_nil, Nat.zero_add]
    rfl
  | cons e before ih =>
    obtain ⟨rfl, hCell, hRest⟩ := h
    obtain ⟨hFirst, hOthers⟩ := List.forall_mem_cons.mp hPassed
    rw [List.length_cons, show before.length + 1 + n = before.length + n + 1 by omega, seek, hCell]
    dsimp only
    rw [hFirst, if_neg Bool.false_ne_true, ih hRest hOthers]
    congr 1
    rw [lastPlace, lastPlace, List.getLast?_cons]
    cases before.getLast? <;> rfl

theorem seek_found (h : Chain link s p (before ++ (r, x) :: after)) (hPassed : ∀ e ∈ before, stop e.2 = false)
    (hStop : stop x = true) : seek link stop s s.next none p = some (lastPlace none before, some (r, x)) := by
  have hLength := h.length_le
  rw [List.length_append, List.length_cons] at hLength
  obtain ⟨m, hBefore, rfl, hCell, -⟩ := segment_append.mp h.segment
  have hRounds : s.next = before.length + (s.next - before.length - 1 + 1) := by omega
  rw [hRounds, seek_segment hBefore hPassed, seek, hCell]
  dsimp only
  rw [if_pos hStop]

theorem seek_none (h : Chain link s p nodes) (hPassed : ∀ e ∈ nodes, stop e.2 = false) :
    seek link stop s s.next none p = some (lastPlace none nodes, none) := by
  have hLength := h.length_le
  have hRounds : s.next = nodes.length + (s.next - nodes.length) := by omega
  rw [hRounds, seek_segment h.segment hPassed, seek]

/-- The loop passes all objects, or it ends at the first one at which `stop` holds. -/
theorem seek_cases (h : Chain link s p nodes) (stop : ν → Bool) :
    ((∀ e ∈ nodes, stop e.2 = false) ∧ seek link stop s s.next none p = some (lastPlace none nodes, none)) ∨
      ∃ before r x after, nodes = before ++ (r, x) :: after ∧ (∀ e ∈ before, stop e.2 = false) ∧ stop x = true ∧
        seek link stop s s.next none p = some (lastPlace none before, some (r, x)) := by
  cases hFind : nodes.find? fun e => stop e.2 with
  | none =>
    have hPassed : ∀ e ∈ nodes, stop e.2 = false := fun e he => by
      simpa using List.find?_eq_none.mp hFind e he
    exact .inl ⟨hPassed, h.seek_none hPassed⟩
  | some e =>
    obtain ⟨hStop, before, after, rfl, hPassed⟩ := List.find?_eq_some_iff_append.mp hFind
    have hBefore : ∀ e ∈ before, stop e.2 = false := fun e he => by simpa using hPassed e he
    exact .inr ⟨before, e.1, e.2, after, rfl, hBefore, hStop, h.seek_found hBefore hStop⟩

end Chain

end Libdap.Core
