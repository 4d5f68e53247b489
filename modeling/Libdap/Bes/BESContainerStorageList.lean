import Mathlib.Data.List.Induction
import Libdap.Constraint.Word
import Libdap.Core.Call
import Libdap.Core.LinkedList

/-! # The list of container stores

Modules reference a store by its name, and the last one to dereference it deletes it. The list keeps the stores in the
order in which they were added, each with the number of its references, as long as that number fits an `unsigned int`.
-/

namespace Libdap.Bes
open Core Constraint
set_option autoImplicit false

/-- A node of the list. -/
structure PersistenceList (σ : Type) where
  persistenceObj : σ
  reference : BitVec 32
  next : Option Nat

/-- `deleted` are the stores that have been deleted. -/
structure BESContainerStorageList (σ : Type) where
  nodes : Store (PersistenceList σ)
  first : Option Nat
  deleted : List σ

inductive PersistenceCall (σ : Type)
  | add (cp : σ)
  | ref (persistName : Word)
  | deref (persistName : Word)

namespace BESContainerStorageList

variable {σ : Type}

def empty : BESContainerStorageList σ := ⟨.empty, none, []⟩

variable (getName : σ → Word)

def named (persistName : Word) (pl : PersistenceList σ) : Bool := getName pl.persistenceObj == persistName

/-- The node for which the loops over the list stop, and the one before it. -/
def search (stop : PersistenceList σ → Bool) :
    Call (BESContainerStorageList σ) (Option Nat × Option (Nat × PersistenceList σ)) := do
  let l ← get
  match seek PersistenceList.next stop l.nodes l.nodes.next none l.first with
  | none => throw .undefined
  | some found => pure found

def addPersistence (cp : σ) : Call (BESContainerStorageList σ) Bool := do
  match ← search (named getName (getName cp)) with
  | (_, some _) => pure false
  | (none, none) =>
    -- the list is empty
    modify fun l => { l with nodes := l.nodes.alloc ⟨cp, 1, none⟩, first := some l.nodes.next }
    pure true
  | (some pl, none) =>
    modify fun l => { l with
      nodes := (l.nodes.alloc ⟨cp, 1, none⟩).modify pl fun x => { x with next := some l.nodes.next } }
    pure true

def refPersistence (persistName : Word) : Call (BESContainerStorageList σ) Bool := do
  match ← search (named getName persistName) with
  | (_, some (pl, _)) =>
    modify fun l => { l with nodes := l.nodes.modify pl fun x => { x with reference := x.reference + 1 } }
    pure true
  | (_, none) => pure false

/-- The node is taken out of the list. -/
def unlink (pl : Nat) (x : PersistenceList σ) (last : Option Nat) : Call (BESContainerStorageList σ) Unit := do
  if (← get).first = some pl then
    modify fun l => { l with first := x.next }
  else match last with
    | none => throw (.InternalErr "ContainerStorageList last is null")
    | some last => modify fun l => { l with nodes := l.nodes.modify last fun y => { y with next := x.next } }

def derefPersistence (persistName : Word) : Call (BESContainerStorageList σ) Bool := do
  match ← search (named getName persistName) with
  | (last, some (pl, x)) =>
    modify fun l => { l with nodes := l.nodes.modify pl fun x => { x with reference := x.reference - 1 } }
    if x.reference - 1 = 0 then
      unlink pl x last
      modify fun l => { l with nodes := l.nodes.free pl, deleted := l.deleted ++ [x.persistenceObj] }
    pure true
  | (_, none) => pure false

def findPersistence (persistName : Word) : Call (BESContainerStorageList σ) (Option σ) := do
  match ← search (named getName persistName) with
  | (_, some (_, x)) => pure (some x.persistenceObj)
  | (_, none) => pure none

/-- A `BESSyntaxUserError` is an `Error` here; the log is left out. -/
def lookFor {γ : Type} (look : σ → Word → Option γ) (isnice : Bool) (symName : Word) :
    Call (BESContainerStorageList σ) (Option γ) := do
  match ← search fun x => (look x.persistenceObj symName).isSome with
  | (_, some (_, x)) => pure (look x.persistenceObj symName)
  | (_, none) =>
    if isnice then pure none
    else throw (.Error ("Could not find the symbolic name " ++ String.ofList symName))

def call : PersistenceCall σ → Call (BESContainerStorageList σ) Bool
  | .add cp => addPersistence getName cp
  | .ref persistName => refPersistence getName persistName
  | .deref persistName => derefPersistence getName persistName

def calls : List (PersistenceCall σ) → Call (BESContainerStorageList σ) (List Bool)
  | [] => pure []
  | c :: cs => do
    let answer ← call getName c
    let answers ← calls cs
    pure (answer :: answers)

end BESContainerStorageList

/-! ## Stores with counts -/

/-- What the list is for: the stores in the order in which they were added, with their counts. -/
structure References {σ : Type} (getName : σ → Word) where
  entries : List (σ × Nat)
  once : (entries.map fun e => getName e.1).Nodup
  positive : ∀ e ∈ entries, 0 < e.2
  deleted : List σ

namespace References

variable {σ : Type} {getName : σ → Word}

def empty (getName : σ → Word) : References getName where
  entries := []
  once := List.nodup_nil
  positive _ h := absurd h List.not_mem_nil
  deleted := []

variable (s : References getName)

def find (name : Word) : Option (σ × Nat) := s.entries.find? fun e => getName e.1 == name

theorem find_none {name : Word} (h : s.find name = none) (e : σ × Nat) (he : e ∈ s.entries) : getName e.1 ≠ name := by
  simpa using List.find?_eq_none.mp h e he

def add (cp : σ) : References getName :=
  if h : s.find (getName cp) = none then
    { entries := s.entries ++ [(cp, 1)]
      once := by
        rw [List.map_append, List.nodup_append]
        refine ⟨s.once, List.nodup_singleton _, fun a ha b hb => ?_⟩
        obtain ⟨e, he, rfl⟩ := List.mem_map.mp ha
        rw [List.mem_singleton.mp hb]
        exact s.find_none h e he
      positive := List.forall_mem_append.mpr ⟨s.positive, List.forall_mem_singleton.mpr Nat.one_pos⟩
      deleted := s.deleted }
  else s

/-- The entries after a change of the count that goes with a name. -/
def counted (name : Word) (f : Nat → Nat) : List (σ × Nat) :=
  s.entries.map fun e => if getName e.1 = name then (e.1, f e.2) else e

theorem counted_names (name : Word) (f : Nat → Nat) :
    (s.counted name f).map (fun e => getName e.1) = s.entries.map fun e => getName e.1 := by
  rw [counted, List.map_map]
  refine List.map_congr_left fun e _ => ?_
  rw [Function.comp_apply]
  split <;> rfl

def ref (name : Word) : References getName where
  entries := s.counted name (· + 1)
  once := by
    rw [counted_names]
    exact s.once
  positive := by
    intro e he
    obtain ⟨d, hd, rfl⟩ := List.mem_map.mp he
    split
    · exact Nat.succ_pos _
    · exact s.positive d hd
  deleted := s.deleted

def deref (name : Word) : References getName where
  entries := (s.counted name (· - 1)).filter fun e => 0 < e.2
  once := by
    refine List.Nodup.sublist ((List.filter_sublist).map _) ?_
    rw [counted_names]
    exact s.once
  positive e he := of_decide_eq_true (List.mem_filter.mp he).2
  deleted := s.deleted ++ ((s.counted name (· - 1)).filter fun e => e.2 = 0).map Prod.fst

def call : PersistenceCall σ → Bool × References getName
  | .add cp => ((s.find (getName cp)).isNone, s.add cp)
  | .ref name => ((s.find name).isSome, s.ref name)
  | .deref name => ((s.find name).isSome, s.deref name)

def calls : References getName → List (PersistenceCall σ) → List Bool × References getName
  | s, [] => ([], s)
  | s, c :: cs =>
    let (answer, s) := s.call c
    let (answers, s) := s.calls cs
    (answer :: answers, s)

/-- After a history. -/
def after (getName : σ → Word) (history : List (PersistenceCall σ)) : References getName :=
    ((empty getName).calls history).2

end References

/-! ## The list refines them -/

section
variable {σ : Type} {getName : σ → Word} {l : BESContainerStorageList σ} {s : References getName} {name : Word}
  {nodes : List (Nat × PersistenceList σ)}

def PersistenceList.entry (x : PersistenceList σ) : σ × Nat := (x.persistenceObj, x.reference.toNat)

def entriesOf (nodes : List (Nat × PersistenceList σ)) : List (σ × Nat) := nodes.map fun n => n.2.entry

structure Refines (l : BESContainerStorageList σ) (s : References getName) : Prop where
  chain : ∃ nodes, Chain PersistenceList.next l.nodes l.first nodes ∧ entriesOf nodes = s.entries
  deleted : l.deleted = s.deleted

/-- Each count fits the `unsigned int`. -/
def References.Fits (s : References getName) : Prop := ∀ e ∈ s.entries, e.2 < 2 ^ 32

theorem Refines.fits (h : Refines l s) : s.Fits := by
  obtain ⟨nodes, -, hEntries⟩ := h.chain
  intro e he
  rw [← hEntries] at he
  obtain ⟨n, -, rfl⟩ := List.mem_map.mp he
  exact n.2.reference.isLt

open BESContainerStorageList

theorem search_cases (h : Chain PersistenceList.next l.nodes l.first nodes) (stop : PersistenceList σ → Bool) :
    ((∀ n ∈ nodes, stop n.2 = false) ∧ search stop l = .ok (Chain.lastPlace none nodes, none) l) ∨
      ∃ before r x behind, nodes = before ++ (r, x) :: behind ∧ (∀ n ∈ before, stop n.2 = false) ∧ stop x = true ∧
        search stop l = .ok (Chain.lastPlace none before, some (r, x)) l := by
  have hSearch (found) (hSeek : seek PersistenceList.next stop l.nodes l.nodes.next none l.first = some found) :
      search stop l = .ok found l := by
    rw [search, get_bind, hSeek]
    rfl
  rcases h.seek_cases stop with ⟨hPassed, hSeek⟩ | ⟨before, r, x, behind, hSplit, hPassed, hStop, hSeek⟩
  · exact .inl ⟨hPassed, hSearch _ hSeek⟩
  · exact .inr ⟨before, r, x, behind, hSplit, hPassed, hStop, hSearch _ hSeek⟩

theorem find_of_passed (hEntries : entriesOf nodes = s.entries)
    (hPassed : ∀ n ∈ nodes, named getName name n.2 = false) :
    s.find name = none := by
  rw [References.find, ← hEntries, List.find?_eq_none]
  intro e he
  obtain ⟨n, hn, rfl⟩ := List.mem_map.mp he
  exact ne_true_of_eq_false (hPassed n hn)

theorem find_of_split {before behind : List (Nat × PersistenceList σ)} {r : Nat} {x : PersistenceList σ}
    (hEntries : entriesOf (before ++ (r, x) :: behind) = s.entries)
    (hPassed : ∀ n ∈ before, named getName name n.2 = false) (hNamed : named getName name x = true) :
    s.find name = some x.entry := by
  rw [References.find, ← hEntries, List.find?_eq_some_iff_append]
  refine ⟨hNamed, entriesOf before, entriesOf behind, List.map_append, fun e he => ?_⟩
  obtain ⟨n, hn, rfl⟩ := List.mem_map.mp he
  exact Bool.not_eq_true' _ ▸ hPassed n hn

theorem counted_split {before behind : List (σ × Nat)} {e : σ × Nat} (hEntries : before ++ e :: behind = s.entries)
    (hName : getName e.1 = name) (f : Nat → Nat) : s.counted name f = before ++ (e.1, f e.2) :: behind := by
  have hOnce := s.once
  rw [← hEntries, List.map_append, List.map_cons, List.nodup_append, List.nodup_cons] at hOnce
  obtain ⟨-, ⟨hBehind, -⟩, hBefore⟩ := hOnce
  have hSame (es : List (σ × Nat)) (hOther : ∀ d ∈ es, getName d.1 ≠ name) :
      es.map (fun d => if getName d.1 = name then (d.1, f d.2) else d) = es := by
    rw [List.map_congr_left fun d hd => if_neg (hOther d hd), List.map_id'']
    exact fun _ => rfl
  rw [References.counted, ← hEntries, List.map_append, List.map_cons, if_pos hName, hSame before, hSame behind]
  · intro d hd hThis
    exact hBehind (List.mem_map.mpr ⟨d, hd, hThis.trans hName.symm⟩)
  · intro d hd hThis
    exact hBefore _ (List.mem_map_of_mem hd) _ List.mem_cons_self (hThis.trans hName.symm)

/-- Nothing has the name. -/
theorem counted_none (h : s.find name = none) (f : Nat → Nat) : s.counted name f = s.entries := by
  rw [References.counted, List.map_congr_left fun d hd => if_neg (s.find_none h d hd), List.map_id'']
  exact fun _ => rfl

theorem positive_kept {es : List (σ × Nat)} (h : ∀ e ∈ es, 0 < e.2) : (es.filter fun e => 0 < e.2) = es :=
  List.filter_eq_self.mpr fun e he => decide_eq_true (h e he)

theorem positive_not_deleted {es : List (σ × Nat)} (h : ∀ e ∈ es, 0 < e.2) : (es.filter fun e => e.2 = 0) = [] :=
  List.filter_eq_nil_iff.mpr fun e he hZero => absurd (of_decide_eq_true hZero) (Nat.pos_iff_ne_zero.mp (h e he))

theorem deref_entries : (s.deref name).entries = (s.counted name (· - 1)).filter fun e => 0 < e.2 := rfl

theorem deref_deleted :
    (s.deref name).deleted = s.deleted ++ ((s.counted name (· - 1)).filter fun e => e.2 = 0).map Prod.fst := rfl

theorem add_refines (h : Refines l s) (cp : σ) :
    ∃ l', addPersistence getName cp l = .ok (s.call (.add cp)).1 l' ∧ Refines l' (s.call (.add cp)).2 := by
  obtain ⟨nodes, hChain, hEntries⟩ := h.chain
  rw [addPersistence]
  rcases search_cases hChain (named getName (getName cp)) with ⟨hPassed, hSearch⟩ | ⟨before, r, x, behind, rfl, hPassed,
    hNamed, hSearch⟩
  · have hFind := find_of_passed hEntries hPassed
    have hAdded : (s.call (.add cp)).2.entries = s.entries ++ [(cp, 1)] := by
      rw [References.call, References.add, dif_pos hFind]
    have hDeleted : (s.call (.add cp)).2.deleted = s.deleted := by
      rw [References.call, References.add, dif_pos hFind]
    have hAnswer : (s.call (.add cp)).1 = true := by
      rw [References.call, hFind]
      rfl
    rw [Call.bind_of_ok hSearch, hAnswer]
    rcases List.eq_nil_or_concat nodes with rfl | ⟨front, ⟨r, x⟩, rfl⟩
    · refine ⟨_, rfl, ⟨_, Chain.single rfl, ?_⟩, h.deleted.trans hDeleted.symm⟩
      rw [hAdded, ← hEntries]
      rfl
    · rw [List.concat_eq_append] at hChain hEntries ⊢
      have hLast : Chain.lastPlace none (front ++ [(r, x)]) = some r := by
        rw [Chain.lastPlace, List.getLast?_append]
        rfl
      rw [hLast]
      refine ⟨_, rfl, ⟨_, hChain.push rfl rfl, ?_⟩, h.deleted.trans hDeleted.symm⟩
      rw [hAdded, ← hEntries, entriesOf, entriesOf, List.map_append, List.map_append, List.append_assoc]
      rfl
  · have hFind := find_of_split hEntries hPassed hNamed
    have hSame : s.call (.add cp) = (false, s) := by
      rw [References.call, References.add, dif_neg (by rw [hFind]; exact Option.some_ne_none _), hFind]
      rfl
    rw [Call.bind_of_ok hSearch, hSame]
    exact ⟨l, rfl, h⟩

theorem ref_refines (h : Refines l s) (hFits : (s.ref name).Fits) :
    ∃ l', refPersistence getName name l = .ok (s.call (.ref name)).1 l' ∧ Refines l' (s.call (.ref name)).2 := by
  obtain ⟨nodes, hChain, hEntries⟩ := h.chain
  rw [refPersistence, References.call]
  rcases search_cases hChain (named getName name) with ⟨hPassed, hSearch⟩ | ⟨before, r, x, behind, rfl, hPassed, hNamed,
    hSearch⟩
  · have hFind := find_of_passed hEntries hPassed
    rw [Call.bind_of_ok hSearch, hFind]
    exact ⟨l, rfl, ⟨nodes, hChain, hEntries.trans (counted_none hFind _).symm⟩, h.deleted⟩
  · have hSplit := hEntries
    rw [entriesOf, List.map_append, List.map_cons] at hSplit
    have hCounted := counted_split hSplit (eq_of_beq hNamed) (· + 1)
    have hCount : x.entry.2 + 1 < 2 ^ 32 := by
      refine hFits (x.entry.1, x.entry.2 + 1) ?_
      change (x.entry.1, x.entry.2 + 1) ∈ s.counted name (· + 1)
      rw [hCounted]
      exact List.mem_append_right _ List.mem_cons_self
    rw [Call.bind_of_ok hSearch, find_of_split hEntries hPassed hNamed]
    refine ⟨_, rfl, ⟨_, hChain.modify rfl, ?_⟩, h.deleted⟩
    rw [entriesOf, List.map_append, List.map_cons]
    refine Eq.trans ?_ hCounted.symm
    congr 2
    refine Prod.ext rfl ?_
    change (x.reference + 1).toNat = x.reference.toNat + 1
    rw [BitVec.toNat_add]
    exact Nat.mod_eq_of_lt hCount

/-- The node before takes over the link, or the list does. -/
theorem unlink_refines {before behind : List (Nat × PersistenceList σ)} {r : Nat} {x y : PersistenceList σ}
    (h : Chain PersistenceList.next l.nodes l.first (before ++ (r, y) :: behind)) (hNext : y.next = x.next) :
    ∃ l' nodes, unlink r x (Chain.lastPlace none before) l = .ok () l' ∧ l'.deleted = l.deleted ∧
      Chain PersistenceList.next (l'.nodes.free r) l'.first nodes ∧
      entriesOf nodes = entriesOf before ++ entriesOf behind := by
  rw [unlink.eq_def, get_bind]
  rcases List.eq_nil_or_concat before with rfl | ⟨front, ⟨t, w⟩, rfl⟩
  · rw [if_pos h.segment.1]
    exact ⟨_, behind, rfl, rfl, hNext ▸ h.removeFirst, rfl⟩
  · rw [List.concat_eq_append] at h ⊢
    have hOther : l.first ≠ some r := by
      have hApart := h.apart.1
      rcases front with _ | ⟨⟨p, v⟩, front⟩
      · rw [h.segment.1]
        exact fun hSame => hApart (t, w) List.mem_cons_self (Option.some.inj hSame)
      · rw [h.segment.1]
        exact fun hSame => hApart (p, v) List.mem_cons_self (Option.some.inj hSame)
    have hLast : Chain.lastPlace none (front ++ [(t, w)]) = some t := by
      rw [Chain.lastPlace, List.getLast?_append]
      rfl
    rw [if_neg hOther, hLast]
    rw [List.append_assoc] at h
    refine ⟨_, _, rfl, rfl, h.remove (f := fun w => { w with next := x.next }) hNext.symm, ?_⟩
    rw [entriesOf, entriesOf, List.map_append, List.map_append, List.append_assoc]
    rfl

theorem deref_refines (h : Refines l s) :
    ∃ l', derefPersistence getName name l = .ok (s.call (.deref name)).1 l' ∧ Refines l' (s.call (.deref name)).2 := by
  obtain ⟨nodes, hChain, hEntries⟩ := h.chain
  rw [derefPersistence, References.call]
  rcases search_cases hChain (named getName name) with ⟨hPassed, hSearch⟩ | ⟨before, r, x, behind, rfl, hPassed, hNamed,
    hSearch⟩
  · have hFind := find_of_passed hEntries hPassed
    rw [Call.bind_of_ok hSearch, hFind]
    refine ⟨l, rfl, ⟨nodes, hChain, ?_⟩, ?_⟩
    · rw [deref_entries, counted_none hFind, positive_kept s.positive, hEntries]
    · rw [deref_deleted, counted_none hFind, positive_not_deleted s.positive, List.map_nil, List.append_nil, h.deleted]
  · have hSplit := hEntries
    rw [entriesOf, List.map_append, List.map_cons] at hSplit
    have hCounted := counted_split hSplit (eq_of_beq hNamed) (· - 1)
    have hPositive := s.positive
    rw [← hSplit, List.forall_mem_append, List.forall_mem_cons] at hPositive
    obtain ⟨hBefore, hThis, hBehind⟩ := hPositive
    have hChain' := hChain.modify (f := fun x => { x with reference := x.reference - 1 }) rfl
    rw [Call.bind_of_ok hSearch, find_of_split hEntries hPassed hNamed]
    simp only [modify_bind]
    change 0 < x.reference.toNat at hThis
    by_cases hLast : x.reference - 1 = 0
    · have hZero : x.entry.2 - 1 = 0 := by
        change x.reference.toNat - 1 = 0
        bv_omega
      obtain ⟨l', nodes', hUnlink, hDeleted, hChain', hEntries'⟩ := unlink_refines
        (l := { l with nodes := l.nodes.modify r fun x => { x with reference := x.reference - 1 } })
        (x := x) hChain' rfl
      rw [if_pos hLast, Call.bind_of_ok hUnlink]
      refine ⟨_, rfl, ⟨nodes', hChain', ?_⟩, ?_⟩
      · rw [deref_entries, hCounted, hEntries', hZero, List.filter_append, List.filter_cons_of_neg (by simp),
          positive_kept hBefore, positive_kept hBehind]
        rfl
      · rw [deref_deleted, hCounted, hZero, List.filter_append, List.filter_cons_of_pos (by simp),
          positive_not_deleted hBefore, positive_not_deleted hBehind]
        change l'.deleted ++ [x.persistenceObj] = s.deleted ++ [x.persistenceObj]
        rw [hDeleted, ← h.deleted]
    · have hLess : 0 < x.reference.toNat - 1 := by bv_omega
      have hCount : (x.reference - 1).toNat = x.reference.toNat - 1 := by bv_omega
      have hPositive' : ∀ e ∈ s.counted name (· - 1), 0 < e.2 := by
        rw [hCounted, List.forall_mem_append, List.forall_mem_cons]
        exact ⟨hBefore, hLess, hBehind⟩
      rw [if_neg hLast]
      refine ⟨_, rfl, ⟨_, hChain', ?_⟩, ?_⟩
      · rw [entriesOf, List.map_append, List.map_cons, deref_entries, positive_kept hPositive', hCounted]
        congr 2
        exact Prod.ext rfl hCount
      · rw [deref_deleted, positive_not_deleted hPositive', List.map_nil, List.append_nil, ← h.deleted]

theorem call_refines (h : Refines l s) (c : PersistenceCall σ) (hFits : (s.call c).2.Fits) :
    ∃ l', BESContainerStorageList.call getName c l = .ok (s.call c).1 l' ∧ Refines l' (s.call c).2 := by
  cases c with
  | add cp => exact add_refines h cp
  | ref name => exact ref_refines h hFits
  | deref name => exact deref_refines h

theorem calls_refines {cs : List (PersistenceCall σ)} (h : Refines l s)
    (hFits : ∀ history, history <+: cs → (s.calls history).2.Fits) :
    ∃ l', BESContainerStorageList.calls getName cs l = .ok (s.calls cs).1 l' ∧ Refines l' (s.calls cs).2 := by
  induction cs generalizing l s with
  | nil => exact ⟨l, rfl, h⟩
  | cons c cs ih =>
    obtain ⟨l₁, hCall, hRefines⟩ := call_refines h c (hFits [c] (List.prefix_iff_eq_append.mpr rfl))
    obtain ⟨l₂, hCalls, hRefines⟩ :=
      ih hRefines fun history hPrefix => hFits (c :: history) (List.cons_prefix_cons.mpr ⟨rfl, hPrefix⟩)
    refine ⟨l₂, ?_, hRefines⟩
    rw [BESContainerStorageList.calls, Call.bind_of_ok hCall, Call.bind_of_ok hCalls]
    rfl

theorem findPersistence_refines (h : Refines l s) (name : Word) :
    findPersistence getName name l = .ok ((s.find name).map Prod.fst) l := by
  obtain ⟨nodes, hChain, hEntries⟩ := h.chain
  rw [findPersistence]
  rcases search_cases hChain (named getName name) with ⟨hPassed, hSearch⟩ | ⟨before, r, x, behind, rfl, hPassed, hNamed,
    hSearch⟩
  · rw [Call.bind_of_ok hSearch, find_of_passed hEntries hPassed]
    rfl
  · rw [Call.bind_of_ok hSearch, find_of_split hEntries hPassed hNamed]
    rfl

theorem lookFor_refines {γ : Type} (h : Refines l s) (look : σ → Word → Option γ) (isnice : Bool) (symName : Word) :
    lookFor look isnice symName l = match s.entries.findSome? fun e => look e.1 symName with
      | some container => .ok (some container) l
      | none => if isnice then .ok none l
        else .error (.Error ("Could not find the symbolic name " ++ String.ofList symName)) l := by
  obtain ⟨nodes, hChain, hEntries⟩ := h.chain
  rw [lookFor, ← hEntries, entriesOf, List.findSome?_map]
  rcases search_cases hChain fun x => (look x.persistenceObj symName).isSome with
    ⟨hPassed, hSearch⟩ | ⟨before, r, x, behind, rfl, hPassed, hFound, hSearch⟩
  · have hNone : nodes.findSome? ((fun e => look e.1 symName) ∘ fun n => n.2.entry) = none :=
      List.findSome?_eq_none_iff.mpr fun n hn => Option.isSome_eq_false_iff.mp
        (hPassed n hn) |> Option.isNone_iff_eq_none.mp
    rw [Call.bind_of_ok hSearch, hNone]
    cases isnice <;> rfl
  · obtain ⟨container, hContainer⟩ := Option.isSome_iff_exists.mp hFound
    have hNone : before.findSome? ((fun e => look e.1 symName) ∘ fun n => n.2.entry) = none :=
      List.findSome?_eq_none_iff.mpr fun n hn => Option.isSome_eq_false_iff.mp
        (hPassed n hn) |> Option.isNone_iff_eq_none.mp
    have hSome : ((fun e => look e.1 symName) ∘ fun n : Nat × PersistenceList σ => n.2.entry) (r, x) = some container :=
      hContainer
    rw [Call.bind_of_ok hSearch, List.findSome?_append, hNone, Option.none_or, List.findSome?_cons, hSome]
    dsimp only
    rw [hContainer]
    rfl

end

/-! ## Histories -/

section
variable {σ : Type} {getName : σ → Word} {history : List (PersistenceCall σ)} {s : References getName} {e : σ × Nat}

def PersistenceCall.isRef (name : Word) : PersistenceCall σ → Bool
  | .ref n => n == name
  | _ => false

def PersistenceCall.isDeref (name : Word) : PersistenceCall σ → Bool
  | .deref n => n == name
  | _ => false

def PersistenceCall.added : PersistenceCall σ → Option σ
  | .add cp => some cp
  | _ => none

def refs (name : Word) (history : List (PersistenceCall σ)) : Nat := history.countP (PersistenceCall.isRef name)

def derefs (name : Word) (history : List (PersistenceCall σ)) : Nat := history.countP (PersistenceCall.isDeref name)

theorem refs_ref (name n : Word) : refs name [(.ref n : PersistenceCall σ)] = if n = name then 1 else 0 := by
  rw [refs, List.countP_singleton]
  simp [PersistenceCall.isRef]

theorem derefs_deref (name n : Word) : derefs name [(.deref n : PersistenceCall σ)] = if n = name then 1 else 0 := by
  rw [derefs, List.countP_singleton]
  simp [PersistenceCall.isDeref]

theorem refs_deref (name n : Word) : refs name [(.deref n : PersistenceCall σ)] = 0 := rfl

theorem derefs_ref (name n : Word) : derefs name [(.ref n : PersistenceCall σ)] = 0 := rfl

/-- The store was added to a list without its name, and the count follows from the calls since then; it has not been
zero. -/
def Inserted (getName : σ → Word) (history : List (PersistenceCall σ)) (e : σ × Nat) : Prop :=
  ∃ before since, history = before ++ .add e.1 :: since ∧
    (References.after getName before).find (getName e.1) = none ∧
    (∀ part, part <+: since → derefs (getName e.1) part < 1 + refs (getName e.1) part) ∧
    e.2 + derefs (getName e.1) since = 1 + refs (getName e.1) since

theorem calls_append (s : References getName) (cs ds : List (PersistenceCall σ)) :
    (s.calls (cs ++ ds)).2 = ((s.calls cs).2.calls ds).2 := by
  induction cs generalizing s with
  | nil => rfl
  | cons c cs ih => exact ih _

theorem after_concat (history : List (PersistenceCall σ)) (c : PersistenceCall σ) :
    References.after getName (history ++ [c]) = ((References.after getName history).call c).2 := calls_append _ _ _

theorem add_entries (cp : σ) :
    (s.add cp).entries = if s.find (getName cp) = none then s.entries ++ [(cp, 1)] else s.entries := by
  rw [References.add]
  split <;> rfl

/-- Where the entries after a call are from. -/
theorem call_from {c : PersistenceCall σ} (h : e ∈ (s.call c).2.entries) :
    (c = .add e.1 ∧ e.2 = 1 ∧ s.find (getName e.1) = none) ∨
      ∃ k, (e.1, k) ∈ s.entries ∧ e.2 + derefs (getName e.1) [c] = k + refs (getName e.1) [c] := by
  cases c with
  | add cp =>
    change e ∈ (s.add cp).entries at h
    rw [add_entries] at h
    split at h
    next hFind =>
      rcases List.mem_append.mp h with h | h
      · exact .inr ⟨e.2, h, rfl⟩
      · rw [List.mem_singleton.mp h]
        exact .inl ⟨rfl, rfl, hFind⟩
    next => exact .inr ⟨e.2, h, rfl⟩
  | ref name =>
    obtain ⟨d, hd, rfl⟩ := List.mem_map.mp h
    right
    rw [derefs_ref, refs_ref]
    split
    next hName => exact ⟨d.2, hd, by rw [if_pos hName.symm]⟩
    next hName => exact ⟨d.2, hd, by rw [if_neg (Ne.symm hName)]⟩
  | deref name =>
    obtain ⟨h, -⟩ := List.mem_filter.mp h
    obtain ⟨d, hd, rfl⟩ := List.mem_map.mp h
    have hPositive := s.positive d hd
    right
    rw [refs_deref, derefs_deref]
    split
    next hName =>
      rw [if_pos hName.symm]
      exact ⟨d.2, hd, Nat.sub_add_cancel hPositive⟩
    next hName => exact ⟨d.2, hd, by rw [if_neg (Ne.symm hName)]⟩

/-- An entry stays as long as its count is not zero. -/
theorem call_kept {c : PersistenceCall σ} {k : Nat} (h : e ∈ s.entries)
    (hCount : k + derefs (getName e.1) [c] = e.2 + refs (getName e.1) [c]) (hPositive : 0 < k) :
    (e.1, k) ∈ (s.call c).2.entries := by
  cases c with
  | add cp =>
    have hSame : (e.1, k) = e := Prod.ext rfl hCount
    change (e.1, k) ∈ (s.add cp).entries
    rw [add_entries, hSame]
    split
    · exact List.mem_append_left _ h
    · exact h
  | ref name =>
    refine List.mem_map.mpr ⟨e, h, ?_⟩
    rw [derefs_ref, refs_ref] at hCount
    split
    next hName =>
      rw [if_pos hName.symm] at hCount
      exact Prod.ext rfl hCount.symm
    next hName =>
      rw [if_neg (Ne.symm hName)] at hCount
      exact Prod.ext rfl hCount.symm
  | deref name =>
    refine List.mem_filter.mpr ⟨List.mem_map.mpr ⟨e, h, ?_⟩, decide_eq_true hPositive⟩
    rw [derefs_deref, refs_deref] at hCount
    split
    next hName =>
      rw [if_pos hName.symm] at hCount
      exact Prod.ext rfl (Nat.sub_eq_of_eq_add hCount.symm)
    next hName =>
      rw [if_neg (Ne.symm hName)] at hCount
      exact Prod.ext rfl hCount.symm

theorem Inserted.concat (h : Inserted getName history e) (c : PersistenceCall σ) {k : Nat}
    (hCount : k + derefs (getName e.1) [c] = e.2 + refs (getName e.1) [c]) (hPositive : 0 < k) :
    Inserted getName (history ++ [c]) (e.1, k) := by
  obtain ⟨before, since, rfl, hAbsent, hParts, hSince⟩ := h
  have hRefs : refs (getName e.1) (since ++ [c]) = refs (getName e.1) since + refs (getName e.1) [c] :=
      List.countP_append
  have hDerefs : derefs (getName e.1) (since ++ [c]) = derefs (getName e.1) since + derefs (getName e.1) [c] :=
    List.countP_append
  refine ⟨before, since ++ [c], by rw [List.append_assoc, List.cons_append], hAbsent, fun part hPart => ?_, ?_⟩
  · rcases List.prefix_concat_iff.mp hPart with rfl | hPart
    · dsimp only
      omega
    · exact hParts part hPart
  · dsimp only
    omega

theorem entry_inserted (h : e ∈ (References.after getName history).entries) : Inserted getName history e := by
  induction history using List.reverseRecOn generalizing e with
  | nil => exact absurd h List.not_mem_nil
  | append_singleton history c ih =>
    have hPositive := (References.after getName (history ++ [c])).positive e h
    rw [after_concat] at h
    rcases call_from h with ⟨rfl, hOne, hAbsent⟩ | ⟨k, hEntry, hCount⟩
    · refine ⟨history, [], rfl, hAbsent, fun part hPart => ?_, ?_⟩
      · rw [List.prefix_nil.mp hPart]
        exact Nat.one_pos
      · rw [hOne]
        rfl
    · exact (ih hEntry).concat c hCount hPositive

theorem inserted_entry (h : Inserted getName history e) : e ∈ (References.after getName history).entries := by
  obtain ⟨before, since, rfl, hAbsent, hParts, hSince⟩ := h
  induction since using List.reverseRecOn generalizing e with
  | nil =>
    have hOne : e = (e.1, 1) := Prod.ext rfl hSince
    rw [after_concat]
    change e ∈ (References.add _ e.1).entries
    rw [add_entries, if_pos hAbsent, hOne]
    exact List.mem_append_right _ (List.mem_singleton_self _)
  | append_singleton since c ih =>
    have hRefs : refs (getName e.1) (since ++ [c]) = refs (getName e.1) since + refs (getName e.1) [c] :=
      List.countP_append
    have hDerefs : derefs (getName e.1) (since ++ [c]) = derefs (getName e.1) since + derefs (getName e.1) [c] :=
      List.countP_append
    have hBefore := hParts since (List.prefix_append _ _)
    have hNow := hParts (since ++ [c]) (List.prefix_refl _)
    have hEntry := ih (e := (e.1, 1 + refs (getName e.1) since - derefs (getName e.1) since)) hAbsent
      (fun part hPart => hParts part (hPart.trans (List.prefix_append _ _))) (by dsimp only; omega)
    rw [← List.cons_append, ← List.append_assoc, after_concat]
    refine call_kept (e := (e.1, 1 + refs (getName e.1) since - derefs (getName e.1) since)) hEntry ?_ ?_
    · dsimp only
      omega
    · omega

theorem counted_stores (s : References getName) (name : Word) (f : Nat → Nat) :
    (s.counted name f).map Prod.fst = s.entries.map Prod.fst := by
  rw [References.counted, List.map_map]
  refine List.map_congr_left fun e _ => ?_
  rw [Function.comp_apply]
  split <;> rfl

theorem stores_in_order (getName : σ → Word) (history : List (PersistenceCall σ)) :
    ((References.after getName history).entries.map Prod.fst).Sublist (history.filterMap PersistenceCall.added) := by
  induction history using List.reverseRecOn with
  | nil => exact List.Sublist.slnil
  | append_singleton history c ih =>
    rw [after_concat, List.filterMap_append]
    cases c with
    | add cp =>
      change ((References.add _ cp).entries.map Prod.fst).Sublist _
      rw [add_entries]
      split
      · rw [List.map_append]
        exact ih.append (List.Sublist.refl _)
      · exact ih.trans (List.sublist_append_left _ _)
    | ref name =>
      change ((References.counted _ name _).map Prod.fst).Sublist _
      rw [counted_stores]
      exact ih.trans (List.sublist_append_left _ _)
    | deref name =>
      refine (List.filter_sublist.map _).trans ?_
      rw [counted_stores]
      exact ih.trans (List.sublist_append_left _ _)

/-- After a history, the list is an association of stores to their counts, and its lookups are lookups in that. -/
structure Associates (getName : σ → Word) (history : List (PersistenceCall σ))
    (l : BESContainerStorageList σ) : Prop where
  refines : Refines l (References.after getName history)
  inserted : ∀ e, e ∈ (References.after getName history).entries ↔ Inserted getName history e
  inOrder : ((References.after getName history).entries.map Prod.fst).Sublist (history.filterMap PersistenceCall.added)
  find : ∀ name, BESContainerStorageList.findPersistence getName name l =
    .ok (((References.after getName history).find name).map Prod.fst) l
  lookFor : ∀ (γ : Type) (look : σ → Word → Option γ) (isnice : Bool) (symName : Word),
    BESContainerStorageList.lookFor look isnice symName l =
      match (References.after getName history).entries.findSome? fun e => look e.1 symName with
      | some container => .ok (some container) l
      | none => if isnice then .ok none l
        else .error (.Error ("Could not find the symbolic name " ++ String.ofList symName)) l

/-- The list after a history, which has given the answers of the association. -/
def Associated (getName : σ → Word) (history : List (PersistenceCall σ)) : Prop :=
  ∃ l, BESContainerStorageList.calls getName history .empty = .ok ((References.empty getName).calls history).1 l ∧
    Associates getName history l

theorem Refines.associates {l : BESContainerStorageList σ} (h : Refines l (References.after getName history)) :
    Associates getName history l where
  refines := h
  inserted _ := ⟨entry_inserted, inserted_entry⟩
  inOrder := stores_in_order getName history
  find := findPersistence_refines h
  lookFor _ := lookFor_refines h

theorem empty_refines (getName : σ → Word) : Refines .empty (References.empty getName) := ⟨⟨[], Chain.nil, rfl⟩, rfl⟩

theorem Associated.fits (h : Associated getName history) : (References.after getName history).Fits :=
  h.choose_spec.2.refines.fits

/-- The counter of references is an `unsigned int`. -/
theorem associated_iff (getName : σ → Word) (cs : List (PersistenceCall σ)) :
    (∀ history, history <+: cs → Associated getName history) ↔
      ∀ history, history <+: cs → ∀ e, Inserted getName history e → e.2 < 2 ^ 32 := by
  constructor
  · intro h history hPrefix e hInserted
    exact (h history hPrefix).fits e (inserted_entry hInserted)
  · intro h history hPrefix
    obtain ⟨l, hCalls, hRefines⟩ := calls_refines (empty_refines getName)
      fun part (hPart : part <+: history) e he => h part (hPart.trans hPrefix) e (entry_inserted he)
    exact ⟨l, hCalls, hRefines.associates⟩

theorem after_refs (getName : σ → Word) (cp : σ) (n : Nat) :
    (References.after getName (.add cp :: List.replicate n (.ref (getName cp)))).entries = [(cp, n + 1)] := by
  induction n with
  | zero => rfl
  | succ n ih =>
    rw [List.replicate_succ', ← List.cons_append, after_concat]
    change References.counted _ _ _ = _
    rw [References.counted, ih, List.map_singleton, if_pos rfl]

/-- A store that is referenced once too often has the count zero. -/
theorem reference_wraps : ¬ ∀ history, history <+: (.add "catalog".toList ::
    List.replicate (2 ^ 32 - 1) (.ref "catalog".toList) : List (PersistenceCall Word)) → Associated id history := by
  intro h
  have hFits := (h _ (List.prefix_refl _)).fits
  have hEntries := after_refs id "catalog".toList (2 ^ 32 - 1)
  exact absurd (hFits ("catalog".toList, 2 ^ 32 - 1 + 1) (hEntries ▸ List.mem_singleton_self _)) (Nat.lt_irrefl _)

end

end Libdap.Bes
