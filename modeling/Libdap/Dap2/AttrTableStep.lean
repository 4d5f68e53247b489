import Libdap.Core.Outcome
import Libdap.Dap2.AttrTable
import Mathlib.Logic.Relation

/-! # What the operations on attribute tables can do

Each operation, from a given heap, either leaves the heap as it was or makes one change, which is described here with
what the operation has tested before.
-/

namespace Libdap.Dap2
open Core Constraint
set_option autoImplicit false

/-! ## The states after a call -/

section After

variable {h h' : Heap} {α : Type}

@[simp] theorem after_pure {a : α} : (pure a : Call Heap α).after h = some h' ↔ h = h' := by
  change some h = some h' ↔ _
  simp

@[simp] theorem after_undefined : (throw .undefined : Call Heap α).after h = some h' ↔ False := by
  change none = some h' ↔ False
  simp

@[simp] theorem after_throw {msg : String} : (throw (.Error msg) : Call Heap α).after h = some h' ↔ h = h' := by
  change some h = some h' ↔ _
  simp

/-- A call whose only failure is undefined behaviour. -/
def Defined (x : Call Heap α) : Prop := ∀ h f h', x h = .error f h' → f = .undefined

theorem Defined.bind {β : Type} {x : Call Heap α} {f : α → Call Heap β} (hx : Defined x) (hf : ∀ a, Defined (f a)) :
    Defined (x >>= f) := by
  intro h e h' hRun
  rcases Call.bind_error.mp hRun with hFirst | ⟨a, h₁, -, hRest⟩
  · exact hx h e h' hFirst
  · exact hf a h₁ e h' hRest

theorem Defined.pure {a : α} : Defined (pure a : Call Heap α) := fun _ _ _ hRun => nomatch hRun

theorem Defined.undefined : Defined (throw .undefined : Call Heap α) := by
  rintro h f h' ⟨⟩
  rfl

theorem Defined.after_bind {β : Type} {x : Call Heap α} (hx : Defined x) {f : α → Call Heap β} :
    (x >>= f).after h = some h' ↔ ∃ a h₁, x h = .ok a h₁ ∧ (f a).after h₁ = some h' := by
  cases hRun : x h with
  | ok a h₁ =>
    rw [Call.after, Call.bind_of_ok hRun]
    constructor
    · intro hAfter
      exact ⟨a, h₁, rfl, hAfter⟩
    · rintro ⟨_, _, hOk, hAfter⟩
      cases hOk
      exact hAfter
  | error e h₁ =>
    have hFault := hx h e h₁ hRun
    subst hFault
    rw [Call.after, Call.bind_error.mpr (.inl hRun)]
    constructor
    · intro hAfter
      cases hAfter
    · rintro ⟨_, _, hOk, _⟩
      cases hOk

theorem Defined.after {x : Call Heap Unit} (hx : Defined x) : x.after h = some h' ↔ x h = .ok () h' := by
  rw [Call.after]
  split
  · rename_i hRun
    simp [hRun]
  · rename_i hRun
    simp [hRun]
  · rename_i hNot hRun
    exact absurd (hx h _ _ hRun) hNot

theorem readTable_ok {t : Nat} {tb : AttrTable} :
    readTable t h = .ok tb h' ↔ h.tables.cell t = some tb ∧ h' = h := by
  rw [readTable]
  cases h.tables.cell t with
  | none => simp
  | some tb' => simp [eq_comm]

theorem readValues_ok {v : Nat} {vals : List Word} :
    readValues v h = .ok vals h' ↔ h.values.cell v = some vals ∧ h' = h := by
  rw [readValues]
  cases h.values.cell v with
  | none => simp
  | some vals' => simp [eq_comm]

theorem deref_ok {p : Ptr} {id : Nat} : p.deref h = .ok id h' ↔ p = .ref id ∧ h' = h := by
  cases p with
  | null => exact ⟨fun hRun => absurd hRun Call.throw_not_ok, fun hSame => nomatch hSame.1⟩
  | ref i => simp [Ptr.deref, Call.pure_ok, eq_comm]
  | indeterminate => exact ⟨fun hRun => absurd hRun Call.throw_not_ok, fun hSame => nomatch hSame.1⟩

theorem defined_readTable (t : Nat) : Defined (readTable t) := by
  intro h f h' hRun
  rw [readTable] at hRun
  split at hRun
  · cases hRun
  · cases hRun
    rfl

theorem defined_readValues (v : Nat) : Defined (readValues v) := by
  intro h f h' hRun
  rw [readValues] at hRun
  split at hRun
  · cases hRun
  · cases hRun
    rfl

theorem defined_deref (p : Ptr) : Defined p.deref := by
  cases p with
  | null => exact Defined.undefined
  | ref i => exact Defined.pure
  | indeterminate => exact Defined.undefined

theorem defined_modify (f : Heap → Heap) : Defined (modify f) := fun _ _ _ hRun => nomatch hRun

theorem defined_modifyTable (t : Nat) (f : AttrTable → AttrTable) : Defined (modifyTable t f) :=
  (defined_readTable t).bind fun _ => defined_modify _

theorem defined_modifyValues (v : Nat) (f : List Word → List Word) : Defined (modifyValues v f) :=
  (defined_readValues v).bind fun _ => defined_modify _

theorem defined_freeTable (t : Nat) : Defined (freeTable t) := (defined_readTable t).bind fun _ => defined_modify _

theorem defined_freeValues (v : Nat) : Defined (freeValues v) := (defined_readValues v).bind fun _ => defined_modify _

theorem modify_ok {f : Heap → Heap} {u : Unit} : (modify f : Call Heap Unit) h = .ok u h' ↔ h' = f h := by
  change EStateM.Result.ok () (f h) = .ok u h' ↔ _
  simp [eq_comm]

theorem modifyTable_ok {t : Nat} {f : AttrTable → AttrTable} {u : Unit} :
    modifyTable t f h = .ok u h' ↔
      ∃ tb, h.tables.cell t = some tb ∧ h' = { h with tables := h.tables.modify t f } := by
  rw [modifyTable, Call.bind_ok]
  simp only [readTable_ok, modify_ok]
  constructor
  · rintro ⟨tb, _, ⟨hCell, rfl⟩, rfl⟩
    exact ⟨tb, hCell, rfl⟩
  · rintro ⟨tb, hCell, rfl⟩
    exact ⟨tb, h, ⟨hCell, rfl⟩, rfl⟩

theorem modifyValues_ok {v : Nat} {f : List Word → List Word} {u : Unit} :
    modifyValues v f h = .ok u h' ↔
      ∃ vals, h.values.cell v = some vals ∧ h' = { h with values := h.values.modify v f } := by
  rw [modifyValues, Call.bind_ok]
  simp only [readValues_ok, modify_ok]
  constructor
  · rintro ⟨vals, _, ⟨hCell, rfl⟩, rfl⟩
    exact ⟨vals, hCell, rfl⟩
  · rintro ⟨vals, hCell, rfl⟩
    exact ⟨vals, h, ⟨hCell, rfl⟩, rfl⟩

theorem freeTable_ok {t : Nat} {u : Unit} :
    freeTable t h = .ok u h' ↔ ∃ tb, h.tables.cell t = some tb ∧ h' = { h with tables := h.tables.free t } := by
  rw [freeTable, Call.bind_ok]
  simp only [readTable_ok, modify_ok]
  constructor
  · rintro ⟨tb, _, ⟨hCell, rfl⟩, rfl⟩
    exact ⟨tb, hCell, rfl⟩
  · rintro ⟨tb, hCell, rfl⟩
    exact ⟨tb, h, ⟨hCell, rfl⟩, rfl⟩

theorem freeValues_ok {v : Nat} {u : Unit} :
    freeValues v h = .ok u h' ↔ ∃ vals, h.values.cell v = some vals ∧ h' = { h with values := h.values.free v } := by
  rw [freeValues, Call.bind_ok]
  simp only [readValues_ok, modify_ok]
  constructor
  · rintro ⟨vals, _, ⟨hCell, rfl⟩, rfl⟩
    exact ⟨vals, hCell, rfl⟩
  · rintro ⟨vals, hCell, rfl⟩
    exact ⟨vals, h, ⟨hCell, rfl⟩, rfl⟩

variable {f : AttrTable → Call Heap α} {g : List Word → Call Heap α} {k : Nat → Call Heap α}

@[simp] theorem after_readTable {t : Nat} :
    (readTable t >>= f).after h = some h' ↔ ∃ tb, h.tables.cell t = some tb ∧ (f tb).after h = some h' := by
  rw [(defined_readTable t).after_bind]
  simp only [readTable_ok]
  constructor
  · rintro ⟨tb, _, ⟨hCell, rfl⟩, hAfter⟩
    exact ⟨tb, hCell, hAfter⟩
  · rintro ⟨tb, hCell, hAfter⟩
    exact ⟨tb, h, ⟨hCell, rfl⟩, hAfter⟩

@[simp] theorem after_readValues {v : Nat} :
    (readValues v >>= g).after h = some h' ↔ ∃ vals, h.values.cell v = some vals ∧ (g vals).after h = some h' := by
  rw [(defined_readValues v).after_bind]
  simp only [readValues_ok]
  constructor
  · rintro ⟨vals, _, ⟨hCell, rfl⟩, hAfter⟩
    exact ⟨vals, hCell, hAfter⟩
  · rintro ⟨vals, hCell, hAfter⟩
    exact ⟨vals, h, ⟨hCell, rfl⟩, hAfter⟩

@[simp] theorem after_deref {p : Ptr} :
    (p.deref >>= k).after h = some h' ↔ ∃ id, p = .ref id ∧ (k id).after h = some h' := by
  rw [(defined_deref p).after_bind]
  simp only [deref_ok]
  constructor
  · rintro ⟨id, _, ⟨rfl, rfl⟩, hAfter⟩
    exact ⟨id, rfl, hAfter⟩
  · rintro ⟨id, rfl, hAfter⟩
    exact ⟨id, h, ⟨rfl, rfl⟩, hAfter⟩

@[simp] theorem after_modifyTable {t : Nat} {m : AttrTable → AttrTable} {x : Unit → Call Heap α} :
    (modifyTable t m >>= x).after h = some h' ↔
      ∃ tb, h.tables.cell t = some tb ∧ (x ()).after { h with tables := h.tables.modify t m } = some h' := by
  rw [(defined_modifyTable t m).after_bind]
  simp only [modifyTable_ok]
  constructor
  · rintro ⟨_, _, ⟨tb, hCell, rfl⟩, hAfter⟩
    exact ⟨tb, hCell, hAfter⟩
  · rintro ⟨tb, hCell, hAfter⟩
    exact ⟨(), _, ⟨tb, hCell, rfl⟩, hAfter⟩

@[simp] theorem after_modifyTable_last {t : Nat} {m : AttrTable → AttrTable} :
    (modifyTable t m).after h = some h' ↔
      ∃ tb, h.tables.cell t = some tb ∧ { h with tables := h.tables.modify t m } = h' := by
  rw [(defined_modifyTable t m).after, modifyTable_ok]
  simp only [eq_comm]

@[simp] theorem after_modifyValues {v : Nat} {m : List Word → List Word} {x : Unit → Call Heap α} :
    (modifyValues v m >>= x).after h = some h' ↔
      ∃ vals, h.values.cell v = some vals ∧ (x ()).after { h with values := h.values.modify v m } = some h' := by
  rw [(defined_modifyValues v m).after_bind]
  simp only [modifyValues_ok]
  constructor
  · rintro ⟨_, _, ⟨vals, hCell, rfl⟩, hAfter⟩
    exact ⟨vals, hCell, hAfter⟩
  · rintro ⟨vals, hCell, hAfter⟩
    exact ⟨(), _, ⟨vals, hCell, rfl⟩, hAfter⟩

@[simp] theorem after_modifyValues_last {v : Nat} {m : List Word → List Word} :
    (modifyValues v m).after h = some h' ↔
      ∃ vals, h.values.cell v = some vals ∧ { h with values := h.values.modify v m } = h' := by
  rw [(defined_modifyValues v m).after, modifyValues_ok]
  simp only [eq_comm]

@[simp] theorem after_freeTable {t : Nat} {x : Unit → Call Heap α} :
    (freeTable t >>= x).after h = some h' ↔
      ∃ tb, h.tables.cell t = some tb ∧ (x ()).after { h with tables := h.tables.free t } = some h' := by
  rw [(defined_freeTable t).after_bind]
  simp only [freeTable_ok]
  constructor
  · rintro ⟨_, _, ⟨tb, hCell, rfl⟩, hAfter⟩
    exact ⟨tb, hCell, hAfter⟩
  · rintro ⟨tb, hCell, hAfter⟩
    exact ⟨(), _, ⟨tb, hCell, rfl⟩, hAfter⟩

@[simp] theorem after_newTable :
    (newTable >>= k).after h = some h' ↔
      (k h.tables.next).after { h with tables := h.tables.alloc ⟨[], .null, [], true⟩ } = some h' := Iff.rfl

@[simp] theorem after_newValues {vals : List Word} :
    (newValues vals >>= k).after h = some h' ↔
      (k h.values.next).after { h with values := h.values.alloc vals } = some h' := Iff.rfl

@[simp] theorem after_discard {x : Call Heap α} :
    ((x >>= fun _ => pure ()) : Call Heap Unit).after h = some h' ↔ x.after h = some h' := by
  cases hRun : x h with
  | ok a h₁ =>
    rw [Call.after, Call.bind_of_ok hRun, Call.after, hRun]
    rfl
  | error e h₁ =>
    rw [Call.after, Call.bind_error.mpr (.inl hRun), Call.after, hRun]
    cases e <;> rfl

end After

/-! ## What an entry owns -/

/-- The tables and the lists that are destroyed with an entry, nothing when that is not defined. -/
def ownedEntry (h : Heap) (owned : Nat → Option (List Nat × List Nat)) (e : Entry) : Option (List Nat × List Nat) :=
  if e.isAlias then some ([], [])
  else if e.type = .container then
    match e.attributes with
    | .null => some ([], [])
    | .ref c => owned c
    | .indeterminate => none
  else
    match e.attr with
    | .null => some ([], [])
    | .ref v => (h.values.cell v).map fun _ => ([], [v])
    | .indeterminate => none

def ownedEntries (h : Heap) (owned : Nat → Option (List Nat × List Nat)) : List Entry → Option (List Nat × List Nat)
  | [] => some ([], [])
  | e :: es => do
    let first ← ownedEntry h owned e
    let rest ← ownedEntries h owned es
    some (first.1 ++ rest.1, first.2 ++ rest.2)

def owned (h : Heap) : Nat → Nat → Option (List Nat × List Nat)
  | 0, _ => none
  | stack + 1, t => do
    let tb ← h.tables.cell t
    let below ← ownedEntries h (owned h stack) tb.attrMap
    some (t :: below.1, below.2)

def Heap.freed (h : Heap) (o : List Nat × List Nat) : Heap :=
    ⟨o.1.foldl Store.free h.tables, o.2.foldl Store.free h.values⟩

/-- A heap that has lost some of the objects. -/
structure Subheap (h g : Heap) : Prop where
  tables : ∀ t tb, g.tables.cell t = some tb → h.tables.cell t = some tb
  values : ∀ v vals, g.values.cell v = some vals → h.values.cell v = some vals

theorem Subheap.refl (h : Heap) : Subheap h h := ⟨fun _ _ hCell => hCell, fun _ _ hCell => hCell⟩

theorem freed_tables (h : Heap) (o : List Nat × List Nat) (t : Nat) :
    (h.freed o).tables.cell t = if t ∈ o.1 then none else h.tables.cell t := Store.cell_free_all h.tables o.1 t

theorem freed_values (h : Heap) (o : List Nat × List Nat) (v : Nat) :
    (h.freed o).values.cell v = if v ∈ o.2 then none else h.values.cell v := Store.cell_free_all h.values o.2 v

theorem freed_freed (h : Heap) (o p : List Nat × List Nat) :
    (h.freed o).freed p = h.freed (o.1 ++ p.1, o.2 ++ p.2) := by
  simp [Heap.freed]

theorem freed_nil (h : Heap) : h.freed ([], []) = h := rfl

theorem Subheap.freed {h g : Heap} (hPart : Subheap h g) (o : List Nat × List Nat) : Subheap h (g.freed o) := by
  constructor
  · intro t tb hCell
    rw [freed_tables] at hCell
    split at hCell
    · cases hCell
    · exact hPart.tables t tb hCell
  · intro v vals hCell
    rw [freed_values] at hCell
    split at hCell
    · cases hCell
    · exact hPart.values v vals hCell

section Deleted

variable {h g g' : Heap} {del : Nat → Call Heap Unit} {own : Nat → Option (List Nat × List Nat)}

theorem deleteEntry_ok (hDel : ∀ c g g', Subheap h g → del c g = .ok () g' → ∃ o, own c = some o ∧ g' = g.freed o)
    (hPart : Subheap h g) {e : Entry} (hRun : deleteEntry del e g = .ok () g') :
    ∃ o, ownedEntry h own e = some o ∧ g' = g.freed o := by
  rw [deleteEntry] at hRun
  rw [ownedEntry]
  split at hRun
  · rename_i hAlias
    rw [if_pos hAlias]
    cases hRun
    exact ⟨_, rfl, rfl⟩
  · rename_i hAlias
    rw [if_neg hAlias]
    split at hRun
    · rename_i hType
      rw [if_pos hType]
      cases hPtr : e.attributes with
      | null =>
        rw [hPtr] at hRun
        cases hRun
        exact ⟨_, rfl, rfl⟩
      | ref c =>
        rw [hPtr] at hRun
        exact hDel c g g' hPart hRun
      | indeterminate =>
        rw [hPtr] at hRun
        cases hRun
    · rename_i hType
      rw [if_neg hType]
      cases hPtr : e.attr with
      | null =>
        rw [hPtr] at hRun
        cases hRun
        exact ⟨_, rfl, rfl⟩
      | ref v =>
        rw [hPtr] at hRun
        obtain ⟨vals, hCell, rfl⟩ := freeValues_ok.mp hRun
        refine ⟨([], [v]), ?_, rfl⟩
        simp only [hPart.values v vals hCell, Option.map_some]
      | indeterminate =>
        rw [hPtr] at hRun
        cases hRun

theorem deleteEntries_ok (hDel : ∀ c g g', Subheap h g → del c g = .ok () g' → ∃ o, own c = some o ∧ g' = g.freed o)
    (hPart : Subheap h g) {es : List Entry} (hRun : deleteEntries del es g = .ok () g') :
    ∃ o, ownedEntries h own es = some o ∧ g' = g.freed o := by
  induction es generalizing g with
  | nil =>
    cases hRun
    exact ⟨_, rfl, rfl⟩
  | cons e es ih =>
    obtain ⟨_, g₁, hFirst, hRest⟩ := Call.bind_ok.mp hRun
    obtain ⟨o, hOwn, rfl⟩ := deleteEntry_ok hDel hPart hFirst
    obtain ⟨p, hOwns, rfl⟩ := ih (hPart.freed o) hRest
    refine ⟨_, ?_, freed_freed g o p⟩
    simp [ownedEntries, hOwn, hOwns]

theorem deleteTable_ok (stack : Nat) {t : Nat} (hPart : Subheap h g) (hRun : deleteTable stack t g = .ok () g') :
    ∃ o, owned h stack t = some o ∧ g' = g.freed o := by
  induction stack generalizing t g g' with
  | zero => cases hRun
  | succ stack ih =>
    simp only [deleteTable, Call.bind_ok, readTable_ok, freeTable_ok] at hRun
    obtain ⟨tb, _, ⟨hCell, rfl⟩, _, _, ⟨_, _, rfl⟩, hRun⟩ := hRun
    obtain ⟨o, hOwn, rfl⟩ := deleteEntries_ok (fun c g g' hPart hDel => ih hPart hDel) (hPart.freed ([t], [])) hRun
    refine ⟨(t :: o.1, o.2), ?_, rfl⟩
    simp [owned, hPart.tables t tb hCell, hOwn]

theorem defined_deleteEntry (hDel : ∀ c, Defined (del c)) (e : Entry) : Defined (deleteEntry del e) := by
  rw [deleteEntry]
  split
  · exact Defined.pure
  · split
    · split
      · exact Defined.pure
      · exact hDel _
      · exact Defined.undefined
    · split
      · exact Defined.pure
      · exact defined_freeValues _
      · exact Defined.undefined

theorem defined_deleteEntries (hDel : ∀ c, Defined (del c)) (es : List Entry) : Defined (deleteEntries del es) := by
  induction es with
  | nil => exact Defined.pure
  | cons e es ih => exact (defined_deleteEntry hDel e).bind fun _ => ih

theorem defined_deleteTable (stack t : Nat) : Defined (deleteTable stack t) := by
  induction stack generalizing t with
  | zero => exact Defined.undefined
  | succ stack ih =>
    apply (defined_readTable t).bind
    intro tb
    apply (defined_freeTable t).bind
    intro _
    exact defined_deleteEntries ih tb.attrMap

end Deleted

/-! ## What is found -/

/-- The table has a container entry, its own or an alias, for the other one. -/
def Points (h : Heap) (t c : Nat) : Prop :=
  ∃ tb, h.tables.cell t = some tb ∧ ∃ e ∈ tb.attrMap, e.type = .container ∧ e.attributes = .ref c

abbrev TableReaches (h : Heap) : Nat → Nat → Prop := Relation.ReflTransGen (Points h)

/-- An entry of a table that can be reached. -/
def ReachesEntry (h : Heap) (t : Nat) (e : Entry) : Prop :=
  ∃ x tb, TableReaches h t x ∧ h.tables.cell x = some tb ∧ e ∈ tb.attrMap

/-- A call that reads only. -/
def Reads {α : Type} (x : Call Heap α) (h : Heap) (Q : α → Prop) : Prop :=
  x.Ends h (fun a h' => h' = h ∧ Q a) (fun f _ => f = .undefined)

section Searched

variable {h : Heap} {α β : Type} {Q : α → Prop} {R : β → Prop}

theorem Reads.pure {a : α} (hQ : Q a) : Reads (Pure.pure a) h Q := ⟨rfl, hQ⟩

theorem Reads.undefined : Reads (throw .undefined : Call Heap α) h Q := rfl

theorem Reads.bind {x : Call Heap α} {f : α → Call Heap β} (hx : Reads x h Q) (hf : ∀ a, Q a → Reads (f a) h R) :
    Reads (x >>= f) h R := by
  refine Call.Ends.bind hx ?_
  rintro a _ ⟨rfl, hQ⟩
  exact hf a hQ

theorem reads_readTable (h : Heap) (t : Nat) : Reads (readTable t) h fun tb => h.tables.cell t = some tb := by
  rw [Reads, Call.Ends, readTable]
  cases h.tables.cell t with
  | none => exact rfl
  | some tb => exact ⟨rfl, rfl⟩

theorem reads_deref (h : Heap) (p : Ptr) : Reads p.deref h fun c => p = .ref c := by
  cases p with
  | null => exact Reads.undefined
  | ref c => exact Reads.pure rfl
  | indeterminate => exact Reads.undefined

theorem Reads.after_bind {x : Call Heap α} (hx : Reads x h Q) {f : α → Call Heap β} {h' : Heap}
    (hAfter : (x >>= f).after h = some h') : ∃ a, Q a ∧ (f a).after h = some h' := by
  rw [Call.after] at hAfter
  cases hRun : x h with
  | ok a h₁ =>
    obtain ⟨rfl, hQ⟩ := hx.ok hRun
    rw [Call.bind_of_ok hRun] at hAfter
    exact ⟨a, hQ, hAfter⟩
  | error e h₁ =>
    rw [Call.bind_error.mpr (.inl hRun), hx.error hRun] at hAfter
    cases hAfter

theorem simpleFind_mem {tb : AttrTable} {target : Word} {e : Entry} (hFind : tb.simpleFind target = some e) :
    e ∈ tb.attrMap ∧ e.name = target := by
  have hName := List.find?_some hFind
  exact ⟨List.mem_of_find?_eq_some hFind, (of_decide_eq_true hName).symm⟩

theorem simpleFind_none {tb : AttrTable} {target : Word} (hFind : tb.simpleFind target = none) :
    ∀ e ∈ tb.attrMap, e.name ≠ target := by
  intro e he hName
  have hNot := List.find?_eq_none.mp hFind e he
  simp [hName] at hNot

theorem reads_simpleFindContainer (h : Heap) (t : Nat) (target : Word) :
    Reads (simpleFindContainer t target) h fun r => ∀ c, r = some c → TableReaches h t c := by
  apply (reads_readTable h t).bind
  intro tb hCell
  split
  · apply Reads.pure
    rintro c ⟨⟩
    exact .refl
  · cases hFind : tb.attrMap.find? fun e => e.type = .container && target = e.name with
    | none =>
      apply Reads.pure
      rintro c ⟨⟩
    | some e =>
      have hMem := List.mem_of_find?_eq_some hFind
      have hType := List.find?_some hFind
      simp only [Bool.and_eq_true, decide_eq_true_eq] at hType
      dsimp only
      cases hPtr : e.attributes with
      | null =>
        apply Reads.pure
        rintro c ⟨⟩
      | ref c =>
        apply Reads.pure
        rintro _ ⟨⟩
        exact .single ⟨tb, hCell, e, hMem, hType.1, hPtr⟩
      | indeterminate => exact Reads.undefined

theorem reads_findContainerParts (h : Heap) (parts : List Word) (t : Nat) :
    Reads (findContainerParts t parts) h fun r => ∀ c, r = some c → TableReaches h t c := by
  induction parts generalizing t with
  | nil =>
    apply Reads.pure
    rintro c ⟨⟩
  | cons container parts ih =>
    cases parts with
    | nil => exact reads_simpleFindContainer h t container
    | cons part parts =>
      apply (reads_simpleFindContainer h t container).bind
      rintro (_ | a) hReach
      · apply Reads.pure
        rintro c ⟨⟩
      · refine Call.Ends.conseq (ih a) ?_ fun _ _ hFault => hFault
        rintro r _ ⟨rfl, hRest⟩
        exact ⟨rfl, fun c hc => (hReach a rfl).trans (hRest c hc)⟩

theorem reads_recurrsiveFindFrom {rec : Nat → Call Heap (Option Entry)} {t : Nat} {tb : AttrTable} {target : Word}
    (hRec : ∀ c, Reads (rec c) h fun r => ∀ f, r = some f → ReachesEntry h c f) (hCell : h.tables.cell t = some tb)
    (es : List Entry) (hMem : ∀ e ∈ es, e ∈ tb.attrMap) :
    Reads (recurrsiveFindFrom rec target es) h fun r => ∀ f, r = some f → ReachesEntry h t f := by
  induction es with
  | nil =>
    apply Reads.pure
    rintro f ⟨⟩
  | cons e es ih =>
    have hRest := ih fun e' he' => hMem e' (List.mem_cons_of_mem e he')
    rw [recurrsiveFindFrom]
    split
    · apply Reads.pure
      rintro _ ⟨⟩
      exact ⟨t, tb, .refl, hCell, hMem e List.mem_cons_self⟩
    · split
      · rename_i hType
        apply (reads_deref h e.attributes).bind
        intro c hPtr
        apply (hRec c).bind
        rintro (_ | f) hFound
        · exact hRest
        · apply Reads.pure
          rintro _ ⟨⟩
          obtain ⟨x, tb', hReach, hCell', hMem'⟩ := hFound f rfl
          have hPoints : Points h t c := ⟨tb, hCell, e, hMem e List.mem_cons_self, hType, hPtr⟩
          exact ⟨x, tb', .head hPoints hReach, hCell', hMem'⟩
      · exact hRest

theorem reads_recurrsiveFind (h : Heap) (target : Word) (stack t : Nat) :
    Reads (recurrsiveFind target stack t) h fun r => ∀ f, r = some f → ReachesEntry h t f := by
  induction stack generalizing t with
  | zero => exact Reads.undefined
  | succ stack ih =>
    apply (reads_readTable h t).bind
    intro tb hCell
    exact reads_recurrsiveFindFrom ih hCell tb.attrMap fun _ he => he

theorem reads_find (h : Heap) (stack t : Nat) (target : Word) :
    Reads (find stack t target) h fun r => ∀ f, r = some f → ReachesEntry h t f := by
  rw [find]
  split
  · apply (reads_findContainerParts h _ t).bind
    rintro (_ | a) hReach
    · apply Reads.pure
      rintro f ⟨⟩
    · apply (reads_readTable h a).bind
      intro tb hCell
      apply Reads.pure
      intro f hFind
      exact ⟨a, tb, hReach a rfl, hCell, (simpleFind_mem hFind).1⟩
  · exact reads_recurrsiveFind h target stack t

end Searched

/-! ## Ownership -/

def Entry.Holds (e : Entry) (c : Nat) : Prop := e.isAlias = false ∧ e.type = .container ∧ e.attributes = .ref c

def Entry.Owns (e : Entry) (v : Nat) : Prop := e.isAlias = false ∧ e.type ≠ .container ∧ e.attr = .ref v

/-- What is destroyed with the entries is held by them or by a table that is destroyed too. -/
structure OwnedBy (h : Heap) (es : List Entry) (o : List Nat × List Nat) : Prop where
  tables : ∀ y ∈ o.1, (∃ e ∈ es, e.Holds y) ∨
    ∃ x ∈ o.1, ∃ tb, h.tables.cell x = some tb ∧ ∃ e ∈ tb.attrMap, e.Holds y
  values : ∀ v ∈ o.2, (∃ e ∈ es, e.Owns v) ∨
    ∃ x ∈ o.1, ∃ tb, h.tables.cell x = some tb ∧ ∃ e ∈ tb.attrMap, e.Owns v
  reached : ∀ y ∈ o.1, ∃ e ∈ es, ∃ c, e.Holds c ∧ TableReaches h c y

namespace OwnedBy

variable {h : Heap} {own : Nat → Option (List Nat × List Nat)}

theorem nil (es : List Entry) : OwnedBy h es ([], []) := by
  constructor
  all_goals
    intro y hy
    cases hy

theorem append {e : Entry} {es : List Entry} {o p : List Nat × List Nat} (hFirst : OwnedBy h [e] o)
    (hRest : OwnedBy h es p) : OwnedBy h (e :: es) (o.1 ++ p.1, o.2 ++ p.2) := by
  constructor
  · intro y hy
    rcases List.mem_append.mp hy with hIn | hIn
    · rcases hFirst.tables y hIn with ⟨e', he', hHolds⟩ | ⟨x, hx, hHolds⟩
      · cases List.mem_singleton.mp he'
        exact .inl ⟨e, List.mem_cons_self, hHolds⟩
      · exact .inr ⟨x, List.mem_append_left _ hx, hHolds⟩
    · rcases hRest.tables y hIn with ⟨e', he', hHolds⟩ | ⟨x, hx, hHolds⟩
      · exact .inl ⟨e', List.mem_cons_of_mem e he', hHolds⟩
      · exact .inr ⟨x, List.mem_append_right _ hx, hHolds⟩
  · intro v hv
    rcases List.mem_append.mp hv with hIn | hIn
    · rcases hFirst.values v hIn with ⟨e', he', hOwns⟩ | ⟨x, hx, hOwns⟩
      · cases List.mem_singleton.mp he'
        exact .inl ⟨e, List.mem_cons_self, hOwns⟩
      · exact .inr ⟨x, List.mem_append_left _ hx, hOwns⟩
    · rcases hRest.values v hIn with ⟨e', he', hOwns⟩ | ⟨x, hx, hOwns⟩
      · exact .inl ⟨e', List.mem_cons_of_mem e he', hOwns⟩
      · exact .inr ⟨x, List.mem_append_right _ hx, hOwns⟩
  · intro y hy
    rcases List.mem_append.mp hy with hIn | hIn
    · obtain ⟨e', he', hReach⟩ := hFirst.reached y hIn
      cases List.mem_singleton.mp he'
      exact ⟨e, List.mem_cons_self, hReach⟩
    · obtain ⟨e', he', hReach⟩ := hRest.reached y hIn
      exact ⟨e', List.mem_cons_of_mem e he', hReach⟩

theorem ofEntry (hOwn : ∀ e c o, e.Holds c → own c = some o → OwnedBy h [e] o) {e : Entry} {o : List Nat × List Nat}
    (hEntry : ownedEntry h own e = some o) : OwnedBy h [e] o := by
  rw [ownedEntry] at hEntry
  split at hEntry
  · cases hEntry
    exact nil [e]
  · rename_i hAlias
    rw [Bool.not_eq_true] at hAlias
    split at hEntry
    · rename_i hType
      split at hEntry
      · cases hEntry
        exact nil [e]
      · rename_i c hPtr
        exact hOwn e c o ⟨hAlias, hType, hPtr⟩ hEntry
      · cases hEntry
    · rename_i hType
      split at hEntry
      · cases hEntry
        exact nil [e]
      · rename_i v hPtr
        obtain ⟨vals, -, rfl⟩ := Option.map_eq_some_iff.mp hEntry
        constructor
        · intro y hy
          cases hy
        · intro w hw
          cases List.mem_singleton.mp hw
          exact .inl ⟨e, List.mem_singleton_self e, hAlias, hType, hPtr⟩
        · intro y hy
          cases hy
      · cases hEntry

theorem ofEntries (hOwn : ∀ e c o, e.Holds c → own c = some o → OwnedBy h [e] o) {es : List Entry}
    {o : List Nat × List Nat} (hEntries : ownedEntries h own es = some o) : OwnedBy h es o := by
  induction es generalizing o with
  | nil =>
    cases hEntries
    exact nil []
  | cons e es ih =>
    obtain ⟨first, hFirst, hEntries⟩ := Option.bind_eq_some_iff.mp hEntries
    obtain ⟨rest, hRest, hEntries⟩ := Option.bind_eq_some_iff.mp hEntries
    cases hEntries
    exact append (ofEntry hOwn hFirst) (ih hRest)

theorem ofTable (stack : Nat) {e : Entry} {c : Nat} {o : List Nat × List Nat} (hHolds : e.Holds c)
    (hOwned : owned h stack c = some o) : OwnedBy h [e] o := by
  induction stack generalizing e c o with
  | zero => cases hOwned
  | succ stack ih =>
    obtain ⟨tb, hCell, hOwned⟩ := Option.bind_eq_some_iff.mp hOwned
    obtain ⟨below, hBelow, hOwned⟩ := Option.bind_eq_some_iff.mp hOwned
    cases hOwned
    have hEntries := ofEntries (fun e c o hHolds hOwn => ih hHolds hOwn) hBelow
    constructor
    · intro y hy
      rcases List.mem_cons.mp hy with rfl | hy
      · exact .inl ⟨e, List.mem_singleton_self e, hHolds⟩
      · right
        rcases hEntries.tables y hy with hEntry | ⟨x, hx, hEntry⟩
        · exact ⟨c, List.mem_cons_self, tb, hCell, hEntry⟩
        · exact ⟨x, List.mem_cons_of_mem c hx, hEntry⟩
    · intro v hv
      right
      rcases hEntries.values v hv with hEntry | ⟨x, hx, hEntry⟩
      · exact ⟨c, List.mem_cons_self, tb, hCell, hEntry⟩
      · exact ⟨x, List.mem_cons_of_mem c hx, hEntry⟩
    · intro y hy
      refine ⟨e, List.mem_singleton_self e, c, hHolds, ?_⟩
      rcases List.mem_cons.mp hy with rfl | hy
      · exact .refl
      · obtain ⟨e', he', c', hHolds', hReach⟩ := hEntries.reached y hy
        exact .head ⟨tb, hCell, e', he', hHolds'.2.1, hHolds'.2.2⟩ hReach

end OwnedBy

theorem ownedBy_entry {h : Heap} {stack : Nat} {e : Entry} {o : List Nat × List Nat}
    (hEntry : ownedEntry h (owned h stack) e = some o) : OwnedBy h [e] o :=
  .ofEntry (fun _ _ _ hHolds hOwn => .ofTable stack hHolds hOwn) hEntry

theorem ownedBy_entries {h : Heap} {stack : Nat} {es : List Entry} {o : List Nat × List Nat}
    (hEntries : ownedEntries h (owned h stack) es = some o) : OwnedBy h es o :=
  .ofEntries (fun _ _ _ hHolds hOwn => .ofTable stack hHolds hOwn) hEntries

/-! ## One operation -/

/-- Tables are also made outside of any other. -/
inductive AttrOp
  | make
  | appendAttr (t : Nat) (name type : Word) (values : List Word)
  | appendContainer (t : Nat) (name : Word)
  | appendTable (t at_ : Nat) (name : Word)
  | delAttr (t : Nat) (name : Word) (i : Int)
  | delAttrTable (t iter : Nat)
  | addContainerAlias (t : Nat) (name : Word) (src : Nat)
  | addValueAlias (das t : Nat) (name source : Word)

def AttrOp.call (stack : Nat) : AttrOp → Call Heap Unit
  | make => do
    let _ ← newTable
    pure ()
  | appendAttr t name type values => do
    let _ ← Dap2.appendAttr t name type values
    pure ()
  | appendContainer t name => do
    let _ ← Dap2.appendContainer t name
    pure ()
  | appendTable t at_ name => do
    let _ ← Dap2.appendTable t at_ name
    pure ()
  | delAttr t name i => Dap2.delAttr stack t name i
  | delAttrTable t iter => Dap2.delAttrTable t iter
  | addContainerAlias t name src => Dap2.addContainerAlias t name src
  | addValueAlias das t name source => Dap2.addValueAlias stack das t name source

def AttrTable.new : AttrTable := ⟨[], .null, [], true⟩

def Heap.make (h : Heap) : Heap := { h with tables := h.tables.alloc .new }

def Heap.change (h : Heap) (t : Nat) (f : AttrTable → AttrTable) : Heap := { h with tables := h.tables.modify t f }

def valueEntry (name type : Word) (v : Nat) : Entry :=
  ⟨removeSpaceEncoding name, stringToAttrType type, false, [], true, .null, .ref v⟩

def Heap.withValues (h : Heap) (t : Nat) (name type : Word) (values : List Word) : Heap :=
  ({ h with values := h.values.alloc values } : Heap).change t (AttrTable.push (valueEntry name type h.values.next))

def tableEntry (name : Word) (c : Nat) : Entry := ⟨removeSpaceEncoding name, .container, false, [], true, .ref c, .null⟩

def Heap.withTable (h : Heap) (t c : Nat) (name : Word) : Heap :=
  ((h.change c (AttrTable.setName (removeSpaceEncoding name))).change t (AttrTable.push (tableEntry name c))).change c
    (AttrTable.setParent (.ref t))

def AttrTable.eraseNamed (n : Word) (tb : AttrTable) : AttrTable :=
  { tb with attrMap := tb.attrMap.eraseP fun e => n = e.name }

def AttrTable.eraseAt (i : Nat) (tb : AttrTable) : AttrTable := { tb with attrMap := tb.attrMap.eraseIdx i }

def aliasEntry (name lsource : Word) (f : Entry) : Entry where
  name := removeSpaceEncoding name
  type := f.type
  isAlias := true
  aliasedTo := lsource
  isGlobal := true
  attributes := if f.type = .container then f.attributes else .null
  attr := if f.type = .container then .null else f.attr

/-- What is destroyed with the entry after it was taken out of the table. -/
def Destroyed (h : Heap) (t : Nat) (name : Word) (e : Entry) (o : List Nat × List Nat) : Prop :=
  ∃ stack, ownedEntry (h.change t (AttrTable.eraseNamed (removeSpaceEncoding name)))
    (owned (h.change t (AttrTable.eraseNamed (removeSpaceEncoding name))) stack) e = some o

inductive Step (h : Heap) : AttrOp → Heap → Prop
  | nothing (o : AttrOp) : Step h o h
  | made : Step h .make h.make
  | appended {t : Nat} {name type : Word} {values old : List Word} {tb : AttrTable} {e : Entry} {v : Nat}
    (hTable : h.tables.cell t = some tb) (hFind : tb.simpleFind (removeSpaceEncoding name) = some e)
    (hType : e.type ≠ .container) (hAttr : e.attr = .ref v) (hOld : h.values.cell v = some old) :
    Step h (.appendAttr t name type values) { h with values := h.values.modify v fun old => old ++ values }
  | added {t : Nat} {name type : Word} {values : List Word} {tb : AttrTable}
    (hTable : h.tables.cell t = some tb) (hFind : tb.simpleFind (removeSpaceEncoding name) = none) :
    Step h (.appendAttr t name type values) (h.withValues t name type values)
  | refused {t : Nat} {name : Word} :
    Step h (.appendContainer t name) { h with tables := h.make.tables.free h.tables.next }
  | containerAdded {t : Nat} {name : Word} {tb : AttrTable}
    (hTable : h.tables.cell t = some tb) (hFind : tb.simpleFind name = none) :
    Step h (.appendContainer t name) (h.make.withTable t h.tables.next name)
  | tableAdded {t c : Nat} {name : Word} {tb ctb : AttrTable} (hTable : h.tables.cell t = some tb)
    (hFind : tb.simpleFind name = none) (hHeld : h.tables.cell c = some ctb) :
    Step h (.appendTable t c name) (h.withTable t c name)
  | valueDeleted {t : Nat} {name : Word} {i : Int} {tb : AttrTable} {e : Entry} {v : Nat} {vals : List Word}
    (hTable : h.tables.cell t = some tb) (hFind : tb.simpleFind (removeSpaceEncoding name) = some e)
    (hOne : i ≠ -1) (hType : e.type ≠ .container) (hAttr : e.attr = .ref v) (hVals : h.values.cell v = some vals)
    (hIndex : 0 ≤ i ∧ i < vals.length) :
    Step h (.delAttr t name i) { h with values := h.values.modify v fun vals => vals.eraseIdx i.toNat }
  | deleted {t : Nat} {name : Word} {tb : AttrTable} {e : Entry} {o : List Nat × List Nat}
    (hTable : h.tables.cell t = some tb) (hFind : tb.simpleFind (removeSpaceEncoding name) = some e)
    (hOwned : Destroyed h t name e o) :
    Step h (.delAttr t name (-1)) ((h.change t (AttrTable.eraseNamed (removeSpaceEncoding name))).freed o)
  | releasedNull {t iter : Nat} {tb : AttrTable} {e : Entry} (hTable : h.tables.cell t = some tb)
    (hEntry : tb.attrMap[iter]? = some e) (hNull : e.attributes = .null) :
    Step h (.delAttrTable t iter) (h.change t (AttrTable.eraseAt iter))
  | released {t iter c : Nat} {tb ctb : AttrTable} {e : Entry} (hTable : h.tables.cell t = some tb)
    (hEntry : tb.attrMap[iter]? = some e) (hType : e.type = .container) (hHeld : e.attributes = .ref c)
    (hCell : h.tables.cell c = some ctb) :
    Step h (.delAttrTable t iter) ((h.change c (AttrTable.setParent .null)).change t (AttrTable.eraseAt iter))
  | containerAliased {t src : Nat} {name : Word} {tb stb : AttrTable} (hTable : h.tables.cell t = some tb)
    (hFind : tb.simpleFind (removeSpaceEncoding name) = none) (hSource : h.tables.cell src = some stb) :
    Step h (.addContainerAlias t name src) (h.change t (AttrTable.push
      ⟨removeSpaceEncoding name, .container, true, stb.dName, true, .ref src, .null⟩))
  | valueAliased {das t : Nat} {name source : Word} {tb : AttrTable} {f : Entry}
    (hTable : h.tables.cell t = some tb) (hFind : tb.simpleFind (removeSpaceEncoding name) = none)
    (hFrom : ReachesEntry h das f ∨ ReachesEntry h t f) :
    Step h (.addValueAlias das t name source) (h.change t (AttrTable.push
      (aliasEntry name (removeSpaceEncoding source) f)))

section Inversion

variable {h h' : Heap}

theorem appendAttr_step {t : Nat} {name type : Word} {values : List Word}
    (hAfter : (appendAttr t name type values).after h = some h') : Step h (.appendAttr t name type values) h' := by
  simp only [appendAttr, after_readTable] at hAfter
  obtain ⟨tb, hTable, hAfter⟩ := hAfter
  cases hFind : tb.simpleFind (removeSpaceEncoding name) with
  | none =>
    simp only [hFind, after_newValues, after_modifyTable, after_pure] at hAfter
    obtain ⟨_, _, rfl⟩ := hAfter
    exact .added hTable hFind
  | some e =>
    simp only [hFind] at hAfter
    split at hAfter
    · cases after_throw.mp hAfter
      exact .nothing _
    · split at hAfter
      · cases after_throw.mp hAfter
        exact .nothing _
      · rename_i hType
        simp only [after_deref, after_modifyValues, after_readValues, after_pure] at hAfter
        obtain ⟨v, hAttr, old, hOld, _, _, rfl⟩ := hAfter
        exact .appended hTable hFind hType hAttr hOld

theorem appendTable_ok {t c r : Nat} {name : Word} (hRun : appendTable t c name h = .ok r h') :
    ∃ tb ctb, h.tables.cell t = some tb ∧ tb.simpleFind name = none ∧ h.tables.cell c = some ctb ∧
      h' = h.withTable t c name := by
  simp only [appendTable, Call.bind_ok, readTable_ok] at hRun
  obtain ⟨tb, _, ⟨hTable, rfl⟩, hRun⟩ := hRun
  cases hFind : tb.simpleFind name with
  | some e =>
    rw [hFind] at hRun
    cases hRun
  | none =>
    rw [hFind] at hRun
    simp only [Call.bind_ok, modifyTable_ok, Call.pure_ok] at hRun
    obtain ⟨_, _, ⟨ctb, hHeld, rfl⟩, _, _, ⟨_, _, rfl⟩, _, _, ⟨_, _, rfl⟩, _, rfl⟩ := hRun
    exact ⟨tb, ctb, hTable, hFind, hHeld, rfl⟩

theorem appendTable_error {t c : Nat} {name : Word} {f : Fault} (hRun : appendTable t c name h = .error f h') :
    f = .undefined ∨ (f = alreadyThere1 name ∧ h' = h) := by
  rcases Call.bind_error.mp hRun with hRead | ⟨tb, h₁, hRead, hRest⟩
  · exact .inl (defined_readTable t h f h' hRead)
  · obtain ⟨-, rfl⟩ := readTable_ok.mp hRead
    cases hFind : tb.simpleFind name with
    | some e =>
      rw [hFind] at hRest
      cases hRest
      exact .inr ⟨rfl, rfl⟩
    | none =>
      rw [hFind] at hRest
      have hDefined : Defined (do
          modifyTable c (AttrTable.setName (removeSpaceEncoding name))
          modifyTable t (AttrTable.push ⟨removeSpaceEncoding name, .container, false, [], true, .ref c, .null⟩)
          modifyTable c fun tb => { tb with dParent := .ref t }
          pure c) :=
        (defined_modifyTable _ _).bind fun _ => (defined_modifyTable _ _).bind fun _ =>
          (defined_modifyTable _ _).bind fun _ => Defined.pure
      exact .inl (hDefined _ _ _ hRest)

theorem appendTable_step {t c : Nat} {name : Word} (hAfter : (appendTable t c name).after h = some h') :
    Step h (.appendTable t c name) h' := by
  rw [Call.after] at hAfter
  split at hAfter
  · rename_i hRun
    cases hAfter
    obtain ⟨tb, ctb, hTable, hFind, hHeld, rfl⟩ := appendTable_ok hRun
    exact .tableAdded hTable hFind hHeld
  · cases hAfter
  · rename_i hNot hRun
    cases hAfter
    rcases appendTable_error hRun with hFault | ⟨-, rfl⟩
    · exact absurd hFault hNot
    · exact .nothing _

theorem appendContainer_step {t : Nat} {name : Word} (hAfter : (appendContainer t name).after h = some h') :
    Step h (.appendContainer t name) h' := by
  rw [appendContainer, after_readTable] at hAfter
  obtain ⟨tb, hTable, hAfter⟩ := hAfter
  rw [after_newTable] at hAfter
  change (catchError (appendTable t h.tables.next name) _).after h.make = some h' at hAfter
  rw [Call.after, catchError] at hAfter
  cases hRun : appendTable t h.tables.next name h.make with
  | ok r h₁ =>
    rw [hRun] at hAfter
    cases hAfter
    obtain ⟨tb', ctb, hTable', hFind, -, rfl⟩ := appendTable_ok hRun
    rw [Heap.make, Store.alloc_of_live _ hTable] at hTable'
    cases hTable'
    exact .containerAdded hTable hFind
  | error f h₁ =>
    rw [hRun] at hAfter
    rcases appendTable_error hRun with rfl | ⟨rfl, rfl⟩
    · cases hAfter
    · obtain ⟨_, _, hFree⟩ := after_freeTable.mp hAfter
      cases after_throw.mp hFree
      exact .refused

theorem delAttr_step {stack t : Nat} {name : Word} {i : Int} (hAfter : (delAttr stack t name i).after h = some h') :
    Step h (.delAttr t name i) h' := by
  simp only [delAttr, after_readTable] at hAfter
  obtain ⟨tb, hTable, hAfter⟩ := hAfter
  cases hFind : tb.simpleFind (removeSpaceEncoding name) with
  | none =>
    rw [hFind] at hAfter
    cases after_pure.mp hAfter
    exact .nothing _
  | some e =>
    rw [hFind] at hAfter
    dsimp only at hAfter
    split at hAfter
    · rename_i hAll
      subst hAll
      obtain ⟨_, _, hAfter⟩ := after_modifyTable.mp hAfter
      have hDelete := (defined_deleteEntry (defined_deleteTable stack) e).after.mp hAfter
      obtain ⟨o, hOwned, rfl⟩ :=
        deleteEntry_ok (fun c g g' hPart hDel => deleteTable_ok stack hPart hDel) (Subheap.refl _) hDelete
      exact .deleted hTable hFind ⟨stack, hOwned⟩
    · rename_i hOne
      split at hAfter
      · cases after_pure.mp hAfter
        exact .nothing _
      · rename_i hType
        simp only [after_deref, after_readValues] at hAfter
        obtain ⟨v, hAttr, vals, hVals, hAfter⟩ := hAfter
        split at hAfter
        · rename_i hIndex
          obtain ⟨_, _, rfl⟩ := after_modifyValues_last.mp hAfter
          exact .valueDeleted hTable hFind hOne hType hAttr hVals hIndex
        · exact (after_undefined.mp hAfter).elim

theorem delAttrTable_step {t iter : Nat} (hAfter : (delAttrTable t iter).after h = some h') :
    Step h (.delAttrTable t iter) h' := by
  simp only [delAttrTable, after_readTable] at hAfter
  obtain ⟨tb, hTable, hAfter⟩ := hAfter
  cases hEntry : tb.attrMap[iter]? with
  | none =>
    rw [hEntry] at hAfter
    exact (after_undefined.mp hAfter).elim
  | some e =>
    rw [hEntry] at hAfter
    dsimp only at hAfter
    split at hAfter
    · cases after_pure.mp hAfter
      exact .nothing _
    · rename_i hType
      rw [ne_eq, not_not] at hType
      cases hPtr : e.attributes with
      | null =>
        simp only [hPtr] at hAfter
        obtain ⟨_, _, rfl⟩ := after_modifyTable_last.mp hAfter
        exact .releasedNull hTable hEntry hPtr
      | ref c =>
        simp only [hPtr, after_modifyTable] at hAfter
        obtain ⟨ctb, hCell, hAfter⟩ := hAfter
        obtain ⟨_, _, rfl⟩ := after_modifyTable_last.mp hAfter
        exact .released hTable hEntry hType hPtr hCell
      | indeterminate =>
        simp only [hPtr] at hAfter
        cases hAfter

theorem addContainerAlias_step {t src : Nat} {name : Word} (hAfter : (addContainerAlias t name src).after h = some h') :
    Step h (.addContainerAlias t name src) h' := by
  simp only [addContainerAlias, after_readTable] at hAfter
  obtain ⟨tb, hTable, hAfter⟩ := hAfter
  cases hFind : tb.simpleFind (removeSpaceEncoding name) with
  | some e =>
    rw [hFind] at hAfter
    cases after_throw.mp hAfter
    exact .nothing _
  | none =>
    simp only [hFind, after_readTable] at hAfter
    obtain ⟨stb, hSource, hAfter⟩ := hAfter
    obtain ⟨_, _, rfl⟩ := after_modifyTable_last.mp hAfter
    exact .containerAliased hTable hFind hSource

theorem aliasFound_step {das t : Nat} {name source : Word} {f : Entry}
    (hFrom : ReachesEntry h das f ∨ ReachesEntry h t f)
    (hAfter : (aliasFound das t name (removeSpaceEncoding source) f).after h = some h') :
    Step h (.addValueAlias das t name source) h' := by
  rw [aliasFound] at hAfter
  split at hAfter
  · cases after_throw.mp hAfter
    exact .nothing _
  · obtain ⟨tb, hTable, hAfter⟩ := after_readTable.mp hAfter
    cases hFind : tb.simpleFind (removeSpaceEncoding name) with
    | some e =>
      rw [hFind] at hAfter
      cases after_throw.mp hAfter
      exact .nothing _
    | none =>
      rw [hFind] at hAfter
      obtain ⟨_, _, rfl⟩ := after_modifyTable_last.mp hAfter
      exact .valueAliased hTable hFind hFrom

theorem addValueAlias_step {stack das t : Nat} {name source : Word}
    (hAfter : (addValueAlias stack das t name source).after h = some h') :
    Step h (.addValueAlias das t name source) h' := by
  rw [addValueAlias] at hAfter
  obtain ⟨found, hFound, hAfter⟩ := (reads_find h stack das _).after_bind hAfter
  cases found with
  | some f => exact aliasFound_step (.inl (hFound f rfl)) hAfter
  | none =>
    obtain ⟨found, hFound, hAfter⟩ := (reads_find h stack t _).after_bind hAfter
    cases found with
    | some f => exact aliasFound_step (.inr (hFound f rfl)) hAfter
    | none =>
      cases after_throw.mp hAfter
      exact .nothing _

theorem AttrOp.step {stack : Nat} {o : AttrOp} (hAfter : (o.call stack).after h = some h') : Step h o h' := by
  cases o with
  | make =>
    cases hAfter
    exact .made
  | appendAttr t name type values => exact appendAttr_step (after_discard.mp hAfter)
  | appendContainer t name => exact appendContainer_step (after_discard.mp hAfter)
  | appendTable t c name => exact appendTable_step (after_discard.mp hAfter)
  | delAttr t name i => exact delAttr_step hAfter
  | delAttrTable t iter => exact delAttrTable_step hAfter
  | addContainerAlias t name src => exact addContainerAlias_step hAfter
  | addValueAlias das t name source => exact addValueAlias_step hAfter

end Inversion

end Libdap.Dap2
