import Libdap.Dap2.AttrTableFence

/-! # Copies of attribute tables

A table without aliases and without entries of an unknown type is copied to new tables and lists. Nothing that is done
to the source later reaches these.
-/

namespace Libdap.Dap2
open Core Constraint
set_option autoImplicit false

/-! ## Sources and copies -/

structure PlainEntry (h : Heap) (plain : Nat → Prop) (e : Entry) : Prop where
  own : e.isAlias = false
  known : e.type ≠ .unknown
  table : e.type = .container → ∃ c, e.attributes = .ref c ∧ plain c
  values : e.type ≠ .container → ∃ v vals, e.attr = .ref v ∧ h.values.cell v = some vals

/-- A table whose containers nest at most `n` deep, all of whose entries are plain. -/
def Plain (h : Heap) : Nat → Nat → Prop
  | 0, _ => False
  | n + 1, t => ∃ tb, h.tables.cell t = some tb ∧ ∀ e ∈ tb.attrMap, PlainEntry h (Plain h n) e

/-- The entry `e'` of the table `c` in `h'` is what `e` is in `h`. -/
structure SameEntry (h h' : Heap) (V : Nat → Prop) (same : Nat → Nat → Prop) (c : Nat) (e e' : Entry) : Prop where
  name : e'.name = e.name
  type : e'.type = e.type
  isAlias : e'.isAlias = e.isAlias
  aliasedTo : e'.aliasedTo = e.aliasedTo
  isGlobal : e'.isGlobal = e.isGlobal
  table : e.type = .container → ∃ a b, e.attributes = .ref a ∧ e'.attributes = .ref b ∧ c < b ∧ same a b ∧
    ∃ tb, h'.tables.cell b = some tb ∧ tb.dParent = .ref c
  values : e.type ≠ .container → ∃ v w vals, e.attr = .ref v ∧ e'.attr = .ref w ∧ V w ∧
    h.values.cell v = some vals ∧ h'.values.cell w = some vals

/-- The table `c` in `h'` is what `t` is in `h`, down to the values, and lies in the tables `F` and the lists `V`. -/
def CopyIn (h h' : Heap) (F V : Nat → Prop) : Nat → Nat → Nat → Prop
  | 0, _, _ => False
  | n + 1, t, c => F c ∧ ∃ tb tb', h.tables.cell t = some tb ∧ h'.tables.cell c = some tb' ∧ tb'.dName = tb.dName ∧
      tb'.dIsGlobalAttribute = tb.dIsGlobalAttribute ∧
      List.Forall₂ (SameEntry h h' V (CopyIn h h' F V n) c) tb.attrMap tb'.attrMap

def CopyOf (h h' : Heap) (t c : Nat) : Prop := ∃ n, CopyIn h h' (fun _ => True) (fun _ => True) n t c

/-- The tables that lead to the copy or to one that was made for it. -/
def LeadsToCopy (h h₁ : Heap) (c x : Nat) : Prop :=
  ∃ y, (y = c ∨ (h.tables.next ≤ y ∧ y < h₁.tables.next)) ∧ TableReaches h₁ x y

/-- The source is unchanged, the copy is equal to it and stays so under later operations, which include all that can be
done with the tables of the source. -/
structure TableCopied (h : Heap) (src : Nat) (h₁ : Heap) (c : Nat) : Prop where
  source : ∀ x, TableReaches h src x → h₁.tables.cell x = h.tables.cell x
  sourceValues : ∀ x e v, TableReaches h src x → h.HasEntry x e → e.type ≠ .container → e.attr = .ref v →
    h₁.values.cell v = h.values.cell v
  equal : CopyOf h h₁ src c
  apart : ∀ x, TableReaches h src x → ¬ LeadsToCopy h h₁ c x
  stays : ∀ h₂, Led h₁ (fun o => ∀ x ∈ o.tables, ¬ LeadsToCopy h h₁ c x) h₂ → CopyOf h h₂ src c

theorem Plain.reached {h : Heap} {n t x : Nat} (hPlain : Plain h n t) (hReach : TableReaches h t x) : ∃ m,
    Plain h m x := by
  induction hReach with
  | refl => exact ⟨n, hPlain⟩
  | tail _ hPoints ih =>
    obtain ⟨m, hPlain⟩ := ih
    obtain ⟨tb, hCell, e, he, hType, hPtr⟩ := hPoints
    cases m with
    | zero => exact hPlain.elim
    | succ m =>
      obtain ⟨tb', hCell', hEntries⟩ := hPlain
      rw [hCell] at hCell'
      cases hCell'
      obtain ⟨c, hPtr', hBelow⟩ := (hEntries e he).table hType
      rw [hPtr] at hPtr'
      cases hPtr'
      exact ⟨m, hBelow⟩

theorem Plain.live {h : Heap} {n t : Nat} (hPlain : Plain h n t) : ∃ tb, h.tables.cell t = some tb := by
  cases n with
  | zero => exact hPlain.elim
  | succ n =>
    obtain ⟨tb, hCell, -⟩ := hPlain
    exact ⟨tb, hCell⟩

/-- A copy is still one when only the parent of its first table has changed. -/
theorem CopyIn.frame {h g g' : Heap} {F F' V V' : Nat → Prop} {n t c : Nat} (hCopy : CopyIn h g F V n t c)
    (hTables : ∀ x, F x → c < x → g'.tables.cell x = g.tables.cell x)
    (hValues : ∀ v, V v → g'.values.cell v = g.values.cell v)
    (hRoot : ∀ tb, g.tables.cell c = some tb → ∃ p, g'.tables.cell c = some (tb.setParent p))
    (hF : ∀ x, F x → F' x) (hV : ∀ v, V v → V' v) : CopyIn h g' F' V' n t c := by
  induction n generalizing t c with
  | zero => exact hCopy.elim
  | succ n ih =>
    obtain ⟨hIn, tb, tb', hCell, hCell', hName, hGlobal, hEntries⟩ := hCopy
    obtain ⟨p, hNew⟩ := hRoot tb' hCell'
    refine ⟨hF c hIn, tb, _, hCell, hNew, hName, hGlobal, ?_⟩
    apply hEntries.imp
    intro e e' hSame
    refine ⟨hSame.name, hSame.type, hSame.isAlias, hSame.aliasedTo, hSame.isGlobal, ?_, ?_⟩
    · intro hType
      obtain ⟨a, b, hPtr, hPtr', hLt, hBelow, btb, hChild, hParent⟩ := hSame.table hType
      have hChildIn : F b := by
        cases n with
        | zero => exact hBelow.elim
        | succ n => exact hBelow.1
      have hKept := hTables b hChildIn hLt
      refine ⟨a, b, hPtr, hPtr', hLt, ?_, btb, hKept.trans hChild, hParent⟩
      apply ih hBelow
      · intro x hx hLater
        exact hTables x hx (hLt.trans hLater)
      · intro d hd
        rw [hKept, hd]
        exact ⟨d.dParent, rfl⟩
    · intro hType
      obtain ⟨v, w, vals, hPtr, hPtr', hMade, hOld, hNew⟩ := hSame.values hType
      exact ⟨v, w, vals, hPtr, hPtr', hV w hMade, hOld, (hValues w hMade).trans hNew⟩

/-! ## What a copy is made of -/

/-- What is at a table of the source in `h` is there in `g` too. -/
structure Sees (h g : Heap) (t : Nat) : Prop where
  tables : ∀ x tb, TableReaches h t x → h.tables.cell x = some tb → g.tables.cell x = some tb
  values : ∀ x e v vals, TableReaches h t x → h.HasEntry x e → e.type ≠ .container → e.attr = .ref v →
    h.values.cell v = some vals → g.values.cell v = some vals

/-- Only the table `t` and what was made since have changed. -/
structure Kept (t : Nat) (g g' : Heap) : Prop where
  tables : ∀ x, x < g.tables.next → x ≠ t → g'.tables.cell x = g.tables.cell x
  values : ∀ v, v < g.values.next → g'.values.cell v = g.values.cell v
  grown : Grown g g'

def Made (g g' : Heap) (x : Nat) : Prop := g.tables.next ≤ x ∧ x < g'.tables.next

def MadeValues (g g' : Heap) (v : Nat) : Prop := g.values.next ≤ v ∧ v < g'.values.next

/-- Copies of tables that nest at most `n` deep. -/
def Copies (h : Heap) (copy : Nat → Call Heap Nat) (n : Nat) : Prop :=
  ∀ c g, Plain h n c → Sees h g c → ∃ g', copy c g = .ok g.tables.next g' ∧ Kept g.tables.next g g' ∧
    CopyIn h g' (Made g g') (MadeValues g g') n c g.tables.next

section Copying

variable {h g g' k : Heap} {t c n : Nat}

theorem Kept.trans (hFirst : Kept t g k) (hRest : Kept t k g') : Kept t g g' := by
  refine ⟨?_, ?_, hFirst.grown.trans hRest.grown⟩
  · intro x hx hNe
    exact (hRest.tables x (hx.trans_le hFirst.grown.tables) hNe).trans (hFirst.tables x hx hNe)
  · intro v hv
    exact (hRest.values v (hv.trans_le hFirst.grown.values)).trans (hFirst.values v hv)

theorem Kept.change (g : Heap) (t : Nat) (f : AttrTable → AttrTable) : Kept t g (g.change t f) :=
  ⟨fun _ _ hNe => change_of_ne hNe, fun _ _ => rfl, grown_change g t f⟩

/-- What was made at the next place may change. -/
theorem Kept.fresh (hKept : Kept g.tables.next g g') : Kept t g g' :=
  ⟨fun x hx _ => hKept.tables x hx hx.ne, hKept.values, hKept.grown⟩

theorem Sees.below (hSees : Sees h g t) (hReach : TableReaches h t c) : Sees h g c :=
  ⟨fun x tb hx => hSees.tables x tb (hReach.trans hx), fun x e v vals hx => hSees.values x e v vals (hReach.trans hx)⟩

theorem Sees.kept (hSees : Sees h g c) (hKept : Kept t g g') (hAvoid : ∀ x, TableReaches h c x → x ≠ t) :
    Sees h g' c := by
  constructor
  · intro x tb hx hCell
    have hSeen := hSees.tables x tb hx hCell
    exact (hKept.tables x (Store.lt_next hSeen) (hAvoid x hx)).trans hSeen
  · intro x e v vals hx he hType hPtr hCell
    have hSeen := hSees.values x e v vals hx he hType hPtr hCell
    exact (hKept.values v (Store.lt_next hSeen)).trans hSeen

theorem pushEntry_values {e : Entry} {d : AttrTable} (hType : e.type ≠ .container) (hCell : g.tables.cell t = some d) :
    pushEntry t e g = .ok () (g.change t (AttrTable.push e)) := by
  rw [pushEntry, if_neg hType]
  exact Call.bind_ok.mpr ⟨(), _, modifyTable_ok.mpr ⟨d, hCell, rfl⟩, rfl⟩

theorem pushEntry_table {e : Entry} {d dc : AttrTable} (hType : e.type = .container) (hPtr : e.attributes = .ref c)
    (hCell : g.tables.cell t = some d) (hChild : g.tables.cell c = some dc) (hNe : c ≠ t) :
    pushEntry t e g = .ok () ((g.change t (AttrTable.push e)).change c (AttrTable.setParent (.ref t))) := by
  rw [pushEntry, if_pos hType]
  refine Call.bind_ok.mpr ⟨(), _, modifyTable_ok.mpr ⟨d, hCell, rfl⟩, ?_⟩
  refine Call.bind_ok.mpr ⟨c, _, deref_ok.mpr ⟨hPtr, rfl⟩, ?_⟩
  exact modifyTable_ok.mpr ⟨dc, (change_of_ne hNe).trans hChild, rfl⟩

/-- The copy of an entry with the table or the list that was made for it. -/
def Entry.withTable (e : Entry) (b : Nat) : Entry := { e with attributes := .ref b, attr := .indeterminate }

def Entry.withValues (e : Entry) (w : Nat) : Entry := { e with attributes := .indeterminate, attr := .ref w }

def Heap.pushTable (g : Heap) (t : Nat) (e : Entry) (b : Nat) : Heap :=
  (g.change t (AttrTable.push e)).change b (AttrTable.setParent (.ref t))

/-- One entry is copied and becomes the last one of the table. -/
theorem entry_done {copy : Nat → Call Heap Nat} (hCopy : Copies h copy n) {at_ : Nat} {e : Entry} {d : AttrTable}
    (hCell : g.tables.cell t = some d) (hEntry : h.HasEntry at_ e) (hPlain : PlainEntry h (Plain h n) e)
    (hSees : Sees h g at_) :
    ∃ e' k, (copyEntry copy e >>= pushEntry t) g = .ok () k ∧ k.tables.cell t = some (d.push e') ∧ Kept t g k ∧
      ∀ g', Kept t k g' → SameEntry h g' (MadeValues g g') (CopyIn h g' (Made g g') (MadeValues g g') n) t e e' := by
  have hBelow : t < g.tables.next := Store.lt_next hCell
  by_cases hType : e.type = .container
  · obtain ⟨a, hPtr, hPlain'⟩ := hPlain.table hType
    obtain ⟨tb, hAt, hMem⟩ := hEntry
    have hPoints : Points h at_ a := ⟨tb, hAt, e, hMem, hType, hPtr⟩
    obtain ⟨g₁, hRun, hKept, hIn⟩ := hCopy a g hPlain' (hSees.below (.single hPoints))
    have hMade : g.tables.next < g₁.tables.next := by
      cases n with
      | zero => exact hIn.elim
      | succ n => exact hIn.1.2
    have hChild : ∃ dc, g₁.tables.cell g.tables.next = some dc := by
      cases n with
      | zero => exact hIn.elim
      | succ n =>
        obtain ⟨-, -, dc, -, hNew, -⟩ := hIn
        exact ⟨dc, hNew⟩
    obtain ⟨dc, hChild⟩ := hChild
    have hCell₁ : g₁.tables.cell t = some d := (hKept.tables t hBelow hBelow.ne).trans hCell
    have hPush := pushEntry_table (e := e.withTable g.tables.next) hType rfl hCell₁ hChild hBelow.ne'
    have hSame : ∀ x, x ≠ t → x ≠ g.tables.next →
        (g₁.pushTable t (e.withTable g.tables.next) g.tables.next).tables.cell x = g₁.tables.cell x :=
      fun x hTable hRoot => (change_of_ne hRoot).trans (change_of_ne hTable)
    have hRoot := change_self (f := AttrTable.setParent (.ref t))
      ((change_of_ne (h := g₁) (f := AttrTable.push (e.withTable g.tables.next)) hBelow.ne').trans hChild)
    refine ⟨e.withTable g.tables.next, g₁.pushTable t (e.withTable g.tables.next) g.tables.next, ?_, ?_, ?_, ?_⟩
    · refine Call.bind_ok.mpr ⟨_, g₁, ?_, hPush⟩
      rw [copyEntry_container copy hType, if_neg (by rw [hPlain.own]; exact Bool.false_ne_true)]
      refine Call.bind_ok.mpr ⟨a, g, deref_ok.mpr ⟨hPtr, rfl⟩, ?_⟩
      exact Call.bind_ok.mpr ⟨_, g₁, hRun, rfl⟩
    · exact (change_of_ne hBelow.ne).trans (change_self hCell₁)
    · exact ⟨fun x hx hNe => (hSame x hNe hx.ne).trans (hKept.tables x hx hx.ne), hKept.values,
        ⟨hKept.grown.tables, hKept.grown.values⟩⟩
    · intro g' hLater
      refine ⟨rfl, rfl, rfl, rfl, rfl, ?_, fun hValues => absurd hType hValues⟩
      intro _
      have hRoot' := (hLater.tables g.tables.next hMade hBelow.ne').trans hRoot
      refine ⟨a, g.tables.next, hPtr, rfl, hBelow, ?_, _, hRoot', rfl⟩
      apply hIn.frame
      · intro x hx hAfter
        have hNe : x ≠ t := (hBelow.trans hAfter).ne'
        exact (hLater.tables x hx.2 hNe).trans (hSame x hNe hAfter.ne')
      · intro v hv
        exact hLater.values v hv.2
      · intro dc' hdc'
        rw [hChild] at hdc'
        cases hdc'
        exact ⟨.ref t, hRoot'⟩
      · intro x hx
        exact ⟨hx.1, hx.2.trans_le hLater.grown.tables⟩
      · intro v hv
        exact ⟨hv.1, hv.2.trans_le hLater.grown.values⟩
  · obtain ⟨v, vals, hPtr, hVals⟩ := hPlain.values hType
    have hSeen := hSees.values at_ e v vals .refl hEntry hType hPtr hVals
    have hCell₁ : ({ g with values := g.values.alloc vals } : Heap).tables.cell t = some d := hCell
    have hPush := pushEntry_values (e := e.withValues g.values.next) hType hCell₁
    have hAlloc : Kept t g { g with values := g.values.alloc vals } :=
      ⟨fun _ _ _ => rfl, fun w hw => Store.alloc_of_ne _ hw.ne, ⟨Nat.le_refl _, Nat.le_succ _⟩⟩
    refine ⟨e.withValues g.values.next, ({ g with values := g.values.alloc vals } : Heap).change t
      (AttrTable.push (e.withValues g.values.next)), ?_, ?_, ?_, ?_⟩
    · refine Call.bind_ok.mpr ⟨_, _, ?_, hPush⟩
      rw [copyEntry_values copy hPlain.known hType, if_neg (by rw [hPlain.own]; exact Bool.false_ne_true)]
      refine Call.bind_ok.mpr ⟨v, g, deref_ok.mpr ⟨hPtr, rfl⟩, ?_⟩
      refine Call.bind_ok.mpr ⟨vals, g, readValues_ok.mpr ⟨hSeen, rfl⟩, ?_⟩
      rfl
    · exact change_self hCell₁
    · exact hAlloc.trans (Kept.change _ t _)
    · intro g' hLater
      refine ⟨rfl, rfl, rfl, rfl, rfl, fun hContainer => absurd hContainer hType, ?_⟩
      intro _
      have hNew : g.values.next < g'.values.next := (Nat.lt_succ_self _).trans_le hLater.grown.values
      refine ⟨v, g.values.next, vals, hPtr, rfl, ⟨Nat.le_refl _, hNew⟩, hVals, ?_⟩
      exact (hLater.values g.values.next (Nat.lt_succ_self _)).trans (Store.alloc_self vals)

theorem SameEntry.later {e e' : Entry} (hSame : SameEntry h g' (MadeValues k g')
    (CopyIn h g' (Made k g') (MadeValues k g') n) t e e')
    (hGrown : Grown g k) : SameEntry h g' (MadeValues g g') (CopyIn h g' (Made g g') (MadeValues g g') n) t e e' := by
  refine ⟨hSame.name, hSame.type, hSame.isAlias, hSame.aliasedTo, hSame.isGlobal, ?_, ?_⟩
  · intro hType
    obtain ⟨a, b, hPtr, hPtr', hLt, hIn, hParent⟩ := hSame.table hType
    refine ⟨a, b, hPtr, hPtr', hLt, ?_, hParent⟩
    apply hIn.frame
    · intro x _ _
      rfl
    · intro v _
      rfl
    · intro d hd
      exact ⟨d.dParent, hd⟩
    · intro x hx
      exact ⟨hGrown.tables.trans hx.1, hx.2⟩
    · intro v hv
      exact ⟨hGrown.values.trans hv.1, hv.2⟩
  · intro hType
    obtain ⟨v, w, vals, hPtr, hPtr', hMade, hCells⟩ := hSame.values hType
    exact ⟨v, w, vals, hPtr, hPtr', ⟨hGrown.values.trans hMade.1, hMade.2⟩, hCells⟩

theorem cloneEntries_done {copy : Nat → Call Heap Nat} (hCopy : Copies h copy n) {at_ : Nat} {es : List Entry}
    {d : AttrTable}
    (hCell : g.tables.cell t = some d) (hEntries : ∀ e ∈ es, h.HasEntry at_ e)
    (hPlain : ∀ e ∈ es, PlainEntry h (Plain h n) e) (hSees : Sees h g at_)
    (hAvoid : ∀ x, TableReaches h at_ x → x ≠ t) :
    ∃ es' g', cloneEntries copy t es g = .ok () g' ∧ g'.tables.cell t = some { d with attrMap := d.attrMap ++ es' } ∧
      Kept t g g' ∧
      List.Forall₂ (SameEntry h g' (MadeValues g g') (CopyIn h g' (Made g g') (MadeValues g g') n) t) es es' := by
  induction es generalizing g d with
  | nil =>
    refine ⟨[], g, rfl, ?_, ⟨fun _ _ _ => rfl, fun _ _ => rfl, .refl g⟩, .nil⟩
    rw [List.append_nil]
    exact hCell
  | cons e es ih =>
    obtain ⟨e', k, hRun, hCell', hKept, hSame⟩ :=
      entry_done hCopy hCell (hEntries e List.mem_cons_self) (hPlain e List.mem_cons_self) hSees
    obtain ⟨es', g', hRun', hCell'', hKept', hRest⟩ := ih hCell' (fun a ha => hEntries a (List.mem_cons_of_mem e ha))
      (fun a ha => hPlain a (List.mem_cons_of_mem e ha)) (hSees.kept hKept hAvoid)
    refine ⟨e' :: es', g', ?_, ?_, hKept.trans hKept', ?_⟩
    · obtain ⟨a, k₁, hEntry, hPush⟩ := Call.bind_ok.mp hRun
      exact Call.bind_ok.mpr ⟨a, k₁, hEntry, Call.bind_ok.mpr ⟨(), k, hPush, hRun'⟩⟩
    · rw [hCell'', AttrTable.push]
      simp
    · exact .cons (hSame g' hKept') (hRest.imp fun a a' hThere => hThere.later hKept.grown)

/-- An empty table becomes a copy. -/
theorem clone_done {copy : Nat → Call Heap Nat} (hCopy : Copies h copy n) {at_ : Nat} {d : AttrTable}
    (hCell : g.tables.cell t = some d) (hEmpty : d.attrMap = []) (hPlain : Plain h (n + 1) at_) (hSees : Sees h g at_)
    (hAvoid : ∀ x, TableReaches h at_ x → x ≠ t) :
    ∃ g', clone copy t at_ g = .ok () g' ∧ Kept t g g' ∧
      CopyIn h g' (fun x => x = t ∨ Made g g' x) (MadeValues g g') (n + 1) at_ t := by
  obtain ⟨tb, hAt, hEntries⟩ := hPlain
  obtain ⟨es', g', hRun, hCell', hKept, hSame⟩ := cloneEntries_done hCopy
      (change_self (f := AttrTable.relabel tb) hCell)
    (fun e he => ⟨tb, hAt, he⟩) hEntries (hSees.kept (Kept.change g t _) hAvoid) hAvoid
  have hFirst := Kept.change g t (AttrTable.relabel tb)
  refine ⟨g', ?_, hFirst.trans hKept, .inl rfl, tb, _, hAt, hCell', rfl, rfl, ?_⟩
  · refine Call.bind_ok.mpr ⟨tb, g, readTable_ok.mpr ⟨hSees.tables at_ tb .refl hAt, rfl⟩, ?_⟩
    exact Call.bind_ok.mpr ⟨(), _, modifyTable_ok.mpr ⟨d, hCell, rfl⟩, hRun⟩
  · change List.Forall₂ _ tb.attrMap (d.attrMap ++ es')
    rw [hEmpty, List.nil_append]
    apply hSame.imp
    intro e e' hThere
    have hThere := hThere.later (g := g) (Kept.change g t (AttrTable.relabel tb)).grown
    refine ⟨hThere.name, hThere.type, hThere.isAlias, hThere.aliasedTo, hThere.isGlobal, ?_, hThere.values⟩
    intro hType
    obtain ⟨a, b, hPtr, hPtr', hLt, hIn, hParent⟩ := hThere.table hType
    refine ⟨a, b, hPtr, hPtr', hLt, ?_, hParent⟩
    exact hIn.frame (fun _ _ _ => rfl) (fun _ _ => rfl) (fun d hd => ⟨d.dParent, hd⟩)
      (fun _ hx => .inr hx) fun _ hv => hv

theorem copyTable_done (h : Heap) (stack n : Nat) (hStack : n ≤ stack) : Copies h (copyTable stack) n := by
  induction n generalizing stack with
  | zero =>
    intro c g hPlain
    exact hPlain.elim
  | succ n ih =>
    intro c g hPlain hSees
    cases stack with
    | zero => exact absurd hStack (Nat.not_succ_le_zero n)
    | succ stack =>
      have hCopy := ih stack (Nat.le_of_succ_le_succ hStack)
      obtain ⟨tb, hAt⟩ := hPlain.live
      have hSeen := hSees.tables c tb .refl hAt
      have hMake : Kept g.tables.next g g.make :=
        ⟨fun x hx _ => Store.alloc_of_ne _ hx.ne, fun _ _ => rfl, ⟨Nat.le_succ _, Nat.le_refl _⟩⟩
      have hAvoid : ∀ x, TableReaches h c x → x ≠ g.tables.next := by
        intro x hReach
        obtain ⟨m, hBelow⟩ := hPlain.reached hReach
        obtain ⟨d, hCell⟩ := hBelow.live
        exact Store.ne_next (hSees.tables x d hReach hCell)
      obtain ⟨g', hRun, hKept, hIn⟩ := clone_done hCopy (t := g.tables.next) (Store.alloc_self AttrTable.new) rfl hPlain
        (hSees.kept hMake hAvoid) hAvoid
      refine ⟨g', ?_, hMake.trans hKept, ?_⟩
      · refine Call.bind_ok.mpr ⟨tb, g, readTable_ok.mpr ⟨hSeen, rfl⟩, ?_⟩
        refine Call.bind_ok.mpr ⟨g.tables.next, g.make, rfl, ?_⟩
        exact Call.bind_ok.mpr ⟨(), g', hRun, rfl⟩
      · refine hIn.frame (fun _ _ _ => rfl) (fun _ _ => rfl) (fun d hd => ⟨d.dParent, hd⟩) ?_ fun _ hv => hv
        rintro x (rfl | hx)
        · exact ⟨Nat.le_refl _, (Nat.lt_succ_self _).trans_le hKept.grown.tables⟩
        · exact ⟨(Nat.le_succ _).trans hx.1, hx.2⟩

end Copying

/-! ## Destruction that is defined -/

/-- What is to be destroyed is still there. -/
structure Intact (h g : Heap) (o : List Nat × List Nat) : Prop where
  tables : ∀ x ∈ o.1, g.tables.cell x = h.tables.cell x
  values : ∀ v ∈ o.2, g.values.cell v = h.values.cell v
  once : o.1.Nodup
  onceValues : o.2.Nodup

section Deleting

variable {h g : Heap} {del : Nat → Call Heap Unit} {own : Nat → Option (List Nat × List Nat)}

theorem Intact.first {o p : List Nat × List Nat} (hIntact : Intact h g (o.1 ++ p.1, o.2 ++ p.2)) : Intact h g o :=
  ⟨fun x hx => hIntact.tables x (List.mem_append_left _ hx), fun v hv => hIntact.values v (List.mem_append_left _ hv),
    (List.nodup_append.mp hIntact.once).1, (List.nodup_append.mp hIntact.onceValues).1⟩

theorem Intact.rest {o p : List Nat × List Nat} (hIntact : Intact h g (o.1 ++ p.1, o.2 ++ p.2)) :
    Intact h (g.freed o) p := by
  obtain ⟨-, hOnce, hApart⟩ := List.nodup_append.mp hIntact.once
  obtain ⟨-, hOnceValues, hApartValues⟩ := List.nodup_append.mp hIntact.onceValues
  refine ⟨?_, ?_, hOnce, hOnceValues⟩
  · intro x hx
    rw [freed_tables, if_neg fun hFirst => hApart x hFirst x hx rfl]
    exact hIntact.tables x (List.mem_append_right _ hx)
  · intro v hv
    rw [freed_values, if_neg fun hFirst => hApartValues v hFirst v hv rfl]
    exact hIntact.values v (List.mem_append_right _ hv)

theorem deleteEntry_done (hDel : ∀ c o g, own c = some o → Intact h g o → del c g = .ok () (g.freed o)) {e : Entry}
    {o : List Nat × List Nat} (hOwned : ownedEntry h own e = some o) (hIntact : Intact h g o) :
    deleteEntry del e g = .ok () (g.freed o) := by
  rw [ownedEntry] at hOwned
  rw [deleteEntry]
  split at hOwned
  · rename_i hAlias
    rw [if_pos hAlias]
    cases hOwned
    rfl
  · rename_i hAlias
    rw [if_neg hAlias]
    split at hOwned
    · rename_i hType
      rw [if_pos hType]
      cases hPtr : e.attributes with
      | null =>
        rw [hPtr] at hOwned
        cases hOwned
        rfl
      | ref c =>
        rw [hPtr] at hOwned
        exact hDel c o g hOwned hIntact
      | indeterminate =>
        rw [hPtr] at hOwned
        cases hOwned
    · rename_i hType
      rw [if_neg hType]
      cases hPtr : e.attr with
      | null =>
        rw [hPtr] at hOwned
        cases hOwned
        rfl
      | ref v =>
        rw [hPtr] at hOwned
        obtain ⟨vals, hCell, rfl⟩ := Option.map_eq_some_iff.mp hOwned
        exact freeValues_ok.mpr ⟨vals, (hIntact.values v (List.mem_singleton_self v)).trans hCell, rfl⟩
      | indeterminate =>
        rw [hPtr] at hOwned
        cases hOwned

theorem deleteEntries_done (hDel : ∀ c o g, own c = some o → Intact h g o → del c g = .ok () (g.freed o))
    {es : List Entry} {o : List Nat × List Nat} (hOwned : ownedEntries h own es = some o) (hIntact : Intact h g o) :
    deleteEntries del es g = .ok () (g.freed o) := by
  induction es generalizing g o with
  | nil =>
    cases hOwned
    rfl
  | cons e es ih =>
    obtain ⟨first, hFirst, hOwned⟩ := Option.bind_eq_some_iff.mp hOwned
    obtain ⟨rest, hRest, hOwned⟩ := Option.bind_eq_some_iff.mp hOwned
    cases hOwned
    rw [← freed_freed]
    exact Call.bind_ok.mpr ⟨(), _, deleteEntry_done hDel hFirst hIntact.first, ih hRest hIntact.rest⟩

theorem deleteTable_done (n stack : Nat) (hStack : n ≤ stack) {t : Nat} {o : List Nat × List Nat}
    (hOwned : owned h n t = some o) (hIntact : Intact h g o) : deleteTable stack t g = .ok () (g.freed o) := by
  induction n generalizing stack t o g with
  | zero => cases hOwned
  | succ n ih =>
    cases stack with
    | zero => exact absurd hStack (Nat.not_succ_le_zero n)
    | succ stack =>
      obtain ⟨tb, hCell, hOwned⟩ := Option.bind_eq_some_iff.mp hOwned
      obtain ⟨below, hBelow, hOwned⟩ := Option.bind_eq_some_iff.mp hOwned
      cases hOwned
      have hLive : g.tables.cell t = some tb := (hIntact.tables t List.mem_cons_self).trans hCell
      have hRest : Intact h (g.freed ([t], [])) below := hIntact.rest (o := ([t], []))
      refine Call.bind_ok.mpr ⟨tb, g, readTable_ok.mpr ⟨hLive, rfl⟩, ?_⟩
      refine Call.bind_ok.mpr ⟨(), g.freed ([t], []), freeTable_ok.mpr ⟨tb, hLive, rfl⟩, ?_⟩
      have hDel : ∀ c o g, owned h n c = some o → Intact h g o → deleteTable stack c g = .ok () (g.freed o) :=
        fun c o g hOwn hThere => ih stack (Nat.le_of_succ_le_succ hStack) hOwn hThere
      have hDone := deleteEntries_done hDel hBelow hRest
      rw [hDone, freed_freed]
      rfl

end Deleting

/-! ## The two ways to copy -/

/-- What is destroyed with the entries of a table that is assigned to. No table or list is destroyed twice, and none is
a part of the source. -/
structure Replaced (h : Heap) (t src : Nat) (o : List Nat × List Nat) : Prop where
  owned : ∃ tb n, h.tables.cell t = some tb ∧ ownedEntries h (owned h n) tb.attrMap = some o
  once : o.1.Nodup
  onceValues : o.2.Nodup
  self : t ∉ o.1
  tables : ∀ x, TableReaches h src x → x ≠ t ∧ x ∉ o.1
  values : ∀ x e v, TableReaches h src x → h.HasEntry x e → e.type ≠ .container → e.attr = .ref v → v ∉ o.2

section Result

variable {h h₁ : Heap} {src c n : Nat}

/-- A source is not changed and the copy cannot be reached but through itself. -/
theorem copied_of (hBounded : Fenced (fun _ => False) (fun _ => False) h h)
    (hBounded₁ : Fenced (fun _ => False) (fun _ => False) h₁ h₁) (hPlain : Plain h n src)
    (hTables : ∀ x tb, TableReaches h src x → h.tables.cell x = some tb → h₁.tables.cell x = some tb)
    (hValues : ∀ x e v, TableReaches h src x → h.HasEntry x e → e.type ≠ .container → e.attr = .ref v →
      h₁.values.cell v = h.values.cell v)
    (hAvoid : ∀ x, TableReaches h src x → x ≠ c)
    (hOld : ∀ x tb, x < h.tables.next → x ≠ c → h₁.tables.cell x = some tb → h.tables.cell x = some tb)
    {F V : Nat → Prop} (hCopy : CopyIn h h₁ F V n src c)
    (hF : ∀ x, F x → x = c ∨ (h.tables.next ≤ x ∧ x < h₁.tables.next))
    (hV : ∀ v, V v → h.values.next ≤ v ∧ v < h₁.values.next) : TableCopied h src h₁ c := by
  have hCell : ∃ d, h₁.tables.cell c = some d := by
    cases n with
    | zero => exact hCopy.elim
    | succ n =>
      obtain ⟨-, -, d, -, hNew, -⟩ := hCopy
      exact ⟨d, hNew⟩
  obtain ⟨d, hCell⟩ := hCell
  have hSource : ∀ x, TableReaches h src x → h₁.tables.cell x = h.tables.cell x := by
    intro x hReach
    obtain ⟨m, hBelow⟩ := hPlain.reached hReach
    obtain ⟨tb, hThere⟩ := hBelow.live
    exact (hTables x tb hReach hThere).trans hThere.symm
  have hFence : Fenced (LeadsToCopy h h₁ c) V h₁ h₁ := by
    refine ⟨fun _ _ => rfl, fun _ _ => rfl, ?_, fun v hv => (hV v hv).2, ?_⟩
    · rintro x ⟨y, hy, hReach⟩
      rcases Relation.ReflTransGen.cases_head hReach with rfl | ⟨z, ⟨tb, hThere, -⟩, -⟩
      · rcases hy with rfl | hy
        · exact Store.lt_next hCell
        · exact hy.2
      · exact Store.lt_next hThere
    · intro x e hx he
      have hOutside := hBounded₁.apart x e (fun hFalse => hFalse) he
      constructor
      · intro hType y hPtr
        refine ⟨?_, (hOutside.table hType y hPtr).2⟩
        rintro ⟨z, hz, hReach⟩
        obtain ⟨tb, hThere, hMem⟩ := he
        exact hx ⟨z, hz, .head ⟨tb, hThere, e, hMem, hType, hPtr⟩ hReach⟩
      · intro hType v hPtr
        refine ⟨?_, (hOutside.values hType v hPtr).2⟩
        intro hMade
        obtain ⟨tb, hThere, hMem⟩ := he
        have hNe : x ≠ c := by
          rintro rfl
          exact hx ⟨x, .inl rfl, .refl⟩
        have hBefore : x < h.tables.next := by
          by_contra hNot
          exact hx ⟨x, .inr ⟨Nat.le_of_not_lt hNot, Store.lt_next hThere⟩, .refl⟩
        have hInside := hBounded.apart x e (fun hFalse => hFalse) ⟨tb, hOld x tb hBefore hNe hThere, hMem⟩
        exact absurd (hInside.values hType v hPtr).2 (Nat.not_lt.mpr (hV v hMade).1)
  have hIn : ∀ x, F x → LeadsToCopy h h₁ c x := fun x hx => ⟨x, hF x hx, .refl⟩
  have hEqual : ∀ g, (∀ x, F x → g.tables.cell x = h₁.tables.cell x) → (∀ v, V v → g.values.cell v = h₁.values.cell v) →
      CopyOf h g src c := by
    intro g hSame hSameValues
    refine ⟨n, hCopy.frame (fun x hx _ => hSame x hx) hSameValues ?_ (fun _ _ => trivial) fun _ _ => trivial⟩
    intro d' hd'
    refine ⟨d'.dParent, ?_⟩
    have hRoot : F c := by
      cases n with
      | zero => exact hCopy.elim
      | succ n => exact hCopy.1
    rw [hSame c hRoot, hd']
    rfl
  refine ⟨hSource, hValues, hEqual h₁ (fun _ _ => rfl) fun _ _ => rfl, ?_, ?_⟩
  · rintro x hReach ⟨y, hy, hLeads⟩
    have hBoth : TableReaches h src y := by
      clear hy
      induction hLeads with
      | refl => exact hReach
      | tail _ hPoints ih =>
        obtain ⟨tb, hThere, hEntry⟩ := hPoints
        rw [hSource _ ih] at hThere
        exact .tail ih ⟨tb, hThere, hEntry⟩
    rcases hy with rfl | hMade
    · exact hAvoid y hBoth rfl
    · obtain ⟨m, hBelow⟩ := hPlain.reached hBoth
      obtain ⟨tb, hThere⟩ := hBelow.live
      exact absurd (Store.lt_next hThere) (Nat.not_lt.mpr hMade.1)
  · intro h₂ hLater
    have hFence₂ := hFence.run hLater
    exact hEqual h₂ (fun x hx => hFence₂.tables x (hIn x hx)) hFence₂.values

theorem Plain.below_next (hPlain : Plain h n src) {x : Nat} (hReach : TableReaches h src x) : x < h.tables.next := by
  obtain ⟨m, hBelow⟩ := hPlain.reached hReach
  obtain ⟨tb, hCell⟩ := hBelow.live
  exact Store.lt_next hCell

theorem copyTable_copied (hRun : Led .empty (fun _ => True) h) (hPlain : Plain h n src) {stack : Nat}
    (hStack : n ≤ stack) :
    ∃ c h₁, copyTable stack src h = .ok c h₁ ∧ TableCopied h src h₁ c := by
  have hBounded := bounded hRun
  have hSees : Sees h h src := ⟨fun _ _ _ hCell => hCell, fun _ _ _ _ _ _ _ _ hCell => hCell⟩
  obtain ⟨h₁, hCopied, hKept, hIn⟩ := copyTable_done h stack n hStack src h hPlain hSees
  refine ⟨h.tables.next, h₁, hCopied, ?_⟩
  have hAfter : Led .empty (fun _ => True) h₁ := by
    refine .step (stack, .copy src) hRun trivial ?_
    apply after_discard.mpr
    rw [Call.after, hCopied]
  apply copied_of hBounded (bounded hAfter) hPlain
  · intro x tb hReach hCell
    exact (hKept.tables x (hPlain.below_next hReach) (hPlain.below_next hReach).ne).trans hCell
  · intro x e v hReach he hType hPtr
    exact hKept.values v ((hBounded.apart x e (fun hFalse => hFalse) he).values hType v hPtr).2
  · intro x hReach
    exact (hPlain.below_next hReach).ne
  · intro x tb hx hNe hCell
    exact (hKept.tables x hx hNe).symm.trans hCell
  · exact hIn
  · intro x hx
    exact .inr hx
  · intro v hv
    exact hv

/-- The table that is assigned to, after its entries were destroyed. -/
theorem deleteAttrTable_done {t m stack : Nat} {tb : AttrTable} {o : List Nat × List Nat}
    (hCell : h.tables.cell t = some tb)
    (hOwned : ownedEntries h (owned h m) tb.attrMap = some o) (hIntact : Intact h h o) (hSelf : t ∉ o.1)
    (hStack : m ≤ stack) :
    (h.freed o).tables.cell t = some tb ∧
      deleteAttrTable stack t h = .ok () ((h.freed o).change t AttrTable.clear) := by
  have hDel : ∀ c o g, owned h m c = some o → Intact h g o → deleteTable stack c g = .ok () (g.freed o) :=
    fun c o g hOwn hThere => deleteTable_done m stack hStack hOwn hThere
  have hDelete := deleteEntries_done hDel hOwned hIntact
  have hStays : (h.freed o).tables.cell t = some tb := by
    rw [freed_tables, if_neg hSelf, hCell]
  refine ⟨hStays, ?_⟩
  refine Call.bind_ok.mpr ⟨tb, h, readTable_ok.mpr ⟨hCell, rfl⟩, ?_⟩
  refine Call.bind_ok.mpr ⟨(), h.freed o, hDelete, ?_⟩
  exact modifyTable_ok.mpr ⟨tb, hStays, rfl⟩

theorem Replaced.sees {t : Nat} {o : List Nat × List Nat} (hReplaced : Replaced h t src o) :
    Sees h ((h.freed o).change t AttrTable.clear) src := by
  constructor
  · intro x d hReach hThere
    obtain ⟨hNe, hNot⟩ := hReplaced.tables x hReach
    rw [change_of_ne hNe, freed_tables, if_neg hNot, hThere]
  · intro x e v vals hReach he hType hPtr hVals
    exact (freed_values h o v).trans ((if_neg (hReplaced.values x e v hReach he hType hPtr)).trans hVals)

theorem assignTable_copied (hRun : Led .empty (fun _ => True) h) (hPlain : Plain h (n + 1) src) {t : Nat}
    {o : List Nat × List Nat} (hReplaced : Replaced h t src o) :
    ∃ room, ∀ stack, room ≤ stack → ∃ h₁, assignTable stack t src h = .ok () h₁ ∧ TableCopied h src h₁ t := by
  have hBounded := bounded hRun
  obtain ⟨tb, m, hCell, hOwned⟩ := hReplaced.owned
  refine ⟨max m n, fun stack hStack => ?_⟩
  have hIntact : Intact h h o := ⟨fun _ _ => rfl, fun _ _ => rfl, hReplaced.once, hReplaced.onceValues⟩
  obtain ⟨hStays, hCleared⟩ :=
    deleteAttrTable_done hCell hOwned hIntact hReplaced.self ((le_max_left m n).trans hStack)
  obtain ⟨h₁, hClone, hKept, hIn⟩ := clone_done (copyTable_done h stack n ((le_max_right m n).trans hStack))
    (change_self hStays) rfl hPlain hReplaced.sees fun x hReach => (hReplaced.tables x hReach).1
  have hAssign : assignTable stack t src h = .ok () h₁ := by
    rw [assignTable, if_neg fun hSame => (hReplaced.tables src .refl).1 hSame.symm]
    exact Call.bind_ok.mpr ⟨(), _, hCleared, hClone⟩
  have hAfter : Led .empty (fun _ => True) h₁ := by
    refine .step (stack, .assign t src) hRun trivial ?_
    exact (defined_assignTable stack t src).after.mpr hAssign
  have hNext : ((h.freed o).change t AttrTable.clear).tables.next = h.tables.next := Store.next_free_all _ _
  have hNextValues : ((h.freed o).change t AttrTable.clear).values.next = h.values.next := Store.next_free_all _ _
  refine ⟨h₁, hAssign, ?_⟩
  apply copied_of hBounded (bounded hAfter) hPlain
  · intro x d hReach hThere
    rw [hKept.tables x (by rw [hNext]; exact hPlain.below_next hReach) (hReplaced.tables x hReach).1]
    exact hReplaced.sees.tables x d hReach hThere
  · intro x e v hReach he hType hPtr
    have hMade := ((hBounded.apart x e (fun hFalse => hFalse) he).values hType v hPtr).2
    rw [hKept.values v (by rw [hNextValues]; exact hMade)]
    exact (freed_values h o v).trans (if_neg (hReplaced.values x e v hReach he hType hPtr))
  · intro x hReach
    exact (hReplaced.tables x hReach).1
  · intro x d hx hNe hThere
    rw [hKept.tables x (by rw [hNext]; exact hx) hNe, change_of_ne hNe, freed_tables] at hThere
    split at hThere
    · cases hThere
    · exact hThere
  · exact hIn
  · rintro x (rfl | hx)
    · exact .inl rfl
    · exact .inr ⟨hNext ▸ hx.1, hx.2⟩
  · intro v hv
    exact ⟨hNextValues ▸ hv.1, hv.2⟩

/-- What the two operations do, with enough room on the stack. -/
theorem copies_kept (hRun : Led .empty (fun _ => True) h) (hPlain : Plain h n src) :
    (∀ stack, n ≤ stack → ∃ c h₁, copyTable stack src h = .ok c h₁ ∧ TableCopied h src h₁ c) ∧
    ∀ t o, Replaced h t src o → ∃ room, ∀ stack, room ≤ stack → ∃ h₁, assignTable stack t src h = .ok () h₁ ∧
      TableCopied h src h₁ t := by
  constructor
  · intro stack hStack
    exact copyTable_copied hRun hPlain hStack
  · intro t o hReplaced
    cases n with
    | zero => exact hPlain.elim
    | succ n => exact assignTable_copied hRun hPlain hReplaced

end Result

theorem Led.all {h h' : Heap} {os : List (Nat × AttrOp)} (hStart : Led .empty (fun _ => True) h)
    (hRun : runAll h os = some h') : Led .empty (fun _ => True) h' := by
  induction os generalizing h with
  | nil =>
    cases hRun
    exact hStart
  | cons o os ih =>
    obtain ⟨g, hAfter, hRest⟩ := Option.bind_eq_some_iff.mp hRun
    exact ih (.step (o.1, .attr o.2) hStart trivial hAfter) hRest

def twoTables : List (Nat × AttrOp) :=
  [(0, .make), (0, .appendAttr 0 "units".toList "String".toList ["m".toList]), (0, .make)]

theorem copies_kept_named : ∃ h, runAll .empty twoTables = some h ∧
    (∃ c h₁, copyTable 1 0 h = .ok c h₁ ∧ TableCopied h 0 h₁ c) ∧
    ∃ stack h₁, assignTable stack 1 0 h = .ok () h₁ ∧ TableCopied h 0 h₁ 1 := by
  have hState : ∃ h, runAll .empty twoTables = some h ∧
      h.tables.cell 0 = some ⟨[], .null, [valueEntry "units".toList "String".toList 0], true⟩ ∧
      h.tables.cell 1 = some .new ∧ h.values.cell 0 = some ["m".toList] := ⟨_, rfl, rfl, rfl, rfl⟩
  obtain ⟨h, hRun, hSource, hTarget, hVals⟩ := hState
  have hValue : stringToAttrType "String".toList ≠ .container := by decide
  have hReach : ∀ x, TableReaches h 0 x → x = 0 := by
    intro x hReach
    rcases Relation.ReflTransGen.cases_head hReach with hSame | ⟨y, ⟨tb, hCell, e, he, hType, -⟩, -⟩
    · exact hSame.symm
    · rw [hSource] at hCell
      cases hCell
      cases List.mem_singleton.mp he
      exact absurd hType hValue
  have hPlain : Plain h 1 0 := by
    refine ⟨_, hSource, ?_⟩
    intro e he
    cases List.mem_singleton.mp he
    exact ⟨rfl, by decide, fun hType => absurd hType hValue, fun _ => ⟨0, _, rfl, hVals⟩⟩
  have hReplaced : Replaced h 1 0 ([], []) := by
    refine ⟨⟨_, 0, hTarget, rfl⟩, List.nodup_nil, List.nodup_nil, List.not_mem_nil, ?_, ?_⟩
    · intro x hx
      cases hReach x hx
      exact ⟨by decide, List.not_mem_nil⟩
    · intro x e v _ _ _ _
      exact List.not_mem_nil
  obtain ⟨hCopy, hAssign⟩ := copies_kept (Led.all (.start rfl) hRun) hPlain
  obtain ⟨room, hDone⟩ := hAssign 1 _ hReplaced
  exact ⟨h, hRun, hCopy 1 (Nat.le_refl 1), room, hDone room (Nat.le_refl room)⟩

/-- A container and an alias for it. -/
def aliasedContainer : List (Nat × AttrOp) :=
  [(0, .make), (0, .appendContainer 0 "c".toList), (0, .addContainerAlias 0 "k".toList 1)]

/-- Copying gives the container of the source a new parent. -/
theorem copy_takes_container :
    (∃ h, runAll .empty aliasedContainer = some h ∧ (h.tables.cell 1).map AttrTable.dParent = some (.ref 0) ∧
      ∀ stack, ∃ h₁, copyTable (stack + 2) 0 h = .ok 2 h₁ ∧
        (h₁.tables.cell 1).map AttrTable.dParent = some (.ref 2)) ∧
    ¬ ∀ h src, Led .empty (fun _ => True) h → (∃ tb, h.tables.cell src = some tb) →
      ∃ room, ∀ stack, room ≤ stack → ∃ c h₁, copyTable stack src h = .ok c h₁ ∧ TableCopied h src h₁ c := by
  have hTaken : ∃ h, runAll .empty aliasedContainer = some h ∧ (h.tables.cell 1).map AttrTable.dParent = some (.ref 0) ∧
      (∀ stack, ∃ h₁, copyTable (stack + 2) 0 h = .ok 2 h₁ ∧
        (h₁.tables.cell 1).map AttrTable.dParent = some (.ref 2)) ∧ Points h 0 1 :=
    ⟨_, rfl, by decide, fun stack => ⟨_, rfl, by rfl⟩, _, rfl, _, List.mem_cons_self, rfl, rfl⟩
  obtain ⟨h, hRun, hParent, hCopies, hPoints⟩ := hTaken
  refine ⟨⟨h, hRun, hParent, hCopies⟩, ?_⟩
  intro hAll
  have hLive := hPoints
  obtain ⟨tb, hLive, -⟩ := hLive
  obtain ⟨room, hRoom⟩ := hAll h 0 (Led.all (.start rfl) hRun) ⟨tb, hLive⟩
  obtain ⟨c, h₁, hCopy, hCopied⟩ := hRoom (room + 2) (Nat.le_add_right room 2)
  obtain ⟨h₂, hCopy', hParent'⟩ := hCopies room
  rw [hCopy] at hCopy'
  cases hCopy'
  rw [hCopied.source 1 (.single hPoints), hParent] at hParent'
  cases hParent'

end Libdap.Dap2
