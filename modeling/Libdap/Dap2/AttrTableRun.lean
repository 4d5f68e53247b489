import Libdap.Dap2.AttrTableStep
import Mathlib.Data.List.Nodup

/-! # The tables after any operations

What every reachable heap satisfies when each operation is made within its conditions.
-/

namespace Libdap.Dap2
open Core Constraint
set_option autoImplicit false

/-! ## Printing the values of an attribute -/

def isQuoted (s : Word) : Bool := s.head? = some '"' && s.getLast? = some '"'

def escapeDoubleQuotes (source : Word) : Word := source.flatMap fun c => if c = '"' then ['\\', '"'] else [c]

def writeStringAttributeForDas (value term : Word) : Word :=
  if isQuoted value then value ++ term else '"' :: value ++ '"' :: term

def writeXmlAttributeForDas (value term : Word) : Word :=
  if isQuoted value then escapeDoubleQuotes value ++ term else '"' :: escapeDoubleQuotes value ++ '"' :: term

def writeValue : AttrType → Word → Word → Word
  | .string => writeStringAttributeForDas
  | .otherXml => writeXmlAttributeForDas
  | _ => fun value term => value ++ term

/-- `simple_print` of an attribute with these values, for a type other than a container. The last one is at `end() - 1`. -/
def simplePrintValues (pad : Word) (e : Entry) (sxp : List Word) : Except Fault Word :=
  match sxp.getLast? with
  | none => .error .undefined
  | some last => .ok (pad ++ attrTypeToString e.type ++ ' ' :: addSpaceEncoding e.name ++ ' ' ::
      sxp.dropLast.flatMap (fun value => writeValue e.type value [',', ' ']) ++ writeValue e.type last [';', '\n'])

theorem simplePrintValues_ok (pad : Word) (e : Entry) {sxp : List Word} (h : sxp ≠ []) :
    ∃ text, simplePrintValues pad e sxp = .ok text := by
  rw [simplePrintValues, List.getLast?_eq_getLast_of_ne_nil h]
  exact ⟨_, rfl⟩

/-! ## Names -/

/-- A character of the result that is not a blank was there before. -/
theorem removeSpaceEncoding_head {s rest : Word} {c : Char} (hBlank : c ≠ ' ') (h : removeSpaceEncoding s = c :: rest) :
    ∃ cs, s = c :: cs ∧ rest = removeSpaceEncoding cs := by
  unfold removeSpaceEncoding at h
  split at h
  · cases h
    exact absurd rfl hBlank
  · cases h
    exact ⟨_, rfl, rfl⟩
  · cases h

theorem removeSpaceEncoding_idem (s : Word) : removeSpaceEncoding (removeSpaceEncoding s) = removeSpaceEncoding s := by
  fun_induction removeSpaceEncoding s with
  | case1 cs ih =>
    rw [removeSpaceEncoding]
    · rw [ih]
    · rintro _ ⟨⟩
  | case2 c cs hNot ih =>
    rw [removeSpaceEncoding]
    · rw [ih]
    · rintro rest ⟨⟩ hDec
      obtain ⟨cs₁, rfl, hDec₁⟩ := removeSpaceEncoding_head (by decide) hDec
      obtain ⟨cs₂, rfl, -⟩ := removeSpaceEncoding_head (by decide) hDec₁.symm
      exact hNot cs₂ rfl rfl
  | case3 => rfl

/-! ## What holds of all tables -/

/-- An entry of a live table. -/
def Heap.HasEntry (h : Heap) (t : Nat) (e : Entry) : Prop := ∃ tb, h.tables.cell t = some tb ∧ e ∈ tb.attrMap

structure Sound (h : Heap) : Prop where
  names : ∀ t tb, h.tables.cell t = some tb → (tb.attrMap.map fun e => removeSpaceEncoding e.name).Nodup
  containers : ∀ t e, h.HasEntry t e → e.isAlias = false → e.type = .container →
    ∃ c ctb, e.attributes = .ref c ∧ h.tables.cell c = some ctb ∧ ctb.dParent = .ref t ∧ ctb.dName = e.name
  printed : ∀ t e, h.HasEntry t e → e.type ≠ .container →
    ∃ v vals, e.attr = .ref v ∧ h.values.cell v = some vals ∧ vals ≠ [] ∧
      ∀ pad, ∃ text, simplePrintValues pad e vals = .ok text

/-- The invariant. A list of values belongs to one entry. -/
structure Wf (h : Heap) : Prop where
  names : ∀ t tb, h.tables.cell t = some tb → (tb.attrMap.map Entry.name).Nodup
  decoded : ∀ t e, h.HasEntry t e → removeSpaceEncoding e.name = e.name
  held : ∀ t e, h.HasEntry t e → e.isAlias = false → e.type = .container →
    ∃ c ctb, e.attributes = .ref c ∧ h.tables.cell c = some ctb ∧ ctb.dParent = .ref t ∧ ctb.dName = e.name
  filled : ∀ t e, h.HasEntry t e → e.type ≠ .container →
    ∃ v vals, e.attr = .ref v ∧ h.values.cell v = some vals ∧ vals ≠ []
  sole : ∀ t e t' e' v, h.HasEntry t e → h.HasEntry t' e' → e.Owns v → e'.Owns v → t = t' ∧ e = e'

def Heap.Held (h : Heap) (c : Nat) : Prop := ∃ t e, h.HasEntry t e ∧ e.Holds c

namespace Wf

variable {h : Heap}

theorem sound (hWf : Wf h) : Sound h := by
  constructor
  · intro t tb hCell
    have hSame : (tb.attrMap.map fun e => removeSpaceEncoding e.name) = tb.attrMap.map Entry.name := by
      apply List.map_congr_left
      intro e he
      exact hWf.decoded t e ⟨tb, hCell, he⟩
    rw [hSame]
    exact hWf.names t tb hCell
  · exact hWf.held
  · intro t e he hType
    obtain ⟨v, vals, hAttr, hCell, hNe⟩ := hWf.filled t e he hType
    exact ⟨v, vals, hAttr, hCell, hNe, fun pad => simplePrintValues_ok pad e hNe⟩

theorem empty : Wf Heap.empty := by
  constructor
  · rintro t tb ⟨⟩
  · rintro t e ⟨tb, ⟨⟩, -⟩
  · rintro t e ⟨tb, ⟨⟩, -⟩
  · rintro t e ⟨tb, ⟨⟩, -⟩
  · rintro t e t' e' v ⟨tb, ⟨⟩, -⟩

/-- What is held has one holder. -/
theorem holder (hWf : Wf h) {t t' c : Nat} {e e' : Entry} (he : h.HasEntry t e) (he' : h.HasEntry t' e')
    (hHolds : e.Holds c) (hHolds' : e'.Holds c) : t = t' ∧ e.name = e'.name := by
  obtain ⟨d, ctb, hAttr, hCell, hParent, hName⟩ := hWf.held t e he hHolds.1 hHolds.2.1
  obtain ⟨d', ctb', hAttr', hCell', hParent', hName'⟩ := hWf.held t' e' he' hHolds'.1 hHolds'.2.1
  rw [hHolds.2.2] at hAttr
  rw [hHolds'.2.2] at hAttr'
  cases hAttr
  cases hAttr'
  rw [hCell] at hCell'
  cases hCell'
  rw [hParent] at hParent'
  cases hParent'
  exact ⟨rfl, hName.symm.trans hName'⟩

/-- The same objects at the same places. -/
theorem congr (hWf : Wf h) {h' : Heap} (hTables : h'.tables.cell = h.tables.cell)
    (hValues : h'.values.cell = h.values.cell) :
    Wf h' := by
  have hEntry : ∀ t e, h'.HasEntry t e ↔ h.HasEntry t e := by
    intro t e
    rw [Heap.HasEntry, Heap.HasEntry, hTables]
  constructor
  · rw [hTables]
    exact hWf.names
  · intro t e he
    exact hWf.decoded t e ((hEntry t e).mp he)
  · rw [hTables]
    intro t e he
    exact hWf.held t e ((hEntry t e).mp he)
  · rw [hValues]
    intro t e he
    exact hWf.filled t e ((hEntry t e).mp he)
  · intro t e t' e' v he he'
    exact hWf.sole t e t' e' v ((hEntry t e).mp he) ((hEntry t' e').mp he')

end Wf

/-! ## Changes of one table -/

section Change

variable {h : Heap} {t : Nat} {f g : AttrTable → AttrTable}

theorem change_self {tb : AttrTable} (hCell : h.tables.cell t = some tb) : (h.change t f).tables.cell t = some (f tb) :=
  Store.modify_self f hCell

theorem change_of_ne {q : Nat} (hNe : q ≠ t) : (h.change t f).tables.cell q = h.tables.cell q :=
    Store.modify_of_ne f hNe

theorem change_change (q : Nat) : (h.change q f).change q g = h.change q (g ∘ f) := by
  simp only [Heap.change, Store.modify_modify]

theorem change_comm {q : Nat} (hComm : ∀ tb, g (f tb) = f (g tb)) :
    (h.change t f).change q g = (h.change q g).change t f := by
  by_cases hSame : q = t
  · subst hSame
    rw [change_change, change_change]
    congr 1
    funext tb
    exact hComm tb
  · simp only [Heap.change, Store.modify, Heap.mk.injEq, Store.mk.injEq, and_true]
    rw [Function.update_of_ne hSame, Function.update_of_ne (Ne.symm hSame), Function.update_comm hSame]

/-- A table keeps its name and its parent under a change that keeps them. -/
theorem change_keeps (hName : ∀ tb, (f tb).dName = tb.dName) (hParent : ∀ tb, (f tb).dParent = tb.dParent) {q : Nat}
    {tb : AttrTable} (hCell : h.tables.cell q = some tb) :
    ∃ tb', (h.change t f).tables.cell q = some tb' ∧ tb'.dName = tb.dName ∧ tb'.dParent = tb.dParent := by
  by_cases hSame : q = t
  · subst hSame
    exact ⟨f tb, change_self hCell, hName tb, hParent tb⟩
  · exact ⟨tb, (change_of_ne hSame).trans hCell, rfl, rfl⟩

theorem hasEntry_change {q : Nat} {e : Entry} (he : (h.change t f).HasEntry q e) :
    (q = t ∧ ∃ tb, h.tables.cell t = some tb ∧ e ∈ (f tb).attrMap) ∨ (q ≠ t ∧ h.HasEntry q e) := by
  obtain ⟨tb, hCell, hMem⟩ := he
  rcases Store.modify_cases hCell with ⟨rfl, d, hOld, rfl⟩ | ⟨hNe, hOld⟩
  · exact .inl ⟨rfl, d, hOld, hMem⟩
  · exact .inr ⟨hNe, tb, hOld, hMem⟩

end Change

namespace Wf

variable {h : Heap} {t : Nat} {f : AttrTable → AttrTable}

/-- Entries are taken out. -/
theorem shrink (hWf : Wf h) (hSub : ∀ tb, ((f tb).attrMap).Sublist tb.attrMap) (hName : ∀ tb, (f tb).dName = tb.dName)
    (hParent : ∀ tb, (f tb).dParent = tb.dParent) : Wf (h.change t f) := by
  have hEntry : ∀ q e, (h.change t f).HasEntry q e → h.HasEntry q e := by
    intro q e he
    rcases hasEntry_change he with ⟨rfl, tb, hCell, hMem⟩ | ⟨-, he⟩
    · exact ⟨tb, hCell, (hSub tb).subset hMem⟩
    · exact he
  constructor
  · intro q tb hCell
    rcases Store.modify_cases hCell with ⟨rfl, d, hOld, rfl⟩ | ⟨-, hOld⟩
    · exact (hWf.names q d hOld).sublist ((hSub d).map _)
    · exact hWf.names q tb hOld
  · intro q e he
    exact hWf.decoded q e (hEntry q e he)
  · intro q e he hAlias hType
    obtain ⟨c, ctb, hAttr, hCell, hOldParent, hOldName⟩ := hWf.held q e (hEntry q e he) hAlias hType
    obtain ⟨ctb', hCell', hSameName, hSameParent⟩ := change_keeps hName hParent hCell
    exact ⟨c, ctb', hAttr, hCell', hSameParent.trans hOldParent, hSameName.trans hOldName⟩
  · intro q e he
    exact hWf.filled q e (hEntry q e he)
  · intro q e q' e' v he he'
    exact hWf.sole q e q' e' v (hEntry q e he) (hEntry q' e' he')

/-- The name or the parent of a table that no entry holds. -/
theorem relabel (hWf : Wf h) (hMap : ∀ tb, (f tb).attrMap = tb.attrMap) (hFree : ¬ h.Held t) : Wf (h.change t f) := by
  have hEntry : ∀ q e, (h.change t f).HasEntry q e → h.HasEntry q e := by
    intro q e he
    rcases hasEntry_change he with ⟨rfl, tb, hCell, hMem⟩ | ⟨-, he⟩
    · rw [hMap] at hMem
      exact ⟨tb, hCell, hMem⟩
    · exact he
  constructor
  · intro q tb hCell
    rcases Store.modify_cases hCell with ⟨rfl, d, hOld, rfl⟩ | ⟨-, hOld⟩
    · rw [hMap]
      exact hWf.names q d hOld
    · exact hWf.names q tb hOld
  · intro q e he
    exact hWf.decoded q e (hEntry q e he)
  · intro q e he hAlias hType
    obtain ⟨c, ctb, hAttr, hCell, hRest⟩ := hWf.held q e (hEntry q e he) hAlias hType
    have hNe : c ≠ t := by
      rintro rfl
      exact hFree ⟨q, e, hEntry q e he, hAlias, hType, hAttr⟩
    exact ⟨c, ctb, hAttr, (change_of_ne hNe).trans hCell, hRest⟩
  · intro q e he
    exact hWf.filled q e (hEntry q e he)
  · intro q e q' e' v he he'
    exact hWf.sole q e q' e' v (hEntry q e he) (hEntry q' e' he')

/-- A new entry at the end of a table. -/
theorem push (hWf : Wf h) {tb : AttrTable} {e : Entry} (hTable : h.tables.cell t = some tb)
    (hNew : ∀ e' ∈ tb.attrMap, e'.name ≠ e.name) (hDecoded : removeSpaceEncoding e.name = e.name)
    (hHeld : e.isAlias = false → e.type = .container →
      ∃ c ctb, e.attributes = .ref c ∧ h.tables.cell c = some ctb ∧ ctb.dParent = .ref t ∧ ctb.dName = e.name)
    (hFilled : e.type ≠ .container → ∃ v vals, e.attr = .ref v ∧ h.values.cell v = some vals ∧ vals ≠ [])
    (hSole : ∀ v, e.Owns v → ∀ t' e', h.HasEntry t' e' → ¬ e'.Owns v) : Wf (h.change t (AttrTable.push e)) := by
  have hEntry : ∀ q e', (h.change t (AttrTable.push e)).HasEntry q e' → h.HasEntry q e' ∨ (q = t ∧ e' = e) := by
    intro q e' he
    rcases hasEntry_change he with ⟨rfl, d, hCell, hMem⟩ | ⟨-, he⟩
    · rcases List.mem_append.mp hMem with hOld | hLast
      · exact .inl ⟨d, hCell, hOld⟩
      · exact .inr ⟨rfl, List.mem_singleton.mp hLast⟩
    · exact .inl he
  constructor
  · intro q d hCell
    rcases Store.modify_cases hCell with ⟨rfl, d', hOld, rfl⟩ | ⟨-, hOld⟩
    · rw [hTable] at hOld
      cases hOld
      rw [AttrTable.push, List.map_append, List.nodup_append]
      refine ⟨hWf.names q tb hTable, List.nodup_singleton _, ?_⟩
      intro n hn m hm
      obtain ⟨e', he', rfl⟩ := List.mem_map.mp hn
      rw [List.mem_singleton.mp hm]
      exact hNew e' he'
    · exact hWf.names q d hOld
  · intro q e' he
    rcases hEntry q e' he with he | ⟨-, rfl⟩
    · exact hWf.decoded q e' he
    · exact hDecoded
  · intro q e' he hAlias hType
    have hOld : ∃ c ctb, e'.attributes = .ref c ∧ h.tables.cell c = some ctb ∧ ctb.dParent = .ref q ∧
        ctb.dName = e'.name := by
      rcases hEntry q e' he with he | ⟨rfl, rfl⟩
      · exact hWf.held q e' he hAlias hType
      · exact hHeld hAlias hType
    obtain ⟨c, ctb, hAttr, hCell, hParent, hName⟩ := hOld
    obtain ⟨ctb', hCell', hSameName, hSameParent⟩ :=
      change_keeps (t := t) (f := AttrTable.push e) (fun _ => rfl) (fun _ => rfl) hCell
    exact ⟨c, ctb', hAttr, hCell', hSameParent.trans hParent, hSameName.trans hName⟩
  · intro q e' he hType
    rcases hEntry q e' he with he | ⟨-, rfl⟩
    · exact hWf.filled q e' he hType
    · exact hFilled hType
  · intro q e₁ q' e₂ v he₁ he₂ hOwns₁ hOwns₂
    rcases hEntry q e₁ he₁ with hOld₁ | ⟨rfl, rfl⟩
    · rcases hEntry q' e₂ he₂ with hOld₂ | ⟨rfl, rfl⟩
      · exact hWf.sole q e₁ q' e₂ v hOld₁ hOld₂ hOwns₁ hOwns₂
      · exact absurd hOwns₁ (hSole v hOwns₂ q e₁ hOld₁)
    · rcases hEntry q' e₂ he₂ with hOld₂ | ⟨rfl, rfl⟩
      · exact absurd hOwns₂ (hSole v hOwns₁ q' e₂ hOld₂)
      · exact ⟨rfl, rfl⟩

/-- A change of the values of an attribute that leaves some. -/
theorem revalue (hWf : Wf h) {v : Nat} {m : List Word → List Word}
    (hSome : ∀ vals, h.values.cell v = some vals → vals ≠ [] → m vals ≠ []) :
    Wf { h with values := h.values.modify v m } := by
  refine ⟨hWf.names, hWf.decoded, hWf.held, ?_, hWf.sole⟩
  intro t e he hType
  obtain ⟨w, vals, hAttr, hCell, hNe⟩ := hWf.filled t e he hType
  by_cases hSame : w = v
  · subst hSame
    exact ⟨w, m vals, hAttr, Store.modify_self m hCell, hSome vals hCell hNe⟩
  · exact ⟨w, vals, hAttr, (Store.modify_of_ne m hSame).trans hCell, hNe⟩

theorem make (hWf : Wf h) : Wf h.make := by
  have hEntry : ∀ q e, h.make.HasEntry q e → h.HasEntry q e := by
    rintro q e ⟨tb, hCell, hMem⟩
    rcases Store.alloc_cases hCell with ⟨-, rfl⟩ | hOld
    · cases hMem
    · exact ⟨tb, hOld, hMem⟩
  constructor
  · intro q tb hCell
    rcases Store.alloc_cases hCell with ⟨-, rfl⟩ | hOld
    · exact List.nodup_nil
    · exact hWf.names q tb hOld
  · intro q e he
    exact hWf.decoded q e (hEntry q e he)
  · intro q e he hAlias hType
    obtain ⟨c, ctb, hAttr, hCell, hRest⟩ := hWf.held q e (hEntry q e he) hAlias hType
    exact ⟨c, ctb, hAttr, Store.alloc_of_live _ hCell, hRest⟩
  · intro q e he
    exact hWf.filled q e (hEntry q e he)
  · intro q e q' e' v he he'
    exact hWf.sole q e q' e' v (hEntry q e he) (hEntry q' e' he')

/-- A new list of values. -/
theorem newValues (hWf : Wf h) (vals : List Word) : Wf { h with values := h.values.alloc vals } := by
  refine ⟨hWf.names, hWf.decoded, hWf.held, ?_, hWf.sole⟩
  intro t e he hType
  obtain ⟨v, old, hAttr, hCell, hNe⟩ := hWf.filled t e he hType
  exact ⟨v, old, hAttr, Store.alloc_of_live _ hCell, hNe⟩

/-- What is destroyed, when nothing that stays refers to it. -/
theorem freed (hWf : Wf h) {o : List Nat × List Nat}
    (hTables : ∀ t e c, t ∉ o.1 → h.HasEntry t e → e.Holds c → c ∉ o.1)
    (hValues : ∀ t e v, t ∉ o.1 → h.HasEntry t e → e.type ≠ .container → e.attr = .ref v → v ∉ o.2) :
    Wf (h.freed o) := by
  have hLive : ∀ q tb, (h.freed o).tables.cell q = some tb → q ∉ o.1 ∧ h.tables.cell q = some tb := by
    intro q tb hCell
    rw [freed_tables] at hCell
    split at hCell
    · cases hCell
    · rename_i hNot
      exact ⟨hNot, hCell⟩
  have hEntry : ∀ q e, (h.freed o).HasEntry q e → q ∉ o.1 ∧ h.HasEntry q e := by
    rintro q e ⟨tb, hCell, hMem⟩
    obtain ⟨hNot, hOld⟩ := hLive q tb hCell
    exact ⟨hNot, tb, hOld, hMem⟩
  constructor
  · intro q tb hCell
    exact hWf.names q tb (hLive q tb hCell).2
  · intro q e he
    exact hWf.decoded q e (hEntry q e he).2
  · intro q e he hAlias hType
    obtain ⟨hNot, he⟩ := hEntry q e he
    obtain ⟨c, ctb, hAttr, hCell, hRest⟩ := hWf.held q e he hAlias hType
    refine ⟨c, ctb, hAttr, ?_, hRest⟩
    rw [freed_tables, if_neg (hTables q e c hNot he ⟨hAlias, hType, hAttr⟩), hCell]
  · intro q e he hType
    obtain ⟨hNot, he⟩ := hEntry q e he
    obtain ⟨v, vals, hAttr, hCell, hNe⟩ := hWf.filled q e he hType
    refine ⟨v, vals, hAttr, ?_, hNe⟩
    rw [freed_values, if_neg (hValues q e v hNot he hType hAttr), hCell]
  · intro q e q' e' v he he'
    exact hWf.sole q e q' e' v (hEntry q e he).2 (hEntry q' e' he').2

end Wf

/-! ## The conditions of the operations -/

/-- A value alias in a table that stays refers to a list that is destroyed with the entry. -/
def Dangles (h : Heap) (t : Nat) (name : Word) (e : Entry) : Prop :=
  ∃ o q a v, Destroyed h t name e o ∧ (h.change t (AttrTable.eraseNamed (removeSpaceEncoding name))).HasEntry q a ∧
    q ∉ o.1 ∧ a.isAlias = true ∧ a.type ≠ .container ∧ a.attr = .ref v ∧ v ∈ o.2

/-- The test for the encoded name finds an entry that has the decoded one. -/
def TestedRight (h : Heap) (t : Nat) (name : Word) : Prop :=
  ∀ tb, h.tables.cell t = some tb → tb.simpleFind name = none → tb.simpleFind (removeSpaceEncoding name) = none

def AttrOp.Proper (h : Heap) : AttrOp → Prop
  | .appendAttr t name type values =>
    ∀ tb, h.tables.cell t = some tb → tb.simpleFind (removeSpaceEncoding name) = none →
      stringToAttrType type ≠ .container ∧ values ≠ []
  | .appendContainer t name => TestedRight h t name
  | .appendTable t c name => TestedRight h t name ∧ ¬ h.Held c
  | .delAttr t name i => ∀ tb e, h.tables.cell t = some tb → tb.simpleFind (removeSpaceEncoding name) = some e →
      if i = -1 then ¬ Dangles h t name e
      else e.type ≠ .container → ∀ v vals, e.attr = .ref v → h.values.cell v = some vals → vals.length ≠ 1
  | .delAttrTable t iter => ∀ tb e c, h.tables.cell t = some tb → tb.attrMap[iter]? = some e →
      e.isAlias = true → e.attributes = .ref c → ¬ h.Held c
  | _ => True

namespace Wf

variable {h : Heap}

/-- A table with this name and this parent becomes the last entry. -/
theorem withTable (hWf : Wf h) {t c : Nat} {name : Word} {tb ctb : AttrTable} (hTable : h.tables.cell t = some tb)
    (hHeld : h.tables.cell c = some ctb) (hNew : tb.simpleFind (removeSpaceEncoding name) = none) (hFree : ¬ h.Held c) :
    Wf (h.withTable t c name) := by
  have hSwap : h.withTable t c name =
      (h.change c (AttrTable.setParent (.ref t) ∘ AttrTable.setName (removeSpaceEncoding name))).change t
        (AttrTable.push (tableEntry name c)) := by
    rw [Heap.withTable, change_comm, change_change]
    intro tb
    rfl
  rw [hSwap]
  have hLabelled := hWf.relabel (f := AttrTable.setParent (.ref t) ∘ AttrTable.setName (removeSpaceEncoding name))
    (fun _ => rfl) hFree
  have hChild : (h.change c (AttrTable.setParent (.ref t) ∘ AttrTable.setName (removeSpaceEncoding name))).tables.cell
      c =
      some { ctb with dName := removeSpaceEncoding (removeSpaceEncoding name), dParent := .ref t } := change_self hHeld
  have hOwn : ∃ tb', (h.change c (AttrTable.setParent (.ref t) ∘ AttrTable.setName
      (removeSpaceEncoding name))).tables.cell t =
      some tb' ∧ tb'.attrMap = tb.attrMap := by
    by_cases hSame : t = c
    · subst hSame
      rw [hTable] at hHeld
      cases hHeld
      exact ⟨_, hChild, rfl⟩
    · exact ⟨tb, (change_of_ne hSame).trans hTable, rfl⟩
  obtain ⟨tb', hTable', hMap⟩ := hOwn
  apply hLabelled.push hTable'
  · rw [hMap]
    exact simpleFind_none hNew
  · exact removeSpaceEncoding_idem name
  · intro _ _
    exact ⟨c, _, rfl, hChild, rfl, removeSpaceEncoding_idem name⟩
  · intro hType
    exact absurd rfl hType
  · rintro v ⟨-, hType, -⟩
    exact absurd rfl hType

theorem ne_of_mem_eraseP {α β : Type} [DecidableEq β] {f : α → β} {n : β} {x : α} {l : List α}
    (hNodup : (l.map f).Nodup)
    (hMem : x ∈ l.eraseP fun a => n = f a) : f x ≠ n := by
  induction l with
  | nil => cases hMem
  | cons a l ih =>
    rw [List.map_cons, List.nodup_cons] at hNodup
    by_cases hSame : n = f a
    · rw [List.eraseP_cons_of_pos (by simpa using hSame)] at hMem
      rintro rfl
      rw [← hSame] at hNodup
      exact hNodup.1 (List.mem_map_of_mem hMem)
    · rw [List.eraseP_cons_of_neg (by simpa using hSame)] at hMem
      rcases List.mem_cons.mp hMem with rfl | hMem
      · exact Ne.symm hSame
      · exact ih hNodup.2 hMem

theorem ne_of_mem_eraseIdx {α β : Type} {f : α → β} {x e : α} {l : List α} {i : Nat} (hNodup : (l.map f).Nodup)
    (hEntry : l[i]? = some e) (hMem : x ∈ l.eraseIdx i) : f x ≠ f e := by
  induction l generalizing i with
  | nil => cases hMem
  | cons a l ih =>
    rw [List.map_cons, List.nodup_cons] at hNodup
    cases i with
    | zero =>
      cases hEntry
      intro hSame
      exact hNodup.1 (hSame ▸ List.mem_map_of_mem hMem)
    | succ i =>
      rw [List.getElem?_cons_succ] at hEntry
      rcases List.mem_cons.mp hMem with rfl | hMem
      · intro hSame
        exact hNodup.1 (hSame ▸ List.mem_map_of_mem (List.mem_of_getElem? hEntry))
      · exact ih hNodup.2 hEntry hMem

theorem erased_name (hWf : Wf h) {t : Nat} {tb : AttrTable} {e e' : Entry} {lname : Word}
    (hTable : h.tables.cell t = some tb)
    (hFind : tb.simpleFind lname = some e) (he' : (h.change t (AttrTable.eraseNamed lname)).HasEntry t e') :
    e'.name ≠ e.name := by
  rcases hasEntry_change he' with ⟨-, d, hCell, hMem⟩ | ⟨hNe, -⟩
  · rw [hTable] at hCell
    cases hCell
    rw [(simpleFind_mem hFind).2]
    exact ne_of_mem_eraseP (hWf.names t tb hTable) hMem
  · exact absurd rfl hNe

theorem deleted (hWf : Wf h) {t : Nat} {name : Word} {tb : AttrTable} {e : Entry} {o : List Nat × List Nat}
    (hTable : h.tables.cell t = some tb) (hFind : tb.simpleFind (removeSpaceEncoding name) = some e)
    (hOwned : Destroyed h t name e o) (hProper : ¬ Dangles h t name e) :
    Wf ((h.change t (AttrTable.eraseNamed (removeSpaceEncoding name))).freed o) := by
  have hBy : OwnedBy (h.change t (AttrTable.eraseNamed (removeSpaceEncoding name))) [e] o := by
    obtain ⟨stack, hOwned⟩ := hOwned
    exact ownedBy_entry hOwned
  have hErased : Wf (h.change t (AttrTable.eraseNamed (removeSpaceEncoding name))) :=
    hWf.shrink (fun _ => List.eraseP_sublist) (fun _ => rfl) fun _ => rfl
  have hBefore : ∀ q a, (h.change t (AttrTable.eraseNamed (removeSpaceEncoding name))).HasEntry q a →
      h.HasEntry q a := by
    intro q a ha
    rcases hasEntry_change ha with ⟨rfl, d, hCell, hMem⟩ | ⟨-, ha⟩
    · exact ⟨d, hCell, List.mem_of_mem_eraseP hMem⟩
    · exact ha
  have hEntry : h.HasEntry t e := ⟨tb, hTable, (simpleFind_mem hFind).1⟩
  have hGone : ∀ a, (h.change t (AttrTable.eraseNamed (removeSpaceEncoding name))).HasEntry t a → a.name ≠ e.name :=
    fun a ha => hWf.erased_name hTable hFind ha
  apply hErased.freed
  · intro q a c hStays ha hHolds hc
    rcases hBy.tables c hc with ⟨e', he', hHolds'⟩ | ⟨x, hx, d, hCell, e', he', hHolds'⟩
    · cases List.mem_singleton.mp he'
      obtain ⟨rfl, hName⟩ := hWf.holder (hBefore q a ha) hEntry hHolds hHolds'
      exact hGone a ha hName
    · obtain ⟨rfl, -⟩ := hErased.holder ha ⟨d, hCell, he'⟩ hHolds hHolds'
      exact hStays hx
  · intro q a v hStays ha hType hAttr hv
    cases hAlias : a.isAlias with
    | true => exact hProper ⟨o, q, a, v, hOwned, ha, hStays, hAlias, hType, hAttr, hv⟩
    | false =>
      rcases hBy.values v hv with ⟨e', he', hOwns⟩ | ⟨x, hx, d, hCell, e', he', hOwns⟩
      · cases List.mem_singleton.mp he'
        obtain ⟨rfl, rfl⟩ := hWf.sole q a t e v (hBefore q a ha) hEntry ⟨hAlias, hType, hAttr⟩ hOwns
        exact hGone a ha rfl
      · obtain ⟨rfl, -⟩ := hErased.sole q a x e' v ha ⟨d, hCell, he'⟩ ⟨hAlias, hType, hAttr⟩ hOwns
        exact hStays hx

/-- One operation within its conditions. -/
theorem step (hWf : Wf h) {o : AttrOp} {h' : Heap} (hStep : Step h o h') (hProper : o.Proper h) : Wf h' := by
  cases hStep with
  | nothing => exact hWf
  | made => exact hWf.make
  | appended hTable hFind hType hAttr hOld =>
    apply hWf.revalue
    intro vals _ hNe
    exact List.append_ne_nil_of_left_ne_nil hNe _
  | @added t name type values tb hTable hFind =>
    obtain ⟨hType, hSome⟩ := hProper tb hTable hFind
    apply (hWf.newValues values).push hTable
    · exact simpleFind_none hFind
    · exact removeSpaceEncoding_idem name
    · intro _ hContainer
      exact absurd hContainer hType
    · intro _
      exact ⟨h.values.next, values, rfl, Store.alloc_self values, hSome⟩
    · rintro v ⟨-, -, hNew⟩ t' e' he' ⟨-, hType', hAttr'⟩
      cases hNew
      obtain ⟨w, vals, hAttr, hCell, -⟩ := hWf.filled t' e' he' hType'
      rw [hAttr'] at hAttr
      cases hAttr
      exact Store.ne_next hCell rfl
  | refused =>
    refine hWf.congr ?_ rfl
    funext q
    by_cases hSame : q = h.tables.next
    · subst hSame
      rw [Store.cell_next]
      exact Function.update_self ..
    · exact (Store.free_of_ne hSame).trans (Store.alloc_of_ne _ hSame)
  | @containerAdded t name tb hTable hFind =>
    have hLive : h.make.tables.cell t = some tb := Store.alloc_of_live _ hTable
    apply hWf.make.withTable hLive (Store.alloc_self _) (hProper tb hTable hFind)
    rintro ⟨q, e, he, hHolds⟩
    obtain ⟨c, ctb, hAttr, hCell, hParent, -⟩ := hWf.make.held q e he hHolds.1 hHolds.2.1
    rw [hHolds.2.2] at hAttr
    cases hAttr
    cases hCell.symm.trans (Store.alloc_self AttrTable.new)
    cases hParent
  | tableAdded hTable hFind hHeld => exact hWf.withTable hTable hHeld (hProper.1 _ hTable hFind) hProper.2
  | valueDeleted hTable hFind hOne hType hAttr hVals hIndex =>
    have hMany := hProper _ _ hTable hFind
    rw [if_neg hOne] at hMany
    apply hWf.revalue
    intro vals hCell _ hNil
    have hLength := congrArg List.length hNil
    rw [hVals] at hCell
    cases hCell
    rw [List.length_eraseIdx_of_lt (by omega), List.length_nil] at hLength
    exact hMany hType _ _ hAttr hVals (by omega)
  | deleted hTable hFind hOwned =>
    have hKeep := hProper _ _ hTable hFind
    rw [if_pos rfl] at hKeep
    exact hWf.deleted hTable hFind hOwned hKeep
  | releasedNull hTable hEntry hNull =>
    exact hWf.shrink (fun _ => List.eraseIdx_sublist _ _) (fun _ => rfl) fun _ => rfl
  | @released t iter c tb ctb e hTable hEntry hType hHeld hCell =>
    rw [change_comm (f := AttrTable.setParent .null) (g := AttrTable.eraseAt iter) fun _ => rfl]
    have hErased : Wf (h.change t (AttrTable.eraseAt iter)) :=
      hWf.shrink (fun _ => List.eraseIdx_sublist _ _) (fun _ => rfl) fun _ => rfl
    apply hErased.relabel (f := AttrTable.setParent .null) fun _ => rfl
    rintro ⟨q, a, ha, hHolds⟩
    have hBefore : h.HasEntry q a := by
      rcases hasEntry_change ha with ⟨rfl, d, hOld, hMem⟩ | ⟨-, ha⟩
      · exact ⟨d, hOld, List.mem_of_mem_eraseIdx hMem⟩
      · exact ha
    cases hAlias : e.isAlias with
    | true => exact hProper tb e c hTable hEntry hAlias hHeld ⟨q, a, hBefore, hHolds⟩
    | false =>
      obtain ⟨rfl, hName⟩ :=
        hWf.holder hBefore ⟨tb, hTable, List.mem_of_getElem? hEntry⟩ hHolds ⟨hAlias, hType, hHeld⟩
      rcases hasEntry_change ha with ⟨-, d, hOld, hMem⟩ | ⟨hNe, -⟩
      · rw [hTable] at hOld
        cases hOld
        exact ne_of_mem_eraseIdx (hWf.names q tb hTable) hEntry hMem hName
      · exact hNe rfl
  | containerAliased hTable hFind hSource =>
    apply hWf.push hTable
    · exact simpleFind_none hFind
    · exact removeSpaceEncoding_idem _
    · rintro ⟨⟩
    · intro hType
      exact absurd rfl hType
    · rintro v ⟨⟨⟩, -⟩
  | @valueAliased das t name source tb f hTable hFind hFrom =>
    apply hWf.push hTable
    · exact simpleFind_none hFind
    · exact removeSpaceEncoding_idem name
    · rintro ⟨⟩
    · intro hType
      have hEntry : ∃ q, h.HasEntry q f := by
        rcases hFrom with ⟨q, d, -, hCell, hMem⟩ | ⟨q, d, -, hCell, hMem⟩
        · exact ⟨q, d, hCell, hMem⟩
        · exact ⟨q, d, hCell, hMem⟩
      obtain ⟨q, hEntry⟩ := hEntry
      change f.type ≠ .container at hType
      simp only [aliasEntry, if_neg hType]
      exact hWf.filled q f hEntry hType
    · rintro v ⟨⟨⟩, -⟩

end Wf

/-! ## Runs -/

/-- The heaps that operations lead to, each with some room on the stack and within its conditions. -/
abbrev Reached (allowed : Heap → AttrOp → Prop) : Heap → Prop :=
  Run (fun o : Nat × AttrOp => o.2.call o.1) (fun h => h = Heap.empty) fun h o => allowed h o.2

theorem tables_sound {h : Heap} (hRun : Reached AttrOp.Proper h) : Sound h := by
  apply Wf.sound
  induction hRun with
  | start hStart =>
    subst hStart
    exact Wf.empty
  | step o _ hProper hAfter ih => exact ih.step (AttrOp.step hAfter) hProper

/-- Operations one after the other. -/
def runAll : Heap → List (Nat × AttrOp) → Option Heap
  | h, [] => some h
  | h, o :: os => ((o.2.call o.1).after h).bind fun h' => runAll h' os

theorem Reached.all {allowed : Heap → AttrOp → Prop} {h h' : Heap} {os : List (Nat × AttrOp)}
    (hStart : Reached allowed h)
    (hAllowed : ∀ g o, (o ∈ os) → allowed g o.2) (hRun : runAll h os = some h') : Reached allowed h' := by
  induction os generalizing h with
  | nil =>
    cases hRun
    exact hStart
  | cons o os ih =>
    obtain ⟨g, hAfter, hRest⟩ := Option.bind_eq_some_iff.mp hRun
    exact ih (.step o hStart (hAllowed h o List.mem_cons_self) hAfter)
      (fun g p hp => hAllowed g p (List.mem_cons_of_mem o hp)) hRest

/-- A table with one attribute. -/
theorem tables_sound_named :
    ∃ h, runAll .empty [(0, .make), (0, .appendAttr 0 "units".toList "String".toList ["m".toList])] = some h ∧
      Sound h := by
  have hMade : Reached AttrOp.Proper Heap.empty.make := .step (0, .make) (.start rfl) trivial rfl
  refine ⟨_, rfl, ?_⟩
  apply tables_sound
  refine .step (0, .appendAttr 0 "units".toList "String".toList ["m".toList]) hMade ?_ rfl
  rintro tb hTable hFind
  exact ⟨by decide, by decide⟩

def twiceNamed : List (Nat × AttrOp) :=
  [(0, .make), (0, .appendContainer 0 "a b".toList), (0, .appendContainer 0 "a%20b".toList)]

def emptied : List (Nat × AttrOp) :=
  [(0, .make), (0, .appendAttr 0 "a".toList "Int32".toList ["1".toList]), (0, .delAttr 0 "a".toList 0)]

def noTable : List (Nat × AttrOp) := [(0, .make), (0, .appendAttr 0 "a".toList "Container".toList ["1".toList])]

/-- A table with two entries of one name, an attribute without a value and a container without a table. -/
theorem mutators_unsound :
    (∃ h, runAll .empty twiceNamed = some h ∧
      (h.tables.cell 0).map (fun tb => tb.attrMap.map Entry.name) = some ["a b".toList, "a b".toList]) ∧
    (∃ h, runAll .empty emptied = some h ∧ h.values.cell 0 = some []) ∧
    (∃ h, runAll .empty noTable = some h ∧
      (h.tables.cell 0).map (fun tb => tb.attrMap.map fun e => (e.type, e.attributes)) = some [(.container, .null)]) ∧
    ¬ ∀ h, Reached (fun _ _ => True) h → Sound h := by
  refine ⟨⟨_, rfl, by decide⟩, ⟨_, rfl, by decide⟩, ⟨_, rfl, by decide⟩, ?_⟩
  intro hAll
  have hReached : ∃ h, runAll .empty twiceNamed = some h ∧
      (h.tables.cell 0).map (fun tb => tb.attrMap.map Entry.name) = some ["a b".toList, "a b".toList] :=
        ⟨_, rfl, by decide⟩
  obtain ⟨h, hRun, hNames⟩ := hReached
  obtain ⟨tb, hCell, hMap⟩ := Option.map_eq_some_iff.mp hNames
  have hNodup := (hAll h (.all (.start rfl) (fun _ _ _ => trivial) hRun)).names 0 tb hCell
  have hTwice : tb.attrMap.map (fun e => removeSpaceEncoding e.name) = ["a b".toList, "a b".toList] := by
    change tb.attrMap.map (removeSpaceEncoding ∘ Entry.name) = _
    rw [← List.map_map, hMap]
    decide
  rw [hTwice] at hNodup
  exact absurd hNodup (by decide)

end Libdap.Dap2
