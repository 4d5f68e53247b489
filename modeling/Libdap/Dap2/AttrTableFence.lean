import Libdap.Dap2.AttrTableRun

/-! # Tables that operations do not reach

An operation follows pointers from the tables it is made on. Tables and lists to which no pointer from outside leads
stay as they are.
-/

namespace Libdap.Dap2
open Core Constraint
set_option autoImplicit false

/-! ## All public operations -/

inductive LifeOp
  | attr (o : AttrOp)
  | setName (t : Nat) (n : Word)
  | setIsGlobal (t : Nat) (ga : Bool)
  | setIsGlobalAttribute (t iter : Nat) (ga : Bool)
  | erase (t : Nat)
  | destroy (t : Nat)
  | copy (rhs : Nat)
  | assign (t rhs : Nat)

def LifeOp.call (stack : Nat) : LifeOp → Call Heap Unit
  | attr o => o.call stack
  | setName t n => modifyTable t (AttrTable.setName n)
  | setIsGlobal t ga => modifyTable t fun tb => { tb with dIsGlobalAttribute := ga }
  | setIsGlobalAttribute t iter ga => Dap2.setIsGlobalAttribute t iter ga
  | erase t => Dap2.erase stack t
  | destroy t => deleteTable stack t
  | copy rhs => do
    let _ ← copyTable stack rhs
    pure ()
  | assign t rhs => assignTable stack t rhs

/-- The tables that the operation is made on or given. -/
def AttrOp.tables : AttrOp → List Nat
  | make => []
  | appendAttr t _ _ _ => [t]
  | appendContainer t _ => [t]
  | appendTable t c _ => [t, c]
  | delAttr t _ _ => [t]
  | delAttrTable t _ => [t]
  | addContainerAlias t _ src => [t, src]
  | addValueAlias das t _ _ => [das, t]

def LifeOp.tables : LifeOp → List Nat
  | attr o => o.tables
  | setName t _ => [t]
  | setIsGlobal t _ => [t]
  | setIsGlobalAttribute t _ _ => [t]
  | erase t => [t]
  | destroy t => [t]
  | copy rhs => [rhs]
  | assign t rhs => [t, rhs]

/-- The heaps that the operations lead to, each with some room on the stack. -/
abbrev Led (start : Heap) (allowed : LifeOp → Prop) : Heap → Prop :=
  Run (fun o : Nat × LifeOp => o.2.call o.1) (fun h => h = start) fun _ o => allowed o.2

/-! ## What the calls can fail with -/

theorem defined_newTable : Defined newTable := fun _ _ _ hRun => nomatch hRun

theorem defined_newValues (vals : List Word) : Defined (newValues vals) := fun _ _ _ hRun => nomatch hRun

section Defined

variable {copy : Nat → Call Heap Nat}

theorem defined_copyEntry (hCopy : ∀ c, Defined (copy c)) (rhs : Entry) : Defined (copyEntry copy rhs) := by
  rw [copyEntry]
  split
  · exact Defined.pure
  · split
    · exact Defined.pure
    · exact (defined_deref _).bind fun c => (hCopy c).bind fun _ => Defined.pure
  · split
    · exact Defined.pure
    · exact (defined_deref _).bind fun v => (defined_readValues v).bind fun _ => (defined_newValues _).bind fun _ =>
        Defined.pure

theorem defined_pushEntry (t : Nat) (e : Entry) : Defined (pushEntry t e) := by
  apply (defined_modifyTable t _).bind
  intro _
  split
  · exact (defined_deref _).bind fun c => defined_modifyTable c _
  · exact Defined.pure

theorem defined_cloneEntries (hCopy : ∀ c, Defined (copy c)) (t : Nat) (es : List Entry) :
    Defined (cloneEntries copy t es) := by
  induction es with
  | nil => exact Defined.pure
  | cons e es ih => exact (defined_copyEntry hCopy e).bind fun e' => (defined_pushEntry t e').bind fun _ => ih

theorem defined_clone (hCopy : ∀ c, Defined (copy c)) (t at_ : Nat) : Defined (clone copy t at_) :=
  (defined_readTable at_).bind fun tb => (defined_modifyTable t _).bind fun _ => defined_cloneEntries hCopy t tb.attrMap

theorem defined_copyTable (stack rhs : Nat) : Defined (copyTable stack rhs) := by
  induction stack generalizing rhs with
  | zero => exact Defined.undefined
  | succ stack ih =>
    exact (defined_readTable rhs).bind fun _ => defined_newTable.bind fun t => (defined_clone ih t rhs).bind fun _ =>
      Defined.pure

theorem defined_deleteAttrTable (stack t : Nat) : Defined (deleteAttrTable stack t) :=
  (defined_readTable t).bind fun tb => (defined_deleteEntries (defined_deleteTable stack) tb.attrMap).bind fun _ =>
    defined_modifyTable t _

theorem defined_assignTable (stack t rhs : Nat) : Defined (assignTable stack t rhs) := by
  rw [assignTable]
  split
  · exact Defined.pure
  · exact (defined_deleteAttrTable stack t).bind fun _ => defined_clone (defined_copyTable stack) t rhs

theorem defined_erase (stack t : Nat) : Defined (erase stack t) :=
  (defined_deleteAttrTable stack t).bind fun _ => defined_modifyTable t _

theorem defined_setIsGlobalAttribute (t iter : Nat) (ga : Bool) : Defined (setIsGlobalAttribute t iter ga) := by
  apply (defined_readTable t).bind
  intro tb
  split
  · exact Defined.undefined
  · split
    · exact (defined_deref _).bind fun c => defined_modifyTable c _
    · exact defined_modifyTable t _

end Defined

/-! ## The fence -/

/-- The pointers of the entry lead to objects that were made, not to those behind the fence. -/
structure Outside (F V : Nat → Prop) (h : Heap) (e : Entry) : Prop where
  table : e.type = .container → ∀ c, e.attributes = .ref c → ¬ F c ∧ c < h.tables.next
  values : e.type ≠ .container → ∀ v, e.attr = .ref v → ¬ V v ∧ v < h.values.next

/-- The tables `F` and the lists `V` are as they were, and no other table leads to them. -/
structure Fenced (F V : Nat → Prop) (h₀ h : Heap) : Prop where
  tables : ∀ x, F x → h.tables.cell x = h₀.tables.cell x
  values : ∀ v, V v → h.values.cell v = h₀.values.cell v
  tablesMade : ∀ x, F x → x < h.tables.next
  valuesMade : ∀ v, V v → v < h.values.next
  apart : ∀ t e, ¬ F t → h.HasEntry t e → Outside F V h e

/-- No object is made at a place that was used before. -/
structure Grown (h h' : Heap) : Prop where
  tables : h.tables.next ≤ h'.tables.next
  values : h.values.next ≤ h'.values.next

theorem Grown.refl (h : Heap) : Grown h h := ⟨Nat.le_refl _, Nat.le_refl _⟩

theorem Grown.trans {h g k : Heap} (hFirst : Grown h g) (hRest : Grown g k) : Grown h k :=
  ⟨hFirst.tables.trans hRest.tables, hFirst.values.trans hRest.values⟩

section Fence

variable {F V : Nat → Prop} {h₀ h : Heap}

theorem Outside.grown {e : Entry} {h' : Heap} (hOutside : Outside F V h e) (hGrown : Grown h h') : Outside F V h' e :=
  ⟨fun hType c hc => ⟨(hOutside.table hType c hc).1, (hOutside.table hType c hc).2.trans_le hGrown.tables⟩,
    fun hType v hv => ⟨(hOutside.values hType v hv).1, (hOutside.values hType v hv).2.trans_le hGrown.values⟩⟩

namespace Fenced

theorem change (hFence : Fenced F V h₀ h) {t : Nat} (ht : ¬ F t) {f : AttrTable → AttrTable}
    (hMap : ∀ tb, h.tables.cell t = some tb → ∀ e ∈ (f tb).attrMap, e ∈ tb.attrMap ∨ Outside F V h e) :
    Fenced F V h₀ (h.change t f) := by
  refine ⟨?_, hFence.values, hFence.tablesMade, hFence.valuesMade, ?_⟩
  · intro x hx
    have hNe : x ≠ t := by
      rintro rfl
      exact ht hx
    exact (change_of_ne hNe).trans (hFence.tables x hx)
  · intro q e hq he
    rcases hasEntry_change he with ⟨rfl, tb, hCell, hMem⟩ | ⟨-, he⟩
    · rcases hMap tb hCell e hMem with hOld | hOutside
      · have hOutside := hFence.apart q e hq ⟨tb, hCell, hOld⟩
        exact ⟨hOutside.table, hOutside.values⟩
      · exact ⟨hOutside.table, hOutside.values⟩
    · have hOutside := hFence.apart q e hq he
      exact ⟨hOutside.table, hOutside.values⟩

/-- A change of other things than the entries. -/
theorem label (hFence : Fenced F V h₀ h) {t : Nat} (ht : ¬ F t) {f : AttrTable → AttrTable}
    (hMap : ∀ tb, (f tb).attrMap = tb.attrMap) : Fenced F V h₀ (h.change t f) := by
  apply hFence.change ht
  intro tb _ e he
  rw [hMap] at he
  exact .inl he

theorem push (hFence : Fenced F V h₀ h) {t : Nat} (ht : ¬ F t) {e : Entry} (hOutside : Outside F V h e) :
    Fenced F V h₀ (h.change t (AttrTable.push e)) := by
  apply hFence.change ht
  intro tb _ e' he'
  rcases List.mem_append.mp he' with hOld | hLast
  · exact .inl hOld
  · cases List.mem_singleton.mp hLast
    exact .inr hOutside

theorem revalue (hFence : Fenced F V h₀ h) {v : Nat} (hv : ¬ V v) (m : List Word → List Word) :
    Fenced F V h₀ { h with values := h.values.modify v m } := by
  refine ⟨hFence.tables, ?_, hFence.tablesMade, hFence.valuesMade, ?_⟩
  · intro w hw
    have hNe : w ≠ v := by
      rintro rfl
      exact hv hw
    exact (Store.modify_of_ne m hNe).trans (hFence.values w hw)
  · intro t e ht he
    have hOutside := hFence.apart t e ht he
    exact ⟨hOutside.table, hOutside.values⟩

theorem make (hFence : Fenced F V h₀ h) : Fenced F V h₀ h.make := by
  have hGrown : Grown h h.make := ⟨Nat.le_succ _, Nat.le_refl _⟩
  refine ⟨?_, hFence.values, ?_, hFence.valuesMade, ?_⟩
  · intro x hx
    exact (Store.alloc_of_ne _ (hFence.tablesMade x hx).ne).trans (hFence.tables x hx)
  · intro x hx
    exact (hFence.tablesMade x hx).trans_le hGrown.tables
  · rintro t e ht ⟨tb, hCell, hMem⟩
    rcases Store.alloc_cases hCell with ⟨-, rfl⟩ | hOld
    · cases hMem
    · exact (hFence.apart t e ht ⟨tb, hOld, hMem⟩).grown hGrown

theorem next_not (hFence : Fenced F V h₀ h) : ¬ F h.tables.next := fun hNext => (hFence.tablesMade _ hNext).false

theorem nextValues_not (hFence : Fenced F V h₀ h) : ¬ V h.values.next := fun hNext => (hFence.valuesMade _ hNext).false

theorem newValues (hFence : Fenced F V h₀ h) (vals : List Word) :
    Fenced F V h₀ { h with values := h.values.alloc vals } := by
  have hGrown : Grown h { h with values := h.values.alloc vals } := ⟨Nat.le_refl _, Nat.le_succ _⟩
  refine ⟨hFence.tables, ?_, hFence.tablesMade, ?_, ?_⟩
  · intro v hv
    exact (Store.alloc_of_ne _ (hFence.valuesMade v hv).ne).trans (hFence.values v hv)
  · intro v hv
    exact (hFence.valuesMade v hv).trans_le hGrown.values
  · intro t e ht he
    exact (hFence.apart t e ht he).grown hGrown

theorem freed (hFence : Fenced F V h₀ h) {o : List Nat × List Nat} (hTables : ∀ x ∈ o.1, ¬ F x)
    (hValues : ∀ v ∈ o.2, ¬ V v) : Fenced F V h₀ (h.freed o) := by
  have hGrown : Grown h (h.freed o) := ⟨(Store.next_free_all _ _).ge, (Store.next_free_all _ _).ge⟩
  constructor
  · intro x hx
    rw [freed_tables, if_neg fun hMem => hTables x hMem hx, hFence.tables x hx]
  · intro v hv
    rw [freed_values, if_neg fun hMem => hValues v hMem hv, hFence.values v hv]
  · intro x hx
    exact (hFence.tablesMade x hx).trans_le hGrown.tables
  · intro v hv
    exact (hFence.valuesMade v hv).trans_le hGrown.values
  · rintro t e ht ⟨tb, hCell, hMem⟩
    rw [freed_tables] at hCell
    split at hCell
    · cases hCell
    · exact (hFence.apart t e ht ⟨tb, hCell, hMem⟩).grown hGrown

theorem reached (hFence : Fenced F V h₀ h) {t x : Nat} (ht : ¬ F t) (hReach : TableReaches h t x) : ¬ F x := by
  induction hReach with
  | refl => exact ht
  | tail _ hPoints ih =>
    obtain ⟨tb, hCell, e, he, hType, hPtr⟩ := hPoints
    exact ((hFence.apart _ e ih ⟨tb, hCell, he⟩).table hType _ hPtr).1

theorem reachedEntry (hFence : Fenced F V h₀ h) {t : Nat} {e : Entry} (ht : ¬ F t) (hReach : ReachesEntry h t e) :
    Outside F V h e := by
  obtain ⟨x, tb, hReach, hCell, hMem⟩ := hReach
  exact hFence.apart x e (hFence.reached ht hReach) ⟨tb, hCell, hMem⟩

/-- What is destroyed with entries from outside is outside. -/
theorem ownedBy (hFence : Fenced F V h₀ h) {es : List Entry} {o : List Nat × List Nat} (hBy : OwnedBy h es o)
    (hOutside : ∀ e ∈ es, Outside F V h e) : (∀ x ∈ o.1, ¬ F x) ∧ ∀ v ∈ o.2, ¬ V v := by
  have hTables : ∀ x ∈ o.1, ¬ F x := by
    intro x hx
    obtain ⟨e, he, c, hHolds, hReach⟩ := hBy.reached x hx
    exact hFence.reached ((hOutside e he).table hHolds.2.1 c hHolds.2.2).1 hReach
  refine ⟨hTables, ?_⟩
  intro v hv
  rcases hBy.values v hv with ⟨e, he, hOwns⟩ | ⟨x, hx, tb, hCell, e, he, hOwns⟩
  · exact ((hOutside e he).values hOwns.2.1 v hOwns.2.2).1
  · exact ((hFence.apart x e (hTables x hx) ⟨tb, hCell, he⟩).values hOwns.2.1 v hOwns.2.2).1

theorem withTable (hFence : Fenced F V h₀ h) {t c : Nat} (name : Word) (ht : ¬ F t) (hc : ¬ F c)
    (hMade : c < h.tables.next) :
    Fenced F V h₀ (h.withTable t c name) := by
  have hNamed := hFence.label (f := AttrTable.setName (removeSpaceEncoding name)) hc fun _ => rfl
  have hPushed := hNamed.push (e := tableEntry name c) ht
    ⟨fun _ d hd => by cases hd; exact ⟨hc, hMade⟩, fun hType => absurd rfl hType⟩
  exact hPushed.label (f := AttrTable.setParent (.ref t)) hc fun _ => rfl

theorem step (hFence : Fenced F V h₀ h) {o : AttrOp} {h' : Heap} (hStep : Step h o h') (ho : ∀ x ∈ o.tables, ¬ F x) :
    Fenced F V h₀ h' := by
  cases hStep with
  | nothing => exact hFence
  | made => exact hFence.make
  | @appended t name type values old tb e v hTable hFind hType hAttr hOld =>
    have hOutside := hFence.apart t e (ho t List.mem_cons_self) ⟨tb, hTable, (simpleFind_mem hFind).1⟩
    exact hFence.revalue (hOutside.values hType v hAttr).1 _
  | @added t name type values tb hTable hFind =>
    apply (hFence.newValues values).push (ho t List.mem_cons_self)
    constructor
    · rintro - c ⟨⟩
    · rintro - v ⟨⟩
      exact ⟨hFence.nextValues_not, Nat.lt_succ_self _⟩
  | refused =>
    refine hFence.make.freed (o := ([h.tables.next], [])) ?_ ?_
    · intro x hx
      rw [List.mem_singleton.mp hx]
      exact hFence.next_not
    · intro v hv
      cases hv
  | @containerAdded t name tb hTable hFind =>
    exact hFence.make.withTable name (ho t List.mem_cons_self) hFence.next_not (Nat.lt_succ_self _)
  | @tableAdded t c name tb ctb hTable hFind hHeld =>
    exact hFence.withTable name (ho t List.mem_cons_self) (ho c (by simp [AttrOp.tables])) (Store.lt_next hHeld)
  | @valueDeleted t name i tb e v vals hTable hFind hOne hType hAttr hVals hIndex =>
    have hOutside := hFence.apart t e (ho t List.mem_cons_self) ⟨tb, hTable, (simpleFind_mem hFind).1⟩
    exact hFence.revalue (hOutside.values hType v hAttr).1 _
  | @deleted t name tb e o hTable hFind hOwned =>
    have ht := ho t List.mem_cons_self
    have hErased : Fenced F V h₀ (h.change t (AttrTable.eraseNamed (removeSpaceEncoding name))) := by
      apply hFence.change ht
      intro d _ a ha
      exact .inl (List.mem_of_mem_eraseP ha)
    have hOutside := hFence.apart t e ht ⟨tb, hTable, (simpleFind_mem hFind).1⟩
    obtain ⟨stack, hOwned⟩ := hOwned
    obtain ⟨hTables, hValues⟩ := hErased.ownedBy (ownedBy_entry hOwned) fun a ha => by
      cases List.mem_singleton.mp ha
      exact ⟨hOutside.table, hOutside.values⟩
    exact hErased.freed hTables hValues
  | @releasedNull t iter tb e hTable hEntry hNull =>
    apply hFence.change (ho t List.mem_cons_self)
    intro d _ a ha
    exact .inl (List.mem_of_mem_eraseIdx ha)
  | @released t iter c tb ctb e hTable hEntry hType hHeld hCell =>
    have ht := ho t List.mem_cons_self
    have hOutside := hFence.apart t e ht ⟨tb, hTable, List.mem_of_getElem? hEntry⟩
    apply (hFence.label (f := AttrTable.setParent .null) (hOutside.table hType c hHeld).1 fun _ => rfl).change ht
    intro d _ a ha
    exact .inl (List.mem_of_mem_eraseIdx ha)
  | @containerAliased t src name tb stb hTable hFind hSource =>
    apply hFence.push (ho t List.mem_cons_self)
    constructor
    · rintro - c ⟨⟩
      exact ⟨ho src (by simp [AttrOp.tables]), Store.lt_next hSource⟩
    · intro hType
      exact absurd rfl hType
  | @valueAliased das t name source tb f hTable hFind hFrom =>
    have ht := ho t (by simp [AttrOp.tables])
    have hOutside : Outside F V h f := by
      rcases hFrom with hReach | hReach
      · exact hFence.reachedEntry (ho das List.mem_cons_self) hReach
      · exact hFence.reachedEntry ht hReach
    apply hFence.push ht
    constructor
    · intro hType c hPtr
      change f.type = .container at hType
      simp only [aliasEntry, if_pos hType] at hPtr
      exact hOutside.table hType c hPtr
    · intro hType v hPtr
      change f.type ≠ .container at hType
      simp only [aliasEntry, if_neg hType] at hPtr
      exact hOutside.values hType v hPtr

end Fenced

/-! ## Copies behind the fence stay -/

theorem copyEntry_unknown (copy : Nat → Call Heap Nat) {rhs : Entry} (hType : rhs.type = .unknown) :
    copyEntry copy rhs = pure { rhs with attributes := .indeterminate, attr := .indeterminate } := by
  rw [copyEntry, hType]

theorem copyEntry_container (copy : Nat → Call Heap Nat) {rhs : Entry} (hType : rhs.type = .container) :
    copyEntry copy rhs =
      if rhs.isAlias then pure { rhs with attr := .indeterminate }
      else rhs.attributes.deref >>= fun c => copy c >>= fun d =>
        pure { rhs with attributes := .ref d, attr := .indeterminate } := by
  rw [copyEntry, hType]

theorem copyEntry_values (copy : Nat → Call Heap Nat) {rhs : Entry} (hUnknown : rhs.type ≠ .unknown)
    (hContainer : rhs.type ≠ .container) :
    copyEntry copy rhs =
      if rhs.isAlias then pure { rhs with attributes := .indeterminate }
      else rhs.attr.deref >>= fun v => readValues v >>= fun vals => newValues vals >>= fun w =>
        pure { rhs with attributes := .indeterminate, attr := .ref w } := by
  rw [copyEntry]
  split
  · rename_i hType
    exact absurd hType hUnknown
  · rename_i hType
    exact absurd hType hContainer
  · rfl

theorem copyEntry_fenced {copy : Nat → Call Heap Nat}
    (hCopy : ∀ c d g g', Fenced F V h₀ g → ¬ F c → copy c g = .ok d g' →
      Fenced F V h₀ g' ∧ Grown g g' ∧ ¬ F d ∧ d < g'.tables.next)
    (hFence : Fenced F V h₀ h) {rhs e : Entry} {h' : Heap} (hOutside : Outside F V h rhs)
    (hRun : copyEntry copy rhs h = .ok e h') : Fenced F V h₀ h' ∧ Grown h h' ∧ Outside F V h' e := by
  by_cases hUnknown : rhs.type = .unknown
  · rw [copyEntry_unknown copy hUnknown] at hRun
    cases hRun
    refine ⟨hFence, .refl h, ?_, ?_⟩
    · rintro - c ⟨⟩
    · rintro - v ⟨⟩
  · by_cases hType : rhs.type = .container
    · rw [copyEntry_container copy hType] at hRun
      split at hRun
      · cases hRun
        refine ⟨hFence, .refl h, hOutside.table, ?_⟩
        rintro - v ⟨⟩
      · simp only [Call.bind_ok, deref_ok, Call.pure_ok] at hRun
        obtain ⟨c, _, ⟨hPtr, rfl⟩, d, _, hCopied, rfl, rfl⟩ := hRun
        obtain ⟨hFence', hGrown, hd, hMade⟩ := hCopy c d _ _ hFence (hOutside.table hType c hPtr).1 hCopied
        refine ⟨hFence', hGrown, ?_, ?_⟩
        · rintro - _ ⟨⟩
          exact ⟨hd, hMade⟩
        · rintro - v ⟨⟩
    · rw [copyEntry_values copy hUnknown hType] at hRun
      split at hRun
      · cases hRun
        refine ⟨hFence, .refl h, ?_, hOutside.values⟩
        rintro - c ⟨⟩
      · simp only [Call.bind_ok, deref_ok, readValues_ok, Call.pure_ok] at hRun
        obtain ⟨v, _, ⟨hPtr, rfl⟩, vals, _, ⟨hCell, rfl⟩, w, _, hNew, rfl, rfl⟩ := hRun
        cases hNew
        refine ⟨hFence.newValues vals, ⟨Nat.le_refl _, Nat.le_succ _⟩, ?_, ?_⟩
        · rintro - c ⟨⟩
        · rintro - _ ⟨⟩
          exact ⟨hFence.nextValues_not, Nat.lt_succ_self _⟩

theorem grown_change (h : Heap) (t : Nat) (f : AttrTable → AttrTable) : Grown h (h.change t f) :=
  ⟨Nat.le_refl _, Nat.le_refl _⟩

theorem pushEntry_fenced (hFence : Fenced F V h₀ h) {t : Nat} {e : Entry} {h' : Heap} (ht : ¬ F t)
    (hOutside : Outside F V h e) (hRun : pushEntry t e h = .ok () h') : Fenced F V h₀ h' ∧ Grown h h' := by
  simp only [pushEntry, Call.bind_ok, modifyTable_ok] at hRun
  obtain ⟨_, _, ⟨tb, hCell, rfl⟩, hRun⟩ := hRun
  have hPushed := hFence.push ht hOutside
  split at hRun
  · rename_i hType
    simp only [Call.bind_ok, deref_ok, modifyTable_ok] at hRun
    obtain ⟨c, _, ⟨hPtr, rfl⟩, ctb, hHeld, rfl⟩ := hRun
    exact ⟨hPushed.label (f := AttrTable.setParent (.ref t)) (hOutside.table hType c hPtr).1 fun _ => rfl,
      ⟨Nat.le_refl _, Nat.le_refl _⟩⟩
  · cases hRun
    exact ⟨hPushed, grown_change h t _⟩

theorem cloneEntries_fenced {copy : Nat → Call Heap Nat}
    (hCopy : ∀ c d g g', Fenced F V h₀ g → ¬ F c → copy c g = .ok d g' →
      Fenced F V h₀ g' ∧ Grown g g' ∧ ¬ F d ∧ d < g'.tables.next)
    (hFence : Fenced F V h₀ h) {t : Nat} {es : List Entry} {h' : Heap} (ht : ¬ F t)
    (hOutside : ∀ e ∈ es, Outside F V h e) (hRun : cloneEntries copy t es h = .ok () h') :
    Fenced F V h₀ h' ∧ Grown h h' := by
  induction es generalizing h with
  | nil =>
    cases hRun
    exact ⟨hFence, .refl _⟩
  | cons rhs es ih =>
    obtain ⟨e, h₁, hEntry, hRun⟩ := Call.bind_ok.mp hRun
    obtain ⟨_, h₂, hPush, hRun⟩ := Call.bind_ok.mp hRun
    obtain ⟨hFence₁, hGrown₁, hNew⟩ := copyEntry_fenced hCopy hFence (hOutside rhs List.mem_cons_self) hEntry
    obtain ⟨hFence₂, hGrown₂⟩ := pushEntry_fenced hFence₁ ht hNew hPush
    have hGrown := hGrown₁.trans hGrown₂
    obtain ⟨hFence', hGrown'⟩ :=
      ih hFence₂ (fun e he => (hOutside e (List.mem_cons_of_mem rhs he)).grown hGrown) hRun
    exact ⟨hFence', hGrown.trans hGrown'⟩

theorem clone_fenced {copy : Nat → Call Heap Nat}
    (hCopy : ∀ c d g g', Fenced F V h₀ g → ¬ F c → copy c g = .ok d g' →
      Fenced F V h₀ g' ∧ Grown g g' ∧ ¬ F d ∧ d < g'.tables.next)
    (hFence : Fenced F V h₀ h) {t at_ : Nat} {h' : Heap} (ht : ¬ F t) (hAt : ¬ F at_)
    (hRun : clone copy t at_ h = .ok () h') : Fenced F V h₀ h' ∧ Grown h h' := by
  simp only [clone, Call.bind_ok, readTable_ok, modifyTable_ok] at hRun
  obtain ⟨tb, _, ⟨hCell, rfl⟩, _, _, ⟨_, _, rfl⟩, hRun⟩ := hRun
  have hLabelled := hFence.label (f := AttrTable.relabel tb) ht fun _ => rfl
  have hOutside : ∀ e ∈ tb.attrMap, Outside F V _ e := fun e he =>
    (hFence.apart at_ e hAt ⟨tb, hCell, he⟩).grown (grown_change _ t (AttrTable.relabel tb))
  obtain ⟨hFence', hGrown⟩ := cloneEntries_fenced hCopy hLabelled ht hOutside hRun
  exact ⟨hFence', (grown_change _ t _).trans hGrown⟩

theorem copyTable_fenced (stack : Nat) (hFence : Fenced F V h₀ h) {rhs c : Nat} {h' : Heap} (hRhs : ¬ F rhs)
    (hRun : copyTable stack rhs h = .ok c h') :
    Fenced F V h₀ h' ∧ Grown h h' ∧ ¬ F c ∧ c < h'.tables.next := by
  induction stack generalizing h h' rhs c with
  | zero => cases hRun
  | succ stack ih =>
    simp only [copyTable, Call.bind_ok, readTable_ok, Call.pure_ok] at hRun
    obtain ⟨tb, _, ⟨hCell, rfl⟩, _, _, hNew, _, _, hClone, rfl, rfl⟩ := hRun
    cases hNew
    obtain ⟨hFence', hGrown⟩ := clone_fenced (fun c d g g' hg hc hCopied => ih hg hc hCopied) hFence.make
      hFence.next_not hRhs hClone
    refine ⟨hFence', ⟨?_, hGrown.values⟩, hFence.next_not, ?_⟩
    · exact (Nat.le_succ _).trans hGrown.tables
    · exact (Nat.lt_succ_self _).trans_le hGrown.tables

theorem deleteAttrTable_ok {stack t : Nat} {h' : Heap} (hRun : deleteAttrTable stack t h = .ok () h') :
    ∃ tb o, h.tables.cell t = some tb ∧ ownedEntries h (owned h stack) tb.attrMap = some o ∧
      h' = (h.freed o).change t AttrTable.clear := by
  simp only [deleteAttrTable, Call.bind_ok, readTable_ok, modifyTable_ok] at hRun
  obtain ⟨tb, _, ⟨hCell, rfl⟩, _, _, hDelete, _, _, rfl⟩ := hRun
  obtain ⟨o, hOwned, rfl⟩ :=
    deleteEntries_ok (fun c g g' hPart hDel => deleteTable_ok stack hPart hDel) (Subheap.refl _) hDelete
  exact ⟨tb, o, hCell, hOwned, rfl⟩

theorem deleteAttrTable_fenced (hFence : Fenced F V h₀ h) {stack t : Nat} {h' : Heap} (ht : ¬ F t)
    (hRun : deleteAttrTable stack t h = .ok () h') : Fenced F V h₀ h' := by
  obtain ⟨tb, o, hCell, hOwned, rfl⟩ := deleteAttrTable_ok hRun
  obtain ⟨hTables, hValues⟩ := hFence.ownedBy (ownedBy_entries hOwned) fun e he => hFence.apart t e ht ⟨tb, hCell, he⟩
  apply (hFence.freed hTables hValues).change ht
  rintro d - e he
  cases he

/-- Every public operation on tables that are not behind the fence. -/
theorem Fenced.lifeStep (hFence : Fenced F V h₀ h) {stack : Nat} {o : LifeOp} {h' : Heap} (ho : ∀ x ∈ o.tables, ¬ F x)
    (hAfter : (o.call stack).after h = some h') : Fenced F V h₀ h' := by
  cases o with
  | attr o => exact hFence.step (AttrOp.step hAfter) ho
  | setName t n =>
    obtain ⟨_, _, rfl⟩ := after_modifyTable_last.mp hAfter
    exact hFence.label (f := AttrTable.setName n) (ho t List.mem_cons_self) fun _ => rfl
  | setIsGlobal t ga =>
    obtain ⟨_, _, rfl⟩ := after_modifyTable_last.mp hAfter
    exact hFence.label (ho t List.mem_cons_self) fun _ => rfl
  | setIsGlobalAttribute t iter ga =>
    have ht := ho t List.mem_cons_self
    obtain ⟨tb, hCell, hAfter⟩ := after_readTable.mp hAfter
    cases hEntry : tb.attrMap[iter]? with
    | none =>
      rw [hEntry] at hAfter
      exact (after_undefined.mp hAfter).elim
    | some e =>
      rw [hEntry] at hAfter
      have hOutside := hFence.apart t e ht ⟨tb, hCell, List.mem_of_getElem? hEntry⟩
      dsimp only at hAfter
      split at hAfter
      · rename_i hType
        obtain ⟨c, hPtr, hAfter⟩ := after_deref.mp hAfter
        obtain ⟨_, _, rfl⟩ := after_modifyTable_last.mp hAfter
        exact hFence.label (hOutside.table hType c hPtr).1 fun _ => rfl
      · obtain ⟨_, _, rfl⟩ := after_modifyTable_last.mp hAfter
        apply hFence.change ht
        intro d _ a ha
        rcases List.mem_or_eq_of_mem_set ha with hOld | rfl
        · exact .inl hOld
        · exact .inr ⟨hOutside.table, hOutside.values⟩
  | erase t =>
    have ht := ho t List.mem_cons_self
    have hRun := (defined_erase stack t).after.mp hAfter
    simp only [erase, Call.bind_ok, modifyTable_ok] at hRun
    obtain ⟨_, _, hDelete, _, _, rfl⟩ := hRun
    exact (deleteAttrTable_fenced hFence ht hDelete).label ht fun _ => rfl
  | destroy t =>
    have ht := ho t List.mem_cons_self
    obtain ⟨o, hOwned, rfl⟩ := deleteTable_ok stack (.refl h) ((defined_deleteTable stack t).after.mp hAfter)
    have hLive : t < h.tables.next := by
      cases stack with
      | zero => cases hOwned
      | succ stack =>
        obtain ⟨tb, hCell, -⟩ := Option.bind_eq_some_iff.mp hOwned
        exact Store.lt_next hCell
    -- as if an entry held the table
    have hBy : OwnedBy h [tableEntry [] t] o := .ofTable stack ⟨rfl, rfl, rfl⟩ hOwned
    obtain ⟨hTables, hValues⟩ := hFence.ownedBy hBy fun e he => by
      cases List.mem_singleton.mp he
      exact ⟨fun _ c hc => by cases hc; exact ⟨ht, hLive⟩, fun hType => absurd rfl hType⟩
    exact hFence.freed hTables hValues
  | copy rhs =>
    have hRun := after_discard.mp hAfter
    rw [Call.after] at hRun
    split at hRun
    · rename_i hCopied
      cases hRun
      exact (copyTable_fenced stack hFence (ho rhs List.mem_cons_self) hCopied).1
    · cases hRun
    · rename_i hNot hCopied
      exact absurd (defined_copyTable stack rhs _ _ _ hCopied) hNot
  | assign t rhs =>
    have ht := ho t List.mem_cons_self
    have hRun := (defined_assignTable stack t rhs).after.mp hAfter
    rw [assignTable] at hRun
    split at hRun
    · cases hRun
      exact hFence
    · obtain ⟨_, h₁, hDelete, hClone⟩ := Call.bind_ok.mp hRun
      exact (clone_fenced (fun c d g g' hg hc hCopied => copyTable_fenced stack hg hc hCopied)
        (deleteAttrTable_fenced hFence ht hDelete) ht (ho rhs (by simp [LifeOp.tables])) hClone).1

theorem Fenced.run (hFence : Fenced F V h h) {h' : Heap} (hRun : Led h (fun o => ∀ x ∈ o.tables, ¬ F x) h') :
    Fenced F V h h' := by
  induction hRun with
  | start hStart =>
    subst hStart
    exact hFence
  | step o _ hAllowed hAfter ih => exact ih.lifeStep hAllowed hAfter

end Fence

/-- No pointer of a table leads to a place that is still to be used. -/
theorem bounded {h : Heap} (hRun : Led .empty (fun _ => True) h) : Fenced (fun _ => False) (fun _ => False) h h := by
  have hEmpty : Fenced (fun _ => False) (fun _ => False) Heap.empty Heap.empty := by
    constructor
    · rintro x ⟨⟩
    · rintro v ⟨⟩
    · rintro x ⟨⟩
    · rintro v ⟨⟩
    · rintro t e - ⟨tb, ⟨⟩, -⟩
  have hAll : Led .empty (fun o => ∀ x ∈ o.tables, ¬ False) h := by
    induction hRun with
    | start hStart => exact .start hStart
    | step o _ _ hAfter ih => exact .step o ih (fun _ _ hFalse => hFalse) hAfter
  have hFence := hEmpty.run hAll
  exact ⟨fun _ hFalse => hFalse.elim, fun _ hFalse => hFalse.elim, fun _ hFalse => hFalse.elim,
    fun _ hFalse => hFalse.elim, hFence.apart⟩

end Libdap.Dap2
