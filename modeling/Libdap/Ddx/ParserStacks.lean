import Libdap.Ddx.Completeness

/-! # The stacks of the DDX parser

Each variable state stands for a variable and its attribute table, each container state for an attribute table. So no
stack is ever empty. What is on the stacks is also as complete as the elements that ended made it.
-/

namespace Libdap.Ddx
open Core Constraint Dap2
set_option autoImplicit false

/-- The variables of a state. -/
def Fits : ParseState → DodsType → Prop
  | .insideSimpleType, t => isSimpleType t = true
  | .insideArray, t => t = .array
  | .insideMap, t => t = .array
  | .insideStructure, t => t = .structure_
  | .insideSequence, t => t = .sequence
  | .insideGrid, t => t = .grid
  | _, _ => False

/-- A state that nothing on the other stacks belongs to. -/
def isPlain : ParseState → Bool
  | .parserStart => false
  | .insideAttributeContainer => false
  | .insideSimpleType => false
  | .insideArray => false
  | .insideMap => false
  | .insideStructure => false
  | .insideSequence => false
  | .insideGrid => false
  | _ => true

/-- The states, the types of the variables and how many tables there are. -/
inductive Aligned : List ParseState → List DodsType → Nat → Prop
  | start : Aligned [.parserStart] [.structure_] 1
  | plain {st : ParseState} {s : List ParseState} {types : List DodsType} {n : Nat} (hPlain : isPlain st = true)
    (h : Aligned s types n) : Aligned (st :: s) types n
  | container {s : List ParseState} {types : List DodsType} {n : Nat} (h : Aligned s types n) :
    Aligned (.insideAttributeContainer :: s) types (n + 1)
  | declared {st : ParseState} {t : DodsType} {s : List ParseState} {types : List DodsType} {n : Nat}
    (hFits : Fits st t)
    (h : Aligned s types n) : Aligned (st :: s) (t :: types) (n + 1)

namespace Aligned

variable {st : ParseState} {s : List ParseState} {types : List DodsType} {n : Nat}

theorem nonempty (h : Aligned s types n) : s ≠ [] ∧ types ≠ [] ∧ 0 < n := by
  induction h with
  | start => exact ⟨List.cons_ne_nil _ _, List.cons_ne_nil _ _, Nat.one_pos⟩
  | plain _ _ ih => exact ⟨List.cons_ne_nil _ _, ih.2⟩
  | container _ ih => exact ⟨List.cons_ne_nil _ _, ih.2.1, Nat.succ_pos _⟩
  | declared => exact ⟨List.cons_ne_nil _ _, List.cons_ne_nil _ _, Nat.succ_pos _⟩

theorem not_plain {t : DodsType} (hFits : Fits st t) : isPlain st = false := by
  cases st <;> first | rfl | exact hFits.elim

theorem of_plain (h : Aligned (st :: s) types n) (hPlain : isPlain st = true) : Aligned s types n := by
  cases h with
  | start => cases hPlain
  | plain _ h => exact h
  | container => cases hPlain
  | declared hFits _ =>
    rw [not_plain hFits] at hPlain
    cases hPlain

theorem of_container (h : Aligned (.insideAttributeContainer :: s) types n) : ∃ m, n = m + 1 ∧ Aligned s types m := by
  cases h with
  | plain hPlain => cases hPlain
  | container h => exact ⟨_, rfl, h⟩
  | declared hFits => exact hFits.elim

theorem of_variable {t : DodsType} (h : Aligned (st :: s) types n) (hFits : Fits st t) :
    ∃ t' rest m, types = t' :: rest ∧ n = m + 1 ∧ Fits st t' ∧ Aligned s rest m := by
  cases h with
  | start => exact hFits.elim
  | plain hPlain =>
    rw [not_plain hFits] at hPlain
    cases hPlain
  | container => exact hFits.elim
  | declared hFits' h => exact ⟨_, _, _, rfl, rfl, hFits', h⟩

theorem of_start (h : Aligned (.parserStart :: s) types n) : types = [.structure_] := by
  cases h with
  | start => rfl
  | plain hPlain => cases hPlain
  | declared hFits => exact hFits.elim

end Aligned

/-- What holds of the parser between two events. `vars` are the variables the DDS had before. -/
structure Inv (fine : Prop) (vars : List BaseType) (p : Parser) : Prop where
  aligned : Aligned p.s (p.btStack.map BaseType.type) p.atStack.length
  parts : fine → ∀ v ∈ p.btStack, Parts v
  dds : p.dds.vars = vars

variable {fine : Prop} {vars : List BaseType} {env : Env} {p : Parser}

abbrev Safe (fine : Prop) (vars : List BaseType) (r : Except Stop Parser) : Prop := Yields r (Inv fine vars)
    (Harmless fine)

/-! ## Reading the stacks -/

theorem top_yields {α : Type} {as : List α} (h : as ≠ []) : Yields (top as) (fun a => ∃ rest, as = a :: rest)
    (Harmless fine) := by
  obtain ⟨a, rest, rfl⟩ := List.exists_cons_of_ne_nil h
  exact ⟨rest, rfl⟩

theorem Inv.s_ne (h : Inv fine vars p) : p.s ≠ [] := h.aligned.nonempty.1

theorem Inv.btStack_ne (h : Inv fine vars p) : p.btStack ≠ [] := by
  intro hNil
  exact h.aligned.nonempty.2.1 (by rw [hNil]; rfl)

theorem Inv.atStack_ne (h : Inv fine vars p) : p.atStack ≠ [] := by
  intro hNil
  have hPos := h.aligned.nonempty.2.2
  rw [hNil] at hPos
  exact absurd hPos (Nat.lt_irrefl 0)

theorem Inv.plain {st : ParseState} (h : Inv fine vars p) (hPlain : isPlain st = true) :
    Inv fine vars (setState st p) :=
  ⟨.plain hPlain h.aligned, h.parts, h.dds⟩

theorem Inv.fatal (h : Inv fine vars p) (msg : String) : Inv fine vars (ddxFatalError msg p) :=
  ⟨.plain rfl h.aligned, h.parts, h.dds⟩

theorem Inv.transferred (h : Inv fine vars p) (attrs : List XmlAttr) : Inv fine vars (transferXmlAttrs attrs p) :=
  ⟨h.aligned, h.parts, h.dds⟩

theorem Inv.required (h : Inv fine vars p) (attr : String) : Inv fine vars (checkRequiredAttribute attr p) := by
  rw [checkRequiredAttribute]
  split
  · exact h
  · exact h.fatal _

theorem popState_yields {st : ParseState} {s : List ParseState} (h : Inv fine vars p) (hs : p.s = st :: s)
    (hPlain : isPlain st = true) : Safe fine vars (popState p) := by
  rw [popState, hs]
  have hAligned := h.aligned
  rw [hs] at hAligned
  exact ⟨hAligned.of_plain hPlain, h.parts, h.dds⟩

/-! ## Attributes -/

theorem processAttributeElement_yields (h : Inv fine vars p) (attrs : List XmlAttr) :
    Safe fine vars (processAttributeElement attrs p) := by
  have hChecked := ((h.transferred attrs).required "name").required "type"
  rw [processAttributeElement]
  generalize checkRequiredAttribute "type" (checkRequiredAttribute "name" (transferXmlAttrs attrs p)) = q at hChecked
  apply Yields.ite
  · intro _
    apply (top_yields hChecked.atStack_ne).bind
    intro parent _
    apply (onTables_yields _ _).bind
    intro child _
    exact ⟨.container hChecked.aligned, hChecked.parts, hChecked.dds⟩
  · intro _
    apply Yields.ite
    · intro _
      exact ⟨.plain rfl hChecked.aligned, hChecked.parts, hChecked.dds⟩
    · intro _
      exact ⟨.plain rfl hChecked.aligned, hChecked.parts, hChecked.dds⟩

theorem processAttributeAlias_yields (h : Inv fine vars p) (attrs : List XmlAttr) :
    Safe fine vars (processAttributeAlias env attrs p) := by
  have hChecked := ((h.transferred attrs).required "name").required "attribute"
  rw [processAttributeAlias]
  apply (top_yields hChecked.atStack_ne).bind
  intro table _
  apply (onTables_yields _ _).bind
  intro done _
  exact ⟨.plain rfl hChecked.aligned, hChecked.parts, hChecked.dds⟩

theorem isAttributeOrAlias_yields (h : Inv fine vars p) (name : String) (attrs : List XmlAttr) :
    Yields (isAttributeOrAlias env name attrs p) (fun r => Inv fine vars r.2 ∧ (r.1 = false → r.2 = p))
      (Harmless fine) := by
  rw [isAttributeOrAlias]
  apply Yields.ite
  · intro _
    apply (processAttributeElement_yields h attrs).bind
    intro q hq
    exact ⟨hq, fun hFalse => nomatch hFalse⟩
  · intro _
    apply Yields.ite
    · intro _
      apply (processAttributeAlias_yields h attrs).bind
      intro q hq
      exact ⟨hq, fun hFalse => nomatch hFalse⟩
    · intro _
      exact ⟨h, fun _ => rfl⟩

theorem orElse_yields (h : Inv fine vars p) {name : String} {attrs : List XmlAttr} {next : Parser → Except Stop Parser}
    (hNext : Safe fine vars (next p)) : Safe fine vars (orElse env attrs name p next) := by
  rw [orElse]
  apply (isAttributeOrAlias_yields h name attrs).bind
  rintro ⟨done, q⟩ ⟨hq, hSame⟩
  apply Yields.ite
  · intro _
    exact hq
  · intro hDone
    obtain rfl : q = p := hSame (Bool.not_eq_true _ ▸ hDone)
    exact hNext

theorem appendValue_yields (h : Inv fine vars p) (value : Word) : Safe fine vars (appendValue value p) := by
  rw [appendValue]
  apply (top_yields h.atStack_ne).bind
  intro table _
  apply (onTables_yields _ _).bind
  intro done _
  exact ⟨h.aligned, h.parts, h.dds⟩

/-! ## The start of a variable -/

theorem factory_yields (t : DodsType) (name : Word) (heap : Heap) :
    Yields (factory t name heap) (fun r => (hasFactory t = true → ∃ attr, r.1 = some (.mk t name attr [] [])) ∧
      ∀ v, r.1 = some v → v.type = t ∧ v.vars = []) (Harmless fine) := by
  rw [factory]
  apply Yields.ite
  · intro _
    apply (onTables_yields _ _).bind
    intro table _
    refine .ok ⟨fun _ => ⟨_, rfl⟩, ?_⟩
    rintro v hv
    cases hv
    exact ⟨rfl, rfl⟩
  · intro hNone
    exact .ok ⟨fun hSome => absurd hSome hNone, fun v hv => nomatch hv⟩

theorem processVariable_yields (h : Inv fine vars p) {t : DodsType} {st : ParseState} (hFits : Fits st t)
    (hKnown : fine → hasFactory t = true) (attrs : List XmlAttr) : Safe fine vars (processVariable t st attrs p) := by
  rw [processVariable]
  have hBt : (setState st (transferXmlAttrs attrs p)).btStack ≠ [] := h.btStack_ne
  apply (top_yields hBt).bind
  rintro parent -
  -- The state is pushed before the variable, with an error above it when the name is missing.
  have hPushed : ∀ q : Parser, q = (if parent.type = .array then setState st (transferXmlAttrs attrs p)
      else checkRequiredAttribute "name" (setState st (transferXmlAttrs attrs p))) →
      (∀ attr, Aligned q.s (t :: q.btStack.map BaseType.type) ((attr :: q.atStack).length)) ∧
        q.btStack = p.btStack ∧ q.dds.vars = vars := by
    have hVariable : Aligned (st :: p.s) (t :: p.btStack.map BaseType.type) (p.atStack.length + 1) :=
        .declared hFits h.aligned
    rintro q rfl
    split
    · exact ⟨fun _ => hVariable, rfl, h.dds⟩
    · rw [checkRequiredAttribute]
      split
      · exact ⟨fun _ => hVariable, rfl, h.dds⟩
      · exact ⟨fun _ => .plain rfl hVariable, rfl, h.dds⟩
  generalize (if parent.type = .array then setState st (transferXmlAttrs attrs p)
    else checkRequiredAttribute "name" (setState st (transferXmlAttrs attrs p))) = q at hPushed
  obtain ⟨hAligned, hSame, hDds⟩ := hPushed q rfl
  apply (factory_yields t _ q.heap).bind
  rintro ⟨made, heap⟩ ⟨hSome, hMade⟩
  cases made with
  | none =>
    refine .error ⟨fun h => Stop.noConfusion h, fun hFine => ?_⟩
    obtain ⟨attr, hNone⟩ := hSome (hKnown hFine)
    cases hNone
  | some v =>
    obtain ⟨hType, hVars⟩ := hMade v rfl
    refine .ok ⟨?_, ?_, hDds⟩
    · rw [List.map_cons, hType]
      exact hAligned v.attr
    · intro hFine w hw
      rcases List.mem_cons.mp hw with rfl | hw
      · refine ⟨fun c hc => ?_, fun _ a maps hParts => ?_⟩
        · rw [hVars] at hc
          exact absurd hc List.not_mem_nil
        · rw [hVars] at hParts
          cases hParts
      · exact h.parts hFine w (hSame ▸ hw)

theorem variableState_fits {name : String} {t : DodsType} {st : ParseState} (h : variableState name = some (t, st)) :
    Fits st t := by
  rw [variableState] at h
  split at h
  · rename_i hSimple
    cases h
    exact hSimple
  · split at h
    · cases h
      rfl
    · split at h
      · cases h
        rfl
      · split at h
        · cases h
          rfl
        · split at h
          · cases h
            rfl
          · cases h

/-- The types of the variables that `is_variable` starts can be made. -/
def Known (name : String) : Prop := ∀ r ∈ variableState name, hasFactory r.1 = true

theorem variableOr_yields (h : Inv fine vars p) {name : String} {attrs : List XmlAttr}
    {next : Parser → Except Stop Parser}
    (hKnown : fine → Known name) (hNext : Safe fine vars (next p)) : Safe fine vars (variableOr name attrs next p) := by
  rw [variableOr, isVariable]
  cases hState : variableState name with
  | none => exact hNext
  | some r =>
    obtain ⟨t, st⟩ := r
    have hVariable := processVariable_yields h (variableState_fits hState)
        (fun hFine => hKnown hFine (t, st) hState) attrs
    have hDone : Yields (processVariable t st attrs p >>= fun q => (.ok (true, q) : Except Stop (Bool × Parser)))
        (fun r => r.1 = true ∧ Inv fine vars r.2) (Harmless fine) := hVariable.bind fun q hq => ⟨rfl, hq⟩
    apply hDone.bind
    rintro ⟨done, q⟩ ⟨rfl, hq⟩
    exact hq

theorem processDimension_yields (h : Inv fine vars p) (attrs : List XmlAttr) :
    Safe fine vars (processDimension env attrs p) := by
  have hChecked := ((h.transferred attrs).required "size").plain (rfl : isPlain .insideDimension = true)
  rw [processDimension]
  generalize setState .insideDimension (checkRequiredAttribute "size" (transferXmlAttrs attrs p)) = q at hChecked
  split
  · rename_i hNil
    exact absurd hNil hChecked.btStack_ne
  · rename_i v rest hStack
    apply Yields.ite
    · intro _
      refine .ok ⟨?_, ?_, hChecked.dds⟩
      · have hAligned := hChecked.aligned
        rw [hStack] at hAligned
        exact hAligned
      · intro hFine w hw
        have hParts := hChecked.parts hFine
        rw [hStack] at hParts
        rcases List.mem_cons.mp hw with rfl | hw
        · exact (hParts v (List.mem_cons_self ..)).congr rfl rfl
        · exact hParts w (List.mem_cons_of_mem _ hw)
    · intro _
      exact hChecked.fatal _

theorem processBlob_inv (h : Inv fine vars p) (attrs : List XmlAttr) : Inv fine vars (processBlob attrs p) :=
  have hChecked := ((h.transferred attrs).required "href").plain (rfl : isPlain .insideBlobHref = true)
  ⟨hChecked.aligned, hChecked.parts, hChecked.dds⟩

/-! ## The end of a variable -/

variable {st : ParseState} {s : List ParseState}

theorem popped (h : Inv fine vars p) (hs : p.s = st :: s) {t : DodsType} (hFits : Fits st t) :
    ∃ v q, (∀ f : BaseType × Parser → Except Stop Parser, (popState p >>= fun p => popVariable p >>= f) = f (v, q)) ∧
      Inv fine vars q ∧ p.btStack.head? = some v ∧ Fits st v.type ∧ (fine → Parts v) := by
  have hAligned := h.aligned
  rw [hs] at hAligned
  obtain ⟨t', types, m, hTypes, hCount, hFits', hRest⟩ := hAligned.of_variable hFits
  obtain ⟨v, rest, hBt⟩ := List.exists_cons_of_ne_nil h.btStack_ne
  obtain ⟨a, tables, hAt⟩ := List.exists_cons_of_ne_nil h.atStack_ne
  rw [hBt, List.map_cons] at hTypes
  obtain ⟨rfl, rfl⟩ := List.cons.inj hTypes
  obtain rfl : tables.length = m := by
    rw [hAt, List.length_cons] at hCount
    exact Nat.succ.inj hCount
  refine ⟨v, { p with s := s, btStack := rest, atStack := tables }, ?_, ⟨hRest, ?_, h.dds⟩, ?_, hFits', ?_⟩
  · intro f
    simp only [popState, hs, pop, popVariable, ok_bind, hBt, hAt, top]
  · intro hFine w hw
    exact h.parts hFine w (hBt ▸ List.mem_cons_of_mem _ hw)
  · rw [hBt]
    rfl
  · intro hFine
    exact h.parts hFine v (hBt ▸ List.mem_cons_self ..)

theorem addToParent_yields {v : BaseType} (h : Inv fine vars p) (hv : fine → Complete v) :
    Safe fine vars (addToParent env v p) := by
  rw [addToParent]
  split
  · rename_i hNil
    exact absurd hNil h.btStack_ne
  · rename_i parent rest hBt
    have hAdd : Yields (addVar env parent v p.heap)
        (fun r => r.1.type = parent.type ∧ (Parts parent → Complete v → Parts r.1)) (Harmless fine) :=
      (addVar_yields parent v p.heap).conseq (fun _ hr => hr) fun _ he => he.mono hv
    apply hAdd.bind
    rintro ⟨parent', heap⟩ ⟨hType, hParts⟩
    apply (delete_yields v heap).bind
    intro heap' _
    refine .ok ⟨?_, ?_, h.dds⟩
    · have hAligned := h.aligned
      rw [hBt] at hAligned
      simpa only [List.map_cons, hType] using hAligned
    · intro hFine w hw
      have hStack := h.parts hFine
      rw [hBt] at hStack
      rcases List.mem_cons.mp hw with rfl | hw
      · exact hParts (hStack parent (List.mem_cons_self ..)) (hv hFine)
      · exact hStack w (List.mem_cons_of_mem _ hw)

/-- The variable that ends has what the parser does not ask for. -/
def HasElement (p : Parser) : Prop := ∀ v ∈ p.btStack.head?, v.shape ≠ [] → v.vars ≠ []

def HasArray (p : Parser) : Prop := ∀ v ∈ p.btStack.head?, v.vars ≠ []

theorem finishVariable_yields (h : Inv fine vars p) (hs : p.s = st :: s) {t : DodsType} (hFits : Fits st t)
    {tag expected : String}
    (hArray : fine → t = .array → tag = expected → HasElement p)
    (hGrid : fine → t = .grid → tag = expected → HasArray p) :
    Safe fine vars (finishVariable env tag t expected p) := by
  rw [finishVariable]
  apply Yields.ite
  · intro _
    exact h.fatal _
  · intro hTag
    have hTag : tag = expected := not_not.mp hTag
    obtain ⟨v, q, hRun, hq, hTop, -, hParts⟩ := popped h hs hFits
    rw [hRun]
    apply Yields.ite
    · intro _
      exact hq.fatal _
    · intro hType
      have hType : v.type = t := not_not.mp hType
      apply Yields.ite
      · intro _
        apply (delete_yields v _).bind
        intro heap _
        exact ⟨.plain rfl hq.aligned, hq.parts, hq.dds⟩
      · intro hShape
        apply (top_yields hq.btStack_ne).bind
        intro parent _
        apply Yields.ite
        · intro _
          apply (delete_yields v _).bind
          intro heap _
          exact ⟨.plain rfl hq.aligned, hq.parts, hq.dds⟩
        · intro _
          refine addToParent_yields hq fun hFine => (hParts hFine).finished ?_ ?_
          · intro hIsArray
            have hSome : v.shape ≠ [] := by
              intro hNone
              exact hShape (by simp [← hType, hIsArray, hNone])
            exact ⟨hArray hFine (hType ▸ hIsArray) hTag v hTop hSome, hSome⟩
          · intro hIsGrid
            exact hGrid hFine (hType ▸ hIsGrid) hTag v hTop

theorem finishSimple_yields (h : Inv fine vars p) (hs : p.s = .insideSimpleType :: s) (tag : String) :
    Safe fine vars (finishSimple env tag p) := by
  rw [finishSimple]
  apply Yields.ite
  · intro hSimple
    obtain ⟨v, q, hRun, hq, -, hFits, hParts⟩ := popped (t := getType tag) h hs hSimple
    rw [hRun]
    apply (top_yields hq.btStack_ne).bind
    intro parent _
    apply Yields.ite
    · intro _
      have hNeither : v.type ≠ .array ∧ v.type ≠ .grid := by
        constructor
        · intro hType
          rw [hType] at hFits
          exact Bool.noConfusion (hFits : isSimpleType .array = true)
        · intro hType
          rw [hType] at hFits
          exact Bool.noConfusion (hFits : isSimpleType .grid = true)
      exact addToParent_yields hq fun hFine =>
        (hParts hFine).finished (fun hType => absurd hType hNeither.1) fun hType => absurd hType hNeither.2
    · intro _
      exact hq.fatal _
  · intro _
    exact h.fatal _

/-! ## Events -/

/-- The states in which `is_variable` is asked. -/
def expectsVariable : ParseState → Bool
  | .insideDataset => true
  | .insideStructure => true
  | .insideSequence => true
  | .insideArray => true
  | .insideMap => true
  | _ => false

/-- An event the parser has an answer to. -/
def Fine (p : Parser) : Event → Prop
  | .startElement name _ _ _ _ => ∀ st ∈ p.s.head?, expectsVariable st = true → Known name
  | .endElement name _ uri =>
    (p.s.head? = some .insideArray → name = "Array" → HasElement p) ∧
    (p.s.head? = some .insideMap → name = "Map" → HasElement p) ∧
    (p.s.head? = some .insideGrid → name = "Grid" → HasArray p) ∧
    (p.s.head? = some .insideOtherXmlAttribute → name = "Attribute" → uri ≠ none)
  | _ => True

theorem startDataset_yields (h : Inv fine vars p) (uri : Option Word) (attrs : List XmlAttr) :
    Safe fine vars (startDataset uri attrs p) := by
  have hStart : Inv fine vars (transferXmlAttrs attrs { setState .insideDataset p with rootNs := uri.getD [] }) :=
    ⟨.plain rfl h.aligned, h.parts, h.dds⟩
  have hNamed := hStart.required "name"
  rw [startDataset]
  generalize checkRequiredAttribute "name"
    (transferXmlAttrs attrs { setState .insideDataset p with rootNs := uri.getD [] }) = q at hNamed
  have hVersion : ∀ (v : Word) (dds : DDS), Yields (setDapVersion v dds) (fun r => r.vars = dds.vars)
      (Harmless fine) := by
    intro v dds
    rw [setDapVersion]
    split
    · split
      · exact .error .fault
      · split
        · exact .error .fault
        · apply Yields.ite
          · intro _
            exact .error .fault
          · intro _
            apply Yields.ite
            · intro _
              exact .ok rfl
            · intro _
              exact .error .fault
    · exact .error .fault
  apply Yields.ite
  · intro _
    apply (hVersion _ _).bind
    intro dds hDds
    exact ⟨hNamed.aligned, hNamed.parts, hDds.trans hNamed.dds⟩
  · intro _
    exact ⟨hNamed.aligned, hNamed.parts, hNamed.dds⟩

theorem startOtherXml_inv (h : Inv fine vars p) (name : String) (pre : Option Word)
    (namespaces : List (Option String × Word)) (attrs : List XmlAttr) :
    Inv fine vars (startOtherXml name pre namespaces attrs p) := by
  rw [startOtherXml]
  split <;> split <;> exact ⟨h.aligned, h.parts, h.dds⟩

theorem startElement_yields (h : Inv fine vars p) (name : String) (pre uri : Option Word)
    (namespaces : List (Option String × Word)) (attrs : List XmlAttr)
    (hFine : fine → Fine p (.startElement name pre uri namespaces attrs)) :
    Safe fine vars (ddxSax2StartElement env name pre uri namespaces attrs p) := by
  rw [ddxSax2StartElement]
  apply (top_yields h.s_ne).bind
  rintro st ⟨s, hs⟩
  have hKnown : expectsVariable st = true → fine → Known name :=
      fun hExpects hf => hFine hf st (by rw [hs]; rfl) hExpects
  have hError : ∀ msg, Safe fine vars (.ok (ddxFatalError msg p)) := fun msg => h.fatal msg
  have hDimension : ∀ msg, Safe fine vars (if name = "dimension" then processDimension env attrs p else .ok
      (ddxFatalError msg p)) :=
    fun msg => Yields.ite (fun _ => processDimension_yields h attrs) fun _ => hError msg
  cases st with
  | parserStart => exact Yields.ite (fun _ => startDataset_yields h uri attrs) fun _ => hError _
  | insideDataset =>
    apply orElse_yields h
    apply variableOr_yields h (hKnown rfl)
    exact Yields.ite (fun _ => processBlob_inv h attrs) fun _ => hError _
  | insideAttributeContainer => exact orElse_yields h (hError _)
  | insideAttribute =>
    apply orElse_yields h
    exact Yields.ite (fun _ => h.plain rfl) fun _ => hError _
  | insideAttributeValue => exact hError _
  | insideOtherXmlAttribute => exact startOtherXml_inv h name pre namespaces attrs
  | insideAlias => exact hError _
  | insideSimpleType => exact orElse_yields h (hError _)
  | insideArray =>
    apply orElse_yields h
    exact Yields.ite (fun _ => variableOr_yields h (hKnown rfl) (hDimension _)) fun _ => hDimension _
  | insideDimension => exact hError _
  | insideGrid =>
    apply orElse_yields h
    apply Yields.ite
    · intro _
      exact processVariable_yields h (show Fits .insideArray .array from rfl) (fun _ => rfl) attrs
    · intro _
      apply Yields.ite
      · intro _
        exact processVariable_yields h (show Fits .insideMap .array from rfl) (fun _ => rfl) attrs
      · intro _
        exact hError _
  | insideMap =>
    apply orElse_yields h
    exact Yields.ite (fun _ => variableOr_yields h (hKnown rfl) (hDimension _)) fun _ => hDimension _
  | insideStructure => exact orElse_yields h (variableOr_yields h (hKnown rfl) (hError _))
  | insideSequence => exact orElse_yields h (variableOr_yields h (hKnown rfl) (hError _))
  | insideBlobHref => exact hError _
  | parserUnknown => exact h.plain rfl
  | parserError => exact h

theorem endOtherXml_yields (h : Inv fine vars p) (hs : p.s = .insideOtherXmlAttribute :: s) (name : String)
    (pre : Option Word)
    {uri : Option Word} (hUri : fine → name = "Attribute" → uri ≠ none) :
      Safe fine vars (endOtherXml name pre uri p) := by
  rw [endOtherXml]
  apply Yields.ite
  · rintro ⟨hName, hNone⟩
    exact .error ⟨fun hEmpty => Stop.noConfusion hEmpty, fun hFine => absurd hNone (hUri hFine hName)⟩
  · intro _
    apply Yields.ite
    · intro _
      apply (popState_yields h hs rfl).bind
      intro q hq
      apply (appendValue_yields hq _).bind
      intro q' hq'
      exact ⟨hq'.aligned, hq'.parts, hq'.dds⟩
    · intro _
      have hError := h.fatal ("Expected an OtherXML attribute to end! Instead I found '" ++ name ++ "'")
      split
      · exact ⟨hError.aligned, hError.parts, hError.dds⟩
      · exact ⟨h.aligned, h.parts, h.dds⟩

theorem endElement_yields (h : Inv fine vars p) (name : String) (pre uri : Option Word)
    (hFine : fine → Fine p (.endElement name pre uri)) : Safe fine vars (ddxSax2EndElement env name pre uri p) := by
  rw [ddxSax2EndElement]
  apply (top_yields h.s_ne).bind
  rintro st ⟨s, hs⟩
  have hTop : p.s.head? = some st := by
    rw [hs]
    rfl
  have hError : ∀ msg, Safe fine vars (.ok (ddxFatalError msg p)) := fun msg => h.fatal msg
  cases st with
  | parserStart => exact hError _
  | insideDataset => exact Yields.ite (fun _ => popState_yields h hs rfl) fun _ => hError _
  | insideAttributeContainer =>
    apply Yields.ite
    · intro _
      have hAligned := h.aligned
      rw [hs] at hAligned
      obtain ⟨m, hCount, hRest⟩ := hAligned.of_container
      obtain ⟨a, tables, hAt⟩ := List.exists_cons_of_ne_nil h.atStack_ne
      obtain rfl : tables.length = m := by
        rw [hAt, List.length_cons] at hCount
        exact Nat.succ.inj hCount
      simp only [popState, hs, pop, ok_bind, hAt]
      exact ⟨hRest, h.parts, h.dds⟩
    · intro _
      exact hError _
  | insideAttribute => exact Yields.ite (fun _ => popState_yields h hs rfl) fun _ => hError _
  | insideAttributeValue =>
    apply Yields.ite
    · intro _
      apply (popState_yields h hs rfl).bind
      intro q hq
      apply (appendValue_yields hq _).bind
      intro q' hq'
      exact ⟨hq'.aligned, hq'.parts, hq'.dds⟩
    · intro _
      exact hError _
  | insideOtherXmlAttribute => exact endOtherXml_yields h hs name pre fun hf => (hFine hf).2.2.2 hTop
  | insideAlias => exact popState_yields h hs rfl
  | insideSimpleType => exact finishSimple_yields h hs name
  | insideArray =>
    exact finishVariable_yields h hs (t := .array) rfl (fun hf _ hName => (hFine hf).1 hTop hName) fun _ hType => by
      cases hType
  | insideDimension => exact Yields.ite (fun _ => popState_yields h hs rfl) fun _ => hError _
  | insideGrid =>
    exact finishVariable_yields h hs (t := .grid) rfl (fun _ hType => by cases hType) fun hf _ hName =>
      (hFine hf).2.2.1 hTop hName
  | insideMap =>
    exact finishVariable_yields h hs (t := .array) rfl (fun hf _ hName => (hFine hf).2.1 hTop hName) fun _ hType => by
      cases hType
  | insideStructure =>
    exact finishVariable_yields h hs (t := .structure_) rfl (fun _ hType => by cases hType) fun _ hType => by cases hType
  | insideSequence =>
    exact finishVariable_yields h hs (t := .sequence) rfl (fun _ hType => by cases hType) fun _ hType => by cases hType
  | insideBlobHref => exact Yields.ite (fun _ => popState_yields h hs rfl) fun _ => hError _
  | parserUnknown => exact popState_yields h hs rfl
  | parserError => exact h

theorem step_yields (h : Inv fine vars p) (e : Nat × Event) (hFine : fine → Fine p e.2) :
    Safe fine vars (step env e p) := by
  obtain ⟨line, e⟩ := e
  have hLine : Inv fine vars { p with line := line } := ⟨h.aligned, h.parts, h.dds⟩
  have hTop : Yields (top p.s) _ (Harmless fine) := top_yields hLine.s_ne
  cases e with
  | startElement name pre uri namespaces attrs => exact startElement_yields hLine name pre uri namespaces attrs hFine
  | endElement name pre uri => exact endElement_yields hLine name pre uri hFine
  | characters ch =>
    apply hTop.bind
    intro st _
    cases st <;> exact ⟨h.aligned, h.parts, h.dds⟩
  | ignorableWhitespace ch =>
    apply hTop.bind
    intro st _
    cases st <;> exact ⟨h.aligned, h.parts, h.dds⟩
  | cdataBlock value =>
    apply hTop.bind
    intro st _
    cases st <;> first | exact ⟨h.aligned, h.parts, h.dds⟩ | exact hLine.fatal _

/-! ## A parse -/

/-- Each event of the run is one the parser has an answer to. -/
def FineRun (env : Env) : List (Nat × Event) → Parser → Prop
  | [], _ => True
  | e :: es, p => Fine p e.2 ∧ ∀ q, step env e p = .ok q → FineRun env es q

instance (name : String) : Decidable (Known name) :=
  inferInstanceAs (Decidable (∀ r ∈ variableState name, hasFactory r.1 = true))

instance (p : Parser) : Decidable (HasElement p) :=
  inferInstanceAs (Decidable (∀ v ∈ p.btStack.head?, v.shape ≠ [] → v.vars ≠ []))

instance (p : Parser) : Decidable (HasArray p) := inferInstanceAs (Decidable (∀ v ∈ p.btStack.head?, v.vars ≠ []))

instance decidableFine (p : Parser) : (e : Event) → Decidable (Fine p e)
  | .startElement name _ _ _ _ =>
    inferInstanceAs (Decidable (∀ st ∈ p.s.head?, expectsVariable st = true → Known name))
  | .endElement name _ uri =>
    inferInstanceAs (Decidable ((p.s.head? = some .insideArray → name = "Array" → HasElement p) ∧
      (p.s.head? = some .insideMap → name = "Map" → HasElement p) ∧
      (p.s.head? = some .insideGrid → name = "Grid" → HasArray p) ∧
      (p.s.head? = some .insideOtherXmlAttribute → name = "Attribute" → uri ≠ none)))
  | .characters _ => isTrue trivial
  | .ignorableWhitespace _ => isTrue trivial
  | .cdataBlock _ => isTrue trivial

instance decidableOfOk (r : Except Stop Parser) (P : Parser → Prop) [DecidablePred P] :
    Decidable (∀ p, r = .ok p → P p) :=
  match r with
  | .error _ => isTrue fun _ h => nomatch h
  | .ok q => decidable_of_iff (P q) ⟨fun h _ hq => Except.ok.inj hq ▸ h, fun h => h q rfl⟩

instance decidableFineRun (env : Env) : (es : List (Nat × Event)) → DecidablePred (FineRun env es)
  | [], _ => isTrue trivial
  | e :: es, p =>
    have : DecidablePred (FineRun env es) := decidableFineRun env es
    inferInstanceAs (Decidable (Fine p e.2 ∧ ∀ q, step env e p = .ok q → FineRun env es q))

theorem steps_yields (h : Inv fine vars p) (es : List (Nat × Event)) (hFine : fine → FineRun env es p) :
    Safe fine vars (steps env es p) := by
  induction es generalizing p with
  | nil => exact h
  | cons e es ih =>
    rw [steps]
    have hStep : Safe fine vars (step env e p) := step_yields h e fun hf => (hFine hf).1
    have hNext : Yields (step env e p) (fun q => Inv fine vars q ∧ (fine → FineRun env es q)) (Harmless fine) := by
      cases hRun : step env e p with
      | ok q => exact ⟨hStep.of_ok hRun, fun hf => (hFine hf).2 q hRun⟩
      | error err => exact hStep.of_error hRun
    apply hNext.bind
    intro q hq
    exact ih hq.1 hq.2

theorem startDocument_yields (dds : DDS) (heap : Heap) :
    Yields (ddxStartDocument (newParser dds heap)) (fun p => Inv fine dds.vars p) (Harmless fine) := by
  rw [ddxStartDocument]
  apply (onTables_yields _ _).bind
  intro dummy _
  refine .ok ⟨.start, fun _ v hv => ?_, rfl⟩
  obtain rfl := List.mem_singleton.mp hv
  exact ⟨fun c hc => absurd hc List.not_mem_nil, fun hType => nomatch hType⟩

theorem addVars_yields (vs : List BaseType) (dds : DDS) (heap : Heap) :
    Yields (addVars env vs dds heap)
      (fun r => (∀ v ∈ vs, Complete v) → ∀ v ∈ r.1.vars, v ∈ dds.vars ∨ Complete v)
      (Harmless (∀ v ∈ vs, Complete v)) := by
  induction vs generalizing dds heap with
  | nil => exact fun _ v hv => .inl hv
  | cons v vs ih =>
    rw [addVars]
    have hCopy : Yields (ptrDuplicate env v heap) (fun r => SameShape v r.1) (Harmless (∀ w ∈ v :: vs, Complete w)) :=
      (ptrDuplicate_yields v heap).conseq (fun _ hr => hr) fun _ he => he.mono fun hAll => hAll v
      (List.mem_cons_self ..)
    apply hCopy.bind
    rintro copy hSame
    refine (ih { dds with vars := dds.vars ++ [copy.1] } copy.2).conseq ?_ ?_
    · intro r hr hAll w hw
      rcases hr (fun x hx => hAll x (List.mem_cons_of_mem _ hx)) w hw with hOld | hComplete
      · rcases List.mem_append.mp hOld with hOld | hNew
        · exact .inl hOld
        · obtain rfl := List.mem_singleton.mp hNew
          exact .inr (hSame.complete (hAll v (List.mem_cons_self ..)))
      · exact .inr hComplete
    · intro _ he
      exact he.mono fun hAll x hx => hAll x (List.mem_cons_of_mem _ hx)

/-- The parse was without an error, and what it added to the DDS is complete. -/
def Parsed (fine : Prop) (vars : List BaseType) (p : Parser) : Prop :=
  p.s.head? = some .parserStart ∧ (fine → ∀ v ∈ p.dds.vars, v ∈ vars ∨ Complete v)

theorem endDocument_yields (h : Inv fine vars p) :
    Yields (ddxEndDocument env p) (fun q => q.s.head? = some .parserError ∨ Parsed fine vars q) (Harmless fine) := by
  rw [ddxEndDocument]
  apply (top_yields h.s_ne).bind
  rintro st ⟨s, hs⟩
  by_cases hStart : st = .parserStart
  · subst hStart
    simp only [ne_eq, not_true_eq_false, if_false]
    rw [hs]
    have hAligned := h.aligned
    rw [hs] at hAligned
    have hTypes := hAligned.of_start
    obtain ⟨v, rest, hBt⟩ := List.exists_cons_of_ne_nil h.btStack_ne
    rw [hBt, List.map_cons] at hTypes
    obtain ⟨hType, -⟩ := List.cons.inj hTypes
    have hParts : fine → ∀ c ∈ v.vars, Complete c := fun hf => (h.parts hf v (hBt ▸ List.mem_cons_self ..)).complete
    have hMoved : Yields (addVars env v.vars p.dds p.heap) (fun r => fine → ∀ w ∈ r.1.vars, w ∈ vars ∨ Complete w)
        (Harmless fine) := by
      refine (addVars_yields v.vars p.dds p.heap).conseq (fun r hr hf => ?_) fun _ he => he.mono hParts
      rw [← h.dds]
      exact hr (hParts hf)
    simp only [top, ok_bind, hBt, hType, pop]
    apply hMoved.bind
    rintro moved hVars
    apply (delete_yields v _).bind
    intro heap _
    exact .inr ⟨rfl, hVars⟩
  · simp only [ne_eq, hStart, not_false_eq_true, if_true]
    have hError := h.fatal "The document contained unbalanced tags."
    apply (top_yields hError.s_ne).bind
    rintro st' ⟨s', hs'⟩
    obtain ⟨rfl, -⟩ := List.cons.inj hs'
    apply (top_yields hError.btStack_ne).bind
    rintro v -
    apply (delete_yields v _).bind
    intro heap _
    exact .inl rfl

/-- `cleanup_parse` throws, or a callback did. -/
def Reported : Except Stop Parser → Prop
  | .ok p => p.s.head? = some .parserError
  | .error (.fault f) => f ≠ .undefined ∧ f ≠ .outOfBounds
  | .error _ => False

theorem parse_yields (dds : DDS) (heap : Heap) (events : List (Nat × Event))
    (hFine : fine → ∀ p, ddxStartDocument (newParser dds heap) = .ok p → FineRun env events p) :
    Yields (parse env dds heap events) (fun q => q.s.head? = some .parserError ∨ Parsed fine dds.vars q)
      (Harmless fine) := by
  rw [parse]
  have hStart : Yields (ddxStartDocument (newParser dds heap))
      (fun p => Inv fine dds.vars p ∧ (fine → FineRun env events p)) (Harmless fine) := by
    have hInv : Yields _ _ (Harmless fine) := startDocument_yields dds heap
    cases hRun : ddxStartDocument (newParser dds heap) with
    | ok p => exact ⟨hInv.of_ok hRun, fun hf => hFine hf p hRun⟩
    | error e => exact hInv.of_error hRun
  apply hStart.bind
  rintro p ⟨hp, hRun⟩
  apply (steps_yields hp events hRun).bind
  intro q hq
  exact endDocument_yields hq

/-- An element with a name, and its parts. -/
def element (name : String) (attrs : List (String × Word)) (parts : List (Nat × Event)) : List (Nat × Event) :=
  (1, .startElement name none none [] (attrs.map fun a => ⟨a.1, none, none, a.2⟩)) :: parts ++
    [(1, .endElement name none none)]

def dimension : List (Nat × Event) := element "dimension" [("size", ['2'])] []

def noDataset : DDS := ⟨[], [], 2, 0, 0, []⟩

/-- The heap with the table of the DDS. -/
def oneTable : Heap := { Heap.empty with tables := Store.empty.alloc ⟨[], .null, [], true⟩ }

def dataset (parts : List (Nat × Event)) : List (Nat × Event) := element "Dataset" [("name", ['d'])] parts

/-- A dataset read into an empty DDS. -/
def parseDataset (events : List (Nat × Event)) : Except Stop Parser := parse ⟨5, []⟩ noDataset oneTable events

def gridElement : List (Nat × Event) :=
  element "Grid" [("name", ['g'])]
    (element "Array" [("name", ['a'])] (element "Byte" [] [] ++ dimension) ++
      element "Map" [("name", ['m'])] (element "Byte" [] [] ++ dimension))

/-- The error of a parse that did not return. -/
def stopOf : Except Stop Parser → Option Stop
  | .ok _ => none
  | .error e => some e

-- In one block: the kernel evaluates one text behind the other.
mutual

theorem grid_parsed :
    (∀ p, ddxStartDocument (newParser noDataset oneTable) = .ok p → FineRun ⟨5, []⟩ (dataset gridElement) p) ∧
    ((parseDataset (dataset gridElement)).toOption.map fun p => p.s.head?) = some (some .parserStart) := by
  decide +kernel

theorem broken_parsed :
    ((parseDataset (dataset (element "Array" [("name", ['a'])] dimension))).toOption.map fun p =>
      (p.s.head?, p.dds.vars.map fun v => (v.type, v.vars.length))) = some (some .parserStart, [(.array, 0)]) ∧
    stopOf (parseDataset (dataset (element "Grid" [("name", ['g'])] []))) = some .nullPointer ∧
    stopOf (parseDataset (dataset (element "Int64" [("name", ['i'])] []))) = some .nullPointer ∧
    stopOf (parseDataset (dataset (element "Attribute" [("name", ['x']), ("type", "OtherXML".toList)] []))) =
      some .nullPointer := by
  decide +kernel

end

end Libdap.Ddx
