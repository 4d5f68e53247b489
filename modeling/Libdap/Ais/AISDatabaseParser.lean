import Libdap.Ais.AISResources
import Libdap.Core.Fault
import Libdap.Xml.Document

/-! # Reading a database of ancillary resources

The callbacks of a SAX parser keep a state that elements with a known name take from one kind of element to the next.
-/

namespace Libdap.Ais
open Core Constraint Xml
set_option autoImplicit false

inductive ParseState
  | start
  | finish
  | ais
  | entry
  | primary
  | ancillary
  | unknown
  | error
  deriving DecidableEq

structure AISParserState where
  state : ParseState
  prevState : ParseState
  unknownDepth : Int
  errorMsg : String
  ais : AISResources
  primary : Word
  /-- Not initialized before the first primary resource. -/
  regexp : Option Bool
  rv : List Resource

/-- The constructor from the name of the rule. -/
def Rule.ofName (name : Word) : Except Fault Rule :=
  if name = "replace".toList then .ok .replace
  else if name = "fallback".toList then .ok .fallback
  else if name = "overwrite".toList ∨ name = "default".toList then .ok .overwrite
  else .error (.Error ("An AIS Resource object was created with an unknown rule type '" ++ String.ofList name))

namespace AISParserState

/-- `aisWarning`, `aisError` and `aisFatalError`, with the formatted message. -/
def report (line : Nat) (msg : String) (s : AISParserState) : AISParserState :=
  { s with
    state := .error
    errorMsg := s.errorMsg ++ ("At line: " ++ toString line ++ ": ") ++ (String.ofList (msg.toList.take 1023) ++ "\n") }

def move (state : ParseState) (s : AISParserState) : AISParserState := { s with prevState := s.state, state := state }

/-- An element that the state does not know. -/
def enterUnknown (s : AISParserState) : AISParserState :=
  { s.move .unknown with unknownDepth := s.unknownDepth + 1 }

def startPrimary (line : Nat) (attrs : List (Word × Word)) (s : AISParserState) : AISParserState :=
  match attrs with
  | [] => s.report line "Required attribute 'url' or 'regexp' missing from element 'primary'."
  | (name, value) :: _ =>
    if name = "url".toList then { s with regexp := some false, primary := value }
    else if name = "regexp".toList then { s with regexp := some true, primary := value }
    else s

/-- The last value of an attribute, or its default. -/
def lastValue (name : Word) (default : Word) (attrs : List (Word × Word)) : Word :=
  attrs.foldl (fun value a => if a.1 = name then a.2 else value) default

/-- A bad rule is part of a format. -/
def startAncillary (line : Nat) (attrs : List (Word × Word)) (s : AISParserState) : Except Fault AISParserState :=
  let url := lastValue "url".toList [] attrs
  let rule := lastValue "rule".toList "overwrite".toList attrs
  if url = [] then .ok (s.report line "Required attribute 'url' missing from element 'ancillary'.")
  else if rule ≠ "overwrite".toList ∧ rule ≠ "replace".toList ∧ rule ≠ "fallback".toList then
    if rule.contains '%' then .error .undefined
    else .ok (s.report line ("Optional attribute 'rule' in element 'ancillary' has a bad value: " ++
      String.ofList rule ++
      "\nIt should be one of 'overwrite', 'replace' or 'fallback'."))
  else do
    let r ← Rule.ofName rule
    .ok { s with rv := s.rv ++ [⟨url, r⟩] }

def aisStartElement (line : Nat) (name : Word) (attrs : List (Word × Word)) (s : AISParserState) :
    Except Fault AISParserState :=
  match s.state with
  | .start => .ok { s with state := .ais }
  | .finish => .ok s
  | .ais => if name = "entry".toList then .ok (s.move .entry) else .ok s.enterUnknown
  | .entry =>
    if name = "primary".toList then .ok ((s.move .primary).startPrimary line attrs)
    else if name = "ancillary".toList then (s.move .ancillary).startAncillary line attrs
    else .ok s.enterUnknown
  | .primary => .ok s
  | .ancillary => .ok s
  | .unknown => .ok { s with unknownDepth := s.unknownDepth + 1 }
  | .error => .ok s

/-- The entry is recorded when its element ends. -/
def endEntry (s : AISParserState) : Except Fault AISParserState :=
  match s.regexp with
  | none => .error .undefined
  | some true => .ok { s.move .ais with ais := s.ais.addRegexpResource s.primary s.rv, rv := [] }
  | some false => .ok { s.move .ais with ais := s.ais.addUrlResource s.primary s.rv, rv := [] }

def aisEndElement (s : AISParserState) : Except Fault AISParserState :=
  match s.state with
  | .ais => .ok (s.move .finish)
  | .entry => s.endEntry
  | .primary => .ok (s.move .entry)
  | .ancillary => .ok (s.move .entry)
  | .unknown => .ok { s with unknownDepth := s.unknownDepth - 1 }
  | _ => .ok s

def callback (e : Nat × Event) (s : AISParserState) : Except Fault AISParserState :=
  match e.2 with
  | .startElement name attrs => s.aisStartElement e.1 name attrs
  | .endElement _ => s.aisEndElement
  | .warning msg => .ok (s.report e.1 msg)
  | .error msg => .ok (s.report e.1 msg)
  | .fatalError msg => .ok (s.report e.1 msg)

def callbacks : List (Nat × Event) → AISParserState → Except Fault AISParserState
  | [], s => .ok s
  | e :: es, s => do
    let s ← callback e s
    callbacks es s

/-- `aisStartDocument` of a new state -/
def aisStartDocument (ais : AISResources) : AISParserState :=
  { state := .start, prevState := .unknown, unknownDepth := 0, errorMsg := "", ais := ais, primary := [],
    regexp := none,
    rv := [] }

def aisEndDocument (line : Nat) (s : AISParserState) : AISParserState :=
  if s.unknownDepth ≠ 0 then s.report line "The document contained unbalanced tags." else s

end AISParserState

def databaseReadFailed (msg : String) : Fault := .Error ("The AIS database read failed: " ++ msg)

/-- `read_database` of a file with this text, for the library's parser. -/
def AISResources.readDatabase (sax : Word → Report) (text : Word) (ais : AISResources) : Except Fault AISResources := do
  let r := sax text
  let s ← AISParserState.callbacks r.events (AISParserState.aisStartDocument ais)
  let s := s.aisEndDocument r.lastLine
  if r.wellFormed = false then
    .error (databaseReadFailed ("\nThe database is not a well formed XML document.\n" ++ s.errorMsg))
  else if r.valid = false then
    .error (databaseReadFailed ("\nThe database is not a valid document.\n" ++ s.errorMsg))
  else if s.state = .error then
    .error (databaseReadFailed ("\nError parsing AIS resources.\n" ++ s.errorMsg))
  else .ok s.ais

end Libdap.Ais

/-! ## Where the strings of a database come from

Every string that is recorded is the value of an attribute that the parser reported, and no resource has an empty URL.
-/

namespace Libdap.Ais
open Core Constraint Xml
set_option autoImplicit false

variable {V : Word → Prop}

def HeldResource (V : Word → Prop) (r : Resource) : Prop := r.url ≠ [] ∧ V r.url

def HeldEntry (V : Word → Prop) (e : Entry) : Prop := V e.1 ∧ ∀ r ∈ e.2, HeldResource V r

structure Held (V : Word → Prop) (s : AISParserState) : Prop where
  re : ∀ e ∈ s.ais.re, HeldEntry V e
  db : ∀ e ∈ s.ais.db, HeldEntry V e
  primary : V s.primary
  rv : ∀ r ∈ s.rv, HeldResource V r

theorem held_insertUrl {url : Word} {rv : List Resource} (hUrl : V url) (hRv : ∀ r ∈ rv, HeldResource V r)
    {db : List Entry} (h : ∀ e ∈ db, HeldEntry V e) : ∀ e ∈ insertUrl url rv db, HeldEntry V e := by
  induction db with
  | nil => exact List.forall_mem_singleton.mpr ⟨hUrl, hRv⟩
  | cons q db ih =>
    obtain ⟨key, old⟩ := q
    obtain ⟨hFirst, hRest⟩ := List.forall_mem_cons.mp h
    rw [insertUrl]
    split
    · exact List.forall_mem_cons.mpr ⟨⟨hUrl, hRv⟩, h⟩
    · split
      · exact List.forall_mem_cons.mpr ⟨hFirst, ih hRest⟩
      · exact List.forall_mem_cons.mpr ⟨⟨hFirst.1, List.forall_mem_append.mpr ⟨hFirst.2, hRv⟩⟩, hRest⟩

theorem held_insertRegexp {re : Word} {rv : List Resource} (hRe : V re) (hRv : ∀ r ∈ rv, HeldResource V r)
    {d : List Entry} (h : ∀ e ∈ d, HeldEntry V e) : ∀ e ∈ insertRegexp re rv d, HeldEntry V e := by
  induction d with
  | nil => exact List.forall_mem_singleton.mpr ⟨hRe, hRv⟩
  | cons q d ih =>
    obtain ⟨key, old⟩ := q
    obtain ⟨hFirst, hRest⟩ := List.forall_mem_cons.mp h
    rw [insertRegexp]
    split
    · exact List.forall_mem_cons.mpr ⟨⟨hFirst.1, List.forall_mem_append.mpr ⟨hFirst.2, hRv⟩⟩, hRest⟩
    · exact List.forall_mem_cons.mpr ⟨hFirst, ih hRest⟩

theorem Held.report {s : AISParserState} (h : Held V s) (line : Nat) (msg : String) : Held V (s.report line msg) :=
  ⟨h.re, h.db, h.primary, h.rv⟩

theorem Held.move {s : AISParserState} (h : Held V s) (state : ParseState) : Held V (s.move state) :=
  ⟨h.re, h.db, h.primary, h.rv⟩

theorem Held.startPrimary {s : AISParserState} (h : Held V s) (line : Nat) {attrs : List (Word × Word)}
    (hAttrs : ∀ a ∈ attrs, V a.2) : Held V (s.startPrimary line attrs) := by
  cases attrs with
  | nil => exact h.report line _
  | cons a attrs =>
    obtain ⟨name, value⟩ := a
    have hValue : V value := hAttrs _ List.mem_cons_self
    rw [AISParserState.startPrimary]
    split
    · exact ⟨h.re, h.db, hValue, h.rv⟩
    · split
      · exact ⟨h.re, h.db, hValue, h.rv⟩
      · exact h

theorem lastValue_held (name : Word) {attrs : List (Word × Word)} (hAttrs : ∀ a ∈ attrs, V a.2) {default : Word}
    (hDefault : V default) : V (AISParserState.lastValue name default attrs) := by
  induction attrs generalizing default with
  | nil => exact hDefault
  | cons a attrs ih =>
    obtain ⟨hFirst, hRest⟩ := List.forall_mem_cons.mp hAttrs
    have hNext : V (if a.1 = name then a.2 else default) := by
      split
      · exact hFirst
      · exact hDefault
    exact ih hRest hNext

theorem Held.startAncillary {s s' : AISParserState} (h : Held V s) {line : Nat} {attrs : List (Word × Word)}
    (hEmpty : V []) (hAttrs : ∀ a ∈ attrs, V a.2) (hRun : s.startAncillary line attrs = .ok s') : Held V s' := by
  simp only [AISParserState.startAncillary] at hRun
  split at hRun
  · cases hRun
    exact h.report line _
  · rename_i hUrl
    split at hRun
    · split at hRun
      · cases hRun
      · cases hRun
        exact h.report line _
    · obtain ⟨rule, -, hRun⟩ := bind_eq_ok hRun
      cases hRun
      exact ⟨h.re, h.db, h.primary, List.forall_mem_append.mpr ⟨h.rv,
        List.forall_mem_singleton.mpr ⟨hUrl, lastValue_held _ hAttrs hEmpty⟩⟩⟩

theorem Held.endElement {s s' : AISParserState} (h : Held V s) (hRun : s.aisEndElement = .ok s') : Held V s' := by
  rw [AISParserState.aisEndElement.eq_def] at hRun
  split at hRun
  · cases hRun
    exact h.move _
  · rw [AISParserState.endEntry] at hRun
    split at hRun
    · cases hRun
    · cases hRun
      exact ⟨held_insertRegexp h.primary h.rv h.re, h.db, h.primary, nofun⟩
    · cases hRun
      exact ⟨h.re, held_insertUrl h.primary h.rv h.db, h.primary, nofun⟩
  · cases hRun
    exact h.move _
  · cases hRun
    exact h.move _
  · cases hRun
    exact ⟨h.re, h.db, h.primary, h.rv⟩
  · cases hRun
    exact h

theorem Held.startElement {s s' : AISParserState} (h : Held V s) {line : Nat} {name : Word}
    {attrs : List (Word × Word)} (hEmpty : V []) (hAttrs : ∀ a ∈ attrs, V a.2)
    (hRun : s.aisStartElement line name attrs = .ok s') : Held V s' := by
  rw [AISParserState.aisStartElement.eq_def] at hRun
  split at hRun
  · cases hRun
    exact ⟨h.re, h.db, h.primary, h.rv⟩
  · cases hRun
    exact h
  · split at hRun
    · cases hRun
      exact h.move _
    · cases hRun
      exact ⟨h.re, h.db, h.primary, h.rv⟩
  · split at hRun
    · cases hRun
      exact (h.move _).startPrimary line hAttrs
    · split at hRun
      · exact (h.move _).startAncillary hEmpty hAttrs hRun
      · cases hRun
        exact ⟨h.re, h.db, h.primary, h.rv⟩
  · cases hRun
    exact h
  · cases hRun
    exact h
  · cases hRun
    exact ⟨h.re, h.db, h.primary, h.rv⟩
  · cases hRun
    exact h

/-- The values of the attributes that are reported. -/
def Reported (V : Word → Prop) (es : List Event) : Prop :=
  ∀ name attrs, Event.startElement name attrs ∈ es → ∀ a ∈ attrs, V a.2

theorem Held.callbacks {s s' : AISParserState} (h : Held V s) (hEmpty : V []) {ns : List (Nat × Event)}
    (hReported : Reported V (ns.map Prod.snd)) (hRun : AISParserState.callbacks ns s = .ok s') : Held V s' := by
  induction ns generalizing s with
  | nil =>
    cases hRun
    exact h
  | cons n ns ih =>
    obtain ⟨line, e⟩ := n
    obtain ⟨s₁, hFirst, hRest⟩ := bind_eq_ok hRun
    refine ih ?_ (fun name attrs hMem => hReported name attrs (List.mem_cons_of_mem _ hMem)) hRest
    rw [AISParserState.callback] at hFirst
    cases e with
    | startElement name attrs => exact h.startElement hEmpty (hReported name attrs List.mem_cons_self) hFirst
    | endElement name => exact h.endElement hFirst
    | warning msg | error msg | fatalError msg =>
      cases hFirst
      exact h.report line _

end Libdap.Ais
