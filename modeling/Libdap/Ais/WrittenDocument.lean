import Libdap.Ais.AISResources
import Libdap.Xml.Scan

/-! # The document of a database

What is written is the text of a document whose tags can be told from the database. Elements that a reader does not know
are inserted into the gaps between its tags.
-/

namespace Libdap.Ais
open Constraint Xml
set_option autoImplicit false

def aisName : Word := "ais".toList
def entryName : Word := "entry".toList
def primaryName : Word := "primary".toList
def ancillaryName : Word := "ancillary".toList
def urlName : Word := "url".toList
def regexpName : Word := "regexp".toList

def newline : Word := "\n".toList

def entryStart : Tag := ⟨.start, entryName, [], newline⟩
def entryStop : Tag := ⟨.stop, entryName, [], newline⟩

def primaryTag (attr : Word) (primary : Word) : Tag := ⟨.empty, primaryName, [(attr, primary)], newline⟩

def replaceRule : Word × Word := ("rule".toList, "replace".toList)
def fallbackRule : Word × Word := ("rule".toList, "fallback".toList)

def ruleAttrs : Rule → List (Word × Word)
  | .overwrite => []
  | .replace => [replaceRule]
  | .fallback => [fallbackRule]

def resourceTag (r : Resource) : Tag :=
  ⟨.empty, ancillaryName, ruleAttrs r.rule ++ [(urlName, r.url)], newline⟩

def entryTags (attr : Word) (e : Entry) : List Tag :=
  entryStart :: primaryTag attr e.1 :: (e.2.map resourceTag ++ [entryStop])

def AISResources.body (a : AISResources) : List Tag :=
  a.re.flatMap (entryTags regexpName) ++ a.db.flatMap (entryTags urlName)

def documentOfBody (body : List Tag) : Document :=
  ⟨aisName, [("xmlns".toList, "http://xml.opendap.org/ais".toList)], newline, body, newline ++ newline⟩

theorem attrText_url (url : Word) : attrText (urlName, url) = " url=\"".toList ++ (url ++ ['"']) := rfl

theorem resource_write (r : Resource) : r.write = '<' :: (ancillaryName ++ ((ruleAttrs r.rule).flatMap attrText ++
    (" url=\"".toList ++ (r.url ++ ['"', '/', '>'])))) := by
  obtain ⟨url, rule⟩ := r
  cases rule <;> rfl

theorem write_resource (r : Resource) : (resourceTag r).write = r.write ++ newline := by
  rw [resource_write]
  simp only [resourceTag, Tag.write, List.flatMap_append, List.flatMap_cons, List.flatMap_nil, attrText_url,
    List.append_assoc, List.cons_append, List.nil_append]

theorem entry_write (attr : Word) (e : Entry) : writeEntry attr e = entryStart.write ++ ('<' :: (primaryName ++
    (' ' :: (attr ++ ('=' :: '"' :: (e.1 ++ ('"' :: '/' :: '>' :: newline ++
      (e.2.flatMap (fun r => r.write ++ newline) ++ entryStop.write)))))))) := rfl

theorem write_entry (attr : Word) (e : Entry) : (entryTags attr e).flatMap Tag.write = writeEntry attr e := by
  have hResources : (e.2.map resourceTag).flatMap Tag.write = e.2.flatMap fun r => r.write ++ newline := by
    rw [List.flatMap_map]
    exact congrArg (fun f => e.2.flatMap f) (funext write_resource)
  rw [entry_write, entryTags, List.flatMap_cons, List.flatMap_cons, List.flatMap_append, hResources,
    List.flatMap_singleton]
  simp only [primaryTag, Tag.write, attrText, List.append_assoc, List.cons_append, List.nil_append,
    List.flatMap_cons, List.flatMap_nil]

/-- What is written is the document's text. -/
theorem write_document (a : AISResources) : prolog ++ (documentOfBody a.body).write = a.writeDatabase := by
  have hBody : a.body.flatMap Tag.write =
      a.re.flatMap (writeEntry regexpName) ++ a.db.flatMap (writeEntry urlName) := by
    rw [AISResources.body, List.flatMap_append, List.flatMap_assoc, List.flatMap_assoc]
    simp only [write_entry]
  rw [AISResources.writeDatabase, Document.write, Document.tags, List.flatMap_cons, List.flatMap_append]
  simp only [documentOfBody, hBody, Tag.write, attrText, List.append_assoc, List.cons_append, List.nil_append,
    List.flatMap_cons, List.flatMap_nil, List.append_nil]
  rfl

/-! ## Gaps -/

/-- The elements that are open behind a tag. -/
def after (t : Tag) (stack : List Word) : List Word :=
  match t.kind with
  | .start => t.name :: stack
  | .stop => stack.tail
  | .empty => stack

/-- What may be in an element. -/
def known (parent : Word) : List Word :=
  if parent = aisName then [entryName] else if parent = entryName then [primaryName, ancillaryName] else []

/-- No element outside of all others has a name of the list. -/
def strangers (names : List Word) : Nat → List Tag → Bool
  | _, [] => true
  | depth, t :: ts =>
    match t.kind with
    | .start => (depth ≠ 0 || !names.contains t.name) && strangers names (depth + 1) ts
    | .empty => (depth ≠ 0 || !names.contains t.name) && strangers names depth ts
    | .stop => strangers names (depth - 1) ts

/-- Whole elements with names that their parent does not know. -/
structure Unknown (parent : Word) (gap : List Tag) : Prop where
  legal : ∀ t ∈ gap, t.legal = true
  nested : nested [] gap = true
  strangers : strangers (known parent) 0 gap = true

/-- The gaps in front of the tags, and the one behind the last tag, hold elements that are unknown where they are. The
stack is of the elements that are open inside of the root. -/
def Inserted : List Word → List (List Tag) → List Tag → Prop
  | _, [], _ => True
  | stack, gap :: gaps, [] => Unknown (stack.headD aisName) gap ∧ gaps = []
  | stack, gap :: gaps, t :: ts => Unknown (stack.headD aisName) gap ∧ Inserted (after t stack) gaps ts

def fill : List (List Tag) → List Tag → List Tag
  | [], ts => ts
  | gap :: _, [] => gap
  | gap :: gaps, t :: ts => gap ++ t :: fill gaps ts

theorem fill_empty {gaps : List (List Tag)} (h : ∀ gap ∈ gaps, gap = []) (ts : List Tag) : fill gaps ts = ts := by
  induction gaps generalizing ts with
  | nil => cases ts <;> rfl
  | cons gap gaps ih =>
    obtain ⟨rfl, hGaps⟩ := List.forall_mem_cons.mp h
    cases ts with
    | nil => rfl
    | cons t ts => rw [fill, ih hGaps, List.nil_append]

theorem nested_cons (stack : List Word) (t : Tag) (ts : List Tag) :
    nested stack (t :: ts) = true ↔ (t.kind = .stop → stack.head? = some t.name) ∧
      nested (after t stack) ts = true := by
  rw [nested.eq_def, after]
  cases hKind : t.kind with
  | start => simp [hKind]
  | empty => simp [hKind]
  | stop => cases stack <;> simp [hKind]

theorem nested_fill {stack : List Word} {gaps : List (List Tag)} {ts : List Tag} (h : Inserted stack gaps ts)
    (hNested : nested stack ts = true) : nested stack (fill gaps ts) = true := by
  induction ts generalizing stack gaps with
  | nil =>
    cases gaps with
    | nil => exact hNested
    | cons gap gaps =>
      have hGap := (nested_append h.1.nested []).trans hNested
      rwa [List.append_nil] at hGap
  | cons t ts ih =>
    cases gaps with
    | nil => exact hNested
    | cons gap gaps =>
      obtain ⟨hClose, hRest⟩ := (nested_cons stack t ts).mp hNested
      refine (nested_append h.1.nested _).trans ?_
      exact (nested_cons stack t _).mpr ⟨hClose, ih h.2 hRest⟩

theorem legal_fill {stack : List Word} {gaps : List (List Tag)} {ts : List Tag} (h : Inserted stack gaps ts)
    (hLegal : ∀ t ∈ ts, t.legal = true) : ∀ t ∈ fill gaps ts, t.legal = true := by
  induction ts generalizing stack gaps with
  | nil =>
    cases gaps with
    | nil => exact hLegal
    | cons gap gaps => exact h.1.legal
  | cons t ts ih =>
    cases gaps with
    | nil => exact hLegal
    | cons gap gaps =>
      obtain ⟨hFirst, hRest⟩ := List.forall_mem_cons.mp hLegal
      rintro u hu
      obtain hu | hu := List.mem_append.mp hu
      · exact h.1.legal u hu
      · obtain rfl | hu := List.mem_cons.mp hu
        · exact hFirst
        · exact ih h.2 hRest u hu

/-! ## Plain databases -/

/-- What a literal of the file can be without being changed. -/
structure PlainEntry (e : Entry) : Prop where
  primary : Plain e.1
  resources : ∀ r ∈ e.2, r.url ≠ [] ∧ Plain r.url

instance (e : Entry) : Decidable (PlainEntry e) :=
  decidable_of_iff (Xml.Plain e.1 ∧ ∀ r ∈ e.2, r.url ≠ [] ∧ Xml.Plain r.url)
    ⟨fun h => ⟨h.1, h.2⟩, fun h => ⟨h.primary, h.resources⟩⟩

def AISResources.Plain (a : AISResources) : Prop := ∀ e ∈ a.re ++ a.db, PlainEntry e

instance (a : AISResources) : Decidable a.Plain := inferInstanceAs (Decidable (∀ e ∈ a.re ++ a.db, PlainEntry e))

theorem legalLiteral_plain {v : Word} (h : Xml.Plain v) : legalLiteral v = true := by
  have hQuote : '"' ∉ v := fun hMem => (h _ hMem).2.2.2.2 rfl
  have hLt : '<' ∉ v := fun hMem => (h _ hMem).2.2.1 rfl
  have hEncoded : ∀ c ∈ v, Encoded c := fun c hc => Or.inr (Or.inr (Or.inr ⟨(h c hc).1, (h c hc).2.1⟩))
  simp only [legalLiteral, attValue_plain h, Option.isSome_some, Bool.and_true, Bool.and_eq_true, Bool.not_eq_true',
    List.contains_eq_mem, decide_eq_false_iff_not, List.all_eq_true, decide_eq_true_eq]
  exact ⟨⟨hQuote, hLt⟩, hEncoded⟩

theorem legalAttr_plain {name v : Word} (hName : legalName name = true) (hOwn : "xml:".toList.isPrefixOf name = false)
    (h : Xml.Plain v) : legalAttr (name, v) = true := by
  simp only [legalAttr, hName, hOwn, legalLiteral_plain h, Bool.not_false, Bool.and_self]

theorem legal_resourceTag {r : Resource} (h : Xml.Plain r.url) : (resourceTag r).legal = true := by
  obtain ⟨url, rule⟩ := r
  have hUrl : legalAttr (urlName, url) = true := legalAttr_plain (by decide) (by decide) h
  have hReplace : legalAttr replaceRule = true := by decide
  have hFallback : legalAttr fallbackRule = true := by decide
  have hNames : replaceRule.1 ≠ urlName ∧ fallbackRule.1 ≠ urlName := by decide
  have hName : legalName ancillaryName = true := by decide
  have hText : legalText newline = true := by decide
  cases rule <;>
    simp [Tag.legal, resourceTag, ruleAttrs, hUrl, hReplace, hFallback, hName, hText, hNames]

theorem legal_primaryTag {attr primary : Word} (hAttr : attr = regexpName ∨ attr = urlName) (h : Xml.Plain primary) :
    (primaryTag attr primary).legal = true := by
  have hValue : legalAttr (attr, primary) = true := by
    obtain rfl | rfl := hAttr
    · exact legalAttr_plain (by decide) (by decide) h
    · exact legalAttr_plain (by decide) (by decide) h
  have hName : legalName primaryName = true := by decide
  have hText : legalText newline = true := by decide
  simp [Tag.legal, primaryTag, hValue, hName, hText]

theorem legal_entryTags {attr : Word} (hAttr : attr = regexpName ∨ attr = urlName) {e : Entry} (h : PlainEntry e) :
    ∀ t ∈ entryTags attr e, t.legal = true := by
  have hStart : entryStart.legal = true := by decide
  have hStop : entryStop.legal = true := by decide
  rintro t ht
  simp only [entryTags, List.mem_cons, List.mem_append, List.mem_map, List.not_mem_nil, or_false] at ht
  obtain rfl | rfl | ⟨r, hr, rfl⟩ | rfl := ht
  · exact hStart
  · exact legal_primaryTag hAttr h.primary
  · exact legal_resourceTag (h.resources r hr).2
  · exact hStop

theorem legal_body {a : AISResources} (h : a.Plain) : ∀ t ∈ a.body, t.legal = true := by
  rintro t ht
  obtain ht | ht := List.mem_append.mp ht
  · obtain ⟨e, he, ht⟩ := List.mem_flatMap.mp ht
    exact legal_entryTags (Or.inl rfl) (h e (List.mem_append_left _ he)) t ht
  · obtain ⟨e, he, ht⟩ := List.mem_flatMap.mp ht
    exact legal_entryTags (Or.inr rfl) (h e (List.mem_append_right _ he)) t ht

/-! ## Nesting -/

/-- Tags that are where a database has them. -/
def InPlace : List Word → List Tag → Prop
  | stack, [] => stack = []
  | stack, t :: ts =>
    (stack = [] ∧ t = entryStart ∨ stack = [entryName] ∧
      (t = entryStop ∨ t.kind = .empty ∧ (t.name = primaryName ∨ t.name = ancillaryName))) ∧ InPlace (after t stack) ts

theorem inPlace_resources {ts : List Tag} (h : InPlace [] ts) (rs : List Resource) :
    InPlace [entryName] (rs.map resourceTag ++ entryStop :: ts) := by
  induction rs with
  | nil => exact ⟨Or.inr ⟨rfl, Or.inl rfl⟩, h⟩
  | cons r rs ih => exact ⟨Or.inr ⟨rfl, Or.inr ⟨rfl, Or.inr rfl⟩⟩, ih⟩

theorem inPlace_entries {ts : List Tag} (h : InPlace [] ts) (attr : Word) (es : List Entry) :
    InPlace [] (es.flatMap (entryTags attr) ++ ts) := by
  induction es with
  | nil => exact h
  | cons e es ih =>
    have hResources := inPlace_resources ih e.2
    rw [List.flatMap_cons, entryTags]
    simp only [List.cons_append, List.append_assoc, List.nil_append] at hResources ⊢
    exact ⟨Or.inl ⟨rfl, rfl⟩, Or.inr ⟨rfl, Or.inr ⟨rfl, Or.inl rfl⟩⟩, hResources⟩

theorem inPlace_body (a : AISResources) : InPlace [] a.body := by
  have hEnd : InPlace [] [] := rfl
  have hDb := inPlace_entries hEnd urlName a.db
  rw [List.append_nil] at hDb
  exact inPlace_entries hDb regexpName a.re

theorem nested_of_inPlace {stack : List Word} {ts : List Tag} (h : InPlace stack ts) : nested stack ts = true := by
  induction ts generalizing stack with
  | nil =>
    obtain rfl : stack = [] := h
    rfl
  | cons t ts ih =>
    obtain ⟨hTag, hRest⟩ := h
    refine (nested_cons stack t ts).mpr ⟨?_, ih hRest⟩
    rintro hStop
    obtain ⟨-, rfl⟩ | ⟨rfl, rfl | ⟨hKind, -⟩⟩ := hTag
    · cases hStop
    · rfl
    · rw [hKind] at hStop
      cases hStop

theorem legal_document {body : List Tag} (hLegal : ∀ t ∈ body, t.legal = true) (hNested : nested [] body = true) :
    (documentOfBody body).legal = true := by
  have hRoot : Tag.legal ⟨.start, aisName, [("xmlns".toList, "http://xml.opendap.org/ais".toList)], newline⟩ =
      true := by
    decide
  have hEnd : Tag.legal ⟨.stop, aisName, [], newline ++ newline⟩ = true := by decide
  have hTail : (newline ++ newline).all (fun c => c = ' ' ∨ c = '\n') = true := by decide
  simp only [Document.legal, Document.tags, documentOfBody, List.all_cons, List.all_append, List.all_nil, hRoot, hEnd,
    hNested, hTail, List.all_eq_true.mpr hLegal, Bool.and_self]

theorem legal_filled {a : AISResources} (h : a.Plain) {gaps : List (List Tag)} (hGaps : Inserted [] gaps a.body) :
    (documentOfBody (fill gaps a.body)).legal = true :=
  legal_document (legal_fill hGaps (legal_body h)) (nested_fill hGaps (nested_of_inPlace (inPlace_body a)))

end Libdap.Ais
