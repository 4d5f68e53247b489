import Libdap.Ais.AISDatabaseParser
import Libdap.Ais.WrittenDocument

/-! # The callbacks on a document

The elements of an entry are read back one by one, and the entries that are recorded at their ends are the database.
-/

namespace Libdap.Ais
open Core Constraint Xml AISParserState
set_option autoImplicit false

theorem callbacks_append (es fs : List (Nat × Event)) (s : AISParserState) :
    callbacks (es ++ fs) s = callbacks es s >>= callbacks fs := by
  induction es generalizing s with
  | nil => rfl
  | cons e es ih =>
    rw [List.cons_append, callbacks, callbacks]
    cases callback e s with
    | error f => rfl
    | ok s => exact ih s

/-- The callbacks lead from one state to the other, whatever lines the events are on. -/
def Steps (es : List Event) (s s' : AISParserState) : Prop :=
  ∀ ns : List (Nat × Event), ns.map Prod.snd = es → callbacks ns s = .ok s'

theorem Steps.nil (s : AISParserState) : Steps [] s s := by
  rintro ns hNs
  rw [List.map_eq_nil_iff.mp hNs]
  rfl

theorem Steps.append {es fs : List Event} {s s₁ s₂ : AISParserState} (h : Steps es s s₁) (h' : Steps fs s₁ s₂) :
    Steps (es ++ fs) s s₂ := by
  rintro ns hNs
  obtain ⟨ns₁, ns₂, rfl, h₁, h₂⟩ := List.map_eq_append_iff.mp hNs
  rw [callbacks_append, h ns₁ h₁]
  exact h' ns₂ h₂

theorem Steps.one {e : Event} {s s' : AISParserState} (h : ∀ line, callback (line, e) s = .ok s') : Steps [e] s s' := by
  rintro ns hNs
  obtain ⟨⟨line, e'⟩, rfl, hEvent⟩ := List.map_eq_singleton_iff.mp hNs
  obtain rfl : e' = e := hEvent
  rw [callbacks, h line]
  rfl

/-! ## An entry -/

theorem values_resource {r : Resource} (h : Xml.Plain r.url) :
    (resourceTag r).values = ruleAttrs r.rule ++ [(urlName, r.url)] := by
  obtain ⟨url, rule⟩ := r
  have hUrl := attValue_plain h
  have hReplace : attValue none replaceRule.2 = some replaceRule.2 := by decide
  have hFallback : attValue none fallbackRule.2 = some fallbackRule.2 := by decide
  cases rule <;> simp [Tag.values, resourceTag, ruleAttrs, hUrl, hReplace, hFallback]

def ruleName : Rule → Word
  | .overwrite => "overwrite".toList
  | .replace => "replace".toList
  | .fallback => "fallback".toList

theorem startAncillary_values {r : Resource} (hUrl : r.url ≠ []) (line : Nat) (s : AISParserState) :
    s.startAncillary line (ruleAttrs r.rule ++ [(urlName, r.url)]) = .ok { s with rv := s.rv ++ [r] } := by
  obtain ⟨url, rule⟩ := r
  have hEmpty : url ≠ [] := hUrl
  have hValue : lastValue "url".toList [] (ruleAttrs rule ++ [(urlName, url)]) = url := by
    cases rule <;> rfl
  have hRule : lastValue "rule".toList "overwrite".toList (ruleAttrs rule ++ [(urlName, url)]) = ruleName rule := by
    cases rule <;> rfl
  have hKnown : ¬ (ruleName rule ≠ "overwrite".toList ∧ ruleName rule ≠ "replace".toList ∧
      ruleName rule ≠ "fallback".toList) := by
    cases rule <;> decide
  have hName : Rule.ofName (ruleName rule) = .ok rule := by
    cases rule <;> rfl
  rw [startAncillary]
  simp only [hValue, hRule, hEmpty, hKnown, hName, if_false, ok_bind]

theorem steps_resource {s : AISParserState} (hs : s.state = .entry) {r : Resource} (h : r.url ≠ [] ∧ Xml.Plain r.url) :
    Steps (resourceTag r).events s { s with state := .entry, prevState := .ancillary, rv := s.rv ++ [r] } := by
  have hEvents : (resourceTag r).events =
      [.startElement ancillaryName (ruleAttrs r.rule ++ [(urlName, r.url)])] ++ [.endElement ancillaryName] := by
    rw [← values_resource h.2]
    rfl
  have hStart : Steps [.startElement ancillaryName (ruleAttrs r.rule ++ [(urlName, r.url)])] s
      { s.move .ancillary with rv := s.rv ++ [r] } := by
    apply Steps.one
    rintro line
    have hName : ancillaryName ≠ "primary".toList := by decide
    rw [callback]
    simp only [aisStartElement, hs, hName, if_false]
    rw [if_pos (by decide)]
    exact startAncillary_values h.1 line _
  rw [hEvents]
  exact hStart.append (Steps.one fun line => rfl)

theorem steps_resources {s : AISParserState} (hs : s.state = .entry) {rs : List Resource}
    (h : ∀ r ∈ rs, r.url ≠ [] ∧ Xml.Plain r.url) :
    ∃ p, Steps ((rs.map resourceTag).flatMap Tag.events) s
      { s with state := .entry, prevState := p, rv := s.rv ++ rs } := by
  induction rs generalizing s with
  | nil =>
    refine ⟨s.prevState, ?_⟩
    rw [← hs, List.append_nil]
    exact Steps.nil s
  | cons r rs ih =>
    obtain ⟨hFirst, hRest⟩ := List.forall_mem_cons.mp h
    obtain ⟨p, hSteps⟩ := ih (s := { s with state := .entry, prevState := .ancillary, rv := s.rv ++ [r] }) rfl hRest
    refine ⟨p, ?_⟩
    have hAll := (steps_resource hs hFirst).append hSteps
    rw [List.append_assoc] at hAll
    exact hAll

theorem steps_primary {s : AISParserState} (hs : s.state = .entry) {regexp : Bool} {attr : Word}
    (hAttr : attr = if regexp then regexpName else urlName) {v : Word} (h : Xml.Plain v) :
    Steps (primaryTag attr v).events s
      { s with state := .entry, prevState := .primary, regexp := some regexp, primary := v } := by
  have hEvents : (primaryTag attr v).events =
      [.startElement primaryName [(attr, v)]] ++ [.endElement primaryName] := by
    simp [Tag.events, Tag.values, primaryTag, attValue_plain h]
  have hStart : Steps [.startElement primaryName [(attr, v)]] s
      { s.move .primary with regexp := some regexp, primary := v } := by
    apply Steps.one
    rintro line
    rw [callback]
    simp only [aisStartElement, hs]
    rw [if_pos (by decide), hAttr]
    cases regexp <;> rfl
  rw [hEvents]
  exact hStart.append (Steps.one fun line => rfl)

/-- What the end of an entry does to the database. -/
def record (regexp : Bool) (a : AISResources) (e : Entry) : AISResources :=
  if regexp then a.addRegexpResource e.1 e.2 else a.addUrlResource e.1 e.2

theorem steps_entry {s : AISParserState} (hs : s.state = .ais) (hRv : s.rv = []) {regexp : Bool} {attr : Word}
    (hAttr : attr = if regexp then regexpName else urlName) {e : Entry} (h : PlainEntry e) :
    Steps ((entryTags attr e).flatMap Tag.events) s
      { s with prevState := .entry, regexp := some regexp, primary := e.1, ais := record regexp s.ais e } := by
  have hStart : Steps entryStart.events s (s.move .entry) := by
    apply Steps.one
    rintro line
    rw [callback]
    simp only [aisStartElement, hs]
    exact if_pos (by decide)
  have hPrimary := steps_primary (s := s.move .entry) rfl hAttr h.primary
  obtain ⟨p, hResources⟩ := steps_resources
    (s := { s.move .entry with state := .entry, prevState := .primary, regexp := some regexp, primary := e.1 }) rfl
    h.resources
  have hAll := (hStart.append hPrimary).append hResources
  have hEvents : (entryTags attr e).flatMap Tag.events =
      entryStart.events ++ (primaryTag attr e.1).events ++ (e.2.map resourceTag).flatMap Tag.events ++
        [.endElement entryName] := by
    simp [entryTags, entryStop, Tag.events]
  rw [hEvents]
  refine hAll.append (Steps.one ?_)
  rintro line
  cases regexp <;> simp [callback, aisEndElement, endEntry, record, move, hs, hRv]

theorem steps_entries {s : AISParserState} (hs : s.state = .ais) (hRv : s.rv = []) (regexp : Bool) {attr : Word}
    (hAttr : attr = if regexp then regexpName else urlName) {es : List Entry} (h : ∀ e ∈ es, PlainEntry e) :
    ∃ s', Steps ((es.flatMap (entryTags attr)).flatMap Tag.events) s s' ∧ s'.state = .ais ∧ s'.rv = [] ∧
      s'.unknownDepth = s.unknownDepth ∧ s'.ais = es.foldl (record regexp) s.ais := by
  induction es generalizing s with
  | nil => exact ⟨s, Steps.nil s, hs, hRv, rfl, rfl⟩
  | cons e es ih =>
    obtain ⟨hFirst, hRest⟩ := List.forall_mem_cons.mp h
    have hEntry := steps_entry hs hRv hAttr hFirst
    obtain ⟨s', hSteps, hState, hRv', hDepth, hAis⟩ := ih (s := { s with
      prevState := .entry, regexp := some regexp, primary := e.1, ais := record regexp s.ais e }) hs hRv hRest
    refine ⟨s', ?_, hState, hRv', hDepth, hAis⟩
    rw [List.flatMap_cons, List.flatMap_append]
    exact hEntry.append hSteps

/-! ## A database -/

theorem insertRegexp_last {re : Word} {rv : List Resource} {d : List Entry} (h : ∀ p ∈ d, p.1 ≠ re) :
    insertRegexp re rv d = d ++ [(re, rv)] := by
  induction d with
  | nil => rfl
  | cons q d ih =>
    obtain ⟨hFirst, hRest⟩ := List.forall_mem_cons.mp h
    rw [insertRegexp, if_neg hFirst, ih hRest]
    rfl

theorem insertUrl_last {url : Word} {rv : List Resource} {db : List Entry} (h : ∀ p ∈ db, p.1 < url) :
    insertUrl url rv db = db ++ [(url, rv)] := by
  induction db with
  | nil => rfl
  | cons q db ih =>
    obtain ⟨hFirst, hRest⟩ := List.forall_mem_cons.mp h
    rw [insertUrl, if_neg (lt_asymm hFirst), if_pos hFirst, ih hRest]
    rfl

theorem record_regexps (a : AISResources) (es : List Entry) (h : Distinct (a.re ++ es)) :
    (es.foldl (record true) a).re = a.re ++ es ∧ (es.foldl (record true) a).db = a.db := by
  induction es generalizing a with
  | nil => simp
  | cons e es ih =>
    have hOther : ∀ p ∈ a.re, p.1 ≠ e.1 := fun p hp =>
      (List.pairwise_append.mp h).2.2 p hp e List.mem_cons_self
    have hRecord : (record true a e).re = a.re ++ [e] := insertRegexp_last hOther
    have hRest := ih (record true a e) (by rwa [hRecord, List.append_assoc])
    rw [hRecord, List.append_assoc] at hRest
    exact hRest

theorem record_urls (a : AISResources) {es : List Entry} (h : Ascending (a.db ++ es)) :
    (es.foldl (record false) a).db = a.db ++ es ∧ (es.foldl (record false) a).re = a.re := by
  induction es generalizing a with
  | nil => simp
  | cons e es ih =>
    have hLess : ∀ p ∈ a.db, p.1 < e.1 := fun p hp =>
      (List.pairwise_append.mp h).2.2 p hp e List.mem_cons_self
    have hRecord : (record false a e).db = a.db ++ [e] := insertUrl_last hLess
    have hRest := ih (record false a e) (by rwa [hRecord, List.append_assoc])
    rw [hRecord, List.append_assoc] at hRest
    exact hRest

/-- The entries of a database, recorded in their order, are the database. -/
theorem record_all (a : AISResources) : a.db.foldl (record false) (a.re.foldl (record true) .empty) = a := by
  obtain ⟨hRe, hDb⟩ := record_regexps .empty a.re a.distinct
  have hAscending : Ascending ((a.re.foldl (record true) .empty).db ++ a.db) := by
    rw [hDb]
    exact a.ascending
  obtain ⟨hDb', hRe'⟩ := record_urls _ hAscending
  exact AISResources.ext_lists (hRe'.trans hRe) (hDb'.trans (by rw [hDb]; rfl))

/-- The root element, around what is in it. -/
theorem steps_document {body : List Tag} {ais : AISResources} {s : AISParserState}
    (h : Steps (body.flatMap Tag.events) { aisStartDocument ais with state := .ais } s) (hs : s.state = .ais) :
    Steps (documentOfBody body).events (aisStartDocument ais) (s.move .finish) := by
  have hStart (attrs : List (Word × Word)) : Steps [.startElement aisName attrs] (aisStartDocument ais)
      { aisStartDocument ais with state := .ais } := Steps.one fun line => rfl
  have hEnd : Steps [.endElement aisName] s (s.move .finish) := by
    apply Steps.one
    rintro line
    rw [callback]
    simp only [aisEndElement, hs]
  rw [Document.events, Document.tags, List.flatMap_cons, List.flatMap_append]
  exact (hStart _).append (h.append hEnd)

theorem read_of_steps {sax : Word → Report} (hSax : Standard prolog sax) {d : Document} (hLegal : d.legal = true)
    {ais : AISResources} {s : AISParserState} (h : Steps d.events (aisStartDocument ais) s)
    (hDepth : s.unknownDepth = 0)
    (hState : s.state ≠ .error) : ais.readDatabase sax (prolog ++ d.write) = .ok s.ais := by
  obtain ⟨hEvents, hWell, hValid⟩ := hSax.reports d hLegal
  have hEnd (line : Nat) : s.aisEndDocument line = s := if_neg (not_not.mpr hDepth)
  rw [AISResources.readDatabase]
  simp only [h _ hEvents, ok_bind, hEnd, hWell, hValid, hState, if_false, reduceCtorEq]

theorem read_ok {sax : Word → Report} {text : Word} {ais ais' : AISResources}
    (h : ais.readDatabase sax text = .ok ais') : (sax text).wellFormed = true ∧
      ∃ s, callbacks (sax text).events (aisStartDocument ais) = .ok s ∧ s.unknownDepth = 0 ∧ s.state ≠ .error ∧
        s.ais = ais' := by
  obtain ⟨s, hRun, h⟩ := bind_eq_ok h
  simp only at h
  split at h
  · cases h
  · rename_i hWell
    split at h
    · cases h
    · split at h
      · cases h
      · rename_i hState
        cases h
        have hDepth : s.unknownDepth = 0 := by
          by_contra hDepth
          rw [aisEndDocument, if_pos hDepth] at hState
          exact hState rfl
        rw [aisEndDocument, if_neg (not_not.mpr hDepth)] at hState
        refine ⟨by simpa using hWell, s, hRun, hDepth, hState, ?_⟩
        rw [aisEndDocument, if_neg (not_not.mpr hDepth)]

/-- A plain database is read back. -/
theorem read_plain {sax : Word → Report} (hSax : Standard prolog sax) {a : AISResources} (h : a.Plain) :
    AISResources.empty.readDatabase sax a.writeDatabase = .ok a := by
  obtain ⟨s₁, hRe, hState₁, hRv₁, hDepth₁, hAis₁⟩ := steps_entries
    (s := { aisStartDocument .empty with state := .ais }) rfl rfl true rfl
    fun e he => h e (List.mem_append_left a.db he)
  obtain ⟨s₂, hDb, hState₂, -, hDepth₂, hAis₂⟩ := steps_entries hState₁ hRv₁ false rfl
    fun e he => h e (List.mem_append_right a.re he)
  have hBody : Steps (a.body.flatMap Tag.events) { aisStartDocument .empty with state := .ais } s₂ := by
    rw [AISResources.body, List.flatMap_append]
    exact hRe.append hDb
  have hAis : s₂.ais = a := by
    rw [hAis₂, hAis₁]
    exact record_all a
  rw [← write_document, read_of_steps hSax (legal_document (legal_body h) (nested_of_inPlace (inPlace_body a)))
    (steps_document hBody hState₂) (hDepth₂.trans hDepth₁) (by simp [move])]
  exact congrArg Except.ok hAis

end Libdap.Ais
