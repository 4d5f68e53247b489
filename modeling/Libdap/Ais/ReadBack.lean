import Libdap.Ais.AISDatabaseParser
import Libdap.Ais.UnknownElements

/-! # Written and read again

In a file that is written, a literal is a value of the database or a part of one. The longest value that is not plain
would have to come from a longer one.
-/

namespace Libdap.Ais
open Core Constraint Xml AISParserState
set_option autoImplicit false

/-! ## The literals of a file -/

/-- The texts between one double quote and the next. -/
def candidates : Word → List Word
  | [] => []
  | c :: cs => if c = '"' ∧ '"' ∈ cs then cs.takeWhile (· ≠ '"') :: candidates cs else candidates cs

theorem isLiteral_candidate {text raw : Word} (hText : '\'' ∉ text) (h : IsLiteral text raw) :
    raw ∈ candidates text := by
  induction text with
  | nil =>
    obtain ⟨q, pre, post, -, hEmpty, -⟩ := h
    simp at hEmpty
  | cons c cs ih =>
    have hTail : '\'' ∉ cs := fun hMem => hText (List.mem_cons_of_mem _ hMem)
    obtain ⟨q, pre, post, hq, hEq, hRaw⟩ := h
    cases pre with
    | nil =>
      obtain ⟨rfl, rfl⟩ := List.cons.inj hEq
      obtain rfl | rfl := hq
      · rw [candidates, if_pos ⟨rfl, by simp⟩, takeWhile_quote hRaw.1]
        exact List.mem_cons_self
      · exact absurd List.mem_cons_self hText
    | cons d pre =>
      have hMem := ih hTail ⟨q, pre, post, hq, (List.cons.inj hEq).2, hRaw⟩
      rw [candidates]
      split
      · exact List.mem_cons_of_mem _ hMem
      · exact hMem

/-- A text of its own is plain wherever it is a literal. -/
theorem plain_of_candidates (text : Word) {raw : Word} (hText : '\'' ∉ text)
    (h : (candidates text).all (fun raw => raw.contains '<' || decide (Xml.Plain raw)) = true)
    (hRaw : IsLiteral text raw) :
    Xml.Plain raw := by
  have hMem := List.all_eq_true.mp h raw (isLiteral_candidate hText hRaw)
  obtain ⟨q, pre, post, -, -, -, hLt⟩ := hRaw
  simpa [hLt] using hMem

theorem prolog_literals : '\'' ∉ prolog ∧
    (candidates prolog).all (fun raw => raw.contains '<' || decide (Xml.Plain raw)) = true := by
  delta prolog
  exact of_literal (p := fun l => '\'' ∉ l ++ _ ∧ (candidates (l ++ _)).all _ = true) rfl
    (of_literal (p := fun l => '\'' ∉ _ ++ l ∧ (candidates (_ ++ l)).all _ = true) rfl (by decide))

/-- A tag behind its first character. -/
def inner (t : Tag) : Word := t.write.tail

theorem write_inner (t : Tag) : t.write = '<' :: inner t := by
  obtain ⟨kind, name, attrs, text⟩ := t
  cases kind <;> rfl

theorem isLiteral_tags {a raw : Word} {ts : List Tag} (h : IsLiteral (a ++ ts.flatMap Tag.write) raw) :
    IsLiteral a raw ∨ ∃ t ∈ ts, IsLiteral (inner t) raw := by
  induction ts generalizing a with
  | nil =>
    rw [List.flatMap_nil, List.append_nil] at h
    exact Or.inl h
  | cons t ts ih =>
    rw [List.flatMap_cons, write_inner, List.cons_append] at h
    obtain hBefore | hBehind := isLiteral_lt h
    · exact Or.inl hBefore
    · obtain hTag | ⟨u, hu, hTag⟩ := ih hBehind
      · exact Or.inr ⟨t, List.mem_cons_self, hTag⟩
      · exact Or.inr ⟨u, List.mem_cons_of_mem t hu, hTag⟩

/-- A literal that is plain, or the value, or a shorter part of it. -/
def FromValue (v raw : Word) : Prop := raw <:+: v ∧ (raw.length < v.length ∨ raw = v ∧ '"' ∉ v)

theorem literal_primaryTag {attr primary raw : Word} (hAttr : attr = regexpName ∨ attr = urlName)
    (h : IsLiteral (inner (primaryTag attr primary)) raw) : FromValue primary raw := by
  have hText : inner (primaryTag attr primary) =
      (primaryName ++ ' ' :: attr ++ ['=']) ++ '"' :: (primary ++ '"' :: ['/', '>', '\n']) := by
    simp [inner, primaryTag, Tag.write, attrText, newline]
  rw [hText] at h
  have hSkip : NoQuote (primaryName ++ ' ' :: attr ++ ['=']) := by
    obtain rfl | rfl := hAttr <;> decide
  exact isLiteral_value (by decide) (isLiteral_skip hSkip h)

theorem literal_url {url raw : Word}
    (h : IsLiteral (attrText (urlName, url) ++ '/' :: '>' :: newline) raw) : FromValue url raw := by
  have hText : attrText (urlName, url) ++ '/' :: '>' :: newline =
      (' ' :: (urlName ++ ['='])) ++ '"' :: (url ++ '"' :: ['/', '>', '\n']) := by
    simp [attrText, newline]
  rw [hText] at h
  have hSkip : NoQuote (' ' :: (urlName ++ ['='])) := by decide
  exact isLiteral_value (by decide) (isLiteral_skip hSkip h)

theorem literal_attr {name value behind raw : Word} (hName : NoQuote name) (hValue : NoQuote value)
    (h : IsLiteral (attrText (name, value) ++ behind) raw) :
    raw = value ∨ raw = behind.takeWhile (· ≠ '"') ∨ IsLiteral behind raw := by
  have hText : attrText (name, value) ++ behind = (' ' :: (name ++ ['='])) ++ '"' :: (value ++ '"' :: behind) := by
    simp [attrText]
  have hSkip : NoQuote (' ' :: (name ++ ['='])) := by
    obtain ⟨hDouble, hSingle⟩ := hName
    simp [NoQuote, hDouble, hSingle]
  rw [hText] at h
  obtain hRaw | hRest := isLiteral_quote (isLiteral_skip hSkip h)
  · rw [takeWhile_quote hValue.1] at hRaw
    exact Or.inl hRaw
  · exact Or.inr (isLiteral_quote (isLiteral_skip hValue hRest))

theorem literal_resourceTag {r : Resource} {raw : Word} (h : IsLiteral (inner (resourceTag r)) raw) :
    Xml.Plain raw ∨ FromValue r.url raw := by
  obtain ⟨url, rule⟩ := r
  have hName : NoQuote ancillaryName := by decide
  have hBetween : (attrText (urlName, url) ++ '/' :: '>' :: newline).takeWhile (· ≠ '"') = ' ' ::
      (urlName ++ ['=']) := by
    simp [attrText, urlName]
  have hText : inner (resourceTag ⟨url, rule⟩) = ancillaryName ++ ((ruleAttrs rule).flatMap attrText ++
      (attrText (urlName, url) ++ '/' :: '>' :: newline)) := by
    simp [inner, resourceTag, Tag.write]
  rw [hText] at h
  have hAttrs := isLiteral_skip hName h
  cases rule with
  | overwrite => exact Or.inr (literal_url hAttrs)
  | replace =>
    rw [ruleAttrs, List.flatMap_singleton] at hAttrs
    obtain rfl | rfl | hUrl := literal_attr (by decide) (by decide) hAttrs
    · exact Or.inl (by decide)
    · rw [hBetween]
      exact Or.inl (by decide)
    · exact Or.inr (literal_url hUrl)
  | fallback =>
    rw [ruleAttrs, List.flatMap_singleton] at hAttrs
    obtain rfl | rfl | hUrl := literal_attr (by decide) (by decide) hAttrs
    · exact Or.inl (by decide)
    · rw [hBetween]
      exact Or.inl (by decide)
    · exact Or.inr (literal_url hUrl)

/-- The primary resources and the URLs. -/
def AISResources.HasValue (a : AISResources) (v : Word) : Prop :=
  ∃ e ∈ a.re ++ a.db, v = e.1 ∨ ∃ r ∈ e.2, v = r.url

theorem literal_entryTags {attr : Word} (hAttr : attr = regexpName ∨ attr = urlName) {e : Entry} {t : Tag}
    (ht : t ∈ entryTags attr e) {raw : Word} (h : IsLiteral (inner t) raw) :
    Xml.Plain raw ∨ ∃ v, (v = e.1 ∨ ∃ r ∈ e.2, v = r.url) ∧ FromValue v raw := by
  have hStart : NoQuote (inner entryStart) := by decide
  have hStop : NoQuote (inner entryStop) := by decide
  simp only [entryTags, List.mem_cons, List.mem_append, List.mem_map, List.not_mem_nil, or_false] at ht
  obtain rfl | rfl | ⟨r, hr, rfl⟩ | rfl := ht
  · exact absurd h (not_isLiteral hStart)
  · exact Or.inr ⟨e.1, Or.inl rfl, literal_primaryTag hAttr h⟩
  · obtain hPlain | hUrl := literal_resourceTag h
    · exact Or.inl hPlain
    · exact Or.inr ⟨r.url, Or.inr ⟨r, hr, rfl⟩, hUrl⟩
  · exact absurd h (not_isLiteral hStop)

theorem literal_body {a : AISResources} {t : Tag} (ht : t ∈ a.body) {raw : Word} (h : IsLiteral (inner t) raw) :
    Xml.Plain raw ∨ ∃ v, a.HasValue v ∧ FromValue v raw := by
  obtain ht | ht := List.mem_append.mp ht
  · obtain ⟨e, he, ht⟩ := List.mem_flatMap.mp ht
    obtain hPlain | ⟨v, hv, hFrom⟩ := literal_entryTags (Or.inl rfl) ht h
    · exact Or.inl hPlain
    · exact Or.inr ⟨v, ⟨e, List.mem_append_left _ he, hv⟩, hFrom⟩
  · obtain ⟨e, he, ht⟩ := List.mem_flatMap.mp ht
    obtain hPlain | ⟨v, hv, hFrom⟩ := literal_entryTags (Or.inr rfl) ht h
    · exact Or.inl hPlain
    · exact Or.inr ⟨v, ⟨e, List.mem_append_right _ he, hv⟩, hFrom⟩

/-- The root element's start tag -/
def rootTag : Tag := ⟨.start, aisName, [("xmlns".toList, "http://xml.opendap.org/ais".toList)], newline⟩

theorem literal_database {a : AISResources} {raw : Word} (h : IsLiteral a.writeDatabase raw) :
    Xml.Plain raw ∨ ∃ v, a.HasValue v ∧ FromValue v raw := by
  rw [← write_document, Document.write] at h
  obtain hProlog | ⟨t, ht, hTag⟩ := isLiteral_tags h
  · exact Or.inl (plain_of_candidates prolog prolog_literals.1 prolog_literals.2 hProlog)
  · obtain rfl | ht := List.mem_cons.mp ht
    · exact Or.inl (plain_of_candidates (inner rootTag) (by decide) (by decide) hTag)
    · obtain ht | ht := List.mem_append.mp ht
      · exact literal_body ht hTag
      · obtain rfl := List.mem_singleton.mp ht
        have hStop : NoQuote (inner ⟨.stop, aisName, [], newline ++ newline⟩) := by decide
        exact absurd hTag (not_isLiteral hStop)

/-! ## Values that come back -/

theorem entry_part (attr : Word) {v : Word} {e : Entry} (h : v = e.1 ∨ ∃ r ∈ e.2, v = r.url) :
    ∃ t ∈ entryTags attr e, v <:+: t.write := by
  obtain rfl | ⟨r, hr, rfl⟩ := h
  · refine ⟨primaryTag attr e.1, by simp [entryTags], '<' :: (primaryName ++ ' ' :: (attr ++ ['=', '"'])),
      '"' :: '/' :: '>' :: newline, ?_⟩
    simp [primaryTag, Tag.write, attrText]
  · refine ⟨resourceTag r, ?_, '<' :: (ancillaryName ++ ((ruleAttrs r.rule).flatMap attrText ++
      ' ' :: (urlName ++ ['=', '"']))), '"' :: '/' :: '>' :: newline, ?_⟩
    · simp only [entryTags, List.mem_cons, List.mem_append, List.mem_map]
      exact Or.inr (Or.inr (Or.inl ⟨r, hr, rfl⟩))
    · simp [resourceTag, Tag.write, attrText]

theorem value_part {a : AISResources} {v : Word} (h : a.HasValue v) : v <:+: (documentOfBody a.body).write := by
  obtain ⟨e, he, hv⟩ := h
  have hTag : ∃ t ∈ a.body, v <:+: t.write := by
    obtain he | he := List.mem_append.mp he
    · obtain ⟨t, ht, hPart⟩ := entry_part regexpName hv
      exact ⟨t, List.mem_append_left _ (List.mem_flatMap.mpr ⟨e, he, ht⟩), hPart⟩
    · obtain ⟨t, ht, hPart⟩ := entry_part urlName hv
      exact ⟨t, List.mem_append_right _ (List.mem_flatMap.mpr ⟨e, he, ht⟩), hPart⟩
  obtain ⟨t, ht, hPart⟩ := hTag
  have hMem : t ∈ (documentOfBody a.body).tags := List.mem_cons_of_mem _ (List.mem_append_left _ ht)
  exact hPart.trans (infix_flatMap Tag.write hMem)

/-- A value that is not plain is shorter than another one. -/
theorem longer_value {a : AISResources} (hEncoded : ∀ v, a.HasValue v → ∀ c ∈ v, Encoded c)
    (hLiteral : ∀ v, a.HasValue v → v = [] ∨ ∃ raw, IsLiteral a.writeDatabase raw ∧ attValue none raw = some v)
    {v : Word} (hv : a.HasValue v) (hOther : ¬ Xml.Plain v) :
    ∃ w, a.HasValue w ∧ ¬ Xml.Plain w ∧ v.length < w.length := by
  obtain rfl | ⟨raw, hRaw, hValue⟩ := hLiteral v hv
  · exact absurd nofun hOther
  have hSame (hPlain : Xml.Plain raw) : False := by
    rw [attValue_plain hPlain] at hValue
    cases hValue
    exact hOther hPlain
  obtain hPlain | ⟨w, hw, ⟨before, behind, hPart⟩, hLength⟩ := literal_database hRaw
  · exact (hSame hPlain).elim
  refine ⟨w, hw, ?_, ?_⟩
  · rintro hPlain
    refine hSame fun c hc => hPlain c ?_
    rw [← hPart]
    exact List.mem_append_left _ (List.mem_append_right _ hc)
  · have hShort := attValue_length hValue
    obtain hLess | ⟨rfl, hQuote⟩ := hLength
    · omega
    -- The literal is the whole value: were the value that is read as long, nothing in it would have been referred to.
    · refine lt_of_le_of_ne hShort ?_
      rintro hEq
      apply hOther
      rintro c hc
      obtain rfl | ⟨hMem, hLt, hAmp, hTab, hLine, hReturn⟩ := attValue_same_length hValue hEq c hc
      · decide
      · obtain hBlank | hBlank | hBlank | ⟨hLow, hHigh⟩ := hEncoded _ hw c hMem
        · exact absurd hBlank hTab
        · exact absurd hBlank hLine
        · exact absurd hBlank hReturn
        · exact ⟨hLow, hHigh, hLt, hAmp, fun hChar => hQuote (hChar ▸ hMem)⟩

theorem plain_of_read {sax : Word → Report} (hSax : Standard prolog sax) {a : AISResources}
    (h : AISResources.empty.readDatabase sax a.writeDatabase = .ok a) : a.Plain := by
  obtain ⟨hWell, s, hRun, -, -, rfl⟩ := read_ok h
  have hText := write_document s.ais
  have hReported : Reported (fun v => v = [] ∨ ∃ raw, IsLiteral s.ais.writeDatabase raw ∧ attValue none raw = some v)
      ((sax s.ais.writeDatabase).events.map Prod.snd) := by
    rintro name attrs hMem b hb
    rw [← hText] at hWell hMem ⊢
    exact Or.inr (hSax.literal _ hWell name attrs hMem b hb)
  have hStart : Held (fun v => v = [] ∨ ∃ raw, IsLiteral s.ais.writeDatabase raw ∧ attValue none raw = some v)
      (aisStartDocument .empty) := ⟨nofun, nofun, Or.inl rfl, nofun⟩
  have hHeld := hStart.callbacks (Or.inl rfl) hReported hRun
  have hEntries := List.forall_mem_append.mpr ⟨hHeld.re, hHeld.db⟩
  have hLiteral : ∀ v, s.ais.HasValue v → v = [] ∨ ∃ raw, IsLiteral s.ais.writeDatabase raw ∧
      attValue none raw = some v := by
    rintro v ⟨e, he, rfl | ⟨r, hr, rfl⟩⟩
    · exact (hEntries e he).1
    · exact ((hEntries e he).2 r hr).2
  have hEncoded : ∀ v, s.ais.HasValue v → ∀ c ∈ v, Encoded c := by
    rintro v hv c hc
    rw [← hText] at hWell
    exact hSax.encoded _ hWell c ((value_part hv).subset hc)
  have hPlain : ∀ v, s.ais.HasValue v → Xml.Plain v := by
    rintro v hv
    by_contra hOther
    have hLong : ∀ n : Nat, ∃ w, s.ais.HasValue w ∧ ¬ Xml.Plain w ∧ n ≤ w.length := by
      rintro n
      induction n with
      | zero => exact ⟨v, hv, hOther, Nat.zero_le _⟩
      | succ n ih =>
        obtain ⟨w, hw, hNot, hLength⟩ := ih
        obtain ⟨w', hw', hNot', hLonger⟩ := longer_value hEncoded hLiteral hw hNot
        exact ⟨w', hw', hNot', by omega⟩
    obtain ⟨w, hw, -, hLength⟩ := hLong ((documentOfBody s.ais.body).write.length + 1)
    have := (value_part hw).length_le
    omega
  rintro e he
  exact ⟨hPlain _ ⟨e, he, Or.inl rfl⟩, fun r hr => ⟨((hEntries e he).2 r hr).1, hPlain _ ⟨e, he, Or.inr ⟨r, hr, rfl⟩⟩⟩⟩

theorem filled_not_read {sax : Word → Report} (hSax : Standard prolog sax) {a : AISResources} (hPlain : a.Plain)
    {gaps : List (List Tag)} (hGaps : Inserted [] gaps a.body) {gap : List Tag} (hMem : gap ∈ gaps) (hGap : gap ≠ []) :
    AISResources.empty.readDatabase sax (prolog ++ (documentOfBody (fill gaps a.body)).write) ≠ .ok a := by
  intro hFilled
  obtain ⟨-, s, hRun, hDepth, hState, -⟩ := read_ok hFilled
  obtain ⟨hEvents, -, -⟩ := hSax.reports _ (legal_filled hPlain hGaps)
  obtain ⟨⟨line, e⟩, ns, hNs, hRoot, hRest⟩ := List.map_eq_cons_iff.mp hEvents
  obtain rfl : e = .startElement aisName _ := hRoot
  rw [hNs] at hRun
  obtain ⟨s₁, hFirst, hRun⟩ := bind_eq_ok hRun
  cases hFirst
  obtain hError | hCount := unknown_not_read (inPlace_body a) hGaps ⟨gap, hMem, hGap⟩ rfl rfl
    rfl hRest hRun
  · exact hState hError
  · exact hCount hDepth

/-- A database and the elements that are inserted into its file: reading gives the database, with the elements and without,
exactly for a database whose strings are plain, and for no elements at all. -/
theorem read_back_iff {sax : Word → Report} (hSax : Standard prolog sax) (a : AISResources) (gaps : List (List Tag))
    (hGaps : Inserted [] gaps a.body) :
    (AISResources.empty.readDatabase sax a.writeDatabase = .ok a ∧
      AISResources.empty.readDatabase sax (prolog ++ (documentOfBody (fill gaps a.body)).write) = .ok a) ↔
    a.Plain ∧ ∀ gap ∈ gaps, gap = [] := by
  constructor
  · rintro ⟨hRead, hFilled⟩
    have hPlain := plain_of_read hSax hRead
    refine ⟨hPlain, ?_⟩
    by_contra hSome
    simp only [not_forall] at hSome
    obtain ⟨gap, hMem, hGap⟩ := hSome
    exact filled_not_read hSax hPlain hGaps hMem hGap hFilled
  · rintro ⟨hPlain, hEmpty⟩
    refine ⟨read_plain hSax hPlain, ?_⟩
    rw [fill_empty hEmpty, write_document]
    exact read_plain hSax hPlain

/-- One resource for a URL, and two for a regular expression. -/
def sample : AISResources :=
  ((AISResources.empty.addUrlResource "http://x.org/a.nc".toList [⟨"a.das".toList, .fallback⟩]).addRegexpResource
    ".*\\.nc".toList [⟨"b.das".toList, .overwrite⟩]).addRegexpResource ".*\\.nc".toList [⟨"c's.das".toList, .replace⟩]

def note : Tag := ⟨.empty, "note".toList, [], newline⟩

theorem unknown_note (parent : Word) (h : parent = aisName ∨ parent = entryName) : Unknown parent [note] := by
  obtain rfl | rfl := h <;> exact ⟨by decide, by decide, by decide⟩

theorem sample_read_back :
    AISResources.empty.readDatabase (Xml.scan prolog) sample.writeDatabase = .ok sample ∧
    AISResources.empty.readDatabase (Xml.scan prolog) (prolog ++ (documentOfBody (fill [[]] sample.body)).write) =
      .ok sample :=
  (read_back_iff (Xml.scan_standard prolog) sample [[]] ⟨⟨nofun, rfl, rfl⟩, trivial⟩).mpr
    ⟨by decide, by decide⟩

def withAmpersand : AISResources := AISResources.empty.addUrlResource "http://x.org/a?b&c".toList
    [⟨"a.das".toList, .replace⟩]

/-- One element in front of the first entry, and one ampersand in a URL. -/
theorem note_and_ampersand_refused :
    (Inserted [] [[note]] sample.body ∧
      AISResources.empty.readDatabase (Xml.scan prolog) (prolog ++ (documentOfBody (fill [[note]] sample.body)).write) ≠
        .ok sample) ∧
    AISResources.empty.readDatabase (Xml.scan prolog) withAmpersand.writeDatabase ≠ .ok withAmpersand := by
  have hNote : Inserted [] [[note]] sample.body := ⟨unknown_note _ (Or.inl rfl), trivial⟩
  refine ⟨⟨hNote, ?_⟩, ?_⟩
  · exact filled_not_read (Xml.scan_standard prolog) (by decide) hNote List.mem_cons_self (List.cons_ne_nil _ _)
  · intro hRead
    exact absurd (plain_of_read (Xml.scan_standard prolog) hRead) (by decide)

end Libdap.Ais
