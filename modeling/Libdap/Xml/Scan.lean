import Libdap.Xml.Document

/-! # A parser of legal documents

It takes the text apart without looking at what it is, and reports the tags when they are those of a legal document with
this text.
-/

namespace Libdap.Xml
set_option autoImplicit false

def scanAttrs : Nat → List Char → List (List Char × List Char) × List Char
  | fuel + 1, ' ' :: cs =>
    match cs.dropWhile (· ≠ '=') with
    | '=' :: '"' :: r =>
      let rest := scanAttrs fuel (r.dropWhile (· ≠ '"')).tail
      ((cs.takeWhile (· ≠ '='), r.takeWhile (· ≠ '"')) :: rest.1, rest.2)
    | _ => ([], ' ' :: cs)
  | _, cs => ([], cs)

def scanTag : List Char → Option (Tag × List Char)
  | '<' :: '/' :: cs =>
    match cs.dropWhile nameChar with
    | '>' :: r => some (⟨.stop, cs.takeWhile nameChar, [], r.takeWhile (· ≠ '<')⟩, r.dropWhile (· ≠ '<'))
    | _ => none
  | '<' :: cs =>
    let attrs := scanAttrs cs.length (cs.dropWhile nameChar)
    match attrs.2 with
    | '>' :: r => some (⟨.start, cs.takeWhile nameChar, attrs.1, r.takeWhile (· ≠ '<')⟩, r.dropWhile (· ≠ '<'))
    | '/' :: '>' :: r => some (⟨.empty, cs.takeWhile nameChar, attrs.1, r.takeWhile (· ≠ '<')⟩, r.dropWhile (· ≠ '<'))
    | _ => none
  | _ => none

def scanTags : Nat → List Char → List Tag
  | 0, _ => []
  | fuel + 1, cs =>
    match scanTag cs with
    | none => []
    | some (t, rest) => t :: scanTags fuel rest

def documentOf (tags : List Tag) : Option Document := do
  let first ← tags.head?
  let last ← tags.getLast?
  some ⟨first.name, first.attrs, first.text, tags.tail.dropLast, last.text⟩

/-- The events of the tags, with the lines that they start on. -/
def numbered (line : Nat) : List Tag → List (Nat × Event)
  | [] => []
  | t :: ts => t.events.map (line, ·) ++ numbered (line + t.write.count '\n') ts

def scan (prolog text : List Char) : Report :=
  match documentOf (scanTags text.length (text.drop prolog.length)) with
  | none => ⟨[], 1, false, true⟩
  | some d =>
    if d.legal ∧ text = prolog ++ d.write then
      ⟨numbered (1 + prolog.count '\n') d.tags, 1 + text.count '\n', true, true⟩
    else ⟨[], 1, false, true⟩

/-! ## What is written is scanned -/

theorem numbered_events (line : Nat) (tags : List Tag) : (numbered line tags).map Prod.snd =
    tags.flatMap Tag.events := by
  induction tags generalizing line with
  | nil => rfl
  | cons t ts ih =>
    rw [numbered, List.map_append, ih, List.flatMap_cons, List.map_map]
    exact congrArg (· ++ ts.flatMap Tag.events) (List.map_id t.events)

theorem takeWhile_before {p : Char → Bool} {a : List Char} (h : ∀ c ∈ a, p c = true) {d : Char} (hd : p d = false)
    (b : List Char) : (a ++ d :: b).takeWhile p = a := by
  rw [List.takeWhile_append_of_pos h, List.takeWhile_cons_of_neg (by simp [hd]), List.append_nil]

theorem dropWhile_before {p : Char → Bool} {a : List Char} (h : ∀ c ∈ a, p c = true) {d : Char} (hd : p d = false)
    (b : List Char) : (a ++ d :: b).dropWhile p = d :: b := by
  rw [List.dropWhile_append_of_pos h, List.dropWhile_cons_of_neg (by simp [hd])]

theorem nameChar_of_legal {name : List Char} (h : legalName name = true) : ∀ c ∈ name, nameChar c = true :=
  List.all_eq_true.mp (Bool.and_eq_true_iff.mp h).2

theorem legalAttr_name {a : List Char × List Char} (h : legalAttr a = true) : ∀ c ∈ a.1, nameChar c = true := by
  rw [legalAttr, Bool.and_eq_true, Bool.and_eq_true] at h
  exact nameChar_of_legal h.1.1

theorem legalAttr_literal {a : List Char × List Char} (h : legalAttr a = true) :
    '"' ∉ a.2 ∧ '<' ∉ a.2 ∧ (∀ c ∈ a.2, Encoded c) ∧ ∃ w, attValue none a.2 = some w := by
  simp only [legalAttr, legalLiteral, Bool.and_eq_true, Bool.not_eq_true', List.contains_eq_mem,
    decide_eq_false_iff_not,
    List.all_eq_true, decide_eq_true_eq, Option.isSome_iff_exists] at h
  exact ⟨h.2.1.1.1, h.2.1.1.2, h.2.1.2, h.2.2⟩

theorem scanAttrs_write {attrs : List (List Char × List Char)} (hLegal : ∀ a ∈ attrs, legalAttr a = true)
    (rest : List Char) (hRest : rest.head? ≠ some ' ') {fuel : Nat} (hFuel : attrs.length ≤ fuel) :
    scanAttrs fuel (attrs.flatMap attrText ++ rest) = (attrs, rest) := by
  induction attrs generalizing fuel with
  | nil =>
    rw [List.flatMap_nil, List.nil_append]
    unfold scanAttrs
    split
    · exact absurd rfl hRest
    · rfl
  | cons a attrs ih =>
    obtain ⟨hAttr, hAttrs⟩ := List.forall_mem_cons.mp hLegal
    cases fuel with
    | zero => exact absurd hFuel (by simp)
    | succ fuel =>
      have hText : (a :: attrs).flatMap attrText ++ rest =
          ' ' :: (a.1 ++ '=' :: ('"' :: (a.2 ++ '"' :: (attrs.flatMap attrText ++ rest)))) := by
        simp [attrText]
      have hName : ∀ c ∈ a.1, decide (c ≠ '=') = true := by
        rintro c hc
        apply decide_eq_true
        rintro rfl
        exact absurd (legalAttr_name hAttr _ hc) (by decide)
      have hValue : ∀ c ∈ a.2, decide (c ≠ '"') = true := by
        rintro c hc
        exact decide_eq_true (ne_of_mem_of_not_mem hc (legalAttr_literal hAttr).1)
      have hQuote : decide ('"' ≠ '"') = false := by decide
      rw [hText, scanAttrs, dropWhile_before hName (by decide), takeWhile_before hName (by decide)]
      simp only [dropWhile_before hValue hQuote, takeWhile_before hValue hQuote, List.tail_cons,
        ih hAttrs (Nat.le_of_succ_le_succ hFuel)]

theorem legalText_lt {text : List Char} (h : legalText text = true) : ∀ c ∈ text, decide (c ≠ '<') = true := by
  rintro c hc
  have := decide_eq_true_eq.mp (List.all_eq_true.mp h c hc)
  exact decide_eq_true this.2.1

/-- What follows a tag is the next one, or nothing. -/
def Follows (rest : List Char) : Prop := rest = [] ∨ ∃ cs, rest = '<' :: cs

theorem takeWhile_text {text rest : List Char} (hText : legalText text = true) (hRest : Follows rest) :
    (text ++ rest).takeWhile (· ≠ '<') = text ∧ (text ++ rest).dropWhile (· ≠ '<') = rest := by
  obtain rfl | ⟨cs, rfl⟩ := hRest
  · rw [List.append_nil, List.takeWhile_eq_self_iff, List.dropWhile_eq_nil_iff]
    exact ⟨legalText_lt hText, legalText_lt hText⟩
  · exact ⟨takeWhile_before (legalText_lt hText) (by decide) cs, dropWhile_before (legalText_lt hText) (by decide) cs⟩

theorem length_flatMap {α β : Type} {f : α → List β} {l : List α} (h : ∀ a ∈ l, 1 ≤ (f a).length) :
    l.length ≤ (l.flatMap f).length := by
  induction l with
  | nil => exact Nat.le_refl 0
  | cons a l ih =>
    obtain ⟨hFirst, hRest⟩ := List.forall_mem_cons.mp h
    have := ih hRest
    simp only [List.flatMap_cons, List.length_cons, List.length_append]
    omega

theorem attrs_cons (attrs : List (List Char × List Char)) {d : Char} (hd : nameChar d = false) (rest : List Char) :
    ∃ e cs, attrs.flatMap attrText ++ d :: rest = e :: cs ∧ nameChar e = false := by
  cases attrs with
  | nil => exact ⟨d, rest, rfl, hd⟩
  | cons a attrs => exact ⟨' ', _, rfl, by decide⟩

/-- The name of a start tag, and its attributes. -/
theorem scanTag_start {name : List Char} (hName : legalName name = true) {attrs : List (List Char × List Char)}
    (hAttrs : ∀ a ∈ attrs, legalAttr a = true) {d : Char} (hd : nameChar d = false) (hBlank : d ≠ ' ')
    (rest : List Char) :
    scanTag ('<' :: (name ++ (attrs.flatMap attrText ++ d :: rest))) =
      match d :: rest with
      | '>' :: r => some (⟨.start, name, attrs, r.takeWhile (· ≠ '<')⟩, r.dropWhile (· ≠ '<'))
      | '/' :: '>' :: r => some (⟨.empty, name, attrs, r.takeWhile (· ≠ '<')⟩, r.dropWhile (· ≠ '<'))
      | _ => none := by
  have hChars := nameChar_of_legal hName
  obtain ⟨e, cs, hTail, he⟩ := attrs_cons attrs hd rest
  have hTake : (name ++ (attrs.flatMap attrText ++ d :: rest)).takeWhile nameChar = name := by
    rw [hTail, takeWhile_before hChars he]
  have hDrop : (name ++ (attrs.flatMap attrText ++ d :: rest)).dropWhile nameChar =
      attrs.flatMap attrText ++ d :: rest := by
    rw [hTail, dropWhile_before hChars he]
  have hFuel : attrs.length ≤ (name ++ (attrs.flatMap attrText ++ d :: rest)).length := by
    have := length_flatMap (f := attrText) (l := attrs) (by simp [attrText])
    simp only [List.length_append]
    omega
  have hScan := scanAttrs_write hAttrs (d :: rest) (by simpa using hBlank) hFuel
  cases name with
  | nil => cases hName
  | cons c name =>
    have hSlash : c ≠ '/' := by
      rintro rfl
      exact absurd (hChars _ List.mem_cons_self) (by decide)
    rw [List.cons_append] at hTake hDrop hScan ⊢
    rw [scanTag]
    · simp only [hTake, hDrop, hScan]
    · exact fun cs h => hSlash (List.cons.inj h).1

theorem scanTag_write {t : Tag} (h : t.legal = true) {rest : List Char} (hRest : Follows rest) :
    scanTag (t.write ++ rest) = some (t, rest) := by
  obtain ⟨kind, name, attrs, text⟩ := t
  simp only [Tag.legal, Bool.and_eq_true, List.all_eq_true] at h
  obtain ⟨⟨⟨⟨hName, hAttrs⟩, -⟩, hText⟩, hKind⟩ := h
  obtain ⟨hTake, hDrop⟩ := takeWhile_text hText hRest
  cases kind with
  | start =>
    have hTag := scanTag_start hName hAttrs (d := '>') (by decide) (by decide) (text ++ rest)
    simp only [hTake, hDrop] at hTag
    simpa [Tag.write] using hTag
  | empty =>
    have hTag := scanTag_start hName hAttrs (d := '/') (by decide) (by decide) ('>' :: (text ++ rest))
    simp only [hTake, hDrop] at hTag
    simpa [Tag.write] using hTag
  | stop =>
    have hChars := nameChar_of_legal hName
    obtain rfl : attrs = [] := by simpa using hKind
    have hWrite : Tag.write ⟨.stop, name, [], text⟩ ++ rest = '<' :: '/' :: (name ++ '>' :: (text ++ rest)) := by
      simp [Tag.write]
    rw [hWrite, scanTag, dropWhile_before hChars (by decide), takeWhile_before hChars (by decide)]
    simp only [hTake, hDrop]

theorem follows_write (ts : List Tag) : Follows (ts.flatMap Tag.write) := by
  cases ts with
  | nil => exact Or.inl rfl
  | cons t ts =>
    obtain ⟨kind, name, attrs, text⟩ := t
    cases kind <;> exact Or.inr ⟨_, rfl⟩

theorem scanTags_write {ts : List Tag} (h : ∀ t ∈ ts, t.legal = true) {fuel : Nat} (hFuel : ts.length ≤ fuel) :
    scanTags fuel (ts.flatMap Tag.write) = ts := by
  induction ts generalizing fuel with
  | nil => cases fuel <;> rfl
  | cons t ts ih =>
    obtain ⟨hTag, hTags⟩ := List.forall_mem_cons.mp h
    cases fuel with
    | zero => exact absurd hFuel (by simp)
    | succ fuel =>
      rw [List.flatMap_cons, scanTags, scanTag_write hTag (follows_write ts)]
      simp only [ih hTags (Nat.le_of_succ_le_succ hFuel)]

theorem length_write (t : Tag) : 1 ≤ t.write.length := by
  obtain ⟨kind, name, attrs, text⟩ := t
  cases kind <;> simp [Tag.write]

theorem documentOf_tags (d : Document) : documentOf d.tags = some d := by
  have hLast : d.tags.getLast? = some ⟨.stop, d.root, [], d.tail⟩ := by
    rw [Document.tags, ← List.cons_append, List.getLast?_append]
    rfl
  rw [documentOf, hLast]
  simp [Document.tags]

theorem tags_legal {d : Document} (h : d.legal = true) : ∀ t ∈ d.tags, t.legal = true := by
  simp only [Document.legal, Bool.and_eq_true, List.all_eq_true] at h
  exact h.1.1

theorem scan_write {prolog : List Char} {d : Document} (h : d.legal = true) :
    scan prolog (prolog ++ d.write) =
      ⟨numbered (1 + prolog.count '\n') d.tags, 1 + (prolog ++ d.write).count '\n', true, true⟩ := by
  have hTags := tags_legal h
  have hFuel : d.tags.length ≤ (prolog ++ d.write).length := by
    have := length_flatMap (f := Tag.write) (l := d.tags) fun t _ => length_write t
    rw [List.length_append, Document.write]
    omega
  have hScan : documentOf (scanTags (prolog ++ d.write).length ((prolog ++ d.write).drop prolog.length)) = some d := by
    have hText : scanTags (prolog ++ d.write).length d.write = d.tags := scanTags_write hTags hFuel
    rw [List.drop_left, hText, documentOf_tags]
  rw [scan, hScan]
  simp only [h, and_self, if_true]

/-- A report of a text that is well formed is that of a legal document with this text. -/
theorem scan_wellFormed {prolog text : List Char} (h : (scan prolog text).wellFormed = true) :
    ∃ d : Document, d.legal = true ∧ text = prolog ++ d.write ∧ (scan prolog text).events.map Prod.snd = d.events := by
  rw [scan] at h ⊢
  cases hScan : documentOf (scanTags text.length (text.drop prolog.length)) with
  | none =>
    rw [hScan] at h
    cases h
  | some d =>
    simp only [hScan] at h ⊢
    split at h
    · rename_i hLegal
      rw [if_pos hLegal]
      exact ⟨d, hLegal.1, hLegal.2, numbered_events _ _⟩
    · cases h

theorem IsLiteral.of_part {part text raw : List Char} (h : IsLiteral part raw) (hPart : part <:+: text) :
    IsLiteral text raw := by
  obtain ⟨q, pre, post, hq, rfl, hRaw⟩ := h
  obtain ⟨before, behind, rfl⟩ := hPart
  exact ⟨q, before ++ pre, post ++ behind, hq, by simp, hRaw⟩

theorem infix_flatMap {α β : Type} (f : α → List β) {l : List α} {a : α} (h : a ∈ l) : f a <:+: l.flatMap f := by
  obtain ⟨before, behind, rfl⟩ := List.append_of_mem h
  exact ⟨before.flatMap f, behind.flatMap f, by simp⟩

theorem attrs_part {t : Tag} (h : t.legal = true) : t.attrs.flatMap attrText <:+: t.write := by
  obtain ⟨kind, name, attrs, text⟩ := t
  cases kind with
  | start => exact ⟨'<' :: name, '>' :: text, by simp [Tag.write]⟩
  | empty => exact ⟨'<' :: name, '/' :: '>' :: text, by simp [Tag.write]⟩
  | stop =>
    obtain rfl : attrs = [] := by simpa [Tag.legal] using (Bool.and_eq_true_iff.mp h).2
    exact List.nil_infix

theorem legal_attrs {t : Tag} (h : t.legal = true) : ∀ a ∈ t.attrs, legalAttr a = true := by
  simp only [Tag.legal, Bool.and_eq_true, List.all_eq_true] at h
  exact h.1.1.1.2

theorem isLiteral_attr {t : Tag} (h : t.legal = true) {a : List Char × List Char} (ha : a ∈ t.attrs) :
    IsLiteral t.write a.2 := by
  obtain ⟨hQuote, hLt, -⟩ := legalAttr_literal (legal_attrs h a ha)
  have hAttr : IsLiteral (attrText a) a.2 :=
    ⟨'"', ' ' :: (a.1 ++ ['=']), [], Or.inl rfl, by simp [attrText], hQuote, hLt⟩
  exact hAttr.of_part ((infix_flatMap attrText ha).trans (attrs_part h))

theorem encoded_between {a b c : Char} (ha : 32 ≤ a.toNat) (hb : b.toNat < 128) (h : a ≤ c ∧ c ≤ b) : Encoded c :=
  Or.inr (Or.inr (Or.inr ⟨Nat.le_trans ha h.1, Nat.lt_of_le_of_lt h.2 hb⟩))

theorem encoded_nameChar {c : Char} (h : nameChar c = true) : Encoded c := by
  simp only [nameChar, nameStart, Bool.or_eq_true, Bool.and_eq_true, decide_eq_true_eq] at h
  obtain ((((((h | h) | rfl) | rfl) | h) | rfl) | rfl) := h
  · exact encoded_between (by decide) (by decide) h
  · exact encoded_between (by decide) (by decide) h
  · decide
  · decide
  · exact encoded_between (by decide) (by decide) h
  · decide
  · decide

theorem encoded_attrs {attrs : List (List Char × List Char)} (h : ∀ a ∈ attrs, legalAttr a = true) :
    ∀ c ∈ attrs.flatMap attrText, Encoded c := by
  rintro c hc
  obtain ⟨a, ha, hc⟩ := List.mem_flatMap.mp hc
  simp only [attrText, List.mem_cons, List.mem_append, List.not_mem_nil, or_false] at hc
  obtain rfl | hc | rfl | rfl | hc | rfl := hc
  · decide
  · exact encoded_nameChar (legalAttr_name (h a ha) c hc)
  · decide
  · decide
  · exact (legalAttr_literal (h a ha)).2.2.1 c hc
  · decide

theorem encoded_write {t : Tag} (h : t.legal = true) : ∀ c ∈ t.write, Encoded c := by
  have hAttrs := encoded_attrs (legal_attrs h)
  obtain ⟨kind, name, attrs, text⟩ := t
  simp only [Tag.legal, Bool.and_eq_true] at h
  have hName := nameChar_of_legal h.1.1.1.1
  have hText : ∀ c ∈ text, Encoded c := fun c hc =>
    (decide_eq_true_eq.mp (List.all_eq_true.mp h.1.2 c hc)).1
  rintro c hc
  have hOther : c ∈ name ∨ c ∈ attrs.flatMap attrText ∨ c ∈ text ∨ c = '<' ∨ c = '/' ∨ c = '>' := by
    cases kind <;>
      simp only [Tag.write, List.mem_cons, List.mem_append] at hc <;> tauto
  obtain hc | hc | hc | rfl | rfl | rfl := hOther
  · exact encoded_nameChar (hName c hc)
  · exact hAttrs c hc
  · exact hText c hc
  · decide
  · decide
  · decide

/-- The attributes of a legal document are reported with the values of its literals. -/
theorem events_literal {d : Document} (h : d.legal = true) {name : List Char} {attrs : List (List Char × List Char)}
    (hEvent : Event.startElement name attrs ∈ d.events) :
    ∀ a ∈ attrs, ∃ raw, IsLiteral d.write raw ∧ attValue none raw = some a.2 := by
  obtain ⟨t, ht, hEvent⟩ := List.mem_flatMap.mp hEvent
  have hLegal := tags_legal h t ht
  have hValues : attrs = t.values := by
    rw [Tag.events] at hEvent
    cases hKind : t.kind <;> simp only [hKind, List.mem_cons, List.not_mem_nil, or_false] at hEvent
    · cases hEvent
      rfl
    · cases hEvent
    · obtain hEvent | hEvent := hEvent
      · cases hEvent
        rfl
      · cases hEvent
  rintro a ha
  rw [hValues] at ha
  obtain ⟨b, hb, rfl⟩ := List.mem_map.mp ha
  obtain ⟨-, -, -, w, hw⟩ := legalAttr_literal (legal_attrs hLegal b hb)
  exact ⟨b.2, (isLiteral_attr hLegal hb).of_part (infix_flatMap Tag.write ht), by rw [hw]; rfl⟩

theorem scan_standard (prolog : List Char) : Standard prolog (scan prolog) where
  reports d hLegal := by
    rw [scan_write hLegal]
    exact ⟨numbered_events _ _, rfl, rfl⟩
  literal rest hWell name attrs hEvent a ha := by
    obtain ⟨d, hLegal, hText, hEvents⟩ := scan_wellFormed hWell
    rw [hEvents] at hEvent
    obtain ⟨raw, hRaw, hValue⟩ := events_literal hLegal hEvent a ha
    rw [hText]
    exact ⟨raw, hRaw.of_part (List.suffix_append prolog d.write).isInfix, hValue⟩
  encoded rest hWell c hc := by
    obtain ⟨d, hLegal, hText, -⟩ := scan_wellFormed hWell
    rw [List.append_cancel_left hText] at hc
    obtain ⟨t, ht, hc⟩ := List.mem_flatMap.mp hc
    exact encoded_write (tags_legal hLegal t ht) c hc

end Libdap.Xml
