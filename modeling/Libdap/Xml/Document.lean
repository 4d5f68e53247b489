import Mathlib.Data.List.Infix
import Mathlib.Data.List.TakeWhile

/-! # XML documents and what a SAX parser reports of them

A document is the flat list of its tags, each with the character data behind it. A parser may report of a document
what it likes as long as it is `Standard`: it reports the tags of a legal document in their order, and no attribute
value that is not the value of a literal of the text.
-/

namespace Libdap.Xml
set_option autoImplicit false

/-! ## Attribute values -/

/-- The characters of a document in US-ASCII. -/
def Encoded (c : Char) : Prop := c = '\t' ∨ c = '\n' ∨ c = '\r' ∨ (32 ≤ c.toNat ∧ c.toNat < 128)

instance (c : Char) : Decidable (Encoded c) := inferInstanceAs (Decidable (_ ∨ _))

def digit (base : Nat) (c : Char) : Option Nat :=
  let v := if '0' ≤ c ∧ c ≤ '9' then c.toNat - 48
    else if 'a' ≤ c ∧ c ≤ 'f' then c.toNat - 87
    else if 'A' ≤ c ∧ c ≤ 'F' then c.toNat - 55 else base
  if v < base then some v else none

def numeral (base : Nat) (ds : List Char) : Option Nat :=
  if ds.isEmpty then none else ds.foldlM (fun n d => (digit base d).map (n * base + ·)) 0

/-- The characters that a document may have. -/
def charOf (n : Nat) : Option Char :=
  if n = 9 ∨ n = 10 ∨ n = 13 ∨ (32 ≤ n ∧ n ≤ 55295) ∨ (57344 ≤ n ∧ n ≤ 65533) ∨ (65536 ≤ n ∧ n ≤ 1114111)
  then some (Char.ofNat n) else none

/-- What stands for the text between `&` and `;`. -/
def reference : List Char → Option Char
  | '#' :: 'x' :: ds => numeral 16 ds >>= charOf
  | '#' :: ds => numeral 10 ds >>= charOf
  | ['l', 't'] => some '<'
  | ['g', 't'] => some '>'
  | ['a', 'm', 'p'] => some '&'
  | ['q', 'u', 'o', 't'] => some '"'
  | ['a', 'p', 'o', 's'] => some '\''
  | _ => none

/-- A white space character of a literal is a blank of its value. -/
def blank (c : Char) : Char := if c = '\t' ∨ c = '\n' ∨ c = '\r' then ' ' else c

/-- The value of a literal, outside of a reference or behind the name of one so far. -/
def attValue : Option (List Char) → List Char → Option (List Char)
  | none, [] => some []
  | some _, [] => none
  | none, c :: cs =>
    if c = '<' then none
    else if c = '&' then attValue (some []) cs
    else if c = '\r' ∧ cs.head? = some '\n' then attValue none cs
    else (attValue none cs).map (blank c :: ·)
  | some name, c :: cs =>
    if c = ';' then
      match reference name with
      | some d => (attValue none cs).map (d :: ·)
      | none => none
    else attValue (some (name ++ [c])) cs

attribute [local grind =] attValue

example : attValue none "a&amp;b&#65;\tc".toList = some "a&bA c".toList := by decide

/-- A text that is its own value between double quotes. -/
def Plain (v : List Char) : Prop := ∀ c ∈ v, 32 ≤ c.toNat ∧ c.toNat < 128 ∧ c ≠ '<' ∧ c ≠ '&' ∧ c ≠ '"'

instance (v : List Char) : Decidable (Plain v) := List.decidableBAll _ v

theorem blank_of_printable {c : Char} (h : 32 ≤ c.toNat) : blank c = c := by
  apply if_neg
  rintro (rfl | rfl | rfl) <;> exact absurd h (by decide)

theorem attValue_plain {v : List Char} (h : Plain v) : attValue none v = some v := by
  induction v with
  | nil => rfl
  | cons c cs ih =>
    obtain ⟨⟨hLow, -, hLt, hAmp, -⟩, hRest⟩ := List.forall_mem_cons.mp h
    have hReturn : c ≠ '\r' := by
      rintro rfl
      exact absurd hLow (by decide)
    simp only [attValue, hLt, hAmp, hReturn, false_and, if_false, ih hRest, blank_of_printable hLow, Option.map_some]

theorem attValue_length {name : Option (List Char)} {raw w : List Char} (h : attValue name raw = some w) :
    w.length ≤ raw.length := by
  induction name, raw using attValue.induct generalizing w with
  | case1 => cases h; exact Nat.le_refl 0
  | case2 => cases h
  | case3 => cases h
  | case4 cs hLt ih =>
    exact Nat.le_succ_of_le (ih h)
  | case5 c cs hLt hAmp hLine ih =>
    rw [attValue, if_neg hLt, if_neg hAmp, if_pos hLine] at h
    exact Nat.le_succ_of_le (ih h)
  | case6 c cs hLt hAmp hLine ih =>
    simp only [attValue, hLt, hAmp, hLine, if_false] at h
    obtain ⟨w, hRest, rfl⟩ := Option.map_eq_some_iff.mp h
    exact Nat.succ_le_succ (ih hRest)
  | case7 name cs d hRef ih =>
    simp only [attValue, hRef, if_true] at h
    obtain ⟨w, hRest, rfl⟩ := Option.map_eq_some_iff.mp h
    exact Nat.succ_le_succ (ih hRest)
  | case8 name cs hRef =>
    simp only [attValue, hRef, if_true] at h
    cases h
  | case9 name c cs hEnd ih =>
    simp only [attValue, hEnd, if_false] at h
    exact Nat.le_succ_of_le (ih h)

/-- A value as long as its literal has no character that was referred to. -/
theorem attValue_same_length {raw w : List Char} (h : attValue none raw = some w) (hLength : w.length = raw.length) :
    ∀ c ∈ w, c = ' ' ∨ (c ∈ raw ∧ c ≠ '<' ∧ c ≠ '&' ∧ c ≠ '\t' ∧ c ≠ '\n' ∧ c ≠ '\r') := by
  induction raw generalizing w with
  | nil =>
    cases h
    exact nofun
  | cons c cs ih =>
    rw [attValue] at h
    split at h
    · cases h
    · split at h
      · have := attValue_length h
        rw [hLength, List.length_cons] at this
        omega
      · split at h
        · have := attValue_length h
          rw [hLength, List.length_cons] at this
          omega
        · obtain ⟨w, hRest, rfl⟩ := Option.map_eq_some_iff.mp h
          rintro d hd
          rcases List.mem_cons.mp hd with rfl | hd
          · rw [blank]
            split
            · exact Or.inl rfl
            · rename_i hLt hAmp hLine hBlank
              simp only [not_or] at hBlank
              exact Or.inr ⟨List.mem_cons_self, hLt, hAmp, hBlank⟩
          · obtain hBlank | ⟨hMem, hOther⟩ := ih hRest (Nat.succ.inj hLength) d hd
            · exact Or.inl hBlank
            · exact Or.inr ⟨List.mem_cons_of_mem c hMem, hOther⟩

/-! ## Literals -/

/-- A text between two quotes of a document. -/
def IsLiteral (text raw : List Char) : Prop :=
  ∃ q pre post, (q = '"' ∨ q = '\'') ∧ text = pre ++ q :: (raw ++ q :: post) ∧ q ∉ raw ∧ '<' ∉ raw

def NoQuote (s : List Char) : Prop := '"' ∉ s ∧ '\'' ∉ s

instance (s : List Char) : Decidable (NoQuote s) := inferInstanceAs (Decidable (_ ∧ _))

theorem NoQuote.not_mem {s : List Char} (h : NoQuote s) {q : Char} (hq : q = '"' ∨ q = '\'') : q ∉ s := by
  obtain rfl | rfl := hq
  · exact h.1
  · exact h.2

variable {a b rest v raw : List Char}

theorem not_isLiteral (h : NoQuote a) : ¬ IsLiteral a raw := by
  rintro ⟨q, pre, post, hq, rfl, -⟩
  exact h.not_mem hq (by simp)

theorem isLiteral_skip (hQuote : NoQuote a) (h : IsLiteral (a ++ b) raw) : IsLiteral b raw := by
  obtain ⟨q, pre, post, hq, hText, hRaw⟩ := h
  obtain ⟨c, rfl, hb⟩ | ⟨c, rfl, hb⟩ := List.append_eq_append_iff.mp hText
  · exact ⟨q, c, post, hq, hb, hRaw⟩
  · cases c with
    | nil => exact ⟨q, [], post, hq, hb.symm, hRaw⟩
    | cons d c =>
      obtain ⟨rfl, -⟩ := List.cons.inj hb
      exact absurd (by simp) (hQuote.not_mem hq)

/-- A literal is on one side of the start of a tag. -/
theorem isLiteral_lt (h : IsLiteral (a ++ '<' :: b) raw) : IsLiteral a raw ∨ IsLiteral b raw := by
  obtain ⟨q, pre, post, hq, hText, hRaw⟩ := h
  have hLt : q ≠ '<' := by rintro rfl; simp at hq
  obtain ⟨c, rfl, hb⟩ | ⟨c, rfl, hb⟩ := List.append_eq_append_iff.mp hText
  · cases c with
    | nil => exact absurd (List.cons.inj hb).1.symm hLt
    | cons d c => exact Or.inr ⟨q, c, post, hq, (List.cons.inj hb).2, hRaw⟩
  · cases c with
    | nil => exact absurd (List.cons.inj hb).1 hLt
    | cons d c =>
      obtain ⟨rfl, hTail⟩ := List.cons.inj hb
      obtain ⟨e, rfl, hPost⟩ | ⟨e, rfl, hPost⟩ := List.append_eq_append_iff.mp hTail
      · cases e with
        | nil => exact absurd (List.cons.inj hPost).1 hLt
        | cons f e =>
          obtain ⟨rfl, hPost⟩ := List.cons.inj hPost
          exact Or.inl ⟨q, pre, e, hq, rfl, hRaw⟩
      · cases e with
        | nil => exact absurd (List.cons.inj hPost).1.symm hLt
        | cons f e =>
          obtain ⟨rfl, -⟩ := List.cons.inj hPost
          exact absurd (by simp) hRaw.2

theorem takeWhile_quote (h : '"' ∉ a) (b : List Char) : (a ++ '"' :: b).takeWhile (· ≠ '"') = a := by
  rw [List.takeWhile_append_of_pos (by simpa using fun c hc => ne_of_mem_of_not_mem hc h)]
  simp

theorem isLiteral_quote (h : IsLiteral ('"' :: b) raw) : raw = b.takeWhile (· ≠ '"') ∨ IsLiteral b raw := by
  obtain ⟨q, pre, post, hq, hText, hRaw⟩ := h
  cases pre with
  | nil =>
    obtain ⟨rfl, rfl⟩ := List.cons.inj hText
    exact Or.inl (takeWhile_quote hRaw.1 post).symm
  | cons d pre => exact Or.inr ⟨q, pre, post, hq, (List.cons.inj hText).2, hRaw⟩

/-- A literal that starts behind the quote in front of a value is a shorter part of it. -/
theorem isLiteral_inside (hRest : NoQuote rest) (h : IsLiteral (v ++ '"' :: rest) raw) :
    raw <:+: v ∧ raw.length < v.length := by
  obtain ⟨q, pre, post, hq, hText, hRaw⟩ := h
  have hNone {c : List Char} (hc : rest = c ++ q :: post) : False := hRest.not_mem hq (by simp [hc])
  obtain ⟨c, rfl, hb⟩ | ⟨c, rfl, hb⟩ := List.append_eq_append_iff.mp hText
  · cases c with
    | nil => exact absurd (by simp [(List.cons.inj hb).2]) (hRest.not_mem hq)
    | cons d c => exact absurd (by simp [(List.cons.inj hb).2]) (hRest.not_mem hq)
  · cases c with
    | nil => exact absurd (by simp [← (List.cons.inj hb).2]) (hRest.not_mem hq)
    | cons d c =>
      obtain ⟨rfl, hTail⟩ := List.cons.inj hb
      obtain ⟨e, rfl, hPost⟩ | ⟨e, rfl, hPost⟩ := List.append_eq_append_iff.mp hTail
      · exact ⟨⟨pre ++ [q], e, by simp⟩, by simp; omega⟩
      · cases e with
        | nil => exact ⟨⟨pre ++ [q], [], by simp⟩, by simp; omega⟩
        | cons f e => exact (hNone (List.cons.inj hPost).2).elim

/-- The literals of a value between double quotes are the value and shorter parts of it. -/
theorem isLiteral_value (hRest : NoQuote rest) (h : IsLiteral ('"' :: (v ++ '"' :: rest)) raw) :
    raw <:+: v ∧ (raw.length < v.length ∨ raw = v ∧ '"' ∉ v) := by
  obtain hRaw | hInside := isLiteral_quote h
  · by_cases hMem : '"' ∈ v
    · obtain ⟨s, t, rfl, hNew⟩ := List.eq_append_cons_of_mem hMem
      rw [List.append_assoc, List.cons_append, takeWhile_quote hNew] at hRaw
      rw [hRaw]
      exact ⟨(List.prefix_append s _).isInfix, Or.inl (by simp)⟩
    · rw [takeWhile_quote hMem] at hRaw
      exact ⟨hRaw ▸ List.infix_rfl, Or.inr ⟨hRaw, hMem⟩⟩
  · obtain ⟨hPart, hLength⟩ := isLiteral_inside hRest hInside
    exact ⟨hPart, Or.inl hLength⟩

/-! ## Tags -/

inductive Kind
  | start
  | stop
  | empty
  deriving DecidableEq

/-- A tag, and the character data behind it. -/
structure Tag where
  kind : Kind
  name : List Char
  attrs : List (List Char × List Char)
  text : List Char
  deriving DecidableEq

def attrText (a : List Char × List Char) : List Char := ' ' :: (a.1 ++ '=' :: '"' :: (a.2 ++ ['"']))

namespace Tag

def write (t : Tag) : List Char :=
  match t.kind with
  | .start => '<' :: (t.name ++ (t.attrs.flatMap attrText ++ '>' :: t.text))
  | .stop => '<' :: '/' :: (t.name ++ '>' :: t.text)
  | .empty => '<' :: (t.name ++ (t.attrs.flatMap attrText ++ '/' :: '>' :: t.text))

end Tag

inductive Event
  | startElement (name : List Char) (attrs : List (List Char × List Char))
  | endElement (name : List Char)
  | warning (msg : String)
  | error (msg : String)
  | fatalError (msg : String)

def Tag.values (t : Tag) : List (List Char × List Char) := t.attrs.map fun a => (a.1, (attValue none a.2).getD [])

def Tag.events (t : Tag) : List Event :=
  match t.kind with
  | .start => [.startElement t.name t.values]
  | .stop => [.endElement t.name]
  | .empty => [.startElement t.name t.values, .endElement t.name]

def nameStart (c : Char) : Bool := ('a' ≤ c && c ≤ 'z') || ('A' ≤ c && c ≤ 'Z') || c = '_' || c = ':'

def nameChar (c : Char) : Bool := nameStart c || ('0' ≤ c && c ≤ '9') || c = '-' || c = '.'

def legalName (name : List Char) : Bool := name.head?.any nameStart && name.all nameChar

def legalLiteral (raw : List Char) : Bool :=
  !raw.contains '"' && !raw.contains '<' && raw.all (fun c => Encoded c) && (attValue none raw).isSome

/-- Names that start with `xml:` are the language's own. -/
def legalAttr (a : List Char × List Char) : Bool :=
  legalName a.1 && !"xml:".toList.isPrefixOf a.1 && legalLiteral a.2

/-- Character data, without references. -/
def legalText (text : List Char) : Bool := text.all fun c => Encoded c ∧ c ≠ '<' ∧ c ≠ '&' ∧ c ≠ '>'

def Tag.legal (t : Tag) : Bool :=
  legalName t.name && t.attrs.all legalAttr && (t.attrs.map Prod.fst).Nodup &&
    legalText t.text && (t.kind ≠ .stop || t.attrs.isEmpty)

/-- The tags close the elements that are open, the innermost first. -/
def nested : List (List Char) → List Tag → Bool
  | stack, [] => stack.isEmpty
  | stack, t :: ts =>
    match t.kind with
    | .start => nested (t.name :: stack) ts
    | .empty => nested stack ts
    | .stop =>
      match stack with
      | [] => false
      | name :: stack => name = t.name && nested stack ts

theorem nested_append {above below : List (List Char)} {ts : List Tag} (h : nested above ts = true) (rest : List Tag) :
    nested (above ++ below) (ts ++ rest) = nested below rest := by
  induction ts generalizing above with
  | nil =>
    rw [nested, List.isEmpty_iff] at h
    rw [h]
    rfl
  | cons t ts ih =>
    rw [List.cons_append]
    rw [nested.eq_def] at h ⊢
    cases hKind : t.kind with
    | start =>
      simp only [hKind] at h ⊢
      exact ih h
    | empty =>
      simp only [hKind] at h ⊢
      exact ih h
    | stop =>
      simp only [hKind] at h ⊢
      cases above with
      | nil => cases h
      | cons name above =>
        obtain ⟨hName, hRest⟩ := Bool.and_eq_true_iff.mp h
        simp only [List.cons_append, hName, Bool.true_and]
        exact ih hRest

/-! ## Documents -/

structure Document where
  root : List Char
  attrs : List (List Char × List Char)
  text : List Char
  body : List Tag
  /-- What is behind the root element. -/
  tail : List Char
  deriving DecidableEq

namespace Document

def tags (d : Document) : List Tag := ⟨.start, d.root, d.attrs, d.text⟩ :: (d.body ++ [⟨.stop, d.root, [], d.tail⟩])

def write (d : Document) : List Char := d.tags.flatMap Tag.write

def events (d : Document) : List Event := d.tags.flatMap Tag.events

def legal (d : Document) : Bool := d.tags.all Tag.legal && nested [] d.body && d.tail.all (fun c => c = ' ' ∨ c = '\n')

end Document

/-! ## Parsers -/

/-- What a parser reports, with the lines of the events. -/
structure Report where
  events : List (Nat × Event)
  lastLine : Nat
  wellFormed : Bool
  valid : Bool

/-- A parser on documents that start with the prolog, which declares US-ASCII and no entity. -/
structure Standard (prolog : List Char) (sax : List Char → Report) : Prop where
  reports : ∀ d : Document, d.legal = true → (sax (prolog ++ d.write)).events.map Prod.snd = d.events ∧
    (sax (prolog ++ d.write)).wellFormed = true ∧ (sax (prolog ++ d.write)).valid = true
  literal : ∀ rest, (sax (prolog ++ rest)).wellFormed = true →
    ∀ name attrs, Event.startElement name attrs ∈ (sax (prolog ++ rest)).events.map Prod.snd →
      ∀ a ∈ attrs, ∃ raw, IsLiteral (prolog ++ rest) raw ∧ attValue none raw = some a.2
  encoded : ∀ rest, (sax (prolog ++ rest)).wellFormed = true → ∀ c ∈ rest, Encoded c

end Libdap.Xml
