import Libdap.Ais.Run

/-! # Elements that the callbacks do not know

The state of such an element is never left again. What follows is only counted, and with the end tags of its parents the
count is not zero in the end.
-/

namespace Libdap.Ais
open Core Constraint Xml AISParserState
set_option autoImplicit false

/-- The start tags less the end tags. -/
def net : List Tag → Int
  | [] => 0
  | t :: ts => (match t.kind with
    | .start => 1
    | .stop => -1
    | .empty => 0) + net ts

theorem net_append (ts us : List Tag) : net (ts ++ us) = net ts + net us := by
  induction ts with
  | nil => exact (Int.zero_add _).symm
  | cons t ts ih => rw [List.cons_append, net, net, ih, Int.add_assoc]

theorem net_of_nested {stack : List Word} {ts : List Tag} (h : nested stack ts = true) : net ts = -stack.length := by
  induction ts generalizing stack with
  | nil =>
    rw [nested, List.isEmpty_iff] at h
    rw [h]
    rfl
  | cons t ts ih =>
    obtain ⟨hClose, hRest⟩ := (nested_cons stack t ts).mp h
    rw [net, ih hRest, after]
    cases hKind : t.kind with
    | start =>
      simp only [List.length_cons, Nat.cast_succ]
      omega
    | empty => exact Int.zero_add _
    | stop =>
      obtain ⟨rest, rfl⟩ := List.head?_eq_some_iff.mp (hClose hKind)
      simp only [List.tail_cons, List.length_cons, Nat.cast_succ]
      omega

theorem steps_unknown {s : AISParserState} (hs : s.state = .unknown) (ts : List Tag) :
    Steps (ts.flatMap Tag.events) s { s with unknownDepth := s.unknownDepth + net ts } := by
  induction ts generalizing s with
  | nil =>
    rw [net, Int.add_zero]
    exact Steps.nil s
  | cons t ts ih =>
    have hStart (name : Word) (attrs : List (Word × Word)) (s : AISParserState) (hs : s.state = .unknown) :
        Steps [.startElement name attrs] s { s with unknownDepth := s.unknownDepth + 1 } := by
      apply Steps.one
      rintro line
      rw [callback]
      simp only [aisStartElement, hs]
    have hEnd (name : Word) (s : AISParserState) (hs : s.state = .unknown) :
        Steps [.endElement name] s { s with unknownDepth := s.unknownDepth - 1 } := by
      apply Steps.one
      rintro line
      rw [callback]
      simp only [aisEndElement, hs]
    rw [List.flatMap_cons, Tag.events, net]
    cases hKind : t.kind with
    | start =>
      have hAll := (hStart t.name t.values s hs).append (ih (s := { s with unknownDepth := s.unknownDepth + 1 }) hs)
      rw [Int.add_assoc] at hAll
      exact hAll
    | stop =>
      have hAll := (hEnd t.name s hs).append (ih (s := { s with unknownDepth := s.unknownDepth - 1 }) hs)
      rw [Int.sub_eq_add_neg, Int.add_assoc] at hAll
      exact hAll
    | empty =>
      have hAll := ((hStart t.name t.values s hs).append
        (hEnd t.name { s with unknownDepth := s.unknownDepth + 1 } hs)).append
          (ih (s := { s with unknownDepth := s.unknownDepth + 1 - 1 }) hs)
      rw [Int.add_sub_cancel] at hAll
      rw [Int.zero_add]
      exact hAll

theorem error_stays {ns : List (Nat × Event)} {s s' : AISParserState} (hs : s.state = .error)
    (h : callbacks ns s = .ok s') : s'.state = .error := by
  induction ns generalizing s with
  | nil =>
    cases h
    exact hs
  | cons n ns ih =>
    obtain ⟨s₁, hFirst, hRest⟩ := bind_eq_ok h
    refine ih ?_ hRest
    obtain ⟨line, e⟩ := n
    rw [callback] at hFirst
    cases e with
    | startElement name attrs =>
      simp only [aisStartElement, hs] at hFirst
      cases hFirst
      exact hs
    | endElement name =>
      simp only [aisEndElement, hs] at hFirst
      cases hFirst
      exact hs
    | warning msg | error msg | fatalError msg =>
      cases hFirst
      rfl

/-- The state in which the elements of the stack are open inside of the root. -/
def stateOf (stack : List Word) : ParseState := if stack = [] then .ais else .entry

theorem startPrimary_state (line : Nat) (attrs : List (Word × Word)) (s : AISParserState) :
    (s.startPrimary line attrs).state = .error ∨
      (s.startPrimary line attrs).state = s.state ∧ (s.startPrimary line attrs).unknownDepth = s.unknownDepth := by
  cases attrs with
  | nil => exact Or.inl rfl
  | cons a attrs =>
    obtain ⟨name, value⟩ := a
    rw [startPrimary]
    split
    · exact Or.inr ⟨rfl, rfl⟩
    · split
      · exact Or.inr ⟨rfl, rfl⟩
      · exact Or.inr ⟨rfl, rfl⟩

theorem startAncillary_state {line : Nat} {attrs : List (Word × Word)} {s s' : AISParserState}
    (h : s.startAncillary line attrs = .ok s') :
    s'.state = .error ∨ s'.state = s.state ∧ s'.unknownDepth = s.unknownDepth := by
  simp only [startAncillary] at h
  split at h
  · cases h
    exact Or.inl rfl
  · split at h
    · split at h
      · cases h
      · cases h
        exact Or.inl rfl
    · obtain ⟨rule, -, h⟩ := bind_eq_ok h
      cases h
      exact Or.inr ⟨rfl, rfl⟩

/-- A tag of the database leads to the state behind it, or to an error. -/
theorem inPlace_step {stack : List Word} {t : Tag} {ts : List Tag} (hPlace : InPlace stack (t :: ts))
    {s s' : AISParserState} (hs : s.state = stateOf stack) {ns : List (Nat × Event)} (hNs : ns.map Prod.snd = t.events)
    (h : callbacks ns s = .ok s') :
    s'.state = .error ∨ s'.state = stateOf (after t stack) ∧ s'.unknownDepth = s.unknownDepth := by
  obtain ⟨⟨rfl, rfl⟩ | ⟨rfl, rfl | ⟨hKind, hName⟩⟩, -⟩ := hPlace
  · have hStart : Steps entryStart.events s (s.move .entry) := by
      apply Steps.one
      rintro line
      rw [callback]
      simp only [aisStartElement, hs]
      exact if_pos (by decide)
    rw [hStart ns hNs] at h
    cases h
    exact Or.inr ⟨rfl, rfl⟩
  · obtain ⟨⟨line, e⟩, rfl, hEvent⟩ := List.map_eq_singleton_iff.mp hNs
    obtain rfl : e = .endElement entryName := hEvent
    obtain ⟨s₁, hEnd, h⟩ := bind_eq_ok h
    cases h
    have hEntry : s.state = .entry := hs
    rw [callback] at hEnd
    simp only [aisEndElement, hEntry, endEntry] at hEnd
    split at hEnd
    · cases hEnd
    · cases hEnd
      exact Or.inr ⟨rfl, rfl⟩
    · cases hEnd
      exact Or.inr ⟨rfl, rfl⟩
  · have hEvents : t.events = [.startElement t.name t.values, .endElement t.name] := by
      rw [Tag.events, hKind]
    have hAfter : after t [entryName] = [entryName] := by
      rw [after, hKind]
    rw [hEvents] at hNs
    obtain ⟨⟨line, e⟩, ns, rfl, hStart, hTail⟩ := List.map_eq_cons_iff.mp hNs
    obtain rfl : e = .startElement t.name t.values := hStart
    obtain ⟨⟨line', e⟩, rfl, hEvent⟩ := List.map_eq_singleton_iff.mp hTail
    obtain rfl : e = .endElement t.name := hEvent
    obtain ⟨s₁, hFirst, h⟩ := bind_eq_ok h
    have hEntry : s.state = .entry := hs
    have hOpen : s₁.state = .error ∨ (s₁.state = .primary ∨ s₁.state = .ancillary) ∧
        s₁.unknownDepth = s.unknownDepth := by
      rw [callback] at hFirst
      simp only [aisStartElement, hEntry] at hFirst
      obtain hName | hName := hName
      · have hPrimary : t.name = "primary".toList := hName
        rw [if_pos hPrimary] at hFirst
        cases hFirst
        obtain hError | ⟨hState, hDepth⟩ := startPrimary_state line t.values (s.move .primary)
        · exact Or.inl hError
        · exact Or.inr ⟨Or.inl hState, hDepth⟩
      · have hAncillary : t.name = "ancillary".toList := hName
        have hOther : t.name ≠ "primary".toList := by
          rw [hName]
          decide
        rw [if_neg hOther, if_pos hAncillary] at hFirst
        obtain hError | ⟨hState, hDepth⟩ := startAncillary_state hFirst
        · exact Or.inl hError
        · exact Or.inr ⟨Or.inr hState, hDepth⟩
    obtain hError | ⟨hState | hState, hDepth⟩ := hOpen
    · exact Or.inl (error_stays hError h)
    · rw [callbacks, callback] at h
      simp only [aisEndElement, hState] at h
      cases h
      rw [hAfter]
      exact Or.inr ⟨rfl, hDepth⟩
    · rw [callbacks, callback] at h
      simp only [aisEndElement, hState] at h
      cases h
      rw [hAfter]
      exact Or.inr ⟨rfl, hDepth⟩

theorem not_stop {stack : List Word} {t : Tag} {ts : List Tag} (h : Unknown (stack.headD aisName) (t :: ts)) :
    t.kind ≠ .stop ∧ (known (stack.headD aisName)).contains t.name = false := by
  have hStop : t.kind ≠ .stop := by
    rintro hStop
    exact absurd (((nested_cons [] t ts).mp h.nested).1 hStop) (by simp)
  have hStrange := h.strangers
  rw [strangers] at hStrange
  refine ⟨hStop, ?_⟩
  cases hKind : t.kind with
  | stop => exact absurd hKind hStop
  | start | empty =>
    simp only [hKind, Bool.and_eq_true] at hStrange
    simpa using hStrange.1

/-- The first tag of an unknown element. -/
theorem steps_stranger {stack : List Word} {t : Tag} {ts : List Tag} (hStack : stack = [] ∨ stack = [entryName])
    (h : Unknown (stack.headD aisName) (t :: ts)) {s : AISParserState} (hs : s.state = stateOf stack) :
    Steps t.events s { s.move .unknown with unknownDepth := s.unknownDepth + net [t] } := by
  obtain ⟨hStop, hName⟩ := not_stop h
  have hStart : Steps [.startElement t.name t.values] s s.enterUnknown := by
    apply Steps.one
    rintro line
    rw [callback]
    obtain rfl | rfl := hStack
    · have hAis : s.state = .ais := hs
      have hEntry : t.name ≠ entryName := by simpa [known] using hName
      simp only [aisStartElement, hAis]
      exact if_neg hEntry
    · have hEntry : s.state = .entry := hs
      have hOther : entryName ≠ aisName := by decide
      have hNames : t.name ≠ primaryName ∧ t.name ≠ ancillaryName := by simpa [known, hOther] using hName
      simp only [aisStartElement, hEntry]
      exact (if_neg hNames.1).trans (if_neg hNames.2)
  have hNet : net [t] = (match t.kind with
    | .start => 1
    | .stop => -1
    | .empty => 0) := Int.add_zero _
  rw [Tag.events, hNet]
  cases hKind : t.kind with
  | stop => exact absurd hKind hStop
  | start => exact hStart
  | empty =>
    have hEnd : Steps [.endElement t.name] s.enterUnknown
        { s.move .unknown with unknownDepth := s.unknownDepth + 1 - 1 } :=
      Steps.one fun line => rfl
    rw [Int.add_sub_cancel] at hEnd
    rw [Int.add_zero]
    exact hStart.append hEnd

theorem stack_of_inPlace {stack : List Word} {ts : List Tag} (h : InPlace stack ts) :
    stack = [] ∨ stack = [entryName] := by
  cases ts with
  | nil => exact Or.inl h
  | cons t ts =>
    obtain ⟨⟨hStack, -⟩ | ⟨hStack, -⟩, -⟩ := h
    · exact Or.inl hStack
    · exact Or.inr hStack

/-- A document with an unknown element in the first gap ends with elements that are still counted. -/
theorem unknown_counted {stack : List Word} (hStack : stack = [] ∨ stack = [entryName]) {t : Tag} {gap : List Tag}
    (rest : List Tag) (hUnknown : Unknown (stack.headD aisName) (t :: gap))
    (hNested : nested stack (t :: gap ++ rest) = true)
    {s s' : AISParserState} (hs : s.state = stateOf stack) (hDepth : s.unknownDepth = 0) {last : Tag}
    (hLast : last.kind = .stop) {ns : List (Nat × Event)}
    (hNs : ns.map Prod.snd = (t :: gap ++ rest ++ [last]).flatMap Tag.events) (h : callbacks ns s = .ok s') :
    s'.unknownDepth ≠ 0 := by
  have hRest := steps_unknown (s := { s.move .unknown with unknownDepth := s.unknownDepth + net [t] }) rfl
    (gap ++ rest ++ [last])
  have hAll := (steps_stranger hStack hUnknown hs).append hRest
  rw [← List.flatMap_cons] at hAll
  rw [hAll ns hNs] at h
  cases h
  have hNet : net (t :: gap ++ rest ++ [last]) = -stack.length - 1 := by
    rw [net_append, net_of_nested hNested, net, hLast]
    rfl
  have hSplit : net (t :: gap ++ rest ++ [last]) = net [t] + net (gap ++ rest ++ [last]) := net_append [t] _
  change s.unknownDepth + net [t] + net (gap ++ rest ++ [last]) ≠ 0
  omega

theorem unknown_not_read {stack : List Word} {ts : List Tag} (hPlace : InPlace stack ts) {gaps : List (List Tag)}
    (hGaps : Inserted stack gaps ts) (hSome : ∃ gap ∈ gaps, gap ≠ []) {s s' : AISParserState}
    (hs : s.state = stateOf stack) (hDepth : s.unknownDepth = 0) {last : Tag} (hLast : last.kind = .stop)
    {ns : List (Nat × Event)} (hNs : ns.map Prod.snd = (fill gaps ts ++ [last]).flatMap Tag.events)
    (h : callbacks ns s = .ok s') : s'.state = .error ∨ s'.unknownDepth ≠ 0 := by
  induction ts generalizing stack gaps s ns with
  | nil =>
    obtain ⟨gap, hMem, hGap⟩ := hSome
    cases gaps with
    | nil => cases hMem
    | cons first gaps =>
      obtain ⟨hUnknown, rfl⟩ := hGaps
      obtain rfl := List.mem_singleton.mp hMem
      cases gap with
      | nil => exact absurd rfl hGap
      | cons t gap =>
        have hInserted : Inserted stack [t :: gap] [] := ⟨hUnknown, rfl⟩
        have hNested := nested_fill hInserted (nested_of_inPlace hPlace)
        refine Or.inr (unknown_counted (stack_of_inPlace hPlace) [] hUnknown ?_ hs hDepth hLast ?_ h)
        · rw [List.append_nil]
          exact hNested
        · rw [List.append_nil]
          exact hNs
  | cons t ts ih =>
    cases gaps with
    | nil => exact absurd hSome (by simp)
    | cons gap gaps =>
      obtain ⟨hUnknown, hRest⟩ := id hGaps
      cases gap with
      | nil =>
        obtain ⟨ns₁, ns₂, rfl, h₁, h₂⟩ := List.map_eq_append_iff.mp hNs
        rw [callbacks_append] at h
        obtain ⟨s₁, hFirst, hTail⟩ := bind_eq_ok h
        obtain hError | ⟨hState, hDepth₁⟩ := inPlace_step hPlace hs h₁ hFirst
        · exact Or.inl (error_stays hError hTail)
        · exact ih hPlace.2 hRest (by simpa using hSome) hState (hDepth₁.trans hDepth) h₂ hTail
      | cons u gap =>
        have hNested := nested_fill hGaps (nested_of_inPlace hPlace)
        exact Or.inr (unknown_counted (stack_of_inPlace hPlace) _ hUnknown hNested hs hDepth hLast hNs h)

end Libdap.Ais
