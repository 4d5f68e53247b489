import Libdap.Olfs.ContentNegotiation
import Mathlib.Tactic.NormNum

/-! # Ranges as they are read

A header is split at its commas, a range at its semicolons and its type at the slash. Blanks stay where they are, so that
a type with blanks around it is no responder's.
-/

namespace Libdap.Olfs
open Core Constraint
set_option autoImplicit false

/-! ## Texts that are split -/

section
variable {c : Char} {p s : Word}

theorem split_whole (h : c ∉ s) : split c s = [s] := if_neg h

/-- The empty texts at the end are left out. -/
def trimmed (texts : List Word) : List Word := (texts.reverse.dropWhile List.isEmpty).reverse

theorem trimmed_cons (hp : p ≠ []) (texts : List Word) : trimmed (p :: texts) = p :: trimmed texts := by
  have hNot : p.isEmpty = false := by rwa [List.isEmpty_eq_false_iff]
  rw [trimmed, List.reverse_cons, List.dropWhile_append, trimmed]
  split
  · rename_i hEmpty
    rw [List.isEmpty_iff.mp hEmpty, List.dropWhile_cons_of_neg (by rw [hNot]; exact Bool.false_ne_true)]
    rfl
  · rw [List.reverse_append]
    rfl

theorem not_at (h : c ∉ s) : ∀ d ∈ s, decide (d = c) = false := by
  rintro d hd
  exact decide_eq_false fun hEq => h (hEq ▸ hd)

theorem splitOnP_whole (h : c ∉ s) : s.splitOnP (· = c) = [s] := List.splitOnP_eq_singleton (not_at h)

theorem split_eq (hs : s ≠ []) : split c s = trimmed (s.splitOnP (· = c)) := by
  rw [split]
  split
  · rfl
  · rename_i hNot
    rw [splitOnP_whole hNot, trimmed_cons hs]
    rfl

/-- The text up to the first place of the character. -/
theorem split_first (hp : p ≠ []) (hc : c ∉ p) (s : Word) :
    split c (p ++ c :: s) = p :: trimmed (s.splitOnP (· = c)) := by
  rw [split_eq (List.append_ne_nil_of_left_ne_nil hp _),
    List.splitOnP_append_cons_of_forall_mem (not_at hc) c (decide_eq_true rfl), trimmed_cons hp]

theorem split_cons (hp : p ≠ []) (hc : c ∉ p) (hs : s ≠ []) : split c (p ++ c :: s) = p :: split c s := by
  rw [split_first hp hc, split_eq hs]

theorem split_pair (hp : p ≠ []) (hc : c ∉ p) (hs : s ≠ []) (hc' : c ∉ s) : split c (p ++ c :: s) = [p, s] := by
  rw [split_cons hp hc hs, split_whole hc']

end

/-- Texts that are joined by a character they do not have. -/
theorem split_joined {c : Char} {texts : List Word} (hSome : texts ≠ []) (hNot : ∀ w ∈ texts, w ≠ [] ∧ c ∉ w) :
    split c ([c].intercalate texts) = texts := by
  induction texts with
  | nil => exact absurd rfl hSome
  | cons w texts ih =>
    obtain ⟨⟨hw, hc⟩, hRest⟩ := List.forall_mem_cons.mp hNot
    cases texts with
    | nil =>
      rw [List.intercalate_singleton]
      exact split_whole hc
    | cons v texts =>
      have hMore : [c].intercalate (v :: texts) ≠ [] := by
        cases texts with
        | nil =>
          rw [List.intercalate_singleton]
          exact (hRest v List.mem_cons_self).1
        | cons u texts =>
          rw [List.intercalate_cons_cons]
          exact List.append_ne_nil_of_left_ne_nil (List.append_ne_nil_of_left_ne_nil (hRest v List.mem_cons_self).1 _) _
      rw [List.intercalate_cons_cons, List.append_assoc, List.singleton_append, split_cons hw hc hMore,
        ih (List.cons_ne_nil _ _) hRest]

/-! ## One range -/

/-- A name is no text with blanks around it. -/
theorem no_blanks {b w b' t : Word} (hb : IsBlank b) (hb' : IsBlank b') (ht : IsToken t)
    (h : equalsIgnoreCase (b ++ w ++ b') t = true) : b = [] ∧ b' = [] := by
  have hNone : ∀ c ∈ b ++ w ++ b', ¬(c = ' ' ∨ c = '\t') := by
    intro c hc hBlank
    have hLower : c.toLower ∈ t.map Char.toLower := of_decide_eq_true h ▸ List.mem_map_of_mem hc
    obtain ⟨d, hd, hSame⟩ := List.mem_map.mp hLower
    have hToken := ht.2 d hd
    rcases hBlank with rfl | rfl
    · rw [toLower_eq (b := ' ') (by decide) hSame] at hToken
      exact absurd hToken (by decide)
    · rw [toLower_eq (b := '\t') (by decide) hSame] at hToken
      exact absurd hToken (by decide)
  constructor
  · exact List.eq_nil_iff_forall_not_mem.mpr fun c hc =>
      hNone c (List.mem_append_left _ (List.mem_append_left _ hc)) (hb c hc)
  · exact List.eq_nil_iff_forall_not_mem.mpr fun c hc => hNone c (List.mem_append_right _ hc) (hb' c hc)

namespace MediaRange

def typeText (r : MediaRange) : Word := r.before ++ (r.primaryType ++ '/' :: r.subType)

/-- Behind the type, blanks and then nothing or a semicolon. -/
theorem text_eq (r : MediaRange) : ∃ b, IsBlank b ∧
    (r.text = r.typeText ++ b ∨ ∃ more, r.text = r.typeText ++ b ++ ';' :: more) := by
  have hText : r.text = r.typeText ++ (r.parameters.flatMap Parameter.text ++
      (r.quality.elim [] Quality.text ++ (r.extensions.flatMap Parameter.text ++ r.after))) := by
    simp only [text, typeText, List.append_assoc, List.cons_append]
  rw [hText]
  cases hParameters : r.parameters with
  | cons p ps =>
    obtain ⟨more, hMore⟩ : ∃ more, (p :: ps).flatMap Parameter.text ++ (r.quality.elim [] Quality.text ++
        (r.extensions.flatMap Parameter.text ++ r.after)) = p.before ++ ';' :: more := by
      simp only [List.flatMap_cons, Parameter.text, List.append_assoc, List.cons_append]
      exact ⟨_, rfl⟩
    exact ⟨p.before, p.hBefore, .inr ⟨more, by rw [hMore, List.append_assoc]⟩⟩
  | nil =>
    cases hQuality : r.quality with
    | some q =>
      obtain ⟨more, hMore⟩ : ∃ more, ([] : List Parameter).flatMap Parameter.text ++ ((some q).elim [] Quality.text ++
          (r.extensions.flatMap Parameter.text ++ r.after)) = q.before ++ ';' :: more := by
        simp only [List.flatMap_nil, List.nil_append, Option.elim_some, Quality.text, List.append_assoc,
          List.cons_append]
        exact ⟨_, rfl⟩
      exact ⟨q.before, q.hBefore, .inr ⟨more, by rw [hMore, List.append_assoc]⟩⟩
    | none =>
      refine ⟨r.after, r.hAfter, .inl ?_⟩
      rw [r.hExtensions hQuality]
      rfl

/-- The type as it is read, with the blanks around it. -/
theorem ofText_eq (r : MediaRange) : ∃ b parts, IsBlank b ∧ split ';' r.text = (r.typeText ++ b) :: parts ∧
    MediaType.ofText r.text = .ok ⟨r.typeText ++ b, r.before ++ r.primaryType, r.subType ++ b,
      MediaType.qualityOf ((r.typeText ++ b) :: parts)⟩ := by
  have hFree {c : Char} (hBlank : c ≠ ' ' ∧ c ≠ '\t') (hToken : isTokenChar c = false) {w : Word}
      (h : IsBlank w ∨ IsToken w) : c ∉ w := by
    intro hMem
    rcases h with hw | hw
    · exact (hw c hMem).elim hBlank.1 hBlank.2
    · rw [hw.2 c hMem] at hToken
      cases hToken
  obtain ⟨b, hb, hText⟩ := r.text_eq
  have hSemicolon : ';' ∉ r.typeText ++ b := by
    have hNot {w : Word} := hFree (w := w) (c := ';') ⟨by decide, by decide⟩ (by decide)
    simp only [typeText, List.mem_append, List.mem_cons, not_or]
    exact ⟨⟨hNot (.inl r.hBefore), hNot (.inr r.hPrimary), by decide, hNot (.inr r.hSub)⟩, hNot (.inl hb)⟩
  have hSlash : split '/' (r.typeText ++ b) = [r.before ++ r.primaryType, r.subType ++ b] := by
    have hNot {w : Word} := hFree (w := w) (c := '/') ⟨by decide, by decide⟩ (by decide)
    have hParted : r.typeText ++ b = r.before ++ r.primaryType ++ '/' :: (r.subType ++ b) := by
      simp only [typeText, List.append_assoc, List.cons_append]
    rw [hParted]
    refine split_pair (List.append_ne_nil_of_right_ne_nil _ r.hPrimary.1) ?_
      (List.append_ne_nil_of_left_ne_nil r.hSub.1 _) ?_
    · exact List.not_mem_append (hNot (.inl r.hBefore)) (hNot (.inr r.hPrimary))
    · exact List.not_mem_append (hNot (.inr r.hSub)) (hNot (.inl hb))
  have hSome : r.typeText ++ b ≠ [] :=
    List.append_ne_nil_of_left_ne_nil (List.append_ne_nil_of_right_ne_nil _
      (List.append_ne_nil_of_left_ne_nil r.hPrimary.1 _)) _
  obtain ⟨parts, hParts⟩ : ∃ parts, split ';' r.text = (r.typeText ++ b) :: parts := by
    rcases hText with hText | ⟨more, hText⟩
    · exact ⟨[], by rw [hText, split_whole hSemicolon]⟩
    · exact ⟨_, by rw [hText, split_first hSome hSemicolon]⟩
  refine ⟨b, parts, hb, hParts, ?_⟩
  rw [MediaType.ofText, hParts]
  dsimp only
  rw [hSlash]

/-- The media type that is read. -/
def asRead (r : MediaRange) : MediaType := (MediaType.ofText r.text).toOption.getD ⟨[], [], [], 1⟩

theorem ofText_asRead (r : MediaRange) : MediaType.ofText r.text = .ok r.asRead := by
  obtain ⟨b, parts, -, -, hText⟩ := r.ofText_eq
  rw [asRead, hText]
  rfl

theorem text_ne_nil (r : MediaRange) : r.text ≠ [] :=
  List.append_ne_nil_of_right_ne_nil _ (List.append_ne_nil_of_left_ne_nil r.hPrimary.1 _)

/-- The range has the responder's type or leaves it open, whatever its parameters are. -/
def covers (t : Responder) (r : MediaRange) : Bool :=
  equalsIgnoreCase r.primaryType t.primaryType && (equalsIgnoreCase r.subType t.subType || r.subType = ['*']) ||
    r.primaryType = ['*']

end MediaRange

namespace Dap4Responder
variable {d : Dap4Responder} {r : MediaRange} {t : Responder} {b : Word} {q : ℚ}

theorem star_of_blanks {w : Word} (hw : w ≠ []) (h : equalsIgnoreCase (w ++ b) ['*'] = true) : w = ['*'] ∧ b = [] := by
  rw [equalsIgnoreCase_star, decide_eq_true_iff] at h
  cases w with
  | nil => exact absurd rfl hw
  | cons c w =>
    obtain ⟨rfl, hRest⟩ := List.cons.inj h
    obtain ⟨rfl, rfl⟩ := List.append_eq_nil_iff.mp hRest
    exact ⟨rfl, rfl⟩

theorem star_behind_blanks {w : Word} (hw : w ≠ []) (h : equalsIgnoreCase (b ++ w) ['*'] = true) : w = ['*'] := by
  cases b with
  | nil => exact (star_of_blanks (b := []) hw (by rwa [List.append_nil])).1
  | cons c b =>
    rw [equalsIgnoreCase_star, decide_eq_true_iff] at h
    exact absurd (List.append_eq_nil_iff.mp (List.cons.inj h).2).2 hw

theorem slash_free (r : MediaRange) : '/' ∉ r.before ++ r.primaryType := by
  intro hMem
  rcases List.mem_append.mp hMem with hBlank | hToken
  · exact (r.hBefore _ hBlank).elim (by decide) (by decide)
  · exact slash_not_mem r.hPrimary hToken

/-- The type with the blanks around it is no responder's that the range does not cover. -/
theorem isBlank_nil : IsBlank [] := fun _ hc => absurd hc List.not_mem_nil

theorem mimeType_other (ht : IsName t.primaryType ∧ IsName t.subType) (hb : IsBlank b) (hCovers : r.covers t = false) :
    equalsIgnoreCase (r.typeText ++ b) t.mimeType = false := by
  have hParted : r.typeText ++ b = r.before ++ r.primaryType ++ '/' :: (r.subType ++ b) := by
    simp only [MediaRange.typeText, List.append_assoc, List.cons_append]
  rw [hParted, Responder.mimeType, equalsIgnoreCase_type (slash_free r) (slash_not_mem ht.1.1)]
  refine Bool.eq_false_iff.mpr fun hBoth => ?_
  obtain ⟨hPrimary, hSub⟩ := Bool.and_eq_true_iff.mp hBoth
  obtain ⟨hBefore, -⟩ := @no_blanks _ _ [] _ r.hBefore isBlank_nil ht.1.1 (by rwa [List.append_nil])
  obtain ⟨-, rfl⟩ := no_blanks (b := []) isBlank_nil hb ht.2.1 (by rwa [List.nil_append])
  rw [hBefore, List.nil_append] at hPrimary
  rw [List.append_nil] at hSub
  rw [MediaRange.covers, hPrimary, hSub] at hCovers
  cases hCovers

theorem not_assigned (hDistinct : d.Distinct) (hb : IsBlank b) (hCovers : ∀ t ∈ d.responders, r.covers t = false) :
    d.assigned ⟨r.typeText ++ b, r.before ++ r.primaryType, r.subType ++ b, q⟩ = none := by
  have hAlts : ∀ a ∈ d.altResponders,
      ¬namesAlt a ⟨r.typeText ++ b, r.before ++ r.primaryType, r.subType ++ b, q⟩ = true := by
    intro a ha
    have hMem : a ∈ d.responders := List.mem_cons_of_mem _ ha
    rw [namesAlt, mimeType_other (hDistinct.names a hMem) hb (hCovers a hMem), Responder.mimeType,
      equalsIgnoreCase_part (slash_free r)]
    exact Bool.false_ne_true
  have hThis : namesThis d.this ⟨r.typeText ++ b, r.before ++ r.primaryType, r.subType ++ b, q⟩ = false := by
    have hNames := hDistinct.names d.this List.mem_cons_self
    have hNone := hCovers d.this List.mem_cons_self
    rw [namesThis, mimeType_other hNames hb hNone, if_neg Bool.false_ne_true, if_neg]
    · refine Bool.eq_false_iff.mpr fun hBoth => ?_
      have hStar := star_behind_blanks r.hPrimary.1 (Bool.and_eq_true_iff.mp hBoth).1
      rw [MediaRange.covers, hStar, decide_eq_true rfl, Bool.or_true] at hNone
      cases hNone
    · intro hBoth
      obtain ⟨hPrimary, hSub⟩ := Bool.and_eq_true_iff.mp hBoth
      obtain ⟨hBefore, -⟩ := @no_blanks _ _ [] _ r.hBefore isBlank_nil hNames.1.1 (by rwa [List.append_nil])
      rw [hBefore, List.nil_append] at hPrimary
      rw [MediaRange.covers, hPrimary, (star_of_blanks r.hSub.1 hSub).1] at hNone
      simp at hNone
  rw [assigned, List.filter_eq_nil_iff.mpr hAlts, hThis]
  rfl

theorem mapM_asRead (h : Accept) : (h.map MediaRange.text).mapM MediaType.ofText = .ok (h.map MediaRange.asRead) := by
  induction h with
  | nil => rfl
  | cons r h ih =>
    rw [List.map_cons, List.mapM_cons, r.ofText_asRead, ok_bind, ih]
    rfl

/-- A header without commas in its ranges is read range by range. -/
theorem split_text {h : Accept} (hSome : h ≠ []) (hComma : ∀ r ∈ h, ',' ∉ r.text) :
    (split ',' h.text).mapM MediaType.ofText = .ok (h.map MediaRange.asRead) := by
  have hTexts : ∀ w ∈ h.map MediaRange.text, w ≠ [] ∧ ',' ∉ w := by
    intro w hw
    obtain ⟨r, hr, rfl⟩ := List.mem_map.mp hw
    exact ⟨r.text_ne_nil, hComma r hr⟩
  rw [Accept.text, split_joined (mt List.map_eq_nil_iff.mp hSome) hTexts, mapM_asRead]

theorem best_text (hDistinct : d.Distinct) {h : Accept} (hComma : ∀ r ∈ h, ',' ∉ r.text) :
    d.getBestResponderForHttpRequest (some h.text) =
      .ok (((d.named (h.map MediaRange.asRead)).argmax Prod.fst).map Prod.snd) := by
  by_cases hSome : h = []
  · rw [hSome, empty_best hDistinct]
    rfl
  · exact best_eq (split_text hSome hComma)

/-- A range that covers no responder changes nothing, wherever it stands. -/
theorem best_added (hDistinct : d.Distinct) {before behind : Accept}
    (hComma : ∀ x ∈ before ++ r :: behind, ',' ∉ x.text) (hCovers : ∀ t ∈ d.responders, r.covers t = false) :
    d.getBestResponderForHttpRequest (some (Accept.text (before ++ r :: behind))) =
      d.getBestResponderForHttpRequest (some (Accept.text (before ++ behind))) := by
  obtain ⟨b, parts, hb, -, hText⟩ := r.ofText_eq
  have hNone : d.assigned r.asRead = none := by
    rw [Except.ok.inj (r.ofText_asRead.symm.trans hText)]
    exact not_assigned hDistinct hb hCovers
  have hOthers : ∀ x ∈ before ++ behind, ',' ∉ x.text := fun x hx => hComma x (by
    rcases List.mem_append.mp hx with hx | hx
    · exact List.mem_append_left _ hx
    · exact List.mem_append_right _ (List.mem_cons_of_mem _ hx))
  rw [best_text hDistinct hComma, best_text hDistinct hOthers, List.map_append, List.map_append, List.map_cons, named,
    named, List.filterMap_append, List.filterMap_append, List.filterMap_cons, hNone]
  rfl

/-! ## Ranges that are read as they are written -/

/-- No blanks but before further parameters, no parameter before the quality, which is named by a small letter and above
zero, and no comma in a quoted string. -/
structure Plain (r : MediaRange) : Prop where
  before : r.before = []
  parameters : r.parameters = []
  after : r.after = []
  quality : ∀ q ∈ r.quality, q.before = [] ∧ q.after = [] ∧ q.name = ['q'] ∧ 0 < decimalValue q.value
  extensions : ∀ p ∈ r.extensions, p.before = []
  comma : ',' ∉ r.text

theorem params_find {first key value second : Word} (hSplit : split '=' second = [key, value]) (more : List Word) :
    (MediaType.params (first :: second :: more)).find key = some value := by
  have hAll : ∀ (rest : List Word) (m : KeyedMap Word Word), rest ≠ [] ∨ m.find key = some value →
      (rest.foldl (fun m _ => m.set key value) m).find key = some value := by
    intro rest
    induction rest with
    | nil => exact fun m h => h.elim (fun h => absurd rfl h) id
    | cons w rest ih => exact fun m _ => ih _ (.inr (KeyedSet.find_set.trans (if_pos rfl)))
  simp only [MediaType.params, List.tail_cons, List.getD_cons_succ, List.getD_cons_zero, hSplit]
  exact hAll (second :: more) _ (.inl (List.cons_ne_nil _ _))

theorem digits_valueOf_lt {w : Word} (h : ∀ c ∈ w, c.isDigit = true) : valueOf 10 w < 10 ^ w.length := by
  induction w using List.reverseRec with
  | nil => exact Nat.one_pos
  | append_singleton w c ih =>
    have hc : c.isDigit = true := h c (List.mem_append_right _ List.mem_cons_self)
    have hLess := ih fun d hd => h d (List.mem_append_left _ hd)
    have hDigit : (digitOf c).getD 0 < 10 := by
      rw [Char.isDigit, Bool.and_eq_true, decide_eq_true_eq, decide_eq_true_eq] at hc
      have hRange : '0' ≤ c ∧ c ≤ '9' := hc
      rw [digitOf, if_pos hRange, Option.getD_some]
      have hNine : c.toNat ≤ '9'.toNat := UInt32.le_iff_toNat_le.mp hRange.2
      have hZero : '0'.toNat = 48 := rfl
      have hNine' : '9'.toNat = 57 := rfl
      omega
    rw [valueOf, List.foldl_append, List.length_append, List.length_singleton, pow_succ]
    change valueOf 10 w * 10 + (digitOf c).getD 0 < _
    omega

/-- Zeros behind a one. -/
theorem one_zeros_valueOf {w : Word} (h : ∀ c ∈ w, c = '0') : valueOf 10 ('1' :: w) = 10 ^ w.length := by
  induction w using List.reverseRec with
  | nil => rfl
  | append_singleton w c ih =>
    have hc : c = '0' := h c (List.mem_append_right _ List.mem_cons_self)
    have hOnes := ih fun d hd => h d (List.mem_append_left _ hd)
    rw [valueOf] at hOnes
    rw [hc, valueOf, ← List.cons_append, List.foldl_append, hOnes, List.length_append, List.length_singleton, pow_succ]
    rfl

theorem trim_self {s : Word} (h : ∀ c ∈ s, ¬c ≤ ' ') : trim s = s := by
  have hFront : ∀ t : Word, (∀ c ∈ t, ¬c ≤ ' ') → t.dropWhile (· ≤ ' ') = t := by
    intro t ht
    cases t with
    | nil => rfl
    | cons c t => exact List.dropWhile_cons_of_neg fun hc => ht c List.mem_cons_self (of_decide_eq_true hc)
  rw [trim, hFront s h, hFront s.reverse fun c hc => h c (List.mem_reverse.mp hc), List.reverse_reverse]

theorem isDigit_not_blank {c : Char} (h : c.isDigit = true) : ¬c ≤ ' ' := by
  intro hBlank
  rw [Char.isDigit, Bool.and_eq_true, decide_eq_true_eq] at h
  have hLess : (48 : UInt32) ≤ 32 := UInt32.le_trans h.1 hBlank
  exact absurd hLess (by decide)

theorem isDigit_not_point {c : Char} (h : c.isDigit = true) : c ≠ '.' := by
  rintro rfl
  exact absurd h (by decide)

theorem parseDouble_digit {c : Char} (h : c.isDigit = true) :
    parseDouble [c] = some (valueOf 10 [c] : ℚ) ∧ decimalValue [c] = (valueOf 10 [c] : ℚ) := by
  have hTrim : trim [c] = [c] := trim_self fun d hd => List.mem_singleton.mp hd ▸ isDigit_not_blank h
  constructor
  · simp [parseDouble, hTrim, h]
  · simp [decimalValue, h, isDigit_not_point h]

theorem parseDouble_fraction {c : Char} {fraction : Word} (h : c.isDigit = true)
    (hAll : ∀ d ∈ fraction, d.isDigit = true) :
    parseDouble (c :: '.' :: fraction) = some ((valueOf 10 (c :: fraction) : ℚ) / 10 ^ fraction.length) ∧
      decimalValue (c :: '.' :: fraction) = (valueOf 10 (c :: fraction) : ℚ) / 10 ^ fraction.length := by
  have hTrim : trim (c :: '.' :: fraction) = c :: '.' :: fraction := by
    refine trim_self (List.forall_mem_cons.mpr ⟨isDigit_not_blank h, List.forall_mem_cons.mpr ⟨by decide, ?_⟩⟩)
    exact fun d hd => isDigit_not_blank (hAll d hd)
  have hPoint : Char.isDigit '.' = false := by decide
  have hFilter : fraction.filter Char.isDigit = fraction := List.filter_eq_self.mpr hAll
  constructor
  · simpa [parseDouble, hTrim, h, hPoint] using hAll
  · simp [decimalValue, h, hPoint, hFilter, isDigit_not_point h]

/-- A quality is read as the number it stands for. -/
theorem quality_read {w : Word} (h : IsQuality w) : parseDouble w = some (decimalValue w) ∧ decimalValue w ≤ 1 := by
  obtain ⟨whole, fraction, hForm, -, hDigits⟩ := h
  have hWhole : whole.isDigit = true := by
    rcases hDigits with ⟨rfl, -⟩ | ⟨rfl, -⟩
    · rfl
    · rfl
  have hFraction : ∀ c ∈ fraction, c.isDigit = true := by
    rcases hDigits with ⟨-, hAll⟩ | ⟨-, hAll⟩
    · exact hAll
    · exact fun c hc => by rw [hAll c hc]; rfl
  have hMost : valueOf 10 (whole :: fraction) ≤ 10 ^ fraction.length := by
    rcases hDigits with ⟨rfl, hAll⟩ | ⟨rfl, hAll⟩
    · exact (digits_valueOf_lt hAll).le
    · exact (one_zeros_valueOf hAll).le
  have hMost' : (valueOf 10 (whole :: fraction) : ℚ) ≤ 10 ^ fraction.length := by exact_mod_cast hMost
  rcases hForm with ⟨rfl, rfl⟩ | rfl
  · obtain ⟨hParse, hValue⟩ := parseDouble_digit hWhole
    rw [hParse, hValue]
    exact ⟨rfl, by simpa using hMost'⟩
  · obtain ⟨hParse, hValue⟩ := parseDouble_fraction hWhole hFraction
    rw [hParse, hValue]
    exact ⟨rfl, div_le_one_of_le₀ hMost' (by positivity)⟩

theorem quality_chars {w : Word} (h : IsQuality w) : w ≠ [] ∧ ∀ c ∈ w, c.isDigit = true ∨ c = '.' := by
  obtain ⟨whole, fraction, hForm, -, hDigits⟩ := h
  have hWhole : whole.isDigit = true := by
    rcases hDigits with ⟨rfl, -⟩ | ⟨rfl, -⟩
    · rfl
    · rfl
  rcases hForm with ⟨rfl, -⟩ | rfl
  · exact ⟨List.cons_ne_nil _ _, fun c hc => .inl (List.mem_singleton.mp hc ▸ hWhole)⟩
  · refine ⟨List.cons_ne_nil _ _, List.forall_mem_cons.mpr ⟨.inl hWhole, List.forall_mem_cons.mpr ⟨.inr rfl, ?_⟩⟩⟩
    intro c hc
    rcases hDigits with ⟨-, hAll⟩ | ⟨-, hAll⟩
    · exact .inl (hAll c hc)
    · exact .inl (by rw [hAll c hc]; rfl)

/-- Behind the type a quality is read from the second part. -/
theorem qualityOf_second {first w : Word} (hQuality : IsQuality w) (hPos : 0 < decimalValue w) (more : List Word) :
    MediaType.qualityOf (first :: ('q' :: '=' :: w) :: more) = decimalValue w := by
  obtain ⟨hSome, hChars⟩ := quality_chars hQuality
  obtain ⟨hParse, hMost⟩ := quality_read hQuality
  have hSplit : split '=' ('q' :: '=' :: w) = [['q'], w] := by
    refine split_pair (p := ['q']) (List.cons_ne_nil _ _) (by decide) hSome fun hMem => ?_
    exact (hChars '=' hMem).elim (by decide) (by decide)
  rw [MediaType.qualityOf, params_find hSplit more]
  dsimp only
  rw [hParse]
  exact if_pos ⟨hPos, hMost⟩

/-- Behind the quality nothing or a semicolon. -/
theorem extensions_text {ps : List Parameter} (h : ∀ p ∈ ps, p.before = []) :
    ps.flatMap Parameter.text = [] ∨ ∃ more, ps.flatMap Parameter.text = ';' :: more := by
  cases ps with
  | nil => exact .inl rfl
  | cons p ps =>
    refine .inr ⟨p.after ++ (p.name ++ p.value.elim [] ('=' :: ·)) ++ ps.flatMap Parameter.text, ?_⟩
    rw [List.flatMap_cons, Parameter.text, h p List.mem_cons_self]
    rfl

theorem token_free {c : Char} (hc : isTokenChar c = false) {w : Word} (h : IsToken w) : c ∉ w := by
  intro hMem
  rw [h.2 c hMem] at hc
  cases hc

theorem plain_asRead (h : Plain r) : ReadAs r r.asRead := by
  have hType : r.typeText = r.primaryType ++ '/' :: r.subType := by rw [MediaRange.typeText, h.before, List.nil_append]
  have hFree : ';' ∉ r.typeText := by
    simp only [hType, List.mem_append, List.mem_cons, not_or]
    exact ⟨token_free (by decide) r.hPrimary, by decide, token_free (by decide) r.hSub⟩
  have hNone : r.typeText ≠ [] := by
    rw [hType]
    exact List.append_ne_nil_of_left_ne_nil r.hPrimary.1 _
  -- The parts that a text without blanks has.
  have hParts : ∃ parts, split ';' r.text = r.typeText :: parts ∧
      MediaType.qualityOf (r.typeText :: parts) = r.value := by
    have hText : r.text = r.typeText ++ (r.quality.elim [] Quality.text ++ r.extensions.flatMap Parameter.text) := by
      simp only [MediaRange.text, hType, h.before, h.parameters, h.after, List.flatMap_nil, List.nil_append,
        List.append_nil, List.append_assoc, List.cons_append]
    cases hQuality : r.quality with
    | none =>
      refine ⟨[], ?_, by rw [MediaRange.value, hQuality]; rfl⟩
      rw [hText, hQuality, r.hExtensions hQuality, Option.elim_none, List.flatMap_nil, List.append_nil, List.append_nil,
        split_whole hFree]
    | some q =>
      obtain ⟨hBefore, hAfter, hName, hPos⟩ := h.quality q hQuality
      obtain ⟨-, hChars⟩ := quality_chars q.hValue
      have hQuality' : q.text = ';' :: ('q' :: '=' :: q.value) := by
        rw [Quality.text, hBefore, hAfter, hName]
        rfl
      have hSecond : ';' ∉ 'q' :: '=' :: q.value := by
        simp only [List.mem_cons, not_or]
        exact ⟨by decide, by decide, fun hMem => (hChars ';' hMem).elim (by decide) (by decide)⟩
      obtain ⟨more, hMore⟩ : ∃ more, split ';' r.text = r.typeText :: ('q' :: '=' :: q.value) :: more := by
        rw [hText, hQuality, Option.elim_some, hQuality', List.cons_append,
          split_cons hNone hFree (List.append_ne_nil_of_left_ne_nil (List.cons_ne_nil _ _) _)]
        rcases extensions_text h.extensions with hNo | ⟨more, hMore⟩
        · exact ⟨[], by rw [hNo, List.append_nil, split_whole hSecond]⟩
        · exact ⟨_, by rw [hMore, split_first (List.cons_ne_nil _ _) hSecond]⟩
      refine ⟨_, hMore, ?_⟩
      rw [qualityOf_second q.hValue hPos, MediaRange.value, hQuality]
      rfl
  obtain ⟨parts, hSplit, hValue⟩ := hParts
  have hSlash : split '/' r.typeText = [r.primaryType, r.subType] := by
    rw [hType]
    exact split_pair r.hPrimary.1 (slash_not_mem r.hPrimary) r.hSub.1 (slash_not_mem r.hSub)
  have hRead : MediaType.ofText r.text = .ok ⟨r.typeText, r.primaryType, r.subType, r.value⟩ := by
    rw [MediaType.ofText, hSplit]
    dsimp only
    rw [hSlash, ← hValue]
  rw [Except.ok.inj (r.ofText_asRead.symm.trans hRead)]
  exact ⟨hType, rfl, rfl, rfl, h.parameters⟩

theorem plain_read {h : Accept} (hPlain : ∀ r ∈ h, Plain r) : h.Read := by
  by_cases hSome : h = []
  · rw [hSome]
    exact ⟨[⟨[], [], [], 1⟩], rfl, .inl rfl⟩
  · refine ⟨h.map MediaRange.asRead, split_text hSome fun r hr => (hPlain r hr).comma, .inr ?_⟩
    rw [List.forall₂_map_right_iff]
    exact List.forall₂_same.mpr fun r hr => plain_asRead (hPlain r hr)

def textHtml : Responder := ⟨"text".toList, "html".toList⟩

def applicationXml : Responder := ⟨"application".toList, "xml".toList⟩

theorem isName_of_all {w : Word} (h : w ≠ [] ∧ w.all isTokenChar = true) (hStar : w ≠ ['*']) : IsName w :=
  ⟨⟨h.1, List.all_eq_true.mp h.2⟩, hStar⟩

theorem html_distinct : Distinct ⟨textHtml, [applicationXml]⟩ :=
  distinct_pair ⟨isName_of_all (by decide) (by decide), isName_of_all (by decide) (by decide)⟩
    ⟨isName_of_all (by decide) (by decide), isName_of_all (by decide) (by decide)⟩ (by decide)

/-- `;q=0.5` -/
def half : Quality where
  before := []
  after := []
  name := ['q']
  value := ['0', '.', '5']
  hBefore := nofun
  hAfter := nofun
  hName := .inl rfl
  hValue := ⟨'0', ['5'], .inr rfl, by decide, .inl ⟨rfl, forall_mem_of_all (by decide)⟩⟩

/-- `text/html;q=0.5` -/
def htmlRange : MediaRange where
  before := []
  primaryType := "text".toList
  subType := "html".toList
  parameters := []
  quality := some half
  extensions := []
  after := []
  hBefore := nofun
  hPrimary := (isName_of_all (by decide) (by decide)).1
  hSub := (isName_of_all (by decide) (by decide)).1
  hWild := by decide
  hParameters := nofun
  hExtensions := nofun
  hAfter := nofun

/-- `application/xml` with a blank before it. -/
def xmlRange : MediaRange where
  before := [' ']
  primaryType := "application".toList
  subType := "xml".toList
  parameters := []
  quality := none
  extensions := []
  after := []
  hBefore := fun c hc => .inl (List.mem_singleton.mp hc)
  hPrimary := (isName_of_all (by decide) (by decide)).1
  hSub := (isName_of_all (by decide) (by decide)).1
  hWild := by decide
  hParameters := nofun
  hExtensions := fun _ => rfl
  hAfter := nofun

theorem html_plain : Plain htmlRange where
  before := rfl
  parameters := rfl
  after := rfl
  quality q hq := by
    obtain rfl : half = q := Option.some.inj hq
    exact ⟨rfl, rfl, rfl, by with_unfolding_all decide⟩
  extensions := nofun
  comma := by decide

end Dap4Responder

end Libdap.Olfs
