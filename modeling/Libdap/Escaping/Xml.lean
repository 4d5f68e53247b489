import Libdap.Constraint.Word
import Libdap.Core.InPlace

/-! # Entities of XML

`id2xml` writes five characters as entities in one pass. `xml2id` takes them back in five passes, each over the whole
text, that look for the next entity from the place of the last one on.
-/

namespace Libdap.Escaping
open Constraint InPlace
set_option autoImplicit false

/-- `entity`, for the characters that it knows: those of the default of `not_allowed`. -/
def entity : Char → Option Word
  | '>' => some ['&', 'g', 't', ';']
  | '<' => some ['&', 'l', 't', ';']
  | '&' => some ['&', 'a', 'm', 'p', ';']
  | '\'' => some ['&', 'a', 'p', 'o', 's', ';']
  | '"' => some ['&', 'q', 'u', 'o', 't', ';']
  | _ => none

/-- The loop of `id2xml` steps over the first character of what it put in. -/
def entityAt : Word → Option (Edit Char)
  | [] => none
  | c :: _ => (entity c).map fun w => ⟨1, w, 1⟩

def id2xml (s : Word) : Option Word := sweep entityAt (s.length + 1) s 0

def decodeAt (w : Word) (c : Char) (r : Word) : Option (Edit Char) :=
  if w.isPrefixOf r then some ⟨w.length, [c], 0⟩ else none

/-- One of the passes of `xml2id`. -/
def decodeAll (w : Word) (c : Char) (s : Word) : Option Word := sweep (decodeAt w c) (s.length + 1) s 0

def xml2id (s : Word) : Option Word := do
  let s ← decodeAll ['&', 'g', 't', ';'] '>' s
  let s ← decodeAll ['&', 'l', 't', ';'] '<' s
  let s ← decodeAll ['&', 'a', 'm', 'p', ';'] '&' s
  let s ← decodeAll ['&', 'a', 'p', 'o', 's', ';'] '\'' s
  decodeAll ['&', 'q', 'u', 'o', 't', ';'] '"' s

/-- The text with these of its characters written as entities. -/
def encoded (chars : List Char) (s : Word) : Word :=
  s.flatMap fun c => if c ∈ chars then (entity c).getD [c] else [c]

/-- The characters that have an entity. -/
def special : List Char := ['>', '<', '&', '\'', '"']

theorem entity_eq_none {c : Char} (h : c ∉ special) : entity c = none := by
  rw [special] at h
  unfold entity
  split
  · exact absurd (by decide) h
  · exact absurd (by decide) h
  · exact absurd (by decide) h
  · exact absurd (by decide) h
  · exact absurd (by decide) h
  · rfl

theorem entity_of_mem {c : Char} (h : c ∈ special) : ∃ q, entity c = some ('&' :: q) ∧ ∀ d ∈ q, d ∉ special := by
  rw [special] at h
  simp only [List.mem_cons, List.not_mem_nil, or_false] at h
  rcases h with rfl | rfl | rfl | rfl | rfl
  · exact ⟨_, rfl, by simp [special]⟩
  · exact ⟨_, rfl, by simp [special]⟩
  · exact ⟨_, rfl, by simp [special]⟩
  · exact ⟨_, rfl, by simp [special]⟩
  · exact ⟨_, rfl, by simp [special]⟩

theorem mem_of_entity {c : Char} {w : Word} (h : entity c = some w) : c ∈ special := by
  by_contra hNone
  rw [entity_eq_none hNone] at h
  cases h

theorem entity_name_ne {c : Char} {q : Word} (h : entity c = some ('&' :: q)) : q ≠ [] := by
  rintro rfl
  unfold entity at h
  split at h <;> cases h

/-- No entity is the beginning of another. -/
theorem entity_mismatch {c d : Char} (hcd : c ≠ d) {q w : Word} (hc : entity c = some ('&' :: q))
    (hd : entity d = some ('&' :: w)) (x : Word) : q.isPrefixOf (w ++ x) = false := by
  have hcMem := mem_of_entity hc
  have hdMem := mem_of_entity hd
  rw [special] at hcMem hdMem
  simp only [List.mem_cons, List.not_mem_nil, or_false] at hcMem hdMem
  rcases hcMem with rfl | rfl | rfl | rfl | rfl <;> rcases hdMem with rfl | rfl | rfl | rfl | rfl <;> cases hc <;>
    cases hd <;> first | rfl | exact absurd rfl hcd

@[simp] theorem encoded_nil (chars : List Char) : encoded chars [] = [] := rfl

@[simp] theorem encoded_append (chars : List Char) (s t : Word) :
    encoded chars (s ++ t) = encoded chars s ++ encoded chars t := List.flatMap_append

theorem encoded_of_mem {chars : List Char} {c : Char} (h : c ∈ chars) {w : Word} (hw : entity c = some w) (cs : Word) :
    encoded chars (c :: cs) = w ++ encoded chars cs := by
  rw [encoded, List.flatMap_cons, if_pos h, hw]
  rfl

theorem encoded_of_not_mem {chars : List Char} {c : Char} (h : c ∉ chars) (cs : Word) :
    encoded chars (c :: cs) = c :: encoded chars cs := by
  rw [encoded, List.flatMap_cons, if_neg h]
  rfl

theorem encoded_of_plain {chars : List Char} {s : Word} (h : ∀ c ∈ s, c ∉ chars) : encoded chars s = s := by
  induction s with
  | nil => rfl
  | cons c cs ih =>
    rw [encoded_of_not_mem (h c List.mem_cons_self), ih fun d hd => h d (List.mem_cons_of_mem c hd)]

/-- A text without special characters stands at the front of an encoded text as it stands at the front of the text. -/
theorem isPrefixOf_encoded {chars : List Char} (hChars : ∀ c ∈ chars, c ∈ special) {q : Word}
    (hq : ∀ d ∈ q, d ∉ special) (s : Word) : q.isPrefixOf (encoded chars s) = q.isPrefixOf s := by
  induction q generalizing s with
  | nil => simp
  | cons d q ih =>
    cases s with
    | nil => rfl
    | cons c cs =>
      have hd := hq d List.mem_cons_self
      by_cases hc : c ∈ chars
      · obtain ⟨w, hw, -⟩ := entity_of_mem (hChars c hc)
        have hAmp : (d == '&') = false := beq_false_of_ne fun h => hd (h ▸ by decide)
        have hHead : (d == c) = false := beq_false_of_ne fun h => hd (h ▸ hChars c hc)
        rw [encoded_of_mem hc hw, List.cons_append, List.isPrefixOf_cons_cons, List.isPrefixOf_cons_cons, hAmp, hHead]
        rfl
      · rw [encoded_of_not_mem hc, List.isPrefixOf_cons_cons, List.isPrefixOf_cons_cons,
          ih fun x hx => hq x (List.mem_cons_of_mem d hx)]

/-- All special characters are written in one pass. -/
theorem id2xml_eq (s : Word) : id2xml s = some (encoded special s) := by
  apply sweep_flatMap
  intro c _ cs
  by_cases hc : c ∈ special
  · obtain ⟨q, hEntity, hPlain⟩ := entity_of_mem hc
    rw [if_pos hc, hEntity]
    refine .inr ⟨1, Nat.succ_le_succ (Nat.zero_le _), by rw [entityAt, hEntity]; rfl, fun d hd ds => ?_⟩
    rw [entityAt, entity_eq_none (hPlain d hd)]
    rfl
  · rw [if_neg hc]
    exact .inl ⟨by rw [entityAt, entity_eq_none hc]; rfl, rfl⟩

section
variable {c : Char} {q : Word} {chars : List Char}

theorem decodeAt_skip {w : Word} {d : Char} (h : d ≠ '&') (cs : Word) : decodeAt ('&' :: w) c (d :: cs) = none := by
  rw [decodeAt, List.isPrefixOf_cons_cons, beq_false_of_ne h.symm]
  rfl

theorem decodeAt_none {w cs : Word} (h : w.isPrefixOf cs = false) : decodeAt ('&' :: w) c ('&' :: cs) = none := by
  rw [decodeAt, List.isPrefixOf_cons_cons, h]
  rfl

theorem decodeAt_hit (w cs : Word) : decodeAt ('&' :: w) c ('&' :: (w ++ cs)) = some ⟨w.length + 1, [c], 0⟩ := by
  have hPrefix : ('&' :: w).isPrefixOf ('&' :: (w ++ cs)) = true :=
    List.isPrefixOf_iff_prefix.mpr (List.prefix_append ('&' :: w) cs)
  rw [decodeAt, if_pos hPrefix]
  rfl

/-- The entity becomes its character, and the search goes on at the character. -/
theorem gives_entity (w cs : Word) {t : Word} :
    Gives (decodeAt ('&' :: w) c) ('&' :: (w ++ cs)) t ↔ Gives (decodeAt ('&' :: w) c) (c :: cs) t := by
  rw [Gives.hit_iff (by simp) (decodeAt_hit w cs) rfl]
  dsimp only
  rw [List.drop_succ_cons, List.drop_left]
  rfl

theorem gives_plain {w t cs : Word} {p : Word} (hp : '&' ∉ p) (h : Gives (decodeAt ('&' :: w) c) cs t) :
    Gives (decodeAt ('&' :: w) c) (p ++ cs) (p ++ t) := by
  induction p with
  | nil => exact h
  | cons d p ih =>
    rw [List.mem_cons, not_or] at hp
    exact .skip (decodeAt_skip (Ne.symm hp.1) _) (ih hp.2)

/-- The pass goes by the entity of another character. -/
theorem gives_other (hc : entity c = some ('&' :: q)) {d : Char} (hcd : c ≠ d) {w : Word}
    (hd : entity d = some ('&' :: w)) (hw : '&' ∉ w) {cs t : Word} (h : Gives (decodeAt ('&' :: q) c) cs t) :
    Gives (decodeAt ('&' :: q) c) ('&' :: w ++ cs) ('&' :: w ++ t) :=
  .skip (decodeAt_none (entity_mismatch hcd hc hd cs)) (gives_plain hw h)

variable (c chars) in
/-- A pass while the ampersands are entities finds what was encoded, and nothing else. -/
theorem gives_before (hc : entity c = some ('&' :: q)) (hNew : c ∉ chars) (hChars : ∀ d ∈ chars, d ∈ special)
    (hAmp : '&' ∈ chars) (s : Word) :
    Gives (decodeAt ('&' :: q) c) (encoded (c :: chars) s) (encoded chars s) := by
  have hcAmp : c ≠ '&' := fun h => hNew (h ▸ hAmp)
  induction s with
  | nil => exact .nil _
  | cons d s ih =>
    by_cases hd : d = c
    · subst hd
      rw [encoded_of_mem List.mem_cons_self hc, encoded_of_not_mem hNew, List.cons_append, gives_entity]
      exact .skip (decodeAt_skip hcAmp _) ih
    · by_cases hMem : d ∈ chars
      · obtain ⟨w, hw, hPlain⟩ := entity_of_mem (hChars d hMem)
        rw [encoded_of_mem (List.mem_cons_of_mem c hMem) hw, encoded_of_mem hMem hw]
        exact gives_other hc (Ne.symm hd) hw (fun h => hPlain _ h (by decide)) ih
      · rw [encoded_of_not_mem (by simp [hd, hMem]), encoded_of_not_mem hMem]
        refine .skip (decodeAt_skip ?_ _) ih
        rintro rfl
        exact hMem hAmp

variable (chars) in
/-- A pass once the ampersands are, or are becoming, plain does what it does to the text that was encoded. -/
theorem gives_after (hc : entity c = some ('&' :: q)) (hNew : c ∉ chars) (hChars : ∀ d ∈ chars, d ∈ special)
    (hAmp : '&' ∉ chars) (n : Nat) (s t : Word) (hn : s.length ≤ n) (h : Gives (decodeAt ('&' :: q) c) s t) :
    Gives (decodeAt ('&' :: q) c) (encoded (c :: chars) s) (encoded chars t) ∧
      ∀ d rest, s = d :: rest → d ∉ chars →
        Gives (decodeAt ('&' :: q) c) (d :: encoded (c :: chars) rest) (encoded chars t) := by
  induction n generalizing s t with
  | zero =>
    obtain rfl := List.length_eq_zero_iff.mp (Nat.le_zero.mp hn)
    obtain rfl := Gives.unique h (.nil _)
    exact ⟨.nil _, fun d rest hCons => absurd hCons (by simp)⟩
  | succ n ih =>
    cases s with
    | nil =>
      obtain rfl := Gives.unique h (.nil _)
      exact ⟨.nil _, fun d rest hCons => absurd hCons (by simp)⟩
    | cons d rest =>
      have hRest : rest.length ≤ n := Nat.le_of_succ_le_succ hn
      have hSpecial := mem_of_entity hc
      have hAll : ∀ x ∈ c :: chars, x ∈ special := by
        rintro x (_ | ⟨_, hx⟩)
        · exact hSpecial
        · exact hChars x hx
      obtain ⟨q', hq', hPlain⟩ := entity_of_mem hSpecial
      obtain rfl : q' = q := by
        rw [hq'] at hc
        cases hc
        rfl
      -- the head as it is, the rest encoded
      have hHead : d ∉ chars → Gives (decodeAt ('&' :: q') c) (d :: encoded (c :: chars) rest) (encoded chars t) := by
        intro hd
        by_cases hdAmp : d = '&'
        · subst hdAmp
          by_cases hPrefix : q'.isPrefixOf rest = true
          · obtain ⟨r, rfl⟩ := List.isPrefixOf_iff_prefix.mp hPrefix
            rw [gives_entity] at h
            have hLength : (c :: r).length ≤ n := by
              have hPos := List.length_pos_iff.mpr (entity_name_ne hc)
              rw [List.length_append] at hRest
              rw [List.length_cons]
              omega
            have hName : encoded (c :: chars) q' = q' := encoded_of_plain fun x hx hIn => hPlain x hx (hAll x hIn)
            rw [encoded_append, hName, gives_entity]
            exact (ih (c :: r) t hLength h).2 c r rfl hNew
          · rw [Bool.not_eq_true] at hPrefix
            obtain ⟨t', rfl, hTail⟩ := (Gives.skip_iff (decodeAt_none hPrefix)).mp h
            rw [encoded_of_not_mem hd]
            refine .skip (decodeAt_none ?_) (ih rest t' hRest hTail).1
            rw [isPrefixOf_encoded hAll hPlain]
            exact hPrefix
        · obtain ⟨t', rfl, hTail⟩ := (Gives.skip_iff (decodeAt_skip hdAmp _)).mp h
          rw [encoded_of_not_mem hd]
          exact .skip (decodeAt_skip hdAmp _) (ih rest t' hRest hTail).1
      refine ⟨?_, fun d' rest' hCons hd => ?_⟩
      · by_cases hdc : d = c
        · subst hdc
          rw [encoded_of_mem List.mem_cons_self hc, List.cons_append, gives_entity]
          exact hHead hNew
        · by_cases hMem : d ∈ chars
          · obtain ⟨w, hw, hwPlain⟩ := entity_of_mem (hChars d hMem)
            have hdAmp : d ≠ '&' := fun hEq => hAmp (hEq ▸ hMem)
            obtain ⟨t', rfl, hTail⟩ := (Gives.skip_iff (decodeAt_skip hdAmp _)).mp h
            rw [encoded_of_mem (List.mem_cons_of_mem c hMem) hw, encoded_of_mem hMem hw]
            exact gives_other hc (Ne.symm hdc) hw (fun hIn => hwPlain _ hIn (by decide)) (ih rest t' hRest hTail).1
          · rw [encoded_of_not_mem (by simp [hdc, hMem])]
            exact hHead hMem
      · cases hCons
        exact hHead hd

/-- A pass shortens the text unless it finds nothing. -/
theorem length_of_gives (hc : entity c = some ('&' :: q)) {s t : Word} (h : Gives (decodeAt ('&' :: q) c) s t) :
    t.length ≤ s.length ∧ (t.length = s.length → ¬ ('&' :: q) <:+: s) := by
  have hShort : ∀ r e, decodeAt ('&' :: q) c r = some e → e.cut ≤ r.length ∧ e.put.length < e.cut := by
    intro r e he
    rw [decodeAt] at he
    split at he
    · rename_i hPrefix
      cases he
      have hPos := List.length_pos_iff.mpr (entity_name_ne hc)
      exact ⟨(List.isPrefixOf_iff_prefix.mp hPrefix).length_le, Nat.succ_lt_succ hPos⟩
    · cases he
  obtain ⟨hLength, hNone⟩ := Gives.length_le hShort h
  refine ⟨hLength, fun hEq hInfix => ?_⟩
  obtain ⟨a, b, rfl⟩ := hInfix
  have hAt := hNone hEq a.length (by simp)
  rw [List.append_assoc, List.drop_left, List.cons_append, decodeAt_hit] at hAt
  cases hAt

theorem gives_self {w : Word} {s : Word} (h : ¬ w <:+: s) : Gives (decodeAt w c) s s := by
  apply Gives.of_none
  intro j _
  rw [decodeAt, if_neg]
  intro hPrefix
  obtain ⟨r, hr⟩ := List.isPrefixOf_iff_prefix.mp hPrefix
  exact h ⟨s.take j, r, by rw [List.append_assoc, hr, List.take_append_drop]⟩

/-- The turns that are allowed are enough. -/
theorem decodeAll_some (hc : entity c = some ('&' :: q)) (s : Word) : ∃ t, decodeAll ('&' :: q) c s = some t := by
  apply sweep_total _ _ _ _ (Nat.zero_le _) (Nat.lt_succ_self _)
  intro r e he
  rw [decodeAt] at he
  split at he
  · rename_i hPrefix
    cases he
    have hPos := List.length_pos_iff.mpr (entity_name_ne hc)
    have hLength := (List.isPrefixOf_iff_prefix.mp hPrefix).length_le
    simp only [List.length_append, List.length_drop, List.length_cons, List.length_nil] at hLength ⊢
    omega
  · cases he

theorem decodeAll_eq (hc : entity c = some ('&' :: q)) {s t : Word} (h : Gives (decodeAt ('&' :: q) c) s t) :
    decodeAll ('&' :: q) c s = some t := h.sweep_eq (decodeAll_some hc s)

theorem gives_some (hc : entity c = some ('&' :: q)) (s : Word) : ∃ t, Gives (decodeAt ('&' :: q) c) s t := by
  obtain ⟨t, ht⟩ := decodeAll_some hc s
  exact ⟨t, _, ht⟩

end

/-- `xml2id` ends on every text. -/
theorem xml2id_some (s : Word) : (xml2id s).isSome := by
  obtain ⟨a, ha⟩ := decodeAll_some (c := '>') rfl s
  obtain ⟨b, hb⟩ := decodeAll_some (c := '<') rfl a
  obtain ⟨d, hd⟩ := decodeAll_some (c := '&') rfl b
  obtain ⟨e, he⟩ := decodeAll_some (c := '\'') rfl d
  obtain ⟨t, ht⟩ := decodeAll_some (c := '"') rfl e
  rw [xml2id, ha]
  dsimp only [bind, Option.bind]
  rw [hb]
  dsimp only
  rw [hd]
  dsimp only
  rw [he]
  dsimp only
  rw [ht]
  rfl

/-- The passes for what is encoded last, on the text itself. -/
theorem xml2id_encoded (s : Word) : ∃ a b t, Gives (decodeAt ['&', 'a', 'm', 'p', ';'] '&') s a ∧
    Gives (decodeAt ['&', 'a', 'p', 'o', 's', ';'] '\'') a b ∧
    Gives (decodeAt ['&', 'q', 'u', 'o', 't', ';'] '"') b t ∧ xml2id (encoded special s) = some t := by
  obtain ⟨a, ha⟩ := gives_some (c := '&') rfl s
  obtain ⟨b, hb⟩ := gives_some (c := '\'') rfl a
  obtain ⟨t, ht⟩ := gives_some (c := '"') rfl b
  have hGt := gives_before '>' ['<', '&', '\'', '"'] rfl (by decide) (by simp [special]) (by decide) s
  have hLt := gives_before '<' ['&', '\'', '"'] rfl (by decide) (by simp [special]) (by decide) s
  have hAmp := (gives_after ['\'', '"'] rfl (by decide) (by simp [special]) (by decide) _ s a (Nat.le_refl _) ha).1
  have hApos := (gives_after ['"'] rfl (by decide) (by simp [special]) (by decide) _ a b (Nat.le_refl _) hb).1
  have hQuot := (gives_after [] rfl (by decide) (by simp [special]) (by decide) _ b t (Nat.le_refl _) ht).1
  refine ⟨a, b, t, ha, hb, ht, ?_⟩
  rw [xml2id]
  have hPlain : encoded [] t = t := encoded_of_plain (by simp)
  rw [hPlain] at hQuot
  rw [special, decodeAll_eq rfl hGt]
  dsimp only [bind, Option.bind]
  rw [decodeAll_eq rfl hLt]
  dsimp only
  rw [decodeAll_eq rfl hAmp]
  dsimp only
  rw [decodeAll_eq rfl hApos]
  exact decodeAll_eq rfl hQuot

/-- A text is read back from its escaped form if and only if it has none of the three entities that `xml2id` looks for
after the ampersands. -/
theorem xml2id_id2xml (s : Word) : (id2xml s >>= xml2id) = some s ↔
    ¬ ['&', 'a', 'm', 'p', ';'] <:+: s ∧ ¬ ['&', 'a', 'p', 'o', 's', ';'] <:+: s ∧
      ¬ ['&', 'q', 'u', 'o', 't', ';'] <:+: s := by
  obtain ⟨a, b, t, ha, hb, ht, hRun⟩ := xml2id_encoded s
  rw [id2xml_eq]
  change xml2id (encoded special s) = some s ↔ _
  rw [hRun, Option.some.injEq]
  constructor
  · intro hEq
    obtain ⟨hLengthA, hNoneA⟩ := length_of_gives (c := '&') rfl ha
    obtain ⟨hLengthB, hNoneB⟩ := length_of_gives (c := '\'') rfl hb
    obtain ⟨hLengthT, hNoneT⟩ := length_of_gives (c := '"') rfl ht
    have hLength := congrArg List.length hEq
    have hAmp := hNoneA (by omega)
    obtain rfl := ha.unique (gives_self hAmp)
    have hApos := hNoneB (by omega)
    obtain rfl := hb.unique (gives_self hApos)
    exact ⟨hAmp, hApos, hNoneT (by omega)⟩
  · rintro ⟨hAmp, hApos, hQuot⟩
    obtain rfl := ha.unique (gives_self hAmp)
    obtain rfl := hb.unique (gives_self hApos)
    exact ht.unique (gives_self hQuot)

theorem apostrophe_entity_lost : (id2xml ['&', 'a', 'p', 'o', 's', ';'] >>= xml2id) = some ['\''] ∧
    ¬ (id2xml ['&', 'a', 'p', 'o', 's', ';'] >>= xml2id) = some ['&', 'a', 'p', 'o', 's', ';'] := by
  decide

end Libdap.Escaping
