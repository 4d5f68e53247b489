import Libdap.Core.Fault

/-! # The tags of nested Sequences

`tag_nested_sequences` marks the Sequences of a dataset as top-most and as leaves. The level that it
counts grows with every Sequence that it meets, also with a sibling.
-/

namespace Libdap.Dap2
open Core
set_option autoImplicit false

structure SequenceFlags where
  sendP : Bool
  topMost : Bool
  leaf : Bool
  deriving DecidableEq, Repr

/-- A variable as far as the tags go. Everything but a Structure or a Sequence is simple. -/
inductive Member
  | simple
  | struct (vars : List Member)
  | seq (flags : SequenceFlags) (vars : List Member)

def isSequence : Member → Bool
  | .seq _ _ => true
  | _ => false

def sentSequence : Member → Bool
  | .seq f _ => f.sendP
  | _ => false

def nestedTwice : Fault :=
  .Error "This implementation does not support more than one nested sequence at a level. Contact the server administrator."

/-- The Sequence after `set_leaf_sequence` at the level, when the loop over its variables ended so. -/
def tagged (lvl : Int) (f : SequenceFlags) (inner : List Member × Bool) : Member :=
  .seq { f with topMost := f.topMost || lvl = 1, leaf := !inner.2 } inner.1

mutual

/-- `set_leaf_sequence` of a Sequence or a Structure. -/
def setLeafSequence (lvl : Int) : Member → Except Fault Member
  | .simple => .ok .simple
  | .struct vars => do
    let inner ← structureLoop lvl vars
    .ok (.struct inner)
  | .seq f vars => do
    let inner ← sequenceLoop lvl false vars
    .ok (tagged lvl f inner)

/-- The loop of `Sequence::set_leaf_sequence`, with `has_child_sequence`. -/
def sequenceLoop (lvl : Int) (hasChild : Bool) : List Member → Except Fault (List Member × Bool)
  | [] => .ok ([], hasChild)
  | v :: vs =>
    if sentSequence v then
      if hasChild then .error nestedTwice
      else do
        let w ← setLeafSequence (lvl + 1) v
        let rest ← sequenceLoop (lvl + 1) true vs
        .ok (w :: rest.1, rest.2)
    else if isSequence v then do
      let rest ← sequenceLoop lvl hasChild vs
      .ok (v :: rest.1, rest.2)
    else do
      let w ← setLeafSequence lvl v
      let rest ← sequenceLoop lvl hasChild vs
      .ok (w :: rest.1, rest.2)

/-- The loop of `Structure::set_leaf_sequence`. -/
def structureLoop (level : Int) : List Member → Except Fault (List Member)
  | [] => .ok []
  | v :: vs =>
    if isSequence v then do
      let w ← setLeafSequence (level + 1) v
      let rest ← structureLoop (level + 1) vs
      .ok (w :: rest)
    else do
      let w ← setLeafSequence level v
      let rest ← structureLoop level vs
      .ok (w :: rest)

end

/-- `DDS::tag_nested_sequences` -/
def tagNestedSequences : List Member → Except Fault (List Member)
  | [] => .ok []
  | v :: vs => do
    let w ← setLeafSequence 1 v
    let rest ← tagNestedSequences vs
    .ok (w :: rest)

/-! ## What the tags say -/

mutual

/-- A Sequence that the tagging reaches, from here on, has two nested ones to send. -/
def refused : Member → Bool
  | .simple => false
  | .struct vars => structureRefused vars
  | .seq _ vars => sequenceRefused vars

def sequenceRefused : List Member → Bool
  | [] => false
  | v :: vs =>
    (if sentSequence v then vs.any sentSequence || refused v else !isSequence v && refused v) ||
      sequenceRefused vs

/-- Among the variables of a Structure, or of a dataset. -/
def structureRefused : List Member → Bool
  | [] => false
  | v :: vs => refused v || structureRefused vs

end

mutual

def sent : Member → Bool
  | .simple => false
  | .struct vars => sentBelow vars
  | .seq f vars => f.sendP || sentBelow vars

/-- A Sequence with `send_p` among the variables, at any depth. -/
def sentBelow : List Member → Bool
  | [] => false
  | v :: vs => sent v || sentBelow vs

end

def sentInStructures (vars : List Member) : Bool := vars.any fun v => !isSequence v && sent v

/-- Where a variable is: below a Sequence, below a Structure, in the list of a Sequence, and whether the
tagging gets to its list. -/
structure Place where
  inSequence : Bool
  inStructure : Bool
  parentSequence : Bool
  reached : Bool

def Place.dataset : Place := ⟨false, false, false, true⟩

/-- A nested Sequence without `send_p` is passed over. -/
def Place.reaches (p : Place) (f : SequenceFlags) : Bool := p.reached && (f.sendP || !p.parentSequence)

def Place.inside (p : Place) (f : SequenceFlags) : Place := ⟨true, p.inStructure, true, p.reaches f⟩

def Place.fields (p : Place) : Place := ⟨p.inSequence, true, false, p.reached⟩

mutual

/-- The variable before the tagging and after it. -/
def Tagged (p : Place) : Member → Member → Prop
  | .simple, .simple => True
  | .struct vs, .struct ws => TaggedAll p.fields vs ws
  | .seq f vs, .seq g ws =>
    g.sendP = f.sendP ∧
    (p.inSequence = true → g.topMost = f.topMost) ∧
    (p.inSequence = false → p.inStructure = false → g.topMost = true) ∧
    (p.reaches f = true → sentInStructures vs = false → g.leaf = !vs.any sentSequence) ∧
    (p.reaches f = false → g.leaf = f.leaf) ∧
    TaggedAll (p.inside f) vs ws
  | _, _ => False

def TaggedAll (p : Place) : List Member → List Member → Prop
  | [], [] => True
  | v :: vs, w :: ws => Tagged p v w ∧ TaggedAll p vs ws
  | _, _ => False

end

/-! ## The loops -/

/-- A call that throws in this case, and otherwise returns a value with the property. -/
def Ends {α : Type} (refused : Bool) (x : Except Fault α) (P : α → Prop) : Prop :=
  (refused = true → x = .error nestedTwice) ∧ (refused = false → ∃ a, x = .ok a ∧ P a)

theorem Ends.ok {α : Type} {a : α} {P : α → Prop} (h : P a) : Ends false (.ok a) P :=
  ⟨fun hRefused => absurd hRefused (by decide), fun _ => ⟨a, rfl, h⟩⟩

theorem Ends.congr {α : Type} {r r' : Bool} {x : Except Fault α} {P : α → Prop} (hx : Ends r x P)
    (h : r = r') : Ends r' x P := h ▸ hx

theorem Ends.bind {α β : Type} {r r' : Bool} {x : Except Fault α} {f : α → Except Fault β}
    {P : α → Prop} {Q : β → Prop} (hx : Ends r x P) (hf : ∀ a, P a → Ends r' (f a) Q) :
    Ends (r || r') (x >>= f) Q := by
  cases r with
  | true =>
    rw [hx.1 rfl]
    exact ⟨fun _ => rfl, fun hRefused => absurd hRefused (by simp)⟩
  | false =>
    obtain ⟨a, rfl, ha⟩ := hx.2 rfl
    exact hf a ha

mutual

theorem Tagged.same {p : Place} (hSequence : p.inSequence = true) (hReached : p.reached = false) :
    ∀ v, Tagged p v v
  | .simple => trivial
  | .struct vs => TaggedAll.same (p := p.fields) hSequence hReached vs
  | .seq f vs => by
    have hNot : p.reaches f = false := by simp [Place.reaches, hReached]
    refine ⟨rfl, fun _ => rfl, ?_, ?_, fun _ => rfl, ?_⟩
    · simp [hSequence]
    · simp [hNot]
    · exact TaggedAll.same (p := p.inside f) rfl hNot vs

theorem TaggedAll.same {p : Place} (hSequence : p.inSequence = true) (hReached : p.reached = false) :
    ∀ vs, TaggedAll p vs vs
  | [] => trivial
  | v :: vs => ⟨Tagged.same hSequence hReached v, TaggedAll.same hSequence hReached vs⟩

end

/-- The places of the variables of a Sequence that is reached. -/
structure Place.Nested (p : Place) : Prop where
  inSequence : p.inSequence = true
  parentSequence : p.parentSequence = true
  reached : p.reached = true

theorem Place.inside_nested {p : Place} {f : SequenceFlags} (h : p.reaches f = true) :
    (p.inside f).Nested := ⟨rfl, rfl, h⟩

/-- A nested Sequence that is passed over keeps its tags, with all that is below it. -/
theorem Tagged.passed {p : Place} (hp : p.Nested) {v : Member} (hSequence : isSequence v = true)
    (hNot : sentSequence v = false) : Tagged p v v := by
  cases v with
  | simple => cases hSequence
  | struct vs => cases hSequence
  | seq f vs =>
    have hPassed : p.reaches f = false := by
      change f.sendP = false at hNot
      simp [Place.reaches, hp.parentSequence, hNot]
    refine ⟨rfl, fun _ => rfl, ?_, ?_, fun _ => rfl, ?_⟩
    · simp [hp.inSequence]
    · simp [hPassed]
    · exact TaggedAll.same (p := p.inside f) rfl hPassed vs

/-- What the loop in a Sequence ends with. -/
def LoopTagged (p : Place) (hasChild : Bool) (vs : List Member) (rest : List Member × Bool) : Prop :=
  TaggedAll p vs rest.1 ∧ rest.2 = (hasChild || vs.any sentSequence)

theorem LoopTagged.cons {p : Place} {hasChild hasChild' : Bool} {v w : Member} {vs : List Member}
    {rest : List Member × Bool} (h : LoopTagged p hasChild' vs rest) (hHead : Tagged p v w)
    (hChild : hasChild' = (hasChild || sentSequence v)) :
    LoopTagged p hasChild (v :: vs) (w :: rest.1, rest.2) := by
  refine ⟨⟨hHead, h.1⟩, ?_⟩
  rw [h.2, hChild, List.any_cons, Bool.or_assoc]

/-- The level at which a variable in this place is tagged. -/
structure LevelOf (p : Place) (v : Member) (lvl : Int) : Prop where
  pos : 1 ≤ lvl
  below : isSequence v = true → p.inSequence = true → lvl ≠ 1
  top : isSequence v = true → p.inSequence = false → p.inStructure = false → lvl = 1
  reached : p.reached = true
  sent : p.parentSequence = true → isSequence v = true → sentSequence v = true

mutual

theorem setLeafSequence_ends {lvl : Int} {p : Place} :
    ∀ v, LevelOf p v lvl → Ends (refused v) (setLeafSequence lvl v) (Tagged p v)
  | .simple, _ => Ends.ok trivial
  | .struct vars, h => by
    have hInner := structureLoop_ends h.pos (p := p.fields) rfl rfl h.reached vars
    refine (hInner.bind fun inner hFields => Ends.ok ?_).congr (Bool.or_false _)
    exact hFields
  | .seq f vars, h => by
    have hReaches : p.reaches f = true := by
      rw [Place.reaches, h.reached, Bool.true_and, Bool.or_eq_true, Bool.not_eq_true']
      cases hParent : p.parentSequence with
      | false => exact .inr rfl
      | true => exact .inl (h.sent hParent rfl)
    refine ((sequenceLoop_ends h.pos (Place.inside_nested hReaches) false vars).bind
      fun inner hVars => Ends.ok ?_).congr (by simp [refused])
    refine ⟨rfl, ?_, ?_, ?_, ?_, hVars.1⟩
    · intro hSequence
      simp [h.below rfl hSequence]
    · intro hOutside hField
      simp [h.top rfl hOutside hField]
    · intro _ _
      rw [hVars.2, Bool.false_or]
    · simp [hReaches]

theorem sequenceLoop_ends {lvl : Int} (hLevel : 1 ≤ lvl) {p : Place} (hp : p.Nested) (hasChild : Bool) :
    ∀ vs, Ends (hasChild && vs.any sentSequence || sequenceRefused vs) (sequenceLoop lvl hasChild vs)
      (LoopTagged p hasChild vs)
  | [] => (Ends.ok ⟨trivial, by simp⟩).congr (by simp [sequenceRefused])
  | v :: vs => by
    rw [sequenceLoop, sequenceRefused]
    cases hSent : sentSequence v with
    | true =>
      rw [if_pos rfl, if_pos rfl]
      cases hasChild with
      | true => exact ⟨fun _ => rfl, fun hRefused => by simp [hSent] at hRefused⟩
      | false =>
        have hHead : LevelOf p v (lvl + 1) :=
          ⟨by omega, fun _ _ => by omega, fun _ hOutside => by simp [hp.inSequence] at hOutside,
            hp.reached, fun _ _ => hSent⟩
        rw [if_neg (by simp)]
        refine ((setLeafSequence_ends v hHead).bind fun w hTagged =>
          (sequenceLoop_ends (by omega : 1 ≤ lvl + 1) hp true vs).bind fun rest h =>
            Ends.ok (h.cons hTagged (by simp [hSent]))).congr ?_
        simp only [Bool.false_and, Bool.false_or, Bool.true_and, Bool.or_false]
        rw [← Bool.or_assoc, Bool.or_comm (refused v)]
    | false =>
      rw [if_neg (by simp), if_neg (by simp)]
      cases hSequence : isSequence v with
      | true =>
        rw [if_pos rfl]
        exact ((sequenceLoop_ends hLevel hp hasChild vs).bind fun rest h =>
          Ends.ok (h.cons (Tagged.passed hp hSequence hSent) (by simp [hSent]))).congr (by simp [hSent])
      | false =>
        have hHead : LevelOf p v lvl := by
          refine ⟨hLevel, ?_, ?_, hp.reached, ?_⟩ <;> simp [hSequence]
        rw [if_neg (by simp)]
        refine ((setLeafSequence_ends v hHead).bind fun w hTagged =>
          (sequenceLoop_ends hLevel hp hasChild vs).bind fun rest h =>
            Ends.ok (h.cons hTagged (by simp [hSent]))).congr ?_
        simp only [List.any_cons, hSent, Bool.false_or, Bool.or_false, Bool.not_false, Bool.true_and]
        rw [← Bool.or_assoc, ← Bool.or_assoc, Bool.or_comm (refused v)]

theorem structureLoop_ends {level : Int} (hLevel : 1 ≤ level) {p : Place}
    (hField : p.inStructure = true) (hParent : p.parentSequence = false) (hReached : p.reached = true) :
    ∀ vs, Ends (structureRefused vs) (structureLoop level vs) (TaggedAll p vs)
  | [] => Ends.ok trivial
  | v :: vs => by
    rw [structureLoop, structureRefused]
    cases hSequence : isSequence v with
    | true =>
      have hHead : LevelOf p v (level + 1) := by
        refine ⟨by omega, fun _ _ => by omega, ?_, hReached, ?_⟩
        · simp [hField]
        · simp [hParent]
      rw [if_pos rfl]
      exact ((setLeafSequence_ends v hHead).bind fun w hTagged =>
        (structureLoop_ends (by omega : 1 ≤ level + 1) hField hParent hReached vs).bind fun rest h =>
          Ends.ok ⟨hTagged, h⟩).congr (by simp)
    | false =>
      have hHead : LevelOf p v level := by
        refine ⟨hLevel, ?_, ?_, hReached, ?_⟩ <;> simp [hSequence]
      rw [if_neg (by simp)]
      exact ((setLeafSequence_ends v hHead).bind fun w hTagged =>
        (structureLoop_ends hLevel hField hParent hReached vs).bind fun rest h =>
          Ends.ok ⟨hTagged, h⟩).congr (by simp)

end

/-- `tag_nested_sequences` throws exactly when a Sequence that it reaches has two nested Sequences to
send, and otherwise sets the tags of the Sequences that it reaches. -/
theorem tagNestedSequences_ends (vars : List Member) :
    (structureRefused vars = true → tagNestedSequences vars = .error nestedTwice) ∧
    (structureRefused vars = false →
      ∃ vars', tagNestedSequences vars = .ok vars' ∧ TaggedAll .dataset vars vars') := by
  change Ends _ _ _
  induction vars with
  | nil => exact Ends.ok trivial
  | cons v vs hRest =>
    have hHead : LevelOf .dataset v 1 := by
      refine ⟨Int.le_refl 1, ?_, fun _ _ _ => rfl, rfl, ?_⟩ <;> simp [Place.dataset]
    exact ((setLeafSequence_ends v hHead).bind fun w hTagged =>
      hRest.bind fun rest h => Ends.ok ⟨hTagged, h⟩).congr (by simp [structureRefused])

/-! ## A nested Sequence that is not sent -/

mutual

def rightly (inSequence : Bool) : Member → Bool
  | .simple => true
  | .struct vars => rightlyTagged inSequence vars
  | .seq f vars => f.topMost = !inSequence && f.leaf = !sentBelow vars && rightlyTagged true vars

/-- Every Sequence is top-most exactly when none is above it, and a leaf exactly when none below it has
`send_p`. -/
def rightlyTagged (inSequence : Bool) : List Member → Bool
  | [] => true
  | v :: vs => rightly inSequence v && rightlyTagged inSequence vs

end

def newSequence (sendP : Bool) (vars : List Member) : Member := .seq ⟨sendP, false, false⟩ vars

/-- The nested Sequence is passed over, so it is not marked as the leaf that it is. -/
theorem unsent_sequence_not_leaf :
    ∃ vars', tagNestedSequences [newSequence true [.simple, newSequence false [.simple]]] = .ok vars' ∧
      rightlyTagged false vars' = false := ⟨_, rfl, rfl⟩

theorem two_levels_tagged :
    ∃ vars', tagNestedSequences [newSequence true [.simple, newSequence true [.simple]]] = .ok vars' ∧
      TaggedAll .dataset [newSequence true [.simple, newSequence true [.simple]]] vars' :=
  (tagNestedSequences_ends _).2 rfl

end Libdap.Dap2
