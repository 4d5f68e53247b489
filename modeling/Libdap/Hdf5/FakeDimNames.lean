import Libdap.Core.Fault
import Libdap.Hdf5.HDF5CFUtil

/-! # Names for dimensions that have none

`Add_One_FakeDim_Name` gives dimensions of one size one name, and `Adjust_Duplicate_FakeDim_Name` gives another one
to a dimension whose size comes a second time in its variable. A file may have names of that form already.
-/

namespace Libdap.Hdf5
open Core Constraint Http
set_option autoImplicit false

def INT_MAX : Nat := 2147483647

/-- The dimension names of a file, each with its size. -/
structure FileDims where
  sizes : List (Word × Nat)
  nodup : (sizes.map Prod.fst).Nodup

/-- What `File` knows of dimension names; `addeddimindex` counts the ones it has made. -/
structure DimTables where
  dimnamelist : List Word
  dimnameToDimsize : List (Word × Nat)
  dimsizeToFakedimname : List (Nat × Word)
  addeddimindex : Nat

def DimTables.start (dims : FileDims) : DimTables := ⟨dims.sizes.map Prod.fst, dims.sizes, [], 0⟩

def fakeDim (index : Nat) : Word := "FakeDim".toList ++ decimal index

/-- `++` on an `int`. -/
def increment (index : Nat) : Except Fault Nat := if index < INT_MAX then .ok (index + 1) else .error .undefined

/-- `_throw5`, without the file and the line. -/
def throwText (args : List String) : Fault := .Error (String.join (args.map fun a => " " ++ a))

def insertOneNameSizeMapElement (t : DimTables) (name : Word) (size : Nat) : Except Fault DimTables :=
  if (t.dimnameToDimsize.lookup name).isSome then
    .error (throwText ["The dimension name ", String.ofList name, " should map to ", toString size])
  else .ok { t with dimnameToDimsize := (name, size) :: t.dimnameToDimsize }

/-- `dimnamelist.insert (dim->name)` -/
def insertUniqueName (namelist : List Word) (name : Word) : Except Fault (List Word) :=
  if namelist.contains name then
    .error (throwText ["Fail to insert the unique dimsizede name ", String.ofList name])
  else .ok (name :: namelist)

/-- A name that is in use gets a number; the new name goes into the list, with the list that
`gen_unique_name` leaves. -/
def resolveClash (t : DimTables) (name : Word) : Except Fault (Word × DimTables) := do
  let (unique, namelist) := genUniqueName (name ++ ['_']) t.dimnamelist 1
  let namelist ← insertUniqueName namelist unique
  .ok (unique, { t with dimnamelist := namelist })

/-- The dimension of a size without a name yet. -/
def nameSize (t : DimTables) (size : Nat) (name : Word) : Except Fault DimTables :=
  if t.dimnamelist.contains name then do
    let (unique, t) ← resolveClash t name
    .ok { t with dimsizeToFakedimname := (size, unique) :: t.dimsizeToFakedimname.filter fun e => e.1 ≠ size }
  else .ok { t with
    dimnamelist := name :: t.dimnamelist
    dimsizeToFakedimname := (size, name) :: t.dimsizeToFakedimname }

/-- `Add_One_FakeDim_Name`: the name that the dimension gets. -/
def addOneFakeDimName (t : DimTables) (size : Nat) : Except Fault (Word × DimTables) :=
  match t.dimsizeToFakedimname.lookup size with
  | some name => .ok (name, t)
  | none => do
    let name := fakeDim t.addeddimindex
    let t ← nameSize t size name
    let t ← insertOneNameSizeMapElement t name size
    let index ← increment t.addeddimindex
    .ok (name, { t with addeddimindex := index })

def nameDuplicate (t : DimTables) (name : Word) : Except Fault DimTables :=
  if t.dimnamelist.contains name then (resolveClash t name).map Prod.snd
  else .ok { t with dimnamelist := name :: t.dimnamelist }

/-- `Adjust_Duplicate_FakeDim_Name` -/
def adjustDuplicateFakeDimName (t : DimTables) (size : Nat) : Except Fault (Word × DimTables) := do
  let index ← increment t.addeddimindex
  let t ← nameDuplicate { t with addeddimindex := index } (fakeDim index)
  let t ← insertOneNameSizeMapElement t (fakeDim index) size
  let next ← increment index
  .ok (fakeDim index, { t with addeddimindex := next })

inductive DimCall
  | addOne (size : Nat)
  | adjustDuplicate (size : Nat)
  deriving DecidableEq, Repr

def DimCall.size : DimCall → Nat
  | addOne size => size
  | adjustDuplicate size => size

def DimTables.call (t : DimTables) : DimCall → Except Fault (Word × DimTables)
  | .addOne size => addOneFakeDimName t size
  | .adjustDuplicate size => adjustDuplicateFakeDimName t size

/-- The calls with the names that they give, the last one first. -/
abbrev Given := List (DimCall × Word)

def nameDims : List DimCall → Given → DimTables → Except Fault (Given × DimTables)
  | [], given, t => .ok (given, t)
  | c :: cs, given, t => do
    let (name, t) ← t.call c
    nameDims cs ((c, name) :: given) t

/-- A name with a size, of the file or given. -/
def Known (dims : FileDims) (given : Given) (name : Word) (size : Nat) : Prop :=
  (name, size) ∈ dims.sizes ∨ ∃ c, (c, name) ∈ given ∧ c.size = size

/-- The tables say what the names are, and a name has one size. -/
structure Agree (dims : FileDims) (given : Given) (t : DimTables) : Prop where
  dimnamelist : ∀ name, name ∈ t.dimnamelist ↔ ∃ size, Known dims given name size
  dimnameToDimsize : ∀ name size, (name, size) ∈ t.dimnameToDimsize ↔ Known dims given name size
  oneSize : ∀ name size size', Known dims given name size → Known dims given name size' → size = size'
  dimsizeToFakedimname : ∀ size name, t.dimsizeToFakedimname.lookup size = some name ↔ (.addOne size, name) ∈ given

/-- The next name is not in use. -/
def DimTables.Free (t : DimTables) : DimCall → Prop
  | .addOne size => (t.dimsizeToFakedimname.lookup size).isSome ∨
      fakeDim t.addeddimindex ∉ t.dimnamelist ∧ t.addeddimindex + 1 ≤ INT_MAX
  | .adjustDuplicate _ => fakeDim (t.addeddimindex + 1) ∉ t.dimnamelist ∧ t.addeddimindex + 2 ≤ INT_MAX

/-! ## One call -/

theorem fakeDim_injective : Function.Injective fakeDim :=
  fun _ _ h => decimal_injective (List.append_cancel_left h)

theorem increment_ok {index : Nat} (h : index < INT_MAX) : increment index = .ok (index + 1) := if_pos h

theorem increment_error {index : Nat} (h : ¬ index < INT_MAX) : increment index = .error .undefined := if_neg h

/-- The name is in the list from `gen_unique_name` on. -/
theorem resolveClash_throws (t : DimTables) (name : Word) : ∃ f, resolveClash t name = .error f := by
  obtain ⟨n, -, hUnique⟩ := genUniqueName_spec (name ++ ['_']) t.dimnamelist 1
  refine ⟨throwText ["Fail to insert the unique dimsizede name ", String.ofList (name ++ ['_'] ++ decimal n)], ?_⟩
  rw [resolveClash, hUnique]
  simp only [insertUniqueName, List.contains_cons, beq_self_eq_true, Bool.true_or, if_true, error_bind]

theorem insertOne_free {t : DimTables} {name : Word} (h : ∀ size, (name, size) ∉ t.dimnameToDimsize) (size : Nat) :
    insertOneNameSizeMapElement t name size = .ok { t with dimnameToDimsize := (name, size) ::
      t.dimnameToDimsize } := by
  have hNone : t.dimnameToDimsize.lookup name = none := by
    rw [List.lookup_eq_none_iff]
    rintro ⟨n, s⟩ hMem
    rw [bne_iff_ne]
    rintro rfl
    exact h s hMem
  rw [insertOneNameSizeMapElement, hNone]
  rfl

variable {dims : FileDims} {given : Given} {t : DimTables} {c : DimCall} {name : Word}

theorem known_cons {n : Word} {s : Nat} :
    Known dims ((c, name) :: given) n s ↔ (n = name ∧ s = c.size) ∨ Known dims given n s := by
  constructor
  · rintro (hFile | ⟨d, hMem, rfl⟩)
    · exact .inr (.inl hFile)
    · rcases List.mem_cons.mp hMem with hHead | hRest
      · cases hHead
        exact .inl ⟨rfl, rfl⟩
      · exact .inr (.inr ⟨d, hRest, rfl⟩)
  · rintro (⟨rfl, rfl⟩ | hFile | ⟨d, hMem, rfl⟩)
    · exact .inr ⟨c, List.mem_cons_self, rfl⟩
    · exact .inl hFile
    · exact .inr ⟨d, List.mem_cons_of_mem _ hMem, rfl⟩

theorem Agree.start (dims : FileDims) : Agree dims [] (.start dims) where
  dimnamelist name := by
    constructor
    · intro hMem
      obtain ⟨⟨n, size⟩, hSize, rfl⟩ := List.mem_map.mp hMem
      exact ⟨size, .inl hSize⟩
    · rintro ⟨size, hSize | ⟨c, hMem, -⟩⟩
      · exact List.mem_map_of_mem hSize
      · cases hMem
  dimnameToDimsize name size := by
    constructor
    · exact .inl
    · rintro (hSize | ⟨c, hMem, -⟩)
      · exact hSize
      · cases hMem
  oneSize name size size' := by
    rintro (hSize | ⟨c, hMem, -⟩) (hSize' | ⟨c', hMem', -⟩)
    · exact (Prod.mk.inj (List.inj_on_of_nodup_map dims.nodup hSize hSize' rfl)).2
    · cases hMem'
    · cases hMem
    · cases hMem
  dimsizeToFakedimname size name := by
    constructor
    · rintro ⟨⟩
    · rintro ⟨⟩

/-- A new name goes into the list and gets its size. -/
theorem Agree.named (h : Agree dims given t) (hNew : name ∉ t.dimnamelist) (index : Nat) {m : List (Nat × Word)}
    (hMap : ∀ size n, m.lookup size = some n ↔ (.addOne size, n) ∈ (c, name) :: given) :
    Agree dims ((c, name) :: given) ⟨name :: t.dimnamelist, (name, c.size) :: t.dimnameToDimsize, m, index⟩ where
  dimnamelist n := by
    rw [List.mem_cons, h.dimnamelist]
    constructor
    · rintro (rfl | ⟨size, hKnown⟩)
      · exact ⟨c.size, known_cons.mpr (.inl ⟨rfl, rfl⟩)⟩
      · exact ⟨size, known_cons.mpr (.inr hKnown)⟩
    · rintro ⟨size, hKnown⟩
      rcases known_cons.mp hKnown with ⟨rfl, -⟩ | hKnown
      · exact .inl rfl
      · exact .inr ⟨size, hKnown⟩
  dimnameToDimsize n size := by
    rw [List.mem_cons, h.dimnameToDimsize, known_cons, Prod.mk.injEq]
  oneSize n size size' hKnown hKnown' := by
    have hOld : ∀ s, ¬ Known dims given name s := fun s hs => hNew ((h.dimnamelist name).mpr ⟨s, hs⟩)
    rcases known_cons.mp hKnown with ⟨rfl, rfl⟩ | hBefore
    · rcases known_cons.mp hKnown' with ⟨-, rfl⟩ | hBefore'
      · rfl
      · exact absurd hBefore' (hOld _)
    · rcases known_cons.mp hKnown' with ⟨rfl, rfl⟩ | hBefore'
      · exact absurd hBefore (hOld _)
      · exact h.oneSize n size size' hBefore hBefore'
  dimsizeToFakedimname := hMap

/-- A dimension that gets the name of its size. -/
theorem Agree.again {size : Nat} (h : Agree dims given t) (hName : t.dimsizeToFakedimname.lookup size = some name) :
    Agree dims ((.addOne size, name) :: given) t := by
  have hGiven := (h.dimsizeToFakedimname size name).mp hName
  have hKnown : ∀ n s, Known dims ((.addOne size, name) :: given) n s ↔ Known dims given n s := by
    intro n s
    rw [known_cons]
    constructor
    · rintro (⟨rfl, rfl⟩ | hKnown)
      · exact .inr ⟨_, hGiven, rfl⟩
      · exact hKnown
    · exact .inr
  refine ⟨?_, ?_, ?_, ?_⟩
  · simp only [hKnown]
    exact h.dimnamelist
  · simp only [hKnown]
    exact h.dimnameToDimsize
  · simp only [hKnown]
    exact h.oneSize
  · intro s n
    rw [h.dimsizeToFakedimname, List.mem_cons]
    constructor
    · exact .inr
    · rintro (hHead | hRest)
      · cases hHead
        exact hGiven
      · exact hRest

theorem Agree.not_sized (h : Agree dims given t) (hNew : name ∉ t.dimnamelist) (size : Nat) :
    (name, size) ∉ t.dimnameToDimsize :=
  fun hMem => hNew ((h.dimnamelist name).mpr ⟨size, (h.dimnameToDimsize name size).mp hMem⟩)

theorem nameSize_free {size : Nat} (h : name ∉ t.dimnamelist) : nameSize t size name = .ok { t with
    dimnamelist := name :: t.dimnamelist
    dimsizeToFakedimname := (size, name) :: t.dimsizeToFakedimname } := by
  rw [nameSize, if_neg (by simpa using h)]

theorem nameSize_throws (size : Nat) (h : name ∈ t.dimnamelist) : ∃ f, nameSize t size name = .error f := by
  obtain ⟨f, hThrows⟩ := resolveClash_throws t name
  refine ⟨f, ?_⟩
  rw [nameSize, if_pos (by simpa using h), hThrows]
  rfl

theorem nameDuplicate_free (h : name ∉ t.dimnamelist) :
    nameDuplicate t name = .ok { t with dimnamelist := name :: t.dimnamelist } := by
  rw [nameDuplicate, if_neg (by simpa using h)]

theorem nameDuplicate_throws (h : name ∈ t.dimnamelist) : ∃ f, nameDuplicate t name = .error f := by
  obtain ⟨f, hThrows⟩ := resolveClash_throws t name
  refine ⟨f, ?_⟩
  rw [nameDuplicate, if_pos (by simpa using h), hThrows]
  rfl

theorem call_free (h : Agree dims given t) (hFree : t.Free c) :
    ∃ name t', t.call c = .ok (name, t') ∧ Agree dims ((c, name) :: given) t' := by
  cases c with
  | addOne size =>
    cases hLookup : t.dimsizeToFakedimname.lookup size with
    | some name =>
      refine ⟨name, t, ?_, h.again hLookup⟩
      rw [DimTables.call, addOneFakeDimName, hLookup]
    | none =>
      rcases hFree with hSome | ⟨hNew, hIndex⟩
      · rw [hLookup] at hSome
        cases hSome
      · have hInsert := insertOne_free (t := { t with
          dimnamelist := fakeDim t.addeddimindex :: t.dimnamelist
          dimsizeToFakedimname := (size, fakeDim t.addeddimindex) :: t.dimsizeToFakedimname }) (h.not_sized hNew) size
        refine ⟨_, _, ?_, h.named (c := .addOne size) hNew (t.addeddimindex + 1)
          (m := (size, fakeDim t.addeddimindex) :: t.dimsizeToFakedimname) ?_⟩
        · simp only [DimTables.call, addOneFakeDimName, hLookup, nameSize_free hNew, ok_bind, hInsert,
            increment_ok (show t.addeddimindex < INT_MAX from hIndex)]
          rfl
        · intro s n
          rw [List.lookup_cons, List.mem_cons]
          split
          · rename_i hSame
            obtain rfl := eq_of_beq hSame
            rw [Option.some.injEq]
            constructor
            · rintro rfl
              exact .inl rfl
            · rintro (hHead | hRest)
              · cases hHead
                rfl
              · rw [(h.dimsizeToFakedimname _ _).mpr hRest] at hLookup
                cases hLookup
          · rename_i hOther
            rw [h.dimsizeToFakedimname]
            constructor
            · exact .inr
            · rintro (hHead | hRest)
              · cases hHead
                simp at hOther
              · exact hRest
  | adjustDuplicate size =>
    obtain ⟨hNew, hIndex⟩ := hFree
    have hInsert := insertOne_free (t := { t with
      dimnamelist := fakeDim (t.addeddimindex + 1) :: t.dimnamelist
      addeddimindex := t.addeddimindex + 1 }) (h.not_sized hNew) size
    have hName := nameDuplicate_free (t := { t with addeddimindex := t.addeddimindex + 1 }) hNew
    refine ⟨_, _, ?_, h.named (c := .adjustDuplicate size) hNew (t.addeddimindex + 2) (m := t.dimsizeToFakedimname) ?_⟩
    · simp only [DimTables.call, adjustDuplicateFakeDimName, increment_ok (show t.addeddimindex < INT_MAX by omega),
        ok_bind, hName, hInsert, increment_ok (show t.addeddimindex + 1 < INT_MAX by omega)]
      rfl
    · intro s n
      rw [h.dimsizeToFakedimname, List.mem_cons]
      constructor
      · exact .inr
      · rintro (hHead | hRest)
        · cases hHead
        · exact hRest

theorem call_throws (h : Agree dims given t) (hFree : ¬ t.Free c) : ∃ f, t.call c = .error f := by
  cases c with
  | addOne size =>
    cases hLookup : t.dimsizeToFakedimname.lookup size with
    | some name => exact absurd (.inl (by rw [hLookup]; rfl)) hFree
    | none =>
      rw [DimTables.call, addOneFakeDimName, hLookup]
      by_cases hNew : fakeDim t.addeddimindex ∈ t.dimnamelist
      · obtain ⟨f, hThrows⟩ := nameSize_throws size hNew
        exact ⟨f, by simp only [hThrows, error_bind]⟩
      · have hInsert := insertOne_free (t := { t with
          dimnamelist := fakeDim t.addeddimindex :: t.dimnamelist
          dimsizeToFakedimname := (size, fakeDim t.addeddimindex) :: t.dimsizeToFakedimname }) (h.not_sized hNew) size
        have hIndex : ¬ t.addeddimindex < INT_MAX := fun hIndex => hFree (.inr ⟨hNew, hIndex⟩)
        exact ⟨.undefined, by simp only [nameSize_free hNew, ok_bind, hInsert, increment_error hIndex, error_bind]⟩
  | adjustDuplicate size =>
    rw [DimTables.call, adjustDuplicateFakeDimName]
    by_cases hIndex : t.addeddimindex < INT_MAX
    · rw [increment_ok hIndex, ok_bind]
      by_cases hNew : fakeDim (t.addeddimindex + 1) ∈ t.dimnamelist
      · obtain ⟨f, hThrows⟩ := nameDuplicate_throws (t := { t with addeddimindex := t.addeddimindex + 1 }) hNew
        exact ⟨f, by rw [hThrows, error_bind]⟩
      · have hInsert := insertOne_free (t := { t with
          dimnamelist := fakeDim (t.addeddimindex + 1) :: t.dimnamelist
          addeddimindex := t.addeddimindex + 1 }) (h.not_sized hNew) size
        have hName := nameDuplicate_free (t := { t with addeddimindex := t.addeddimindex + 1 }) hNew
        have hNext : ¬ t.addeddimindex + 1 < INT_MAX := fun hNext => hFree ⟨hNew, hNext⟩
        exact ⟨.undefined, by rw [hName, ok_bind, hInsert, ok_bind, increment_error hNext, error_bind]⟩
    · exact ⟨.undefined, by rw [increment_error hIndex, error_bind]⟩

/-! ## Calls in a row -/

theorem nameDims_append (cs ds : List DimCall) (given : Given) (t : DimTables) :
    nameDims (cs ++ ds) given t = nameDims cs given t >>= fun r => nameDims ds r.1 r.2 := by
  induction cs generalizing given t with
  | nil => rfl
  | cons c cs ih =>
    rw [List.cons_append, nameDims, nameDims]
    cases t.call c with
    | error f => rfl
    | ok r => exact ih _ _

/-- No call has thrown, and the tables agree with the names. -/
def NamesAgree (dims : FileDims) (calls : List DimCall) : Prop :=
  ∃ given t, nameDims calls [] (.start dims) = .ok (given, t) ∧ Agree dims given t

/-- Calls that each find the next name free. -/
def AllFree (dims : FileDims) (calls : List DimCall) : Prop :=
  ∀ before c, before ++ [c] <+: calls →
    ∀ given t, nameDims before [] (.start dims) = .ok (given, t) → t.Free c

theorem namesAgree_step {before : List DimCall} (h : NamesAgree dims before) :
    NamesAgree dims (before ++ [c]) ↔ ∀ given t, nameDims before [] (.start dims) = .ok (given, t) → t.Free c := by
  obtain ⟨given, t, hRun, hAgree⟩ := h
  have hStep : nameDims (before ++ [c]) [] (.start dims) = t.call c >>= fun r => .ok ((c, r.1) :: given, r.2) := by
    rw [nameDims_append, hRun]
    rfl
  constructor
  · rintro ⟨given₂, t₂, hRun₂, -⟩ given₁ t₁ hRun₁
    rw [hRun] at hRun₁
    cases hRun₁
    by_contra hFree
    obtain ⟨f, hThrows⟩ := call_throws hAgree hFree
    rw [hStep, hThrows] at hRun₂
    cases hRun₂
  · intro hFree
    obtain ⟨name, t', hCall, hAgree'⟩ := call_free hAgree (hFree given t hRun)
    refine ⟨(c, name) :: given, t', ?_, hAgree'⟩
    rw [hStep, hCall]
    rfl

/-- The names go well in all states exactly when no call finds the name that it makes in use. -/
theorem names_agree_iff (dims : FileDims) (calls : List DimCall) :
    (∀ before, before <+: calls → NamesAgree dims before) ↔ AllFree dims calls := by
  constructor
  · intro h before c hPrefix
    exact (namesAgree_step (h before ((List.prefix_append before [c]).trans hPrefix))).mp (h _ hPrefix)
  · intro h before hPrefix
    induction before using List.reverseRecOn with
    | nil => exact ⟨[], _, rfl, .start dims⟩
    | append_singleton before c ih =>
      have hBefore := ih ((List.prefix_append before [c]).trans hPrefix)
      exact (namesAgree_step hBefore).mpr (h before c hPrefix)

/-- A file with a dimension `FakeDim0` of size 5. -/
def reservedName : FileDims := ⟨[("FakeDim0".toList, 5)], by decide⟩

theorem reserved_name_throws :
    nameDims [.addOne 7] [] (.start reservedName) =
      .error (throwText ["Fail to insert the unique dimsizede name ", "FakeDim0_1"]) ∧
    ¬ ∀ dims calls, NamesAgree dims calls := by
  have hThrows : nameDims [.addOne 7] [] (.start reservedName) =
      .error (throwText ["Fail to insert the unique dimsizede name ", "FakeDim0_1"]) := rfl
  refine ⟨hThrows, fun h => ?_⟩
  obtain ⟨given, t, hRun, -⟩ := h reservedName [.addOne 7]
  rw [hThrows] at hRun
  cases hRun

end Libdap.Hdf5
