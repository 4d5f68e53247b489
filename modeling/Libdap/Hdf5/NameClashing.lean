import Libdap.Hdf5.HDF5CFUtil

/-! # Names after flattening

`Flatten_Obj_Name` turns path names into names of letters, digits and underscores, and the name clashes that come of
it are resolved by `Handle_GeneralObj_NameClashing`.
-/

namespace Libdap.Hdf5
open Core Constraint Http
set_option autoImplicit false

/-- The C library's tests of a character, which return any number but 0 for true. -/
structure Ctype where
  isdigit : Char → Int
  isalnum : Char → Int
  isdigit_iff : ∀ c, isdigit c ≠ 0 ↔ c.isDigit = true
  isalnum_iff : ∀ c, isalnum c ≠ 0 ↔ c.isAlphanum = true

/-- The new names of a variable, its dimensions and its attributes. -/
structure Var where
  newname : Word
  dims : List Word
  attrs : List Word
  deriving DecidableEq, Repr

structure Group where
  newname : Word
  attrs : List Word
  deriving DecidableEq, Repr

/-- Letters, digits and underscores. -/
def Plain (name : Word) : Prop := ∀ c ∈ name, c.isAlphanum = true ∨ c = '_'

theorem plain_of_all {name : Word} (h : name.all (fun c => c.isAlphanum || c == '_') = true) : Plain name := by
  simpa [Plain] using h

/-- `FILE_ATTR_TABLE_NAME`, which keeps from file to file what a clash has made of it. -/
structure FileAttrTable where
  name : Word
  plain : Plain name

structure File where
  vars : List Var
  rootAttrs : List Word
  groups : List Group
  table : FileAttrTable

/-- `true == isdigit (s[0])` compares with 1. -/
def getCFString (ctype : Ctype) : Word → Word
  | [] => []
  | c :: s => ((if ctype.isdigit c = 1 then ['_'] else []) ++ c :: s).map fun c =>
      if ctype.isalnum c = 0 ∧ c ≠ '_' then '_' else c

def Var.flatten (ctype : Ctype) (v : Var) : Var :=
  ⟨getCFString ctype v.newname, v.dims.map (getCFString ctype), v.attrs.map (getCFString ctype)⟩

def Group.flatten (ctype : Ctype) (g : Group) : Group :=
  ⟨getCFString ctype g.newname, g.attrs.map (getCFString ctype)⟩

/-- `Flatten_Obj_Name (true)` -/
def flattenObjName (ctype : Ctype) (f : File) : File :=
  { f with
    vars := f.vars.map (Var.flatten ctype)
    rootAttrs := f.rootAttrs.map (getCFString ctype)
    groups := f.groups.map (Group.flatten ctype) }

/-- The first loop of `Handle_General_NameClashing`: the set, and `clashnamelist` with `cl_to_ol`. -/
def collectClashes : List Word → Nat → List Word → List Word × List (Nat × Word)
  | [], _, objnameset => (objnameset, [])
  | name :: names, olIndex, objnameset =>
    if objnameset.contains name then
      ((collectClashes names (olIndex + 1) objnameset).1,
        (olIndex, name) :: (collectClashes names (olIndex + 1) objnameset).2)
    else collectClashes names (olIndex + 1) (name :: objnameset)

/-- The second loop. -/
def renameClashes : List (Nat × Word) → List Word → List (Nat × Word) × List Word
  | [], objnameset => ([], objnameset)
  | (olIndex, name) :: clashes, objnameset =>
    let unique := genUniqueName (name ++ ['_']) objnameset 1
    ((olIndex, unique.1) :: (renameClashes clashes unique.2).1, (renameClashes clashes unique.2).2)

/-- `Handle_General_NameClashing` on the new names of a vector of objects: the names and the set. -/
def handleGeneralNameClashing (objnameset names : List Word) : List Word × List Word :=
  let clashes := collectClashes names 0 objnameset
  let renamed := renameClashes clashes.2 clashes.1
  (renamed.1.foldl (fun names e => names.set e.1 e.2) names, renamed.2)

def withNewnames (vars : List Var) (names : List Word) : List Var :=
  List.zipWith (fun v name => { v with newname := name }) vars names

def handleVarNameClashing (objnameset : List Word) (f : File) : List Word × File :=
  let r := handleGeneralNameClashing objnameset (f.vars.map Var.newname)
  (r.2, { f with vars := withNewnames f.vars r.1 })

theorem plain_unique {str : Word} (h : Plain str) (namelist : List Word) (clashIndex : Nat) :
    Plain (genUniqueName str namelist clashIndex).1 := by
  obtain ⟨n, -, hUnique⟩ := genUniqueName_spec str namelist clashIndex
  rw [hUnique]
  intro c hc
  rcases List.mem_append.mp hc with hStr | hDigit
  · exact h c hStr
  · have hIsDigit : c.isDigit = true := Nat.isDigit_of_mem_toDigits (by decide) (by decide) hDigit
    exact .inl (by simp [Char.isAlphanum, hIsDigit])

/-- The part of `Handle_RootGroup_NameClashing` for the file's own attributes. -/
def handleFileTableClashing (objnameset : List Word) (table : FileAttrTable) : List Word × FileAttrTable :=
  if objnameset.contains table.name then
    ((genUniqueName table.name objnameset 1).2, ⟨(genUniqueName table.name objnameset 1).1,
      plain_unique table.plain objnameset 1⟩)
  else (table.name :: objnameset, table)

def handleRootGroupNameClashing (objnameset : List Word) (f : File) : List Word × File :=
  let table := handleFileTableClashing objnameset f.table
  let r := handleGeneralNameClashing table.1 (f.groups.map Group.newname)
  (r.2, { f with
    table := table.2
    groups := List.zipWith (fun g name => { g with newname := name }) f.groups r.1 })

def handleObjAttrNameClashing (f : File) : File :=
  { f with
    rootAttrs := (handleGeneralNameClashing [] f.rootAttrs).1
    groups := f.groups.map fun g => { g with attrs := (handleGeneralNameClashing [] g.attrs).1 }
    vars := f.vars.map fun v => { v with attrs := (handleGeneralNameClashing [] v.attrs).1 } }

/-- `Handle_GeneralObj_NameClashing (true, objnameset)` -/
def handleGeneralObjNameClashing (objnameset : List Word) (f : File) : List Word × File :=
  let vars := handleVarNameClashing objnameset f
  let groups := handleRootGroupNameClashing vars.1 vars.2
  (groups.1, handleObjAttrNameClashing groups.2)

/-! ## One list of objects -/

theorem collectClashes_set (names : List Word) (k : Nat) (objnameset : List Word) (x : Word) :
    x ∈ (collectClashes names k objnameset).1 ↔ x ∈ objnameset ∨ x ∈ names := by
  induction names generalizing k objnameset with
  | nil => simp [collectClashes]
  | cons name names ih =>
    rw [collectClashes]
    split
    · rename_i hClash
      have hMem : name ∈ objnameset := by simpa using hClash
      rw [ih, List.mem_cons]
      constructor
      · rintro (hOld | hRest)
        · exact .inl hOld
        · exact .inr (.inr hRest)
      · rintro (hOld | rfl | hRest)
        · exact .inl hOld
        · exact .inl hMem
        · exact .inr hRest
    · rw [ih, List.mem_cons, List.mem_cons, or_assoc, or_left_comm]

/-- What the second loop makes of the clashes: as many new names, all different and none in use. -/
structure Renames (clashes : List (Nat × Word)) (objnameset : List Word) (renamed : List (Nat × Word) × List Word) :
    Prop where
  indices : renamed.1.map Prod.fst = clashes.map Prod.fst
  nodup : (renamed.1.map Prod.snd).Nodup
  fresh : ∀ x ∈ renamed.1.map Prod.snd, x ∉ objnameset
  set : ∀ x, x ∈ renamed.2 ↔ x ∈ objnameset ∨ x ∈ renamed.1.map Prod.snd
  plain : (∀ e ∈ clashes, Plain e.2) → ∀ x ∈ renamed.1.map Prod.snd, Plain x

theorem plain_underscore {name : Word} (h : Plain name) : Plain (name ++ ['_']) := by
  intro c hc
  rcases List.mem_append.mp hc with hName | hLast
  · exact h c hName
  · exact .inr (List.mem_singleton.mp hLast)

theorem renameClashes_spec (clashes : List (Nat × Word)) (objnameset : List Word) :
    Renames clashes objnameset (renameClashes clashes objnameset) := by
  induction clashes generalizing objnameset with
  | nil => exact ⟨rfl, List.nodup_nil, by simp [renameClashes], by simp [renameClashes], by simp [renameClashes]⟩
  | cons e clashes ih =>
    obtain ⟨olIndex, name⟩ := e
    have hPlain : Plain name → Plain (genUniqueName (name ++ ['_']) objnameset 1).1 :=
      fun h => plain_unique (plain_underscore h) objnameset 1
    obtain ⟨n, hFree, hUnique⟩ := genUniqueName_spec (name ++ ['_']) objnameset 1
    rw [hUnique] at hPlain
    have hRest := ih ((name ++ ['_'] ++ decimal n) :: objnameset)
    simp only [renameClashes, hUnique]
    refine ⟨congrArg (List.cons olIndex) hRest.indices, ?_, ?_, ?_, ?_⟩
    · rw [List.map_cons, List.nodup_cons]
      exact ⟨fun hMem => hRest.fresh _ hMem List.mem_cons_self, hRest.nodup⟩
    · rw [List.map_cons]
      intro x hx
      rcases List.mem_cons.mp hx with rfl | hx
      · exact hFree
      · exact fun hMem => hRest.fresh x hx (List.mem_cons_of_mem _ hMem)
    · intro x
      rw [hRest.set, List.map_cons, List.mem_cons, List.mem_cons, or_assoc, or_left_comm]
    · intro hClashes x hx
      rcases List.mem_cons.mp hx with rfl | hx
      · exact hPlain (hClashes _ List.mem_cons_self)
      · exact hRest.plain (fun e he => hClashes e (List.mem_cons_of_mem _ he)) x hx

/-- The names with the clashing ones replaced in order. -/
def replaced : List Word → List Word → List Word → List Word
  | [], _, _ => []
  | name :: names, objnameset, fresh =>
    if objnameset.contains name then fresh.headD name :: replaced names objnameset fresh.tail
    else name :: replaced names (name :: objnameset) fresh

/-- Writing the new names back at their indices. -/
theorem writeBack_eq (before names objnameset : List Word) (renamed : List (Nat × Word))
    (h : renamed.map Prod.fst = (collectClashes names before.length objnameset).2.map Prod.fst) :
    renamed.foldl (fun names e => names.set e.1 e.2) (before ++ names) =
      before ++ replaced names objnameset (renamed.map Prod.snd) := by
  induction names generalizing before objnameset renamed with
  | nil =>
    rw [List.map_eq_nil_iff.mp h]
    rfl
  | cons name names ih =>
    rw [collectClashes] at h
    rw [replaced]
    split at h
    · rename_i hClash
      cases renamed with
      | nil => cases h
      | cons e renamed =>
        rw [List.map_cons, List.map_cons, List.cons.injEq] at h
        have hSet : (before ++ name :: names).set e.1 e.2 = (before ++ [e.2]) ++ names := by
          rw [h.1, List.set_append_right _ _ (Nat.le_refl _), Nat.sub_self, List.set_cons_zero, List.append_assoc]
          rfl
        have hLength : (before ++ [e.2]).length = before.length + 1 := by simp
        rw [if_pos hClash, List.foldl_cons, hSet, ih (before ++ [e.2]) objnameset renamed (by rw [hLength]; exact h.2),
          List.append_assoc]
        rfl
    · rename_i hNew
      have hLength : (before ++ [name]).length = before.length + 1 := by simp
      have hRest := ih (before ++ [name]) (name :: objnameset) renamed (by rw [hLength]; exact h)
      rw [List.append_assoc, List.append_assoc] at hRest
      rw [if_neg hNew]
      exact hRest

/-- Names that come out different from each other and from what was in use, with the new ones among them. -/
structure Replaces (objnameset names fresh result : List Word) : Prop where
  length : result.length = names.length
  nodup : result.Nodup
  unused : ∀ x ∈ result, x ∉ objnameset
  mem : ∀ x ∈ result, x ∈ names ∨ x ∈ fresh
  kept : ∀ (i : Nat) n, names[i]? = some n → n ∉ objnameset → n ∉ names.take i → result[i]? = some n

theorem replaced_spec {names objnameset fresh : List Word} {k : Nat}
    (hLength : fresh.length = (collectClashes names k objnameset).2.length) (hNodup : fresh.Nodup)
    (hFresh : ∀ x ∈ fresh, x ∉ objnameset ∧ x ∉ names) :
    Replaces objnameset names fresh (replaced names objnameset fresh) := by
  induction names generalizing objnameset fresh k with
  | nil => exact ⟨rfl, List.nodup_nil, by simp [replaced], by simp [replaced], by simp⟩
  | cons name names ih =>
    rw [collectClashes] at hLength
    rw [replaced]
    split
    · rename_i hClash
      rw [if_pos hClash] at hLength
      have hMem : name ∈ objnameset := by simpa using hClash
      cases fresh with
      | nil => cases hLength
      | cons x fresh =>
        obtain ⟨hHead, hTail⟩ := List.nodup_cons.mp hNodup
        have hRest := ih (k := k + 1) (Nat.succ.inj hLength) hTail fun y hy =>
          ⟨(hFresh y (List.mem_cons_of_mem _ hy)).1,
            fun h => (hFresh y (List.mem_cons_of_mem _ hy)).2 (List.mem_cons_of_mem _ h)⟩
        have hx := hFresh x List.mem_cons_self
        refine ⟨congrArg Nat.succ hRest.length, List.nodup_cons.mpr ⟨fun h => ?_, hRest.nodup⟩, ?_, ?_, ?_⟩
        · rcases hRest.mem x h with hName | hLater
          · exact hx.2 (List.mem_cons_of_mem _ hName)
          · exact hHead hLater
        · intro y hy
          rcases List.mem_cons.mp hy with rfl | hy
          · exact hx.1
          · exact hRest.unused y hy
        · intro y hy
          rcases List.mem_cons.mp hy with rfl | hy
          · exact .inr List.mem_cons_self
          · exact (hRest.mem y hy).imp (List.mem_cons_of_mem _) (List.mem_cons_of_mem _)
        · intro i n hi hNot hBefore
          cases i with
          | zero =>
            cases hi
            exact absurd hMem hNot
          | succ i => exact hRest.kept i n hi hNot fun h => hBefore (List.mem_cons_of_mem _ h)
    · rename_i hNew
      rw [if_neg hNew] at hLength
      have hNotMem : name ∉ objnameset := by simpa using hNew
      have hRest := ih (k := k + 1) hLength hNodup fun y hy => by
        have h := hFresh y hy
        rw [List.mem_cons, not_or] at h ⊢
        exact ⟨⟨h.2.1, h.1⟩, h.2.2⟩
      have hUnused : ∀ y ∈ replaced names (name :: objnameset) fresh, y ≠ name ∧ y ∉ objnameset := by
        intro y hy
        have h := hRest.unused y hy
        rwa [List.mem_cons, not_or] at h
      refine ⟨congrArg Nat.succ hRest.length, List.nodup_cons.mpr ⟨fun h => (hUnused name h).1 rfl, hRest.nodup⟩, ?_,
        ?_, ?_⟩
      · intro y hy
        rcases List.mem_cons.mp hy with rfl | hy
        · exact hNotMem
        · exact (hUnused y hy).2
      · intro y hy
        rcases List.mem_cons.mp hy with rfl | hy
        · exact .inl List.mem_cons_self
        · exact (hRest.mem y hy).imp (List.mem_cons_of_mem _) id
      · intro i n hi hNot hBefore
        cases i with
        | zero => exact hi
        | succ i =>
          rw [List.take_succ_cons, List.mem_cons, not_or] at hBefore
          refine hRest.kept i n hi ?_ hBefore.2
          rw [List.mem_cons, not_or]
          exact ⟨hBefore.1, hNot⟩

/-- The names of a list of objects after `Handle_General_NameClashing`, and the set then. -/
structure Resolves (objnameset names : List Word) (r : List Word × List Word) : Prop where
  length : r.1.length = names.length
  nodup : r.1.Nodup
  unused : ∀ x ∈ r.1, x ∉ objnameset
  set : ∀ x, x ∈ r.2 ↔ x ∈ objnameset ∨ x ∈ names ∨ x ∈ r.1
  kept : ∀ (i : Nat) n, names[i]? = some n → n ∉ objnameset → n ∉ names.take i → r.1[i]? = some n
  plain : (∀ n ∈ names, Plain n) → ∀ x ∈ r.1, Plain x

theorem collectClashes_mem {names objnameset : List Word} {k : Nat} {e : Nat × Word}
    (h : e ∈ (collectClashes names k objnameset).2) : e.2 ∈ names := by
  induction names generalizing k objnameset with
  | nil => cases h
  | cons name names ih =>
    rw [collectClashes] at h
    split at h
    · rcases List.mem_cons.mp h with rfl | h
      · exact List.mem_cons_self
      · exact List.mem_cons_of_mem _ (ih h)
    · exact List.mem_cons_of_mem _ (ih h)

theorem mem_replaced_of_fresh {names objnameset fresh : List Word} {k : Nat}
    (hLength : fresh.length = (collectClashes names k objnameset).2.length) {x : Word} (hx : x ∈ fresh) :
    x ∈ replaced names objnameset fresh := by
  induction names generalizing objnameset fresh k with
  | nil =>
    rw [List.length_eq_zero_iff.mp hLength] at hx
    cases hx
  | cons name names ih =>
    rw [collectClashes] at hLength
    rw [replaced]
    split
    · rename_i hClash
      rw [if_pos hClash] at hLength
      cases fresh with
      | nil => cases hx
      | cons y fresh =>
        rcases List.mem_cons.mp hx with rfl | hx
        · exact List.mem_cons_self
        · exact List.mem_cons_of_mem _ (ih (k := k + 1) (Nat.succ.inj hLength) hx)
    · rename_i hNew
      rw [if_neg hNew] at hLength
      exact List.mem_cons_of_mem _ (ih hLength hx)

theorem handleGeneralNameClashing_spec (objnameset names : List Word) :
    Resolves objnameset names (handleGeneralNameClashing objnameset names) := by
  have hSet := collectClashes_set names 0 objnameset
  have hRenames := renameClashes_spec (collectClashes names 0 objnameset).2 (collectClashes names 0 objnameset).1
  have hBack := writeBack_eq [] names objnameset _ hRenames.indices
  have hLength := congrArg List.length hRenames.indices
  rw [List.length_map, List.length_map] at hLength
  have hFresh : ∀ x ∈ (renameClashes (collectClashes names 0 objnameset).2 (collectClashes names 0 objnameset).1).1.map
      Prod.snd,
      x ∉ objnameset ∧ x ∉ names := by
    intro x hx
    have h := hRenames.fresh x hx
    rwa [hSet, not_or] at h
  have hCount : ((renameClashes (collectClashes names 0 objnameset).2 (collectClashes names 0 objnameset).1).1.map
      Prod.snd).length =
      (collectClashes names 0 objnameset).2.length := by rw [List.length_map, hLength]
  have hReplaced := replaced_spec hCount hRenames.nodup hFresh
  rw [handleGeneralNameClashing]
  rw [List.nil_append, List.nil_append] at hBack
  simp only [hBack]
  refine ⟨hReplaced.length, hReplaced.nodup, hReplaced.unused, ?_, hReplaced.kept, ?_⟩
  · intro x
    rw [hRenames.set, hSet]
    constructor
    · rintro ((hOld | hName) | hNew)
      · exact .inl hOld
      · exact .inr (.inl hName)
      · exact .inr (.inr (mem_replaced_of_fresh hCount hNew))
    · rintro (hOld | hName | hResult)
      · exact .inl (.inl hOld)
      · exact .inl (.inr hName)
      · exact (hReplaced.mem x hResult).imp .inr id
  · intro hPlain x hx
    rcases hReplaced.mem x hx with hName | hNew
    · exact hPlain x hName
    · exact hRenames.plain (fun e he => hPlain e.2 (collectClashes_mem he)) x hNew

/-! ## All names of a file -/

/-- A name that comes once stays. -/
def Kept (names result : List Word) : Prop := ∀ (i : Nat) n, names[i]? = some n → names.count n = 1 →
    result[i]? = some n

theorem not_mem_take {names : List Word} {i : Nat} {n : Word} (h : names[i]? = some n) (hOnce : names.count n ≤ 1) :
    n ∉ names.take i := by
  intro hBefore
  have hAt : n ∈ names.drop i := by
    rw [List.mem_iff_getElem?]
    exact ⟨0, by rw [List.getElem?_drop]; exact h⟩
  have hCount := congrArg (List.count n) (List.take_append_drop i names)
  rw [List.count_append] at hCount
  have hTwo := List.count_pos_iff.mpr hBefore
  have hOne := List.count_pos_iff.mpr hAt
  omega

theorem plain_getCFString (ctype : Ctype) (s : Word) : Plain (getCFString ctype s) := by
  cases s with
  | nil => rintro c ⟨⟩
  | cons c s =>
    intro d hd
    obtain ⟨e, -, rfl⟩ := List.mem_map.mp hd
    split
    · exact .inr rfl
    · rename_i hKept
      rcases not_and_or.mp hKept with hAlnum | hUnderscore
      · exact .inl ((ctype.isalnum_iff e).mp hAlnum)
      · exact .inr (not_not.mp hUnderscore)

/-- What becomes of a list of attributes. -/
structure AttrsResolved (attrs result : List Word) : Prop where
  nodup : result.Nodup
  plain : ∀ name ∈ result, Plain name
  kept : Kept attrs result

theorem attrs_resolved {attrs : List Word} (h : ∀ name ∈ attrs, Plain name) :
    AttrsResolved attrs (handleGeneralNameClashing [] attrs).1 := by
  have hResolves := handleGeneralNameClashing_spec [] attrs
  refine ⟨hResolves.nodup, hResolves.plain h, fun i n hi hOnce => ?_⟩
  exact hResolves.kept i n hi List.not_mem_nil (not_mem_take hi hOnce.le)

/-- The names that are to be different: those of the variables, the file's attribute table and the groups. -/
def File.objNames (f : File) : List Word := f.vars.map Var.newname ++ f.table.name :: f.groups.map Group.newname

/-- A name that comes once after flattening, and is not in use before. -/
def Once (objnameset : List Word) (f : File) (n : Word) : Prop := f.objNames.count n = 1 ∧ n ∉ objnameset

/-- What becomes of the names of a file. The variables come first: only a name that was made for one of them can
take away the name of the table or of a group. -/
structure NamesResolved (objnameset : List Word) (f g : File) : Prop where
  nodup : g.objNames.Nodup
  unused : ∀ name ∈ g.objNames, name ∉ objnameset
  plain : ∀ name ∈ g.objNames, Plain name
  rootAttrs : AttrsResolved f.rootAttrs g.rootAttrs
  groupAttrs : List.Forall₂ (fun a b => AttrsResolved a.attrs b.attrs) f.groups g.groups
  varAttrs : List.Forall₂ (fun a b => AttrsResolved a.attrs b.attrs) f.vars g.vars
  varsKept : ∀ (i : Nat) n, (f.vars.map Var.newname)[i]? = some n → Once objnameset f n →
    (g.vars.map Var.newname)[i]? = some n
  tableKept : Once objnameset f f.table.name → f.table.name ∉ g.vars.map Var.newname → g.table.name = f.table.name
  groupsKept : ∀ (i : Nat) n, (f.groups.map Group.newname)[i]? = some n → Once objnameset f n →
    n ∉ g.vars.map Var.newname → n ≠ g.table.name → (g.groups.map Group.newname)[i]? = some n

theorem zipWith_map {α β γ : Type} {l : List α} {names : List β} {f : α → β → γ} {get : γ → β}
    (hGet : ∀ a b, get (f a b) = b) (h : names.length = l.length) : (List.zipWith f l names).map get = names := by
  induction l generalizing names with
  | nil => rw [List.length_eq_zero_iff.mp h]; rfl
  | cons a l ih =>
    cases names with
    | nil => rfl
    | cons b names =>
      rw [List.zipWith_cons_cons, List.map_cons, hGet, ih (Nat.succ.inj h)]

theorem zipWith_forall {α β : Type} {l : List α} {names : List β} {f : α → β → α} {set : α → α} {R : α → α → Prop}
    (hR : ∀ a ∈ l, ∀ b, R a (set (f a b))) (h : names.length = l.length) :
    List.Forall₂ R l ((List.zipWith f l names).map set) := by
  induction l generalizing names with
  | nil => exact .nil
  | cons a l ih =>
    cases names with
    | nil => cases h
    | cons b names =>
      rw [List.zipWith_cons_cons, List.map_cons]
      exact .cons (hR a List.mem_cons_self b) (ih (fun c hc => hR c (List.mem_cons_of_mem _ hc)) (Nat.succ.inj h))

/-- The file's table gets a name that is not in use, and it is in the set then. -/
theorem handleFileTableClashing_spec (objnameset : List Word) (table : FileAttrTable) :
    (handleFileTableClashing objnameset table).2.name ∉ objnameset ∧
    (∀ x, x ∈ (handleFileTableClashing objnameset table).1 ↔
      x ∈ objnameset ∨ x = (handleFileTableClashing objnameset table).2.name) ∧
    (table.name ∉ objnameset → (handleFileTableClashing objnameset table).2.name = table.name) := by
  rw [handleFileTableClashing]
  split
  · rename_i hClash
    obtain ⟨n, hFree, hUnique⟩ := genUniqueName_spec table.name objnameset 1
    simp only [hUnique, List.mem_cons]
    exact ⟨hFree, fun x => or_comm, fun h => absurd (by simpa using hClash) h⟩
  · rename_i hNew
    simp only [List.mem_cons]
    exact ⟨by simpa using hNew, fun x => or_comm, fun _ => trivial⟩

variable {f : File} {objnameset : List Word}

theorem Once.of_var {i : Nat} {n : Word} (h : Once objnameset f n) (hi : (f.vars.map Var.newname)[i]? = some n) :
    n ∉ (f.vars.map Var.newname).take i := by
  apply not_mem_take hi
  have hCount := h.1
  rw [File.objNames, List.count_append] at hCount
  omega

theorem Once.of_group {i : Nat} {n : Word} (h : Once objnameset f n) (hi : (f.groups.map Group.newname)[i]? = some n) :
    n ∉ f.vars.map Var.newname ∧ n ≠ f.table.name ∧ n ∉ (f.groups.map Group.newname).take i := by
  have hMem : n ∈ f.groups.map Group.newname := List.mem_of_getElem? hi
  have hOne := List.count_pos_iff.mpr hMem
  have hCount := h.1
  rw [File.objNames, List.count_append, List.count_cons] at hCount
  refine ⟨fun hVar => ?_, ?_, not_mem_take hi (by omega)⟩
  · have := List.count_pos_iff.mpr hVar
    omega
  · rintro rfl
    rw [if_pos (beq_self_eq_true _)] at hCount
    omega

theorem Once.of_table (h : Once objnameset f f.table.name) : f.table.name ∉ f.vars.map Var.newname := by
  intro hVar
  have hOne := List.count_pos_iff.mpr hVar
  have hCount := h.1
  rw [File.objNames, List.count_append, List.count_cons_self] at hCount
  omega

/-- All names of a flattened file, after the clashes are resolved. -/
theorem names_resolved (ctype : Ctype) (f : File) (objnameset : List Word) :
    NamesResolved objnameset (flattenObjName ctype f)
      (handleGeneralObjNameClashing objnameset (flattenObjName ctype f)).2 := by
  have hPlain := plain_getCFString ctype
  have hMapped : ∀ l : List Word, ∀ name ∈ l.map (getCFString ctype), Plain name := by
    intro l name hName
    obtain ⟨s, -, rfl⟩ := List.mem_map.mp hName
    exact hPlain s
  have hVarNames : ∀ name ∈ (flattenObjName ctype f).vars.map Var.newname, Plain name := by
    intro name hName
    simp only [flattenObjName, List.map_map] at hName
    obtain ⟨v, -, rfl⟩ := List.mem_map.mp hName
    exact hPlain _
  have hGroupNames : ∀ name ∈ (flattenObjName ctype f).groups.map Group.newname, Plain name := by
    intro name hName
    simp only [flattenObjName, List.map_map] at hName
    obtain ⟨g, -, rfl⟩ := List.mem_map.mp hName
    exact hPlain _
  have hVarAttrs : ∀ v ∈ (flattenObjName ctype f).vars, ∀ name ∈ v.attrs, Plain name := by
    intro v hv
    obtain ⟨w, -, rfl⟩ := List.mem_map.mp hv
    exact hMapped w.attrs
  have hGroupAttrs : ∀ g ∈ (flattenObjName ctype f).groups, ∀ name ∈ g.attrs, Plain name := by
    intro g hg
    obtain ⟨w, -, rfl⟩ := List.mem_map.mp hg
    exact hMapped w.attrs
  have hRootAttrs : ∀ name ∈ (flattenObjName ctype f).rootAttrs, Plain name := hMapped f.rootAttrs
  generalize flattenObjName ctype f = f at *
  have hVars := handleGeneralNameClashing_spec objnameset (f.vars.map Var.newname)
  generalize hVarsResult : handleGeneralNameClashing objnameset (f.vars.map Var.newname) = vars at hVars
  obtain ⟨hTable, hTableSet, hTableKept⟩ := handleFileTableClashing_spec vars.2 f.table
  generalize hTableResult : handleFileTableClashing vars.2 f.table = table at hTable hTableSet hTableKept
  have hGroups := handleGeneralNameClashing_spec table.1 (f.groups.map Group.newname)
  generalize hGroupsResult : handleGeneralNameClashing table.1 (f.groups.map Group.newname) = groups at hGroups
  have hVarsLength := hVars.length
  have hGroupsLength := hGroups.length
  rw [List.length_map] at hVarsLength hGroupsLength
  have hResult : (handleGeneralObjNameClashing objnameset f).2 =
      ⟨(List.zipWith (fun v name => { v with newname := name }) f.vars vars.1).map
          fun v => { v with attrs := (handleGeneralNameClashing [] v.attrs).1 },
        (handleGeneralNameClashing [] f.rootAttrs).1,
        (List.zipWith (fun g name => { g with newname := name }) f.groups groups.1).map
          fun g => { g with attrs := (handleGeneralNameClashing [] g.attrs).1 },
        table.2⟩ := by
    simp only [handleGeneralObjNameClashing, handleVarNameClashing, handleRootGroupNameClashing,
      handleObjAttrNameClashing, withNewnames, hVarsResult, hTableResult, hGroupsResult]
  have hNewVars : (handleGeneralObjNameClashing objnameset f).2.vars.map Var.newname = vars.1 := by
    rw [hResult, List.map_map]
    exact zipWith_map (fun _ _ => rfl) hVarsLength
  have hNewGroups : (handleGeneralObjNameClashing objnameset f).2.groups.map Group.newname = groups.1 := by
    rw [hResult, List.map_map]
    exact zipWith_map (fun _ _ => rfl) hGroupsLength
  have hNewTable : (handleGeneralObjNameClashing objnameset f).2.table = table.2 := by rw [hResult]
  have hObjNames : (handleGeneralObjNameClashing objnameset f).2.objNames = vars.1 ++ table.2.name :: groups.1 := by
    rw [File.objNames, hNewVars, hNewGroups, hNewTable]
  have hVarSet : ∀ x ∈ vars.1, x ∈ vars.2 := fun x hx => (hVars.set x).mpr (.inr (.inr hx))
  have hGroupUnused : ∀ x ∈ groups.1, x ∉ vars.2 ∧ x ≠ table.2.name := by
    intro x hx
    have h := hGroups.unused x hx
    rwa [hTableSet, not_or] at h
  refine ⟨?_, ?_, ?_, ?_, ?_, ?_, ?_, ?_, ?_⟩
  · rw [hObjNames, List.nodup_append]
    refine ⟨hVars.nodup, List.nodup_cons.mpr ⟨fun h => (hGroupUnused _ h).2 rfl, hGroups.nodup⟩, ?_⟩
    rintro x hx y hy rfl
    rcases List.mem_cons.mp hy with rfl | hy
    · exact hTable (hVarSet _ hx)
    · exact (hGroupUnused x hy).1 (hVarSet x hx)
  · rw [hObjNames]
    intro x hx
    rcases List.mem_append.mp hx with hx | hx
    · exact hVars.unused x hx
    · rcases List.mem_cons.mp hx with rfl | hx
      · exact fun h => hTable ((hVars.set _).mpr (.inl h))
      · exact fun h => (hGroupUnused x hx).1 ((hVars.set x).mpr (.inl h))
  · rw [hObjNames]
    intro x hx
    rcases List.mem_append.mp hx with hx | hx
    · exact hVars.plain hVarNames x hx
    · rcases List.mem_cons.mp hx with rfl | hx
      · exact table.2.plain
      · exact hGroups.plain hGroupNames x hx
  · rw [hResult]
    exact attrs_resolved hRootAttrs
  · rw [hResult]
    exact zipWith_forall (fun g hg _ => attrs_resolved (hGroupAttrs g hg)) hGroupsLength
  · rw [hResult]
    exact zipWith_forall (fun v hv _ => attrs_resolved (hVarAttrs v hv)) hVarsLength
  · rw [hNewVars]
    exact fun i n hi hOnce => hVars.kept i n hi hOnce.2 (hOnce.of_var hi)
  · rw [hNewVars, hNewTable]
    intro hOnce hNot
    apply hTableKept
    rw [hVars.set, not_or, not_or]
    exact ⟨hOnce.2, hOnce.of_table, hNot⟩
  · rw [hNewVars, hNewTable, hNewGroups]
    intro i n hi hOnce hNot hNotTable
    obtain ⟨hVar, -, hTake⟩ := hOnce.of_group hi
    apply hGroups.kept i n hi
    · rw [hTableSet, hVars.set, not_or, not_or, not_or]
      exact ⟨⟨hOnce.2, hVar, hNot⟩, hNotTable⟩
    · exact hTake

/-- A C library like glibc's. -/
def glibcCtype : Ctype where
  isdigit c := if c.isDigit then 2048 else 0
  isalnum c := if c.isAlphanum then 8 else 0
  isdigit_iff c := by
    split
    · rename_i h
      simp [h]
    · rename_i h
      simp [h]
  isalnum_iff c := by
    split
    · rename_i h
      simp [h]
    · rename_i h
      simp [h]

/-- Two variables whose names become the same, and a group that has the name that is made for the second one. -/
def suffixTaken : File where
  vars := [⟨"/a b".toList, [], []⟩, ⟨"/a.b".toList, [], []⟩]
  rootAttrs := []
  groups := [⟨"/a b 1".toList, []⟩]
  table := ⟨"HDF5_GLOBAL".toList, plain_of_all (by decide)⟩

theorem unique_group_renamed :
    (flattenObjName glibcCtype suffixTaken).objNames =
      ["_a_b".toList, "_a_b".toList, "HDF5_GLOBAL".toList, "_a_b_1".toList] ∧
    (handleGeneralObjNameClashing [] (flattenObjName glibcCtype suffixTaken)).2.objNames =
      ["_a_b".toList, "_a_b_1".toList, "HDF5_GLOBAL".toList, "_a_b_1_1".toList] ∧
    ¬ ∀ (ctype : Ctype) (f : File), Kept (flattenObjName ctype f).objNames
      (handleGeneralObjNameClashing [] (flattenObjName ctype f)).2.objNames := by
  have hAfter : (handleGeneralObjNameClashing [] (flattenObjName glibcCtype suffixTaken)).2.objNames =
      ["_a_b".toList, "_a_b_1".toList, "HDF5_GLOBAL".toList, "_a_b_1_1".toList] := by decide
  refine ⟨by decide, hAfter, fun h => ?_⟩
  have hKept := h glibcCtype suffixTaken 3 "_a_b_1".toList (by decide) (by decide)
  rw [hAfter] at hKept
  exact absurd hKept (by decide)

end Libdap.Hdf5
