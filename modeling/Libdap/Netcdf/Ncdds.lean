import Mathlib.Data.List.Nodup
import Libdap.Constraint.Word
import Libdap.Core.Fault

/-! # The variables of a netCDF file

`read_variables` makes the DDS of a file from its dimensions and variables. A variable whose dimensions all have a
variable of their name becomes a Grid.
-/

namespace Libdap.Netcdf
open Core Constraint
set_option autoImplicit false

inductive NcType
  | byte
  | char
  | short
  | int
  | float
  | double
  | ubyte
  | ushort
  | uint
  | int64
  | uint64
  | string
  /-- A type that the file defines. -/
  | user (typeid : Nat)
  deriving DecidableEq, Repr

inductive DapType
  | Byte
  | Int16
  | UInt16
  | Int32
  | UInt32
  | Float32
  | Float64
  | Str
  deriving DecidableEq, Repr

structure Dim where
  name : Word
  size : Nat
  deriving DecidableEq, Repr

structure NcVar where
  name : Word
  type : NcType
  dims : List Dim
  deriving DecidableEq, Repr

/-- A file; the library keeps the names of its dimensions apart, and those of its variables. -/
structure NcDataset where
  dims : List Dim
  vars : List NcVar
  dimNames : (dims.map Dim.name).Nodup
  varNames : (vars.map NcVar.name).Nodup
  varDims : ∀ v ∈ vars, ∀ d ∈ v.dims, d ∈ dims

/-- `NCRequestHandler`'s settings. -/
structure NcSettings where
  showSharedDims : Bool
  ignoreUnknownTypes : Bool
  promoteByteToShort : Bool

/-- A Map: an array with the one dimension that it is named after. -/
structure DapMap where
  name : Word
  type : DapType
  size : Nat
  deriving DecidableEq, Repr

inductive DapVar
  | scalar (name : Word) (type : DapType)
  | array (name : Word) (type : DapType) (dims : List Dim)
  /-- Its array part may be without a type, when unknown types are ignored. -/
  | grid (name : Word) (type : Option DapType) (dims : List Dim) (maps : List DapMap)
  | userDefined (name : Word) (typeid : Nat)
  deriving DecidableEq, Repr

def DapVar.name : DapVar → Word
  | scalar name _ => name
  | array name _ _ => name
  | grid name _ _ _ => name
  | userDefined name _ => name

def DapVar.maps : DapVar → List DapMap
  | grid _ _ _ maps => maps
  | _ => []

/-- `build_scalar`; nothing is the null pointer. -/
def buildScalar (settings : NcSettings) (varname : Word) : NcType → Except Fault (Option DapType)
  | .string => .ok (some .Str)
  | .char => .ok (some .Str)
  | .byte => .ok (some (if settings.promoteByteToShort then .Int16 else .Byte))
  | .short => .ok (some .Int16)
  | .int => .ok (some .Int32)
  | .ubyte => .ok (some .Byte)
  | .ushort => .ok (some .UInt16)
  | .uint => .ok (some .UInt32)
  | .float => .ok (some .Float32)
  | .double => .ok (some .Float64)
  | .int64 =>
    if settings.ignoreUnknownTypes then .ok none
    else .error (.Error "The netCDF handler does not currently support 64 bit integers.")
  | .uint64 =>
    if settings.ignoreUnknownTypes then .ok none
    else .error (.Error "The netCDF handler does not currently support 64 bit integers.")
  | .user typeid =>
    .error (.InternalErr ("Unknown type (" ++ toString typeid ++ ") for variable '" ++ String.ofList varname ++ "'"))

/-- A variable that is not null. -/
def buildType (settings : NcSettings) (varname : Word) (type : NcType) (null : Fault) : Except Fault DapType := do
  match ← buildScalar settings varname type with
  | some t => .ok t
  | none => .error null

/-- `DDS::add_var` with the null pointer. -/
def nullAdded : Fault := .InternalErr "Trying to add a BaseType object with a NULL pointer."

section
variable (settings : NcSettings) (buildUserDefined : Nat → Except Fault Bool) (ds : NcDataset)

/-- `find_matching_coordinate_variable`; a variable is known by its name. -/
def findMatchingCoordinateVariable (v : NcVar) (d : Dim) : Option NcType :=
  match ds.dims.find? fun e => e.name = d.name with
  | none => none
  | some dim =>
    if dim.size = d.size then
      if v.name = d.name then none else (ds.vars.find? fun w => w.name = d.name).map NcVar.type
    else none

/-- `is_grid`: the dimensions, each with the type of its Map. -/
def isGrid (v : NcVar) : List Dim → Option (List (Dim × NcType))
  | [] => some []
  | d :: dims =>
    match findMatchingCoordinateVariable ds v d with
    | none => none
    | some type => (isGrid v dims).map ((d, type) :: ·)

/-- The dimensions that are left of a variable's: the last one of characters becomes the string. -/
def NcVar.dapDims {α : Type} (v : NcVar) (dims : List α) : List α := if v.type = .char then dims.dropLast else dims

/-- The Maps of `build_grid`. -/
def buildMaps : List (Dim × NcType) → Except Fault (List DapMap)
  | [] => .ok []
  | (d, type) :: rest => do
    let t ← buildType settings d.name type .undefined
    let maps ← buildMaps rest
    .ok (⟨d.name, t, d.size⟩ :: maps)

def buildGrid (v : NcVar) (type : Option DapType) (maps : List (Dim × NcType)) : Except Fault DapVar := do
  let built ← buildMaps settings (v.dapDims maps)
  .ok (.grid v.name type ((v.dapDims maps).map Prod.fst) built)

/-- `build_array`, which takes the name from the element variable. -/
def buildArray (v : NcVar) : Except Fault DapVar := do
  let t ← buildType settings v.name v.type .undefined
  .ok (.array v.name t (v.dapDims v.dims))

/-- The branches of the first loop. -/
inductive Kind
  | user (typeid : Nat)
  | scalar
  | grid (maps : List (Dim × NcType))
  | array

def kind (v : NcVar) : Kind :=
  match v.type with
  | .user typeid => .user typeid
  | type =>
    if v.dims.length = 0 ∨ v.dims.length = 1 ∧ type = .char then .scalar
    else match isGrid ds v v.dims with
      | some maps => .grid maps
      | none => .array

/-- What the first loop adds for a variable: to the DDS, to `array_vars` and to `all_maps`. -/
structure Added where
  top : List DapVar
  arrayVars : List NcVar
  allMaps : List Word

def readVariable (v : NcVar) : Except Fault Added :=
  match kind ds v with
  | .user typeid => do
    let built ← buildUserDefined typeid
    if built then .ok ⟨[.userDefined v.name typeid], [], []⟩ else .error nullAdded
  | .scalar => do
    let t ← buildType settings v.name v.type nullAdded
    .ok ⟨[.scalar v.name t], [], []⟩
  | .grid maps => do
    let type ← buildScalar settings v.name v.type
    let gr ← buildGrid settings v type maps
    .ok ⟨[gr], [], (v.dapDims maps).map fun m => m.1.name⟩
  | .array =>
    if settings.showSharedDims then do
      let ar ← buildArray settings v
      .ok ⟨[ar], [], []⟩
    else .ok ⟨[], [v], []⟩

def readFirst : List NcVar → Except Fault Added
  | [] => .ok ⟨[], [], []⟩
  | v :: vars => do
    let a ← readVariable settings buildUserDefined ds v
    let b ← readFirst vars
    .ok ⟨a.top ++ b.top, a.arrayVars ++ b.arrayVars, a.allMaps ++ b.allMaps⟩

/-- The second loop: the arrays that are no Map. -/
def readArrays (allMaps : List Word) : List NcVar → Except Fault (List DapVar)
  | [] => .ok []
  | v :: vars =>
    if allMaps.contains v.name then readArrays allMaps vars
    else do
      let ar ← buildArray settings v
      let rest ← readArrays allMaps vars
      .ok (ar :: rest)

/-- `read_variables`: what is added to the DDS. -/
def readVariables : Except Fault (List DapVar) := do
  let a ← readFirst settings buildUserDefined ds ds.vars
  if settings.showSharedDims then .ok a.top
  else do
    let arrays ← readArrays settings a.allMaps a.arrayVars
    .ok (a.top ++ arrays)

end

/-! ## What a reader of the DDS relies on -/

/-- `NCArray::read` refuses characters with one dimension, as they make a string. -/
def NcVar.readsAsArray (v : NcVar) : Bool := v.type ≠ .char || 2 ≤ v.dims.length

/-- One-dimensional over the dimension that it is named after. -/
def NcVar.IsCoordinate (v : NcVar) : Prop := ∃ size, v.dims = [⟨v.name, size⟩]

/-- A Map whose variable has its dimension and no other, and can be read as an array. -/
def MapSound (ds : NcDataset) (m : DapMap) : Prop :=
  ∃ v ∈ ds.vars, v.name = m.name ∧ v.dims = [⟨m.name, m.size⟩] ∧ v.readsAsArray = true

/-- Every variable comes once, unless it is a coordinate variable that comes as a Map, and the Maps are sound. -/
structure Shown (ds : NcDataset) (top : List DapVar) : Prop where
  once : (top.map DapVar.name).Nodup
  known : ∀ name ∈ top.map DapVar.name, name ∈ ds.vars.map NcVar.name
  all : ∀ v ∈ ds.vars, v.name ∈ top.map DapVar.name ∨
    v.IsCoordinate ∧ ∃ g ∈ top, ∃ m ∈ g.maps, m.name = v.name
  maps : ∀ g ∈ top, ∀ m ∈ g.maps, MapSound ds m

/-- The handler has a DAP type for it. -/
def NcType.known : NcType → Bool
  | .int64 => false
  | .uint64 => false
  | .user _ => false
  | _ => true

/-- A variable that becomes a Grid has proper coordinate variables for the dimensions of the Grid. -/
def GridSound (ds : NcDataset) (v : NcVar) : Prop :=
  ∀ maps, kind ds v = .grid maps → ∀ d ∈ v.dapDims v.dims,
    ∃ w ∈ ds.vars, w.name = d.name ∧ w.dims = [d] ∧ w.type ≠ .char ∧ w.type.known = true

def Supported (settings : NcSettings) (buildUserDefined : Nat → Except Fault Bool) (ds : NcDataset)
    (v : NcVar) : Prop :=
  match kind ds v with
  | .user typeid => buildUserDefined typeid = .ok true
  | .grid _ => v.type.known = true ∨ settings.ignoreUnknownTypes = true
  | _ => v.type.known = true

/-! ## The parts of a variable -/

variable {settings : NcSettings} {buildUserDefined : Nat → Except Fault Bool} {ds : NcDataset} {v : NcVar}

theorem var_of_name {w : NcVar} (hv : v ∈ ds.vars) (hw : w ∈ ds.vars) (h : v.name = w.name) : v = w :=
  List.inj_on_of_nodup_map ds.varNames hv hw h

theorem findMatching_var {d : Dim} {type : NcType} (h : findMatchingCoordinateVariable ds v d = some type) :
    ∃ w ∈ ds.vars, w.name = d.name ∧ w.type = type := by
  rw [findMatchingCoordinateVariable] at h
  split at h
  · cases h
  · split at h
    · split at h
      · cases h
      · obtain ⟨w, hFind, hType⟩ := Option.map_eq_some_iff.mp h
        exact ⟨w, List.mem_of_find?_eq_some hFind, by simpa using List.find?_some hFind, hType⟩
    · cases h

/-- The Maps that a Grid would have: its dimensions, each with the type of the variable of its name. -/
theorem isGrid_maps {dims : List Dim} {maps : List (Dim × NcType)} (h : isGrid ds v dims = some maps) :
    maps.map Prod.fst = dims ∧ ∀ m ∈ maps, ∃ w ∈ ds.vars, w.name = m.1.name ∧ w.type = m.2 := by
  induction dims generalizing maps with
  | nil =>
    cases h
    exact ⟨rfl, by rintro m ⟨⟩⟩
  | cons d dims ih =>
    rw [isGrid] at h
    split at h
    · cases h
    · rename_i type hMatch
      obtain ⟨rest, hRest, rfl⟩ := Option.map_eq_some_iff.mp h
      obtain ⟨hDims, hVars⟩ := ih hRest
      refine ⟨congrArg (d :: ·) hDims, ?_⟩
      intro m hm
      rcases List.mem_cons.mp hm with rfl | hm
      · exact findMatching_var hMatch
      · exact hVars m hm

theorem dapDims_map {α β : Type} (f : α → β) (l : List α) : (v.dapDims l).map f = v.dapDims (l.map f) := by
  rw [NcVar.dapDims, NcVar.dapDims]
  split
  · exact List.map_dropLast
  · rfl

theorem mem_dapDims {α : Type} {a : α} {l : List α} (h : a ∈ v.dapDims l) : a ∈ l := by
  rw [NcVar.dapDims] at h
  split at h
  · exact List.dropLast_subset _ h
  · exact h

theorem buildType_known (settings : NcSettings) (name : Word) {type : NcType} (null : Fault) :
    (∃ t, buildType settings name type null = .ok t) ↔ type.known = true := by
  cases type with
  | int64 | uint64 =>
    rw [buildType, buildScalar]
    cases settings.ignoreUnknownTypes with
    | true => exact ⟨by rintro ⟨t, ⟨⟩⟩, by rintro ⟨⟩⟩
    | false => exact ⟨by rintro ⟨t, ⟨⟩⟩, by rintro ⟨⟩⟩
  | user typeid => exact ⟨by rintro ⟨t, ⟨⟩⟩, by rintro ⟨⟩⟩
  | _ => exact ⟨fun _ => rfl, fun _ => ⟨_, rfl⟩⟩

theorem buildScalar_known (settings : NcSettings) (name : Word) {type : NcType} (h : ∀ typeid, type ≠ .user typeid) :
    (∃ t, buildScalar settings name type = .ok t) ↔ type.known = true ∨ settings.ignoreUnknownTypes = true := by
  cases type with
  | int64 | uint64 =>
    rw [buildScalar]
    cases settings.ignoreUnknownTypes with
    | true => exact ⟨fun _ => .inr rfl, fun _ => ⟨_, rfl⟩⟩
    | false =>
      constructor
      · rintro ⟨t, ⟨⟩⟩
      · rintro (hKnown | hIgnore)
        · cases hKnown
        · cases hIgnore
  | user typeid => exact absurd rfl (h typeid)
  | _ => exact ⟨fun _ => .inl rfl, fun _ => ⟨_, rfl⟩⟩

/-- The Maps are built when all their types are known, and they are the dimensions with these. -/
theorem buildMaps_known (settings : NcSettings) {maps : List (Dim × NcType)} :
    (∃ built, buildMaps settings maps = .ok built) ↔ ∀ m ∈ maps, m.2.known = true := by
  induction maps with
  | nil => exact ⟨fun _ => by rintro m ⟨⟩, fun _ => ⟨_, rfl⟩⟩
  | cons m maps ih =>
    obtain ⟨d, type⟩ := m
    rw [buildMaps]
    constructor
    · rintro ⟨built, hBuilt⟩
      obtain ⟨t, hType, hRest⟩ := bind_eq_ok hBuilt
      obtain ⟨rest, hMaps, -⟩ := bind_eq_ok hRest
      intro m hm
      rcases List.mem_cons.mp hm with rfl | hm
      · exact (buildType_known _ _ _).mp ⟨t, hType⟩
      · exact ih.mp ⟨rest, hMaps⟩ m hm
    · intro h
      obtain ⟨t, hType⟩ := (buildType_known settings d.name .undefined).mpr
        (h _ List.mem_cons_self)
      obtain ⟨rest, hMaps⟩ := ih.mpr fun m hm => h m (List.mem_cons_of_mem _ hm)
      exact ⟨_, by rw [hType, ok_bind, hMaps, ok_bind]⟩

theorem buildMaps_dims {maps : List (Dim × NcType)} {built : List DapMap} (h : buildMaps settings maps = .ok built) :
    built.map (fun m => (⟨m.name, m.size⟩ : Dim)) = maps.map Prod.fst := by
  induction maps generalizing built with
  | nil =>
    cases h
    rfl
  | cons m maps ih =>
    obtain ⟨d, type⟩ := m
    rw [buildMaps] at h
    obtain ⟨t, -, hRest⟩ := bind_eq_ok h
    obtain ⟨rest, hMaps, hBuilt⟩ := bind_eq_ok hRest
    cases hBuilt
    rw [List.map_cons, List.map_cons, ih hMaps]

theorem kind_grid {maps : List (Dim × NcType)} (h : kind ds v = .grid maps) :
    isGrid ds v v.dims = some maps ∧ ∀ typeid, v.type ≠ .user typeid := by
  rw [kind] at h
  split at h
  · cases h
  · rename_i hUser
    split at h
    · cases h
    · split at h
      · rename_i hGrid
        cases h
        exact ⟨hGrid, hUser⟩
      · cases h

/-! ## The first loop -/

/-- An array that the first loop leaves to the second. -/
def hidden (settings : NcSettings) (ds : NcDataset) (v : NcVar) : Bool :=
  match kind ds v with
  | .array => !settings.showSharedDims
  | _ => false

/-- What a variable adds when nothing is thrown. -/
structure Adds (settings : NcSettings) (buildUserDefined : Nat → Except Fault Bool) (ds : NcDataset) (v : NcVar)
    (a : Added) : Prop where
  top : a.top.map DapVar.name = if hidden settings ds v then [] else [v.name]
  arrays : a.arrayVars = if hidden settings ds v then [v] else []
  maps : ∀ name ∈ a.allMaps, ∃ g ∈ a.top, ∃ m ∈ g.maps, m.name = name
  typed : ∀ g ∈ a.top, ∀ m ∈ g.maps, ∃ w ∈ ds.vars, w.name = m.name ∧ w.type.known = true
  dims : ∀ g ∈ a.top, ∀ m ∈ g.maps, ∃ maps, kind ds v = .grid maps ∧ (⟨m.name, m.size⟩ : Dim) ∈ v.dapDims v.dims
  grid : ∀ maps, kind ds v = .grid maps → ∀ d ∈ v.dapDims v.dims,
    ∃ g ∈ a.top, ∃ m ∈ g.maps, m.name = d.name ∧ m.size = d.size
  supported : hidden settings ds v = false → Supported settings buildUserDefined ds v

theorem buildGrid_maps {type : Option DapType} {maps : List (Dim × NcType)} {gr : DapVar}
    (h : buildGrid settings v type maps = .ok gr) :
    gr.name = v.name ∧ gr.maps.map (fun m => (⟨m.name, m.size⟩ : Dim)) = (v.dapDims maps).map Prod.fst ∧
      ∀ m ∈ v.dapDims maps, m.2.known = true := by
  rw [buildGrid] at h
  obtain ⟨built, hBuilt, hGrid⟩ := bind_eq_ok h
  cases hGrid
  exact ⟨rfl, buildMaps_dims hBuilt, (buildMaps_known _).mp ⟨built, hBuilt⟩⟩

/-- A variable that is no Grid. -/
theorem Adds.plain {x : DapVar} (hMaps : x.maps = []) (hName : x.name = v.name) (hShown : hidden settings ds v = false)
    (hKind : ∀ maps, kind ds v ≠ .grid maps) (hSupported : Supported settings buildUserDefined ds v) :
    Adds settings buildUserDefined ds v ⟨[x], [], []⟩ := by
  have hNone : ∀ g ∈ [x], g.maps = [] := by
    intro g hg
    rw [List.mem_singleton.mp hg, hMaps]
  refine ⟨?_, ?_, ?_, ?_, ?_, fun maps hGrid => absurd hGrid (hKind maps), fun _ => hSupported⟩
  · rw [hShown]
    exact congrArg (fun name => [name]) hName
  · rw [hShown]
    rfl
  · rintro name ⟨⟩
  · intro g hg m hm
    rw [hNone g hg] at hm
    cases hm
  · intro g hg m hm
    rw [hNone g hg] at hm
    cases hm

theorem readVariable_adds {a : Added} (h : readVariable settings buildUserDefined ds v = .ok a) :
    Adds settings buildUserDefined ds v a := by
  rw [readVariable] at h
  split at h
  · rename_i typeid hKind
    obtain ⟨built, hBuilt, hRest⟩ := bind_eq_ok h
    cases built with
    | false => cases hRest
    | true =>
      cases hRest
      apply Adds.plain rfl rfl
      · rw [hidden, hKind]
      · simp [hKind]
      · rw [Supported, hKind]
        exact hBuilt
  · rename_i hKind
    obtain ⟨t, hType, hRest⟩ := bind_eq_ok h
    cases hRest
    apply Adds.plain rfl rfl
    · rw [hidden, hKind]
    · simp [hKind]
    · rw [Supported, hKind]
      exact (buildType_known _ _ _).mp ⟨t, hType⟩
  · rename_i maps hKind
    obtain ⟨type, hType, hRest⟩ := bind_eq_ok h
    obtain ⟨gr, hGrid, hAdded⟩ := bind_eq_ok hRest
    have hShown : hidden settings ds v = false := by rw [hidden, hKind]
    obtain ⟨hIsGrid, hUser⟩ := kind_grid hKind
    obtain ⟨hDims, hVars⟩ := isGrid_maps hIsGrid
    obtain ⟨hName, hMaps, hKnown⟩ := buildGrid_maps hGrid
    have hDapDims : (v.dapDims maps).map Prod.fst = v.dapDims v.dims := by rw [dapDims_map, hDims]
    rw [hDapDims] at hMaps
    cases hAdded
    refine ⟨?_, ?_, ?_, ?_, ?_, ?_, fun _ => ?_⟩
    · rw [hShown]
      exact congrArg (fun name => [name]) hName
    · rw [hShown]
      rfl
    · intro name hMem
      obtain ⟨m, hm, rfl⟩ := List.mem_map.mp hMem
      have hDim : m.1 ∈ gr.maps.map fun m => (⟨m.name, m.size⟩ : Dim) := by
        rw [hMaps, ← hDapDims]
        exact List.mem_map_of_mem hm
      obtain ⟨b, hb, hSame⟩ := List.mem_map.mp hDim
      exact ⟨gr, List.mem_singleton_self _, b, hb, congrArg Dim.name hSame⟩
    · intro g hg b hb
      rw [List.mem_singleton.mp hg] at hb
      have hDim : (⟨b.name, b.size⟩ : Dim) ∈ (v.dapDims maps).map Prod.fst := by
        rw [hDapDims, ← hMaps]
        exact List.mem_map_of_mem hb
      obtain ⟨m, hm, hSame⟩ := List.mem_map.mp hDim
      obtain ⟨w, hw, hwName, hwType⟩ := hVars m (mem_dapDims hm)
      refine ⟨w, hw, ?_, ?_⟩
      · rw [hwName, hSame]
      · rw [hwType]
        exact hKnown m hm
    · intro g hg b hb
      rw [List.mem_singleton.mp hg] at hb
      refine ⟨maps, hKind, ?_⟩
      rw [← hMaps]
      exact List.mem_map_of_mem hb
    · intro maps' _ d hd
      rw [← hMaps] at hd
      obtain ⟨b, hb, rfl⟩ := List.mem_map.mp hd
      exact ⟨gr, List.mem_singleton_self _, b, hb, rfl, rfl⟩
    · rw [Supported, hKind]
      exact (buildScalar_known _ _ hUser).mp ⟨type, hType⟩
  · rename_i hKind
    split at h
    · rename_i hShow
      obtain ⟨ar, hArray, hRest⟩ := bind_eq_ok h
      rw [buildArray] at hArray
      obtain ⟨t, hType, hMade⟩ := bind_eq_ok hArray
      cases hMade
      cases hRest
      apply Adds.plain rfl rfl
      · simp only [hidden, hKind, hShow, Bool.not_true]
      · simp [hKind]
      · rw [Supported, hKind]
        exact (buildType_known _ _ _).mp ⟨t, hType⟩
    · rename_i hShow
      have hHidden : hidden settings ds v = true := by simpa [hidden, hKind] using hShow
      cases h
      refine ⟨by rw [hHidden]; rfl, by rw [hHidden]; rfl, by rintro name ⟨⟩, by rintro g ⟨⟩, by rintro g ⟨⟩, ?_, ?_⟩
      · intro maps hGrid
        rw [hKind] at hGrid
        cases hGrid
      · intro hShown
        rw [hHidden] at hShown
        cases hShown

theorem readVariable_ok (hSupported : Supported settings buildUserDefined ds v) (hSound : GridSound ds v) :
    ∃ a, readVariable settings buildUserDefined ds v = .ok a := by
  rw [Supported] at hSupported
  rw [readVariable]
  split
  · rename_i typeid hKind
    rw [hKind] at hSupported
    exact ⟨_, by rw [hSupported]; rfl⟩
  · rename_i hKind
    rw [hKind] at hSupported
    obtain ⟨t, hType⟩ := (buildType_known settings v.name nullAdded).mpr hSupported
    exact ⟨_, by rw [hType]; rfl⟩
  · rename_i maps hKind
    rw [hKind] at hSupported
    obtain ⟨hIsGrid, hUser⟩ := kind_grid hKind
    obtain ⟨hDims, hVars⟩ := isGrid_maps hIsGrid
    obtain ⟨type, hType⟩ := (buildScalar_known settings v.name hUser).mpr hSupported
    have hDapDims : (v.dapDims maps).map Prod.fst = v.dapDims v.dims := by rw [dapDims_map, hDims]
    have hKnown : ∀ m ∈ v.dapDims maps, m.2.known = true := by
      intro m hm
      obtain ⟨w, hw, hwName, hwType⟩ := hVars m (mem_dapDims hm)
      have hDim : m.1 ∈ v.dapDims v.dims := by
        rw [← hDapDims]
        exact List.mem_map_of_mem hm
      obtain ⟨w', hw', hName', -, -, hKnown'⟩ := hSound maps hKind m.1 hDim
      rw [← hwType, var_of_name hw hw' (hwName.trans hName'.symm)]
      exact hKnown'
    obtain ⟨built, hBuilt⟩ := (buildMaps_known settings).mpr hKnown
    exact ⟨_, by rw [hType, ok_bind, buildGrid, hBuilt]; rfl⟩
  · rename_i hKind
    rw [hKind] at hSupported
    split
    · obtain ⟨t, hType⟩ := (buildType_known settings v.name .undefined).mpr hSupported
      exact ⟨_, by rw [buildArray, hType]; rfl⟩
    · exact ⟨_, rfl⟩

/-- What the first loop has added after all variables. -/
structure AddsAll (settings : NcSettings) (buildUserDefined : Nat → Except Fault Bool) (ds : NcDataset)
    (vars : List NcVar) (b : Added) : Prop where
  top : b.top.map DapVar.name = (vars.filter fun v => !hidden settings ds v).map NcVar.name
  arrays : b.arrayVars = vars.filter (hidden settings ds)
  maps : ∀ name ∈ b.allMaps, ∃ g ∈ b.top, ∃ m ∈ g.maps, m.name = name
  each : ∀ v ∈ vars, ∃ a, Adds settings buildUserDefined ds v a ∧ ∀ g ∈ a.top, g ∈ b.top
  from_one : ∀ g ∈ b.top, ∃ v ∈ vars, ∃ a, Adds settings buildUserDefined ds v a ∧ g ∈ a.top

theorem readFirst_adds {vars : List NcVar} {b : Added} (h : readFirst settings buildUserDefined ds vars = .ok b) :
    AddsAll settings buildUserDefined ds vars b := by
  induction vars generalizing b with
  | nil =>
    cases h
    exact ⟨rfl, rfl, by rintro name ⟨⟩, by rintro v ⟨⟩, by rintro g ⟨⟩⟩
  | cons v vars ih =>
    rw [readFirst] at h
    obtain ⟨a, hVar, hRest⟩ := bind_eq_ok h
    obtain ⟨c, hVars, hAdded⟩ := bind_eq_ok hRest
    have hAdds := readVariable_adds hVar
    have hAll := ih hVars
    cases hAdded
    refine ⟨?_, ?_, ?_, ?_, ?_⟩
    · rw [List.map_append, hAdds.top, hAll.top, List.filter_cons]
      cases hidden settings ds v with
      | true => rfl
      | false => rfl
    · rw [hAdds.arrays, hAll.arrays, List.filter_cons]
      cases hidden settings ds v with
      | true => rfl
      | false => rfl
    · intro name hName
      rcases List.mem_append.mp hName with hName | hName
      · obtain ⟨g, hg, hMap⟩ := hAdds.maps name hName
        exact ⟨g, List.mem_append_left _ hg, hMap⟩
      · obtain ⟨g, hg, hMap⟩ := hAll.maps name hName
        exact ⟨g, List.mem_append_right _ hg, hMap⟩
    · intro w hw
      rcases List.mem_cons.mp hw with rfl | hw
      · exact ⟨a, hAdds, fun g hg => List.mem_append_left _ hg⟩
      · obtain ⟨a', hAdds', hSub⟩ := hAll.each w hw
        exact ⟨a', hAdds', fun g hg => List.mem_append_right _ (hSub g hg)⟩
    · intro g hg
      rcases List.mem_append.mp hg with hg | hg
      · exact ⟨v, List.mem_cons_self, a, hAdds, hg⟩
      · obtain ⟨w, hw, hOne⟩ := hAll.from_one g hg
        exact ⟨w, List.mem_cons_of_mem _ hw, hOne⟩

theorem readFirst_ok {vars : List NcVar}
    (h : ∀ v ∈ vars, Supported settings buildUserDefined ds v ∧ GridSound ds v) :
    ∃ b, readFirst settings buildUserDefined ds vars = .ok b := by
  induction vars with
  | nil => exact ⟨_, rfl⟩
  | cons v vars ih =>
    obtain ⟨hSupported, hSound⟩ := h v List.mem_cons_self
    obtain ⟨a, hVar⟩ := readVariable_ok hSupported hSound
    obtain ⟨b, hVars⟩ := ih fun w hw => h w (List.mem_cons_of_mem _ hw)
    exact ⟨_, by rw [readFirst, hVar, ok_bind, hVars]; rfl⟩

/-! ## Both loops -/

theorem readArrays_arrays {allMaps : List Word} {vars : List NcVar} {arrays : List DapVar}
    (h : readArrays settings allMaps vars = .ok arrays) :
    arrays.map DapVar.name = (vars.filter fun v => !allMaps.contains v.name).map NcVar.name ∧
    (∀ g ∈ arrays, g.maps = []) ∧ ∀ v ∈ vars, v.name ∉ allMaps → v.type.known = true := by
  induction vars generalizing arrays with
  | nil =>
    cases h
    exact ⟨rfl, by rintro g ⟨⟩, by rintro v ⟨⟩⟩
  | cons v vars ih =>
    rw [readArrays] at h
    split at h
    · rename_i hMap
      obtain ⟨hNames, hNoMaps, hKnown⟩ := ih h
      rw [List.filter_cons_of_neg (by simpa using hMap)]
      refine ⟨hNames, hNoMaps, fun w hw hNot => ?_⟩
      rcases List.mem_cons.mp hw with rfl | hw
      · exact absurd (by simpa using hMap) hNot
      · exact hKnown w hw hNot
    · rename_i hMap
      obtain ⟨ar, hArray, hRest⟩ := bind_eq_ok h
      obtain ⟨rest, hArrays, hMade⟩ := bind_eq_ok hRest
      rw [buildArray] at hArray
      obtain ⟨t, hType, hAr⟩ := bind_eq_ok hArray
      obtain ⟨hNames, hNoMaps, hKnown⟩ := ih hArrays
      cases hAr
      cases hMade
      rw [List.filter_cons_of_pos (by simpa using hMap)]
      refine ⟨congrArg (v.name :: ·) hNames, ?_, fun w hw hNot => ?_⟩
      · intro g hg
        rcases List.mem_cons.mp hg with rfl | hg
        · rfl
        · exact hNoMaps g hg
      · rcases List.mem_cons.mp hw with rfl | hw
        · exact (buildType_known _ _ _).mp ⟨t, hType⟩
        · exact hKnown w hw hNot

theorem readArrays_ok (settings : NcSettings) (allMaps : List Word) {vars : List NcVar}
    (h : ∀ v ∈ vars, v.type.known = true) :
    ∃ arrays, readArrays settings allMaps vars = .ok arrays := by
  induction vars with
  | nil => exact ⟨_, rfl⟩
  | cons v vars ih =>
    obtain ⟨rest, hRest⟩ := ih fun w hw => h w (List.mem_cons_of_mem _ hw)
    rw [readArrays]
    split
    · exact ⟨rest, hRest⟩
    · obtain ⟨t, hType⟩ := (buildType_known settings v.name .undefined).mpr
        (h v List.mem_cons_self)
      exact ⟨_, by rw [buildArray, hType, ok_bind, ok_bind, hRest]; rfl⟩

theorem hidden_array (h : hidden settings ds v = true) : kind ds v = .array ∧ settings.showSharedDims = false := by
  rw [hidden] at h
  split at h
  · rename_i hKind
    exact ⟨hKind, by simpa using h⟩
  · cases h

/-- Without hidden arrays the second loop has nothing to do. -/
theorem readVariables_loops {b : Added} (hFirst : readFirst settings buildUserDefined ds ds.vars = .ok b) :
    readVariables settings buildUserDefined ds =
      (readArrays settings b.allMaps b.arrayVars).bind fun arrays => .ok (b.top ++ arrays) := by
  rw [readVariables, hFirst, ok_bind]
  split
  · rename_i hShow
    have hNone : b.arrayVars = [] := by
      rw [(readFirst_adds hFirst).arrays, List.filter_eq_nil_iff]
      intro v _ hHidden
      rw [(hidden_array hHidden).2] at hShow
      cases hShow
    rw [hNone, readArrays]
    exact congrArg Except.ok (List.append_nil _).symm
  · rfl

/-- Two disjoint choices of the variables are different names. -/
theorem filter_names_nodup (ds : NcDataset) (p q : NcVar → Bool) :
    ((ds.vars.filter fun v => !p v).map NcVar.name ++ ((ds.vars.filter p).filter q).map NcVar.name).Nodup := by
  have hSub : ∀ r : NcVar → Bool, ((ds.vars.filter r).map NcVar.name).Nodup :=
    fun r => (List.filter_sublist.map _).nodup ds.varNames
  rw [List.nodup_append]
  refine ⟨hSub _, ((List.filter_sublist.map _).nodup (hSub p)), ?_⟩
  rintro x hx y hy rfl
  obtain ⟨v, hv, rfl⟩ := List.mem_map.mp hx
  obtain ⟨w, hw, hSame⟩ := List.mem_map.mp hy
  obtain ⟨hv, hNot⟩ := List.mem_filter.mp hv
  obtain ⟨hw, hYes⟩ := List.mem_filter.mp (List.mem_filter.mp hw).1
  rw [var_of_name hw hv hSame] at hYes
  rw [hYes] at hNot
  cases hNot

theorem shown_of_sound {b : Added} (hFirst : AddsAll settings buildUserDefined ds ds.vars b) {arrays : List DapVar}
    (hArrays : readArrays settings b.allMaps b.arrayVars = .ok arrays)
    (hSound : ∀ g ∈ b.top, ∀ m ∈ g.maps, MapSound ds m) : Shown ds (b.top ++ arrays) := by
  obtain ⟨hNames, hNoMaps, -⟩ := readArrays_arrays hArrays
  rw [hFirst.arrays] at hNames
  have hTop : (b.top ++ arrays).map DapVar.name = (ds.vars.filter fun v => !hidden settings ds v).map NcVar.name ++
      ((ds.vars.filter (hidden settings ds)).filter fun v => !b.allMaps.contains v.name).map NcVar.name := by
    rw [List.map_append, hFirst.top, hNames]
  have hMaps : ∀ g ∈ b.top ++ arrays, ∀ m ∈ g.maps, MapSound ds m := by
    intro g hg m hm
    rcases List.mem_append.mp hg with hg | hg
    · exact hSound g hg m hm
    · rw [hNoMaps g hg] at hm
      cases hm
  refine ⟨?_, ?_, ?_, hMaps⟩
  · rw [hTop]
    exact filter_names_nodup ds _ _
  · rw [hTop]
    intro name hName
    rcases List.mem_append.mp hName with hName | hName
    · obtain ⟨v, hv, rfl⟩ := List.mem_map.mp hName
      exact List.mem_map_of_mem (List.mem_filter.mp hv).1
    · obtain ⟨v, hv, rfl⟩ := List.mem_map.mp hName
      exact List.mem_map_of_mem (List.mem_filter.mp (List.mem_filter.mp hv).1).1
  · intro v hv
    rw [hTop]
    cases hHidden : hidden settings ds v with
    | false => exact .inl (List.mem_append_left _ (List.mem_map_of_mem
      (List.mem_filter.mpr ⟨hv, by rw [hHidden]; rfl⟩)))
    | true =>
      cases hMap : b.allMaps.contains v.name with
      | false =>
        have hMem : v ∈ (ds.vars.filter (hidden settings ds)).filter fun v => !b.allMaps.contains v.name :=
          List.mem_filter.mpr ⟨List.mem_filter.mpr ⟨hv, hHidden⟩, by rw [hMap]; rfl⟩
        exact .inl (List.mem_append_right _ (List.mem_map_of_mem hMem))
      | true =>
        obtain ⟨g, hg, m, hm, hName⟩ := hFirst.maps v.name (by simpa using hMap)
        obtain ⟨w, hw, hwName, hDims, -⟩ := hSound g hg m hm
        obtain rfl := var_of_name hw hv (hwName.trans hName)
        refine .inr ⟨⟨m.size, ?_⟩, g, List.mem_append_left _ hg, m, hm, hName⟩
        rw [hDims, hName]

/-- A file is read as it should be exactly when all its types are known and the variables that become Grids have
proper coordinate variables. -/
theorem read_variables_iff (settings : NcSettings) (buildUserDefined : Nat → Except Fault Bool) (ds : NcDataset) :
    (∃ top, readVariables settings buildUserDefined ds = .ok top ∧ Shown ds top) ↔
      ∀ v ∈ ds.vars, Supported settings buildUserDefined ds v ∧ GridSound ds v := by
  constructor
  · rintro ⟨top, hRead, hShown⟩
    rw [readVariables] at hRead
    obtain ⟨b, hFirst, -⟩ := bind_eq_ok hRead
    have hRead' := readVariables_loops hFirst
    rw [readVariables, hRead] at hRead'
    obtain ⟨arrays, hArrays, hTop⟩ := bind_eq_ok hRead'.symm
    have hAll := readFirst_adds hFirst
    cases hTop
    have hTyped : ∀ g ∈ b.top, ∀ m ∈ g.maps, ∃ w ∈ ds.vars, w.name = m.name ∧ w.type.known = true := by
      intro g hg
      obtain ⟨v, -, a, hAdds, hMem⟩ := hAll.from_one g hg
      exact hAdds.typed g hMem
    intro v hv
    obtain ⟨a, hAdds, hSub⟩ := hAll.each v hv
    constructor
    · cases hHidden : hidden settings ds v with
      | false => exact hAdds.supported hHidden
      | true =>
        have hKnown : v.type.known = true := by
          by_cases hMap : v.name ∈ b.allMaps
          · obtain ⟨g, hg, m, hm, hName⟩ := hAll.maps v.name hMap
            obtain ⟨w, hw, hwName, hKnown⟩ := hTyped g hg m hm
            rwa [var_of_name hv hw (hName.symm.trans hwName.symm)]
          · apply (readArrays_arrays hArrays).2.2 v _ hMap
            rw [hAll.arrays]
            exact List.mem_filter.mpr ⟨hv, hHidden⟩
        rw [Supported, (hidden_array hHidden).1]
        exact hKnown
    · intro maps hKind d hd
      obtain ⟨g, hg, m, hm, hName, hSize⟩ := hAdds.grid maps hKind d hd
      have hTop := hSub g hg
      obtain ⟨w, hw, hwName, hDims, hReads⟩ := hShown.maps g (List.mem_append_left _ hTop) m hm
      obtain ⟨w', hw', hName', hKnown⟩ := hTyped g hTop m hm
      refine ⟨w, hw, hwName.trans hName, ?_, ?_, ?_⟩
      · rw [hDims, hName, hSize]
      · rintro hChar
        simp [NcVar.readsAsArray, hChar, hDims] at hReads
      · rwa [var_of_name hw hw' (hwName.trans hName'.symm)]
  · intro h
    obtain ⟨b, hFirst⟩ := readFirst_ok h
    have hAll := readFirst_adds hFirst
    have hKnown : ∀ v ∈ b.arrayVars, v.type.known = true := by
      intro v hv
      rw [hAll.arrays] at hv
      obtain ⟨hv, hHidden⟩ := List.mem_filter.mp hv
      have hSupported := (h v hv).1
      rwa [Supported, (hidden_array hHidden).1] at hSupported
    obtain ⟨arrays, hArrays⟩ := readArrays_ok settings b.allMaps hKnown
    refine ⟨b.top ++ arrays, ?_, shown_of_sound hAll hArrays ?_⟩
    · rw [readVariables_loops hFirst, hArrays]
      rfl
    · intro g hg m hm
      obtain ⟨v, hv, a, hAdds, hMem⟩ := hAll.from_one g hg
      obtain ⟨maps, hKind, hDim⟩ := hAdds.dims g hMem m hm
      obtain ⟨w, hw, hwName, hDims, hChar, -⟩ := (h v hv).2 maps hKind _ hDim
      refine ⟨w, hw, hwName, hDims, ?_⟩
      simp [NcVar.readsAsArray, hChar]

/-- A dimension `lat`, a variable over it, and another one of its name that has two dimensions. -/
def wideCoordinate : NcDataset where
  dims := [⟨"lat".toList, 2⟩, ⟨"lon".toList, 3⟩]
  vars := [⟨"t".toList, .float, [⟨"lat".toList, 2⟩]⟩, ⟨"lat".toList, .float, [⟨"lat".toList, 2⟩, ⟨"lon".toList, 3⟩]⟩]
  dimNames := by decide
  varNames := by decide
  varDims := by decide

/-- The second variable is dropped for a Map that is not its own shape. -/
theorem wide_coordinate_lost :
    readVariables ⟨false, false, false⟩ (fun _ => .ok true) wideCoordinate =
      .ok [.grid "t".toList (some .Float32) [⟨"lat".toList, 2⟩] [⟨"lat".toList, .Float32, 2⟩]] ∧
    ¬ ∀ settings buildUserDefined ds, ∀ top, readVariables settings buildUserDefined ds = .ok top → Shown ds top := by
  have hRead : readVariables ⟨false, false, false⟩ (fun _ => .ok true) wideCoordinate =
      .ok [.grid "t".toList (some .Float32) [⟨"lat".toList, 2⟩] [⟨"lat".toList, .Float32, 2⟩]] := rfl
  refine ⟨hRead, fun h => ?_⟩
  have hShown := h _ _ _ _ hRead
  obtain ⟨v, hv, hName, hDims, -⟩ := hShown.maps _ (List.mem_singleton_self _) _ (List.mem_singleton_self _)
  rcases List.mem_cons.mp hv with rfl | hv
  · exact absurd hName (by decide)
  · rw [List.mem_singleton.mp hv] at hDims
    exact absurd hDims (by decide)

end Libdap.Netcdf
