import Libdap.Core.Store
import Libdap.Core.Call
import Libdap.Dap2.Variable

/-! # Copies of a DDS

The variables at the top level of a DDS are on the heap. The container is a pointer to a Structure in
one of them: the variable and the address in it.
-/

namespace Libdap.Dap2
open Core Constraint
set_option autoImplicit false

/-- The fields that are copied and that no modelled function looks at. -/
structure DdsFields where
  name : Word
  filename : Word
  dapMajor : Int
  dapMinor : Int
  dapVersion : Word
  requestXmlBase : Word
  nameSpace : Word
  timeout : Int
  maxResponseSize : Int

structure DdsState where
  fields : DdsFields
  vars : List Nat
  container : Option (Nat × Addr)
  containerName : Word

structure DdsWorld where
  heap : Store Variable
  /-- The DDS objects. -/
  dds : Nat → DdsState

/-- A change of the child list of the Structure or Sequence at the address. -/
def Variable.changeVars (f : List Variable → List Variable) : Addr → Variable → Option Variable
  | [], .fields kind n vars => some (.fields kind n (f vars))
  | [], _ => none
  | i :: a, .fields kind n vars =>
    (vars[i]?.bind (changeVars f a)).map fun v => .fields kind n (vars.set i v)
  | 0 :: a, .array n element => (changeVars f a element).map (.array n)
  | _ :: _, _ => none

def eraseNamed (n : Word) (vars : List Variable) : List Variable := vars.eraseP fun v => v.name = n

def readVariable (r : Nat) : Call DdsWorld Variable := fun w =>
  match w.heap.cell r with
  | none => .error .undefined w
  | some v => .ok v w

def modifyDds (d : Nat) (f : DdsState → DdsState) : Call DdsWorld Unit :=
  modify fun w => { w with dds := Function.update w.dds d (f (w.dds d)) }

/-- A call on the child list of the container. -/
def onContainer (r : Nat) (a : Addr) (f : List Variable → List Variable) : Call DdsWorld Unit := do
  let v ← readVariable r
  match v.changeVars f a with
  | none => throw .undefined
  | some v' => modify fun w => { w with heap := w.heap.modify r fun _ => v' }

def DdsState.push (r : Nat) (o : DdsState) : DdsState := { o with vars := o.vars ++ [r] }

/-- `DDS::add_var` for a variable with this content. The copy that is made first is deleted again when
there is a container. -/
def ddsAddVar (d : Nat) (bt : Variable) : Call DdsWorld Unit := do
  let w ← get
  match (w.dds d).container with
  | some (r, a) => onContainer r a fun vars => vars ++ [bt]
  | none =>
    set { w with heap := w.heap.alloc bt }
    modifyDds d (DdsState.push w.heap.next)

/-- `dynamic_cast<Structure *>` of a pointer to a variable in one of these. -/
def topStructure (rs : List Nat) : Option Found → Option (Nat × Addr)
  | some (i :: a, .fields .structureType _ _) => rs[i]?.map fun r => (r, a)
  | _ => none

/-- `dynamic_cast<Structure *> (var (cn))`, without a container -/
def findStructure (unset : Word) (d : Nat) (cn : Word) : Call DdsWorld (Option (Nat × Addr)) := do
  let w ← get
  match (w.dds d).vars.mapM w.heap.cell with
  | none => throw .undefined
  | some vars => pure (topStructure (w.dds d).vars (DDS.var unset ⟨vars, none⟩ cn []).1)

def setContainer (d : Nat) (c : Option (Nat × Addr)) : Call DdsWorld Unit :=
  modifyDds d fun o => { o with container := c }

/-- The Structure is made when there is none. -/
def openContainer (unset : Word) (d : Nat) (cn : Word) : Call DdsWorld Unit :=
  if cn.isEmpty then pure ()
  else do
    let found ← findStructure unset d cn
    match found with
    | some c => setContainer d (some c)
    | none =>
      ddsAddVar d (.fields .structureType cn [])
      let found ← findStructure unset d cn
      setContainer d found

/-- `DDS::container_name` -/
def containerName (unset : Word) (d : Nat) (cn : Word) : Call DdsWorld Unit := do
  setContainer d none
  openContainer unset d cn
  modifyDds d fun o => { o with containerName := cn }

/-- The variables from place `i` up to place `j` are deleted. -/
def deleteRange (d i j : Nat) : Call DdsWorld Unit := do
  let w ← get
  if i ≤ j ∧ j ≤ (w.dds d).vars.length then
    set { w with heap := (((w.dds d).vars.take j).drop i).foldl Store.free w.heap }
    modifyDds d fun o => { o with vars := o.vars.take i ++ o.vars.drop j }
  else throw .undefined

/-- `DDS::del_var` by name -/
def ddsDelVar (d : Nat) (n : Word) : Call DdsWorld Unit := do
  let w ← get
  match (w.dds d).container with
  | some (r, a) => onContainer r a (eraseNamed n)
  | none =>
    match (w.dds d).vars.findIdx? fun r => (w.heap.cell r).any fun v => v.name = n with
    | none => pure ()
    | some i => deleteRange d i (i + 1)

inductive DdsOp
  | addVar (d : Nat) (bt : Variable)
  | containerName (d : Nat) (cn : Word)
  | delVar (d : Nat) (n : Word)
  /-- `del_var` by iterators, up to the place `j`. -/
  | delRange (d i j : Nat)

def DdsOp.call (unset : Word) : DdsOp → Call DdsWorld Unit
  | addVar d bt => ddsAddVar d bt
  | containerName d cn => Dap2.containerName unset d cn
  | delVar d n => ddsDelVar d n
  | delRange d i j => deleteRange d i j

/-- The loop of `DDS::duplicate` -/
def addVars (d : Nat) : List Nat → Call DdsWorld Unit
  | [] => pure ()
  | r :: rs => do
    let bt ← readVariable r
    ddsAddVar d bt
    addVars d rs

/-- `DDS::duplicate`, from the DDS `s` -/
def duplicate (d s : Nat) : Call DdsWorld Unit := do
  let w ← get
  modifyDds d fun o =>
    { o with
      fields := (w.dds s).fields
      container := (w.dds s).container
      containerName := (w.dds s).containerName }
  addVars d (w.dds s).vars

/-- The copy constructor, for a new object `d`. -/
def copyDds (d s : Nat) : Call DdsWorld Unit := do
  modifyDds d fun o => { o with vars := [] }
  duplicate d s

/-- `DDS::operator=` -/
def assignDds (d s : Nat) : Call DdsWorld Unit := if d = s then pure () else duplicate d s

/-- The source keeps its variables, the destination has the same ones, not shared with the source, and
its container is a Structure of its own. -/
structure Copied (d s : Nat) (w w' : DdsWorld) : Prop where
  source_vars : (w'.dds s).vars = (w.dds s).vars
  source_trees : ∀ r ∈ (w.dds s).vars, w'.heap.cell r = w.heap.cell r
  same : (w'.dds d).vars.map w'.heap.cell = (w.dds s).vars.map w.heap.cell
  apart : ∀ r ∈ (w'.dds d).vars, r ∉ (w'.dds s).vars
  own : ∀ r a, (w'.dds d).container = some (r, a) → r ∈ (w'.dds d).vars ∧
    ∃ v n vars, w'.heap.cell r = some v ∧ v.sub a = some (.fields .structureType n vars)

/-- Every DDS has live variables of its own, and a container in one of them or in one that is deleted. -/
structure DdsInv (w : DdsWorld) : Prop where
  live : ∀ d, ∀ r ∈ (w.dds d).vars, ∃ v, w.heap.cell r = some v
  nodup : ∀ d, (w.dds d).vars.Nodup
  apart : ∀ d e r, d ≠ e → r ∈ (w.dds d).vars → r ∉ (w.dds e).vars
  container : ∀ d r a, (w.dds d).container = some (r, a) →
    r ∈ (w.dds d).vars ∨ (w.heap.cell r = none ∧ r < w.heap.next)

/-! ## What the calls keep -/

theorem modifyDds_ok (d : Nat) (f : DdsState → DdsState) (w : DdsWorld) :
    modifyDds d f w = .ok () { w with dds := Function.update w.dds d (f (w.dds d)) } := rfl

/-- A change that leaves the lists of variables as they are. -/
theorem DdsInv.withContainer {w : DdsWorld} (h : DdsInv w) (d : Nat) (f : DdsState → DdsState)
    (hVars : (f (w.dds d)).vars = (w.dds d).vars)
    (hContainer : ∀ r a, (f (w.dds d)).container = some (r, a) →
      r ∈ (w.dds d).vars ∨ (w.heap.cell r = none ∧ r < w.heap.next)) :
    DdsInv { w with dds := Function.update w.dds d (f (w.dds d)) } := by
  have hAll : ∀ e, (Function.update w.dds d (f (w.dds d)) e).vars = (w.dds e).vars := by
    intro e
    by_cases hSame : e = d
    · subst hSame
      rw [Function.update_self, hVars]
    · rw [Function.update_of_ne hSame]
  refine ⟨?_, ?_, ?_, ?_⟩
  · intro e r hr
    dsimp only at hr
    rw [hAll] at hr
    exact h.live e r hr
  · intro e
    dsimp only
    rw [hAll]
    exact h.nodup e
  · intro e e' r hNe hr
    dsimp only at hr ⊢
    rw [hAll] at hr ⊢
    exact h.apart e e' r hNe hr
  · intro e r a hc
    dsimp only at hc ⊢
    rw [hAll]
    by_cases hSame : e = d
    · subst hSame
      rw [Function.update_self] at hc
      exact hContainer r a hc
    · rw [Function.update_of_ne hSame] at hc
      exact h.container e r a hc

/-- A change inside a variable. -/
theorem DdsInv.inside {w : DdsWorld} (h : DdsInv w) (r : Nat) (f : Variable → Variable) :
    DdsInv { w with heap := w.heap.modify r f } := by
  have hNone : ∀ q, (w.heap.modify r f).cell q = none ↔ w.heap.cell q = none := by
    intro q
    by_cases hSame : q = r
    · subst hSame
      change Function.update w.heap.cell q _ q = none ↔ _
      rw [Function.update_self, Option.map_eq_none_iff]
    · rw [Store.modify_of_ne f hSame]
  refine ⟨?_, h.nodup, h.apart, ?_⟩
  · intro d q hq
    obtain ⟨v, hCell⟩ := h.live d q hq
    apply Option.ne_none_iff_exists'.mp
    rw [ne_eq, hNone, hCell]
    simp
  · intro d q a hc
    exact (h.container d q a hc).imp_right fun hDead => ⟨(hNone q).mpr hDead.1, hDead.2⟩

theorem onContainer_ok {r : Nat} {a : Addr} {f : List Variable → List Variable} {w w' : DdsWorld}
    (h : onContainer r a f w = .ok () w') :
    ∃ v', w' = { w with heap := w.heap.modify r fun _ => v' } := by
  obtain ⟨v, w₁, hRead, h⟩ := Call.bind_ok.mp h
  rw [readVariable] at hRead
  split at hRead
  · cases hRead
  · cases hRead
    cases hChange : v.changeVars f a with
    | none =>
      rw [hChange] at h
      cases h
    | some v' =>
      rw [hChange] at h
      cases h
      exact ⟨v', rfl⟩

/-- The state with one more variable at the top level. -/
def DdsWorld.withVar (w : DdsWorld) (d : Nat) (bt : Variable) : DdsWorld where
  heap := w.heap.alloc bt
  dds := Function.update w.dds d ((w.dds d).push w.heap.next)

theorem ddsAddVar_none {d : Nat} {w : DdsWorld} (bt : Variable) (h : (w.dds d).container = none) :
    ddsAddVar d bt w = .ok () (w.withVar d bt) := by
  have hGet : (get : Call DdsWorld DdsWorld) w = .ok w w := rfl
  rw [ddsAddVar, Call.bind_of_ok hGet, h]
  rfl

theorem ddsAddVar_some {d r : Nat} {a : Addr} {bt : Variable} {w w' : DdsWorld}
    (hActive : (w.dds d).container = some (r, a)) (h : ddsAddVar d bt w = .ok () w') :
    ∃ v', w' = { w with heap := w.heap.modify r fun _ => v' } := by
  have hGet : (get : Call DdsWorld DdsWorld) w = .ok w w := rfl
  rw [ddsAddVar, Call.bind_of_ok hGet, hActive] at h
  exact onContainer_ok h

theorem DdsInv.withVar {w : DdsWorld} (h : DdsInv w) (d : Nat) (bt : Variable) :
    DdsInv (w.withVar d bt) := by
  have hOld : ∀ e r, r ∈ (w.dds e).vars → r ≠ w.heap.next := by
    intro e r hr
    obtain ⟨v, hCell⟩ := h.live e r hr
    exact Store.ne_next hCell
  have hSelf : ((w.withVar d bt).dds d).vars = (w.dds d).vars ++ [w.heap.next] := by
    rw [DdsWorld.withVar]
    dsimp only
    rw [Function.update_self]
    rfl
  have hOther : ∀ e, e ≠ d → (w.withVar d bt).dds e = w.dds e :=
    fun e he => Function.update_of_ne he _ _
  have hMem : ∀ e r, r ∈ ((w.withVar d bt).dds e).vars →
      r ∈ (w.dds e).vars ∨ (e = d ∧ r = w.heap.next) := by
    intro e r hr
    by_cases hSame : e = d
    · subst hSame
      rw [hSelf, List.mem_append, List.mem_singleton] at hr
      exact hr.imp_right fun hEq => ⟨rfl, hEq⟩
    · rw [hOther e hSame] at hr
      exact .inl hr
  refine ⟨?_, ?_, ?_, ?_⟩
  · intro e r hr
    rcases hMem e r hr with hThere | ⟨_, rfl⟩
    · obtain ⟨v, hCell⟩ := h.live e r hThere
      exact ⟨v, Store.alloc_of_live bt hCell⟩
    · exact ⟨bt, Store.alloc_self bt⟩
  · intro e
    by_cases hSame : e = d
    · subst hSame
      rw [hSelf, List.nodup_append]
      refine ⟨h.nodup e, by simp, ?_⟩
      intro r hr q hq
      rw [List.mem_singleton.mp hq]
      exact hOld e r hr
    · rw [hOther e hSame]
      exact h.nodup e
  · intro e e' r hNe hr hr'
    rcases hMem e r hr with hThere | ⟨rfl, rfl⟩
    · rcases hMem e' r hr' with hThere' | ⟨_, rfl⟩
      · exact h.apart e e' r hNe hThere hThere'
      · exact hOld e _ hThere rfl
    · rcases hMem e' _ hr' with hThere' | ⟨rfl, _⟩
      · exact hOld e' _ hThere' rfl
      · exact hNe rfl
  · intro e r a hc
    have hSameContainer : ((w.withVar d bt).dds e).container = (w.dds e).container := by
      by_cases hSame : e = d
      · subst hSame
        rw [DdsWorld.withVar]
        dsimp only
        rw [Function.update_self]
        rfl
      · rw [hOther e hSame]
    rw [hSameContainer] at hc
    rcases h.container e r a hc with hThere | ⟨hDead, hBelow⟩
    · left
      by_cases hSame : e = d
      · subst hSame
        rw [hSelf]
        exact List.mem_append_left _ hThere
      · rw [hOther e hSame]
        exact hThere
    · right
      exact ⟨(Store.alloc_of_ne bt (Nat.ne_of_lt hBelow)).trans hDead, Nat.lt_succ_of_lt hBelow⟩

theorem ddsAddVar_inv {d : Nat} {bt : Variable} {w w' : DdsWorld} (h : DdsInv w)
    (hCall : ddsAddVar d bt w = .ok () w') : DdsInv w' := by
  cases hActive : (w.dds d).container with
  | none =>
    rw [ddsAddVar_none bt hActive] at hCall
    cases hCall
    exact h.withVar d bt
  | some c =>
    obtain ⟨v', rfl⟩ := ddsAddVar_some (r := c.1) (a := c.2) hActive hCall
    exact h.inside c.1 _

theorem topStructure_mem {rs : List Nat} {found : Option Found} {r : Nat} {a : Addr}
    (h : topStructure rs found = some (r, a)) : r ∈ rs := by
  rw [topStructure.eq_def] at h
  split at h
  · obtain ⟨q, hAt, hEq⟩ := Option.map_eq_some_iff.mp h
    cases hEq
    exact List.mem_of_getElem? hAt
  · cases h

theorem findStructure_ok {unset : Word} {d : Nat} {cn : Word} {w w' : DdsWorld}
    {found : Option (Nat × Addr)} (h : findStructure unset d cn w = .ok found w') :
    w' = w ∧ ∀ r a, found = some (r, a) → r ∈ (w.dds d).vars := by
  obtain ⟨w₀, w₁, hGet, h⟩ := Call.bind_ok.mp h
  cases hGet
  cases hVars : (w.dds d).vars.mapM w.heap.cell with
  | none =>
    rw [hVars] at h
    cases h
  | some vars =>
    rw [hVars] at h
    obtain ⟨rfl, rfl⟩ := Call.pure_ok.mp h
    exact ⟨rfl, fun r a hFound => topStructure_mem hFound⟩

theorem setContainer_inv {d : Nat} {c : Option (Nat × Addr)} {w w' : DdsWorld} (h : DdsInv w)
    (hc : ∀ r a, c = some (r, a) → r ∈ (w.dds d).vars) (hCall : setContainer d c w = .ok () w') :
    DdsInv w' := by
  cases hCall
  exact h.withContainer d (fun o => { o with container := c }) rfl fun r a hEq => .inl (hc r a hEq)

theorem openContainer_inv {unset : Word} {d : Nat} {cn : Word} {w w' : DdsWorld} (h : DdsInv w)
    (hCall : openContainer unset d cn w = .ok () w') : DdsInv w' := by
  rw [openContainer] at hCall
  split at hCall
  · cases hCall
    exact h
  · obtain ⟨found, w₁, hFirst, hCall⟩ := Call.bind_ok.mp hCall
    obtain ⟨rfl, hThere⟩ := findStructure_ok hFirst
    cases found with
    | some c => exact setContainer_inv h hThere hCall
    | none =>
      obtain ⟨_, w₂, hAdd, hCall⟩ := Call.bind_ok.mp hCall
      have hAdded := ddsAddVar_inv h hAdd
      obtain ⟨found, w₃, hSecond, hLast⟩ := Call.bind_ok.mp hCall
      obtain ⟨rfl, hThere⟩ := findStructure_ok hSecond
      exact setContainer_inv hAdded hThere hLast

theorem containerName_inv {unset : Word} {d : Nat} {cn : Word} {w w' : DdsWorld} (h : DdsInv w)
    (hCall : containerName unset d cn w = .ok () w') : DdsInv w' := by
  obtain ⟨_, w₁, hReset, hCall⟩ := Call.bind_ok.mp hCall
  obtain ⟨_, w₂, hOpen, hName⟩ := Call.bind_ok.mp hCall
  have hNone : ∀ r a, (none : Option (Nat × Addr)) = some (r, a) → r ∈ (w.dds d).vars := by simp
  have hOpened := openContainer_inv (setContainer_inv h hNone hReset) hOpen
  cases hName
  exact hOpened.withContainer d (fun o => { o with containerName := cn }) rfl (hOpened.container d)

theorem range_parts {l : List Nat} {i j : Nat} (h : i ≤ j) :
    l.take i ++ ((l.take j).drop i ++ l.drop j) = l := by
  have hTake : l.take i = (l.take j).take i := by rw [List.take_take, Nat.min_eq_left h]
  rw [← List.append_assoc, hTake, List.take_append_drop, List.take_append_drop]

/-- The DDS loses these variables, and they are deleted. -/
theorem DdsInv.remove {w : DdsWorld} (h : DdsInv w) (d : Nat) {before removed after : List Nat}
    (hParts : before ++ (removed ++ after) = (w.dds d).vars) :
    DdsInv { heap := removed.foldl Store.free w.heap
             dds := Function.update w.dds d { w.dds d with vars := before ++ after } } := by
  have hNodup := h.nodup d
  have hPerm : (before ++ (removed ++ after)).Perm (removed ++ (before ++ after)) := by
    rw [← List.append_assoc, ← List.append_assoc]
    exact List.perm_append_comm.append_right after
  rw [← hParts, hPerm.nodup_iff, List.nodup_append] at hNodup
  obtain ⟨_, hKept, hApart⟩ := hNodup
  have hOld : ∀ r, r ∈ (w.dds d).vars ↔ r ∈ removed ∨ r ∈ before ++ after := by
    intro r
    rw [← hParts, hPerm.mem_iff, List.mem_append]
  have hMem : ∀ e r,
      r ∈ (Function.update w.dds d { w.dds d with vars := before ++ after } e).vars →
        r ∈ (w.dds e).vars ∧ r ∉ removed := by
    intro e r hr
    by_cases hSame : e = d
    · subst hSame
      rw [Function.update_self] at hr
      exact ⟨(hOld r).mpr (.inr hr), fun hGone => hApart r hGone r hr rfl⟩
    · rw [Function.update_of_ne hSame] at hr
      exact ⟨hr, fun hGone => h.apart e d r hSame hr ((hOld r).mpr (.inl hGone))⟩
  refine ⟨?_, ?_, ?_, ?_⟩
  · intro e r hr
    obtain ⟨hThere, hNot⟩ := hMem e r hr
    obtain ⟨v, hCell⟩ := h.live e r hThere
    refine ⟨v, ?_⟩
    rw [Store.cell_free_all, if_neg hNot, hCell]
  · intro e
    dsimp only
    by_cases hSame : e = d
    · subst hSame
      rw [Function.update_self]
      exact hKept
    · rw [Function.update_of_ne hSame]
      exact h.nodup e
  · intro e e' r hNe hr hr'
    exact h.apart e e' r hNe (hMem e r hr).1 (hMem e' r hr').1
  · intro e r a hc
    have hOldContainer : (w.dds e).container = some (r, a) := by
      by_cases hSame : e = d
      · subst hSame
        dsimp only at hc
        rw [Function.update_self] at hc
        exact hc
      · dsimp only at hc
        rw [Function.update_of_ne hSame] at hc
        exact hc
    rw [Store.cell_free_all, Store.next_free_all]
    dsimp only
    rcases h.container e r a hOldContainer with hThere | ⟨hDead, hBelow⟩
    · obtain ⟨v, hCell⟩ := h.live e r hThere
      by_cases hGone : r ∈ removed
      · exact .inr ⟨if_pos hGone, Store.lt_next hCell⟩
      · left
        by_cases hSame : e = d
        · subst hSame
          rw [Function.update_self]
          exact ((hOld r).mp hThere).resolve_left hGone
        · rw [Function.update_of_ne hSame]
          exact hThere
    · right
      refine ⟨?_, hBelow⟩
      rw [hDead, ite_self]

theorem deleteRange_inv {d i j : Nat} {w w' : DdsWorld} (h : DdsInv w)
    (hCall : deleteRange d i j w = .ok () w') : DdsInv w' := by
  obtain ⟨w₀, w₁, hGet, hCall⟩ := Call.bind_ok.mp hCall
  cases hGet
  split at hCall
  · rename_i hRange
    cases hCall
    exact h.remove d (range_parts hRange.1)
  · cases hCall

theorem ddsDelVar_inv {d : Nat} {n : Word} {w w' : DdsWorld} (h : DdsInv w)
    (hCall : ddsDelVar d n w = .ok () w') : DdsInv w' := by
  obtain ⟨w₀, w₁, hGet, hCall⟩ := Call.bind_ok.mp hCall
  cases hGet
  cases hActive : (w.dds d).container with
  | some c =>
    rw [hActive] at hCall
    obtain ⟨v', rfl⟩ := onContainer_ok (r := c.1) (a := c.2) hCall
    exact h.inside c.1 _
  | none =>
    rw [hActive] at hCall
    dsimp only at hCall
    generalize List.findIdx? _ _ = found at hCall
    cases found with
    | none =>
      cases hCall
      exact h
    | some i => exact deleteRange_inv h hCall

/-- The states that the calls can lead to, from any number of empty DDS objects. -/
inductive DdsReachable (unset : Word) : DdsWorld → Prop
  | start {dds : Nat → DdsState} (h : ∀ d, (dds d).vars = [] ∧ (dds d).container = none) :
    DdsReachable unset ⟨Store.empty, dds⟩
  | step {w w' : DdsWorld} (op : DdsOp) (h : DdsReachable unset w)
    (hCall : op.call unset w = .ok () w') : DdsReachable unset w'

theorem DdsReachable.inv {unset : Word} {w : DdsWorld} (h : DdsReachable unset w) : DdsInv w := by
  induction h with
  | start hEmpty =>
    refine ⟨?_, ?_, ?_, ?_⟩
    · intro d r hr
      simp [(hEmpty d).1] at hr
    · intro d
      simp [(hEmpty d).1]
    · intro d e r _ hr
      simp [(hEmpty d).1] at hr
    · intro d r a hc
      simp [(hEmpty d).2] at hc
  | step op _ hCall ih =>
    cases op with
    | addVar d bt => exact ddsAddVar_inv ih hCall
    | containerName d cn => exact containerName_inv ih hCall
    | delVar d n => exact ddsDelVar_inv ih hCall
    | delRange d i j => exact deleteRange_inv ih hCall

/-! ## The copy -/

theorem readVariable_of_live {r : Nat} {v : Variable} {w : DdsWorld}
    (h : w.heap.cell r = some v) : readVariable r w = .ok v w := by
  rw [readVariable, h]

theorem withVar_self (w : DdsWorld) (d : Nat) (bt : Variable) :
    (w.withVar d bt).dds d = (w.dds d).push w.heap.next := Function.update_self ..

theorem withVar_of_ne (w : DdsWorld) {d e : Nat} (bt : Variable) (h : e ≠ d) :
    (w.withVar d bt).dds e = w.dds e := Function.update_of_ne h ..

/-- Without a container the loop appends copies of the variables, at new places. -/
theorem addVars_none {d : Nat} {rs : List Nat} {w : DdsWorld} (hNone : (w.dds d).container = none)
    (hLive : ∀ r ∈ rs, ∃ v, w.heap.cell r = some v) :
    ∃ w' qs, addVars d rs w = .ok () w' ∧ (∀ e, e ≠ d → w'.dds e = w.dds e) ∧
      (w'.dds d).vars = (w.dds d).vars ++ qs ∧ (w'.dds d).container = none ∧
      qs.map w'.heap.cell = rs.map w.heap.cell ∧ (∀ q ∈ qs, w.heap.next ≤ q) ∧
      ∀ r v, w.heap.cell r = some v → w'.heap.cell r = some v := by
  induction rs generalizing w with
  | nil => exact ⟨w, [], rfl, fun _ _ => rfl, by simp, hNone, rfl, by simp, fun _ _ h => h⟩
  | cons r rs ih =>
    obtain ⟨v, hCell⟩ := hLive r List.mem_cons_self
    have hOld : ∀ q u, w.heap.cell q = some u → (w.withVar d v).heap.cell q = some u :=
      fun q u hq => Store.alloc_of_live v hq
    have hRest : ∀ q ∈ rs, ∃ u, (w.withVar d v).heap.cell q = some u := by
      intro q hq
      obtain ⟨u, hu⟩ := hLive q (List.mem_cons_of_mem r hq)
      exact ⟨u, hOld q u hu⟩
    have hStill : ((w.withVar d v).dds d).container = none := by
      rw [withVar_self]
      exact hNone
    obtain ⟨w', qs, hCall, hOthers, hVars, hContainer, hSame, hNew, hKept⟩ := ih hStill hRest
    refine ⟨w', w.heap.next :: qs, ?_, ?_, ?_, hContainer, ?_, ?_, ?_⟩
    · rw [addVars, Call.bind_of_ok (readVariable_of_live hCell),
        Call.bind_of_ok (ddsAddVar_none v hNone)]
      exact hCall
    · intro e he
      rw [hOthers e he, withVar_of_ne w v he]
    · rw [hVars, withVar_self]
      simp [DdsState.push]
    · rw [List.map_cons, List.map_cons, hSame, hCell,
        hKept w.heap.next v (Store.alloc_self v)]
      congr 1
      apply List.map_congr_left
      intro q hq
      obtain ⟨u, hu⟩ := hLive q (List.mem_cons_of_mem r hq)
      rw [hOld q u hu, hu]
    · intro q hq
      rcases List.mem_cons.mp hq with rfl | hq
      · exact Nat.le_refl _
      · exact Nat.le_of_succ_le (hNew q hq)
    · intro q u hq
      exact hKept q u (hOld q u hq)

/-- With a container the loop leaves the DDS objects as they are. -/
theorem addVars_some {d : Nat} {c : Nat × Addr} {rs : List Nat} {w w' : DdsWorld}
    (hActive : (w.dds d).container = some c) (h : addVars d rs w = .ok () w') : w'.dds = w.dds := by
  induction rs generalizing w with
  | nil =>
    cases h
    rfl
  | cons r rs ih =>
    obtain ⟨bt, w₁, hRead, hRest⟩ := Call.bind_ok.mp h
    obtain ⟨_, w₂, hAdd, hRest⟩ := Call.bind_ok.mp hRest
    have hSame : w₁ = w := by
      rw [readVariable] at hRead
      split at hRead
      · cases hRead
      · cases hRead
        rfl
    subst hSame
    have hKept : w₂.dds = w₁.dds := by
      obtain ⟨v', rfl⟩ := ddsAddVar_some (r := c.1) (a := c.2) hActive hAdd
      rfl
    have hStill : (w₂.dds d).container = some c := by
      rw [hKept]
      exact hActive
    rw [ih hStill hRest, hKept]

/-- What `duplicate` copies besides the variables. -/
def DdsWorld.withFields (w : DdsWorld) (d s : Nat) : DdsWorld where
  heap := w.heap
  dds := Function.update w.dds d
    { fields := (w.dds s).fields
      vars := (w.dds d).vars
      container := (w.dds s).container
      containerName := (w.dds s).containerName }

theorem duplicate_eq (d s : Nat) (w : DdsWorld) :
    duplicate d s w = addVars d (w.dds s).vars (w.withFields d s) := rfl

theorem duplicate_copied_iff {w : DdsWorld} {d s : Nat} (hNe : d ≠ s)
    (hLive : ∀ r ∈ (w.dds s).vars, ∃ v, w.heap.cell r = some v)
    (hForeign : ∀ r a, (w.dds s).container = some (r, a) → r ∉ (w.dds d).vars) :
    (∃ w', duplicate d s w = .ok () w' ∧ Copied d s w w') ↔
      (w.dds s).container = none ∧ (w.dds d).vars = [] := by
  have hSource : (w.withFields d s).dds s = w.dds s := Function.update_of_ne hNe.symm ..
  have hVarsOf : ((w.withFields d s).dds d).vars = (w.dds d).vars := by
    simp [DdsWorld.withFields]
  have hContainerOf : ((w.withFields d s).dds d).container = (w.dds s).container := by
    simp [DdsWorld.withFields]
  cases hActive : (w.dds s).container with
  | some c =>
    constructor
    · rintro ⟨w', hCall, hCopied⟩
      rw [duplicate_eq] at hCall
      have hSame := addVars_some (hContainerOf.trans hActive) hCall
      have hOwn := (hCopied.own c.1 c.2 (by rw [hSame, hContainerOf, hActive])).1
      rw [hSame, hVarsOf] at hOwn
      exact absurd hOwn (hForeign c.1 c.2 hActive)
    · rintro ⟨hNone, _⟩
      cases hNone
  | none =>
    obtain ⟨w', qs, hCall, hOthers, hVars, hContainer, hSame, hNew, hKept⟩ :=
      addVars_none (hContainerOf.trans hActive) hLive
    rw [hVarsOf] at hVars
    rw [← duplicate_eq] at hCall
    constructor
    · rintro ⟨w₁, hCall₁, hCopied⟩
      rw [hCall] at hCall₁
      cases hCall₁
      have hLength := congrArg List.length hCopied.same
      have hLength' := congrArg List.length hSame
      rw [hVars] at hLength
      simp only [List.length_map, List.length_append] at hLength hLength'
      exact ⟨rfl, List.eq_nil_of_length_eq_zero (by omega)⟩
    · rintro ⟨_, hEmpty⟩
      rw [hEmpty, List.nil_append] at hVars
      have hSourceVars : (w'.dds s).vars = (w.dds s).vars := by
        rw [hOthers s hNe.symm, hSource]
      refine ⟨w', hCall, hSourceVars, ?_, ?_, ?_, ?_⟩
      · intro r hr
        obtain ⟨v, hCell⟩ := hLive r hr
        rw [hKept r v hCell, hCell]
      · rw [hVars, hSame]
        rfl
      · intro q hq hShared
        rw [hVars] at hq
        rw [hSourceVars] at hShared
        obtain ⟨v, hCell⟩ := hLive q hShared
        exact Nat.not_le_of_lt (Store.lt_next hCell) (hNew q hq)
      · intro r a hc
        rw [hContainer] at hc
        cases hc

/-- Only the source and the heap before the copy count. -/
theorem Copied.congr {d s : Nat} {w w₀ w' : DdsWorld} (h : Copied d s w w')
    (hDds : w₀.dds s = w.dds s) (hHeap : w₀.heap = w.heap) : Copied d s w₀ w' := by
  refine ⟨?_, ?_, ?_, h.apart, h.own⟩
  · rw [hDds]
    exact h.source_vars
  · rw [hDds, hHeap]
    exact h.source_trees
  · rw [hDds, hHeap]
    exact h.same

/-- A copy is right when the source has no container; assigning asks also for a DDS without variables. -/
theorem copies_iff {unset : Word} {w : DdsWorld} (h : DdsReachable unset w) (d s : Nat) :
    (d ≠ s → ((∃ w', copyDds d s w = .ok () w' ∧ Copied d s w w') ↔
      (w.dds s).container = none)) ∧
    ((∃ w', assignDds d s w = .ok () w' ∧ Copied d s w w') ↔
      (w.dds s).container = none ∧ (w.dds d).vars = []) := by
  have hInv := h.inv
  constructor
  · intro hNe
    have hSource : Function.update w.dds d { w.dds d with vars := [] } s = w.dds s :=
      Function.update_of_ne hNe.symm ..
    let w₀ : DdsWorld := { w with dds := Function.update w.dds d { w.dds d with vars := [] } }
    have hLive : ∀ r ∈ (w₀.dds s).vars, ∃ v, w₀.heap.cell r = some v := by
      dsimp only [w₀]
      rw [hSource]
      exact hInv.live s
    have hIff := duplicate_copied_iff hNe hLive (by simp [w₀])
    simp only [w₀, hSource, Function.update_self, and_true] at hIff
    rw [← hIff]
    apply exists_congr
    intro w'
    apply and_congr_right
    intro _
    exact ⟨fun hCopied => hCopied.congr hSource rfl, fun hCopied => hCopied.congr hSource.symm rfl⟩
  · rw [assignDds]
    by_cases hNe : d = s
    · subst hNe
      rw [if_pos rfl]
      constructor
      · rintro ⟨w', hCall, hCopied⟩
        cases hCall
        have hEmpty : (w.dds d).vars = [] :=
          List.eq_nil_iff_forall_not_mem.mpr fun r hr => hCopied.apart r hr hr
        refine ⟨?_, hEmpty⟩
        cases hActive : (w.dds d).container with
        | none => rfl
        | some c =>
          have hOwn := (hCopied.own c.1 c.2 hActive).1
          simp [hEmpty] at hOwn
      · rintro ⟨hNone, hEmpty⟩
        refine ⟨w, rfl, rfl, fun _ _ => rfl, rfl, ?_, ?_⟩
        · simp [hEmpty]
        · simp [hNone]
    · rw [if_neg hNe]
      apply duplicate_copied_iff hNe (hInv.live s)
      intro r a hc hr
      obtain ⟨v, hCell⟩ := hInv.live d r hr
      rcases hInv.container s r a hc with hThere | ⟨hDead, _⟩
      · exact hInv.apart d s r hNe hr hThere
      · rw [hDead] at hCell
        cases hCell

/-- The fields of the DDS objects in the examples. -/
def exampleFields : DdsFields := ⟨['d'], [], 2, 0, ['2', '.', '0'], [], [], 0, 0⟩

theorem exampleFields_start (unset : Word) :
    DdsReachable unset ⟨Store.empty, fun _ => ⟨exampleFields, [], none, []⟩⟩ :=
  .start fun _ => ⟨rfl, rfl⟩

theorem copied_without_container :
    ∃ w, DdsReachable [] w ∧ (w.dds 0).vars = [0] ∧
      (∃ w', copyDds 1 0 w = .ok () w' ∧ Copied 1 0 w w') ∧
      ∃ w', assignDds 1 0 w = .ok () w' ∧ Copied 1 0 w w' := by
  have hAdded := (exampleFields_start []).step (.addVar 0 (.simple ['a'])) rfl
  have hCopies := copies_iff hAdded 1 0
  exact ⟨_, hAdded, rfl, (hCopies.1 (by decide)).mpr rfl, hCopies.2.mpr ⟨rfl, rfl⟩⟩

/-- With a container open the copy gets no variables, and the source's container gets them all. -/
theorem source_container_changed :
    ∃ w w', DdsReachable [] w ∧ (w.dds 0).vars = [0, 1] ∧ copyDds 1 0 w = .ok () w' ∧
      (w'.dds 1).vars = [] ∧
      w.heap.cell 1 = some (.fields .structureType ['g'] []) ∧
      w'.heap.cell 1 = some (.fields .structureType ['g']
        [.simple ['a'], .fields .structureType ['g'] [.simple ['a']]]) := by
  have hAdded := (exampleFields_start []).step (.addVar 0 (.simple ['a'])) rfl
  have hOpened := hAdded.step (.containerName 0 ['g']) rfl
  exact ⟨_, _, hOpened, rfl, rfl, rfl, rfl, rfl⟩

end Libdap.Dap2
