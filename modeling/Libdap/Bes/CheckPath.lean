import Mathlib.Data.List.Infix
import Libdap.Constraint.Word
import Libdap.Core.FileTree
import Libdap.Core.Fault

/-! # Paths below a root

`BESUtil::check_path` looks at every node on the way to what a path names before the path is used.
-/

namespace Libdap.Bes
open Core Constraint FileTree
set_option autoImplicit false

inductive PathError
  | forbidden (msg : Word)
  | notFound (msg : Word)
  | outOfBounds
  deriving DecidableEq, Repr

section
variable (t : Tree) (followSymLinks : Bool)

def unableToAccess (checked : Word) (errsv : Errno) : PathError :=
  let error := "Unable to access node ".toList ++ checked ++ ": ".toList ++ strerror errsv
  if errsv = .noEntry then .notFound error else .forbidden error

def checkNode (fullpath checked : Word) : Except PathError Unit :=
  if followSymLinks = false then
    match t.lstat fullpath with
    | .error errsv => .error (unableToAccess checked errsv)
    | .ok buf =>
      if t.isLink buf then .error (.forbidden ("You do not have permission to access ".toList ++ checked)) else .ok ()
  else
    match t.stat fullpath with
    | .error errsv => .error (unableToAccess checked errsv)
    | .ok _ => .ok ()

/-- Each round takes the text of the rest up to the next slash. -/
def checkNodes (fullpath checked : Word) : List Word → Except PathError Unit
  | [] => .ok ()
  | node :: rem => do
    checkNode t followSymLinks (fullpath ++ '/' :: node) (checked ++ '/' :: node)
    checkNodes (fullpath ++ '/' :: node) (checked ++ '/' :: node) rem

def withoutFirstSlash (path : Word) : Word := if path.head? = some '/' then path.drop 1 else path

/-- `none`, if there is no last character to look at. -/
def withoutLastSlash (text : Word) : Option Word :=
  text.getLast?.map fun last => if last = '/' then text.dropLast else text

def checkPath (path root : Word) : Except PathError Unit :=
  if path = [] then .ok ()
  else if ['.', '.'] <:+: path then
    .error (.forbidden ("You are not allowed to access the node ".toList ++ path))
  else
    match withoutLastSlash (withoutFirstSlash path) with
    | none => .error .outOfBounds
    | some rem =>
      match withoutLastSlash root with
      | none => .error .outOfBounds
      | some fullpath => checkNodes t followSymLinks fullpath [] (rem.splitOn '/')

end

/-! ## What the path should be -/

def components (path : Word) : List Word := (path.splitOn '/').filter (· ≠ [])

def below (dir : Word) (nodes : List Word) : Word := dir ++ nodes.flatMap ('/' :: ·)

/-- The node exists and can be accessed, and is no symbolic link if these are not followed. -/
def Admitted (t : Tree) (followSymLinks : Bool) (fullpath : Word) : Prop :=
  ∃ ino, t.resolve followSymLinks fullpath = .ok ino ∧ (followSymLinks = false → t.isLink ino = false)

structure Allowed (t : Tree) (followSymLinks : Bool) (path root : Word) : Prop where
  admitted : ∀ nodes node, nodes ++ [node] <+: components path →
    Admitted t followSymLinks (below root (nodes ++ [node]))
  noParent : ['.', '.'] ∉ components path

variable {t : Tree} {followSymLinks : Bool} {path root fullpath checked u v w rem : Word} {nodes : List Word}

theorem below_cons (dir node : Word) (nodes : List Word) :
    below dir (node :: nodes) = below (dir ++ '/' :: node) nodes := by
  rw [below, below, List.flatMap_cons, ← List.append_assoc]

theorem below_concat (dir node : Word) (nodes : List Word) :
    below dir (nodes ++ [node]) = below dir nodes ++ '/' :: node := by
  rw [below, below, List.flatMap_append, ← List.append_assoc, List.flatMap_singleton]

theorem checkNode_ok (checked : Word) : checkNode t followSymLinks fullpath checked = .ok () ↔
    Admitted t followSymLinks fullpath := by
  rw [checkNode, Admitted, Tree.lstat, Tree.stat]
  cases followSymLinks with
  | true =>
    rw [if_neg (by decide)]
    cases hStat : t.resolve true fullpath with
    | error errsv =>
      refine iff_of_false (fun h => by cases h) ?_
      rintro ⟨ino, hOk, -⟩
      cases hOk
    | ok ino => exact iff_of_true rfl ⟨ino, rfl, fun h => by cases h⟩
  | false =>
    rw [if_pos rfl]
    cases hStat : t.resolve false fullpath with
    | error errsv =>
      refine iff_of_false (fun h => by cases h) ?_
      rintro ⟨ino, hOk, -⟩
      cases hOk
    | ok ino =>
      dsimp only
      cases hLink : t.isLink ino with
      | true =>
        refine iff_of_false (fun h => by cases h) ?_
        rintro ⟨_, hOk, hNot⟩
        cases hOk
        rw [hNot rfl] at hLink
        cases hLink
      | false => exact iff_of_true rfl ⟨ino, rfl, fun _ => hLink⟩

theorem checkNode_error (h : checkNode t followSymLinks fullpath checked = .error .outOfBounds) : False := by
  have hUnable (errsv : Errno) : unableToAccess checked errsv ≠ .outOfBounds := by
    rw [unableToAccess]
    split
    · exact PathError.noConfusion
    · exact PathError.noConfusion
  rw [checkNode] at h
  split at h
  · split at h
    · exact hUnable _ (Except.error.inj h)
    · split at h <;> cases h
  · split at h
    · exact hUnable _ (Except.error.inj h)
    · cases h

/-- The loop returns if the nodes up to each of them are admitted. -/
theorem checkNodes_ok (nodes : List Word) (fullpath checked : Word) :
    checkNodes t followSymLinks fullpath checked nodes = .ok () ↔
      ∀ before node, before ++ [node] <+: nodes → Admitted t followSymLinks (below fullpath (before ++ [node])) := by
  induction nodes generalizing fullpath checked with
  | nil =>
    refine iff_of_true rfl ?_
    intro before node h
    exact absurd (List.prefix_nil.mp h) (List.append_ne_nil_of_right_ne_nil _ (List.cons_ne_nil _ _))
  | cons first rest ih =>
    have hBind : checkNodes t followSymLinks fullpath checked (first :: rest) = .ok () ↔
        Admitted t followSymLinks (fullpath ++ '/' :: first) ∧
          checkNodes t followSymLinks (fullpath ++ '/' :: first) (checked ++ '/' :: first) rest = .ok () := by
      rw [checkNodes, ← checkNode_ok (checked ++ '/' :: first)]
      cases checkNode t followSymLinks (fullpath ++ '/' :: first) (checked ++ '/' :: first) with
      | error e =>
        refine iff_of_false (fun h => by cases h) ?_
        rintro ⟨hOk, -⟩
        cases hOk
      | ok _ => exact (and_iff_right rfl).symm
    rw [hBind, ih]
    constructor
    · rintro ⟨hFirst, hRest⟩ before node h
      cases before with
      | nil =>
        obtain ⟨rfl, -⟩ := List.cons_prefix_cons.mp h
        rw [List.nil_append, below_cons, below, List.flatMap_nil, List.append_nil]
        exact hFirst
      | cons a before =>
        obtain ⟨rfl, hTail⟩ := List.cons_prefix_cons.mp h
        rw [List.cons_append, below_cons]
        exact hRest before node hTail
    · intro h
      constructor
      · have hFirst := h [] first (List.cons_prefix_cons.mpr ⟨rfl, List.nil_prefix⟩)
        rw [List.nil_append, below_cons, below, List.flatMap_nil, List.append_nil] at hFirst
        exact hFirst
      · intro before node hTail
        rw [← below_cons]
        exact h (first :: before) node (List.cons_prefix_cons.mpr ⟨rfl, hTail⟩)

theorem checkNodes_error (nodes : List Word) (fullpath checked : Word) :
    checkNodes t followSymLinks fullpath checked nodes ≠ .error .outOfBounds := by
  induction nodes generalizing fullpath checked with
  | nil =>
    intro h
    cases h
  | cons first rest ih =>
    intro h
    rw [checkNodes] at h
    rcases bind_eq_error h with hFirst | ⟨_, -, hRest⟩
    · exact checkNode_error hFirst
    · exact ih _ _ hRest

/-! ## Slashes -/

theorem resolve_below (u : Word) (before : List Word) (node : Word) :
    t.resolve followSymLinks (below u (before ++ [node])) =
      t.resolve followSymLinks (below u (before.filter (· ≠ []) ++ [node])) := by
  induction before generalizing u with
  | nil => rfl
  | cons a before ih =>
    rw [List.cons_append, below_cons, ih]
    by_cases ha : a = []
    · subst ha
      rw [List.filter_cons_of_neg (by simp)]
      obtain ⟨b, bs, hTail⟩ := List.exists_cons_of_ne_nil
        (List.append_ne_nil_of_right_ne_nil (before.filter (· ≠ [])) (List.cons_ne_nil node []))
      rw [hTail, below, below, List.flatMap_cons, List.append_assoc]
      exact Tree.resolve_slash u _
    · rw [List.filter_cons_of_pos (by simp [ha]), List.cons_append, below_cons]

theorem resolve_withoutLastSlash (h : withoutLastSlash root = some fullpath) (before : List Word) (node : Word) :
    t.resolve followSymLinks (below fullpath (before ++ [node])) =
      t.resolve followSymLinks (below root (before ++ [node])) := by
  obtain ⟨last, hLast, hPath⟩ := Option.map_eq_some_iff.mp h
  by_cases hSlash : last = '/'
  · rw [if_pos hSlash] at hPath
    have hRoot : root = fullpath ++ ['/'] := by
      obtain ⟨s, hs⟩ := List.getLast?_eq_some_iff.mp hLast
      rw [← hPath, hs, List.dropLast_concat, hSlash]
    obtain ⟨b, bs, hNodes⟩ := List.exists_cons_of_ne_nil
      (List.append_ne_nil_of_right_ne_nil before (List.cons_ne_nil node []))
    rw [hNodes, hRoot, below, below, List.flatMap_cons, List.append_assoc]
    exact (Tree.resolve_slash fullpath _).symm
  · rw [if_neg hSlash] at hPath
    rw [hPath]

theorem components_slash (u v : Word) : components (u ++ '/' :: v) = components u ++ components v := by
  rw [components, List.splitOn_append_cons_self, List.filter_append]
  rfl

theorem components_withoutFirstSlash (path : Word) : components (withoutFirstSlash path) = components path := by
  rw [withoutFirstSlash]
  split
  · rename_i hSlash
    obtain ⟨rest, rfl⟩ := List.head?_eq_some_iff.mp hSlash
    exact (components_slash [] rest).symm
  · rfl

theorem components_withoutLastSlash (h : withoutLastSlash w = some rem) : components rem = components w := by
  obtain ⟨last, hLast, rfl⟩ := Option.map_eq_some_iff.mp h
  split
  · rename_i hSlash
    obtain ⟨s, rfl⟩ := List.getLast?_eq_some_iff.mp hLast
    rw [List.dropLast_concat, hSlash, components_slash]
    exact (List.append_nil _).symm
  · rfl

theorem infix_of_mem_components {node : Word} (h : node ∈ components path) : node <:+: path := by
  have hInfix (nodes : List Word) (hMem : node ∈ nodes) : node <:+: ['/'].intercalate nodes := by
    induction nodes with
    | nil => exact absurd hMem List.not_mem_nil
    | cons first rest ih =>
      cases rest with
      | nil =>
        rw [List.mem_singleton.mp hMem]
        simp
      | cons second rest =>
        rw [List.intercalate_cons_cons]
        rcases List.mem_cons.mp hMem with rfl | hMem
        · exact ⟨[], ['/'] ++ ['/'].intercalate (second :: rest), by simp⟩
        · exact (ih hMem).trans (List.suffix_append _ _).isInfix
  have hJoin : ['/'].intercalate (path.splitOn '/') = path := List.intercalate_splitOn '/'
  have hNode := hInfix (path.splitOn '/') (List.mem_filter.mp h).1
  rw [hJoin] at hNode
  exact hNode

theorem splitOn_concat {c : Char} (h : c ≠ '/') (s : Word) :
    ∃ names last, (s ++ [c]).splitOn '/' = names ++ [last ++ [c]] := by
  induction s with
  | nil => exact ⟨[], [], List.splitOn_eq_singleton (by simpa using h.symm)⟩
  | cons d s ih =>
    obtain ⟨names, last, hNames⟩ := ih
    by_cases hSlash : d = '/'
    · refine ⟨[] :: names, last, ?_⟩
      rw [hSlash, List.cons_append, List.cons_append, ← hNames]
      exact List.splitOn_append_cons_self (a := '/') [] (s ++ [c])
    · have hSplit : (d :: (s ++ [c])).splitOn '/' = (names ++ [last ++ [c]]).modifyHead (d :: ·) := by
        rw [List.splitOn_cons_eq_if_modifyHead, if_neg (by simpa using hSlash), hNames]
      rw [List.cons_append, hSplit]
      cases names with
      | nil => exact ⟨[], d :: last, rfl⟩
      | cons a names => exact ⟨(d :: a) :: names, last, rfl⟩

theorem last_component (w : Word) :
    (w.splitOn '/').getLast? = some [] ↔ w = [] ∨ w.getLast? = some '/' := by
  rcases List.eq_nil_or_concat w with rfl | ⟨s, c, rfl⟩
  · exact iff_of_true rfl (.inl rfl)
  · rw [List.concat_eq_append, or_iff_right (List.append_ne_nil_of_right_ne_nil s (List.cons_ne_nil c [])),
      List.getLast?_concat, Option.some_inj]
    by_cases hSlash : c = '/'
    · subst hSlash
      rw [List.splitOn_append_cons_self]
      exact iff_of_true List.getLast?_concat rfl
    · obtain ⟨names, last, hNames⟩ := splitOn_concat hSlash s
      rw [hNames, List.getLast?_concat, Option.some_inj]
      exact iff_of_false (by simp) hSlash

theorem two_slashes (s : Word) (c : Char) : ['/', '/'] <:+ s ++ [c] ↔ c = '/' ∧ s.getLast? = some '/' := by
  rw [List.suffix_concat_iff, or_iff_right (List.cons_ne_nil _ _), List.getLast?_eq_some_iff]
  constructor
  · rintro ⟨t, ht, u, rfl⟩
    obtain ⟨rfl, hc⟩ := List.append_inj' (show ['/'] ++ ['/'] = t ++ [c] from ht) rfl
    exact ⟨(List.cons.inj hc).1.symm, u, rfl⟩
  · rintro ⟨rfl, u, rfl⟩
    exact ⟨['/'], rfl, u, rfl⟩

/-- The rest of the path ends in an empty node if the path ends in two slashes. -/
theorem last_component_rest (hPath : path ≠ ['/']) (h : withoutLastSlash (withoutFirstSlash path) = some rem) :
    (rem.splitOn '/').getLast? = some [] ↔ ['/', '/'] <:+ path := by
  rw [last_component]
  obtain ⟨last, hLast, rfl⟩ := Option.map_eq_some_iff.mp h
  obtain ⟨s, hs⟩ := List.getLast?_eq_some_iff.mp hLast
  rw [hs, List.dropLast_concat]
  have hFront : ∃ front, path = front ++ s ++ [last] ∧ (front = ['/'] ∨ front = [] ∧ s ++ [last] ≠ ['/']) := by
    rw [withoutFirstSlash] at hs
    split at hs
    · rename_i hSlash
      obtain ⟨rest, rfl⟩ := List.head?_eq_some_iff.mp hSlash
      exact ⟨['/'], congrArg _ hs, .inl rfl⟩
    · exact ⟨[], hs, .inr ⟨rfl, hs ▸ hPath⟩⟩
  obtain ⟨front, rfl, hFront⟩ := hFront
  rw [two_slashes]
  by_cases hSlash : last = '/'
  · rw [if_pos hSlash, and_iff_right hSlash]
    rcases List.eq_nil_or_concat s with rfl | ⟨s, c, rfl⟩
    · rcases hFront with rfl | ⟨rfl, hNot⟩
      · exact iff_of_true (.inl rfl) rfl
      · rw [hSlash] at hNot
        exact absurd rfl hNot
    · rw [List.concat_eq_append, or_iff_right (List.append_ne_nil_of_right_ne_nil s (List.cons_ne_nil c [])),
        ← List.append_assoc, List.getLast?_concat, List.getLast?_concat]
  · rw [if_neg hSlash, or_iff_right (List.append_ne_nil_of_right_ne_nil s (List.cons_ne_nil last [])),
      List.getLast?_concat, Option.some_inj]
    exact iff_of_false hSlash fun hBoth => hSlash hBoth.1

/-! ## All nodes -/

theorem Admitted.before {u v : Word} (h : Admitted t followSymLinks (u ++ '/' :: v)) :
    Admitted t followSymLinks (u ++ ['/']) := by
  obtain ⟨ino, hIno, hLink⟩ := h
  obtain ⟨dir, hDir, hIs | rfl⟩ := Tree.resolve_before hIno
  · exact ⟨dir, hDir, fun _ => hIs.not_link⟩
  · exact ⟨dir, hDir, hLink⟩

/-- What the loop looks at is what is on the way, and the directory the path names where it ends in two slashes. -/
theorem passed_iff (hPath : path ≠ ['/']) (hRem : withoutLastSlash (withoutFirstSlash path) = some rem)
    (hRoot : withoutLastSlash root = some fullpath) :
    (∀ before node, before ++ [node] <+: rem.splitOn '/' →
      Admitted t followSymLinks (below fullpath (before ++ [node]))) ↔
      (∀ nodes node, nodes ++ [node] <+: components path →
        Admitted t followSymLinks (below root (nodes ++ [node]))) ∧
      (['/', '/'] <:+ path → Admitted t followSymLinks (below root (components path) ++ ['/'])) := by
  have hComponents : (rem.splitOn '/').filter (· ≠ []) = components path := by
    rw [← components_withoutFirstSlash, ← components_withoutLastSlash hRem]
    rfl
  have hSame (before : List Word) (node : Word) : Admitted t followSymLinks (below fullpath (before ++ [node])) ↔
      Admitted t followSymLinks (below root (before.filter (· ≠ []) ++ [node])) := by
    rw [Admitted, Admitted, resolve_withoutLastSlash hRoot, resolve_below]
  have hSlash (nodes : List Word) : below root nodes ++ ['/'] = below root (nodes ++ [[]]) :=
    (below_concat root [] nodes).symm
  simp only [hSame, hSlash]
  constructor
  · intro h
    constructor
    · rintro nodes node ⟨rest, hRest⟩
      rw [← hComponents, List.append_assoc] at hRest
      obtain ⟨first, second, hSplit, rfl, hSecond⟩ := List.filter_eq_append_iff.mp hRest.symm
      obtain ⟨empties, third, rfl, hEmpties, -⟩ := List.filter_eq_cons_iff.mp hSecond
      have hNode := h (first ++ empties) node ⟨third, by rw [hSplit]; simp⟩
      rw [List.filter_append, List.filter_eq_nil_iff.mpr hEmpties, List.append_nil] at hNode
      exact hNode
    · intro hTwo
      obtain ⟨before, hBefore⟩ := List.getLast?_eq_some_iff.mp ((last_component_rest hPath hRem).mpr hTwo)
      have hLast := h before [] (hBefore ▸ List.prefix_rfl)
      rw [hBefore, List.filter_append] at hComponents
      rw [← hComponents]
      simpa using hLast
  · rintro ⟨hNodes, hTwo⟩ before node ⟨behind, hBehind⟩
    have hParts : before.filter (· ≠ []) ++ ([node].filter (· ≠ []) ++ behind.filter (· ≠ [])) = components path := by
      rw [← hComponents, ← hBehind, List.filter_append, List.filter_append, List.append_assoc]
    by_cases hNode : node = []
    · subst hNode
      cases hRest : behind.filter (· ≠ []) with
      | cons next rest =>
        rw [hRest] at hParts
        have hNext := hNodes (before.filter (· ≠ [])) next ⟨rest, by rw [← hParts]; simp⟩
        rw [below_concat] at hNext ⊢
        exact hNext.before
      | nil =>
        have hLast : (rem.splitOn '/').getLast? = some [] := by
          rw [← hBehind]
          rcases List.eq_nil_or_concat behind with rfl | ⟨front, last, rfl⟩
          · rw [List.append_nil, List.getLast?_concat]
          · rw [List.concat_eq_append] at hRest ⊢
            rw [← List.append_assoc, List.getLast?_concat, Option.some_inj]
            simpa using List.filter_eq_nil_iff.mp hRest last (List.mem_append_right _ List.mem_cons_self)
        rw [hRest] at hParts
        have hWhole := hTwo ((last_component_rest hPath hRem).mp hLast)
        rw [← hParts] at hWhole
        simpa using hWhole
    · apply hNodes
      refine ⟨behind.filter (· ≠ []), ?_⟩
      rw [← hParts, List.filter_cons_of_pos (by simp [hNode]), List.filter_nil, List.append_assoc]

/-- The paths for which the check goes wrong: a single slash or an empty root, two dots within a name, and two slashes
behind a node that is no directory. -/
theorem check_path_iff (t : Tree) (followSymLinks : Bool) (path root : Word) :
    (checkPath t followSymLinks path root ≠ .error .outOfBounds ∧
      (checkPath t followSymLinks path root = .ok () ↔ Allowed t followSymLinks path root)) ↔
    path = [] ∨ (['.', '.'] <:+: path ∧ ¬ Allowed t followSymLinks path root) ∨
      (¬ ['.', '.'] <:+: path ∧ path ≠ ['/'] ∧ root ≠ [] ∧
        (Allowed t followSymLinks path root → ['/', '/'] <:+ path →
          Admitted t followSymLinks (below root (components path) ++ ['/']))) := by
  by_cases hEmpty : path = []
  · subst hEmpty
    have hAllowed : Allowed t followSymLinks [] root := by
      refine ⟨?_, List.not_mem_nil⟩
      intro nodes node h
      exact absurd (List.prefix_nil.mp h) (List.append_ne_nil_of_right_ne_nil _ (List.cons_ne_nil _ _))
    refine iff_of_true ⟨?_, iff_of_true rfl hAllowed⟩ (.inl rfl)
    intro h
    cases h
  rw [checkPath, if_neg hEmpty, or_iff_right hEmpty]
  by_cases hDots : ['.', '.'] <:+: path
  · rw [if_pos hDots, and_iff_right hDots, or_iff_left fun h => h.1 hDots]
    constructor
    · rintro ⟨-, hOk⟩ hAllowed
      cases hOk.mpr hAllowed
    · intro hNot
      refine ⟨?_, iff_of_false ?_ hNot⟩
      · intro h
        cases h
      · intro h
        cases h
  rw [if_neg hDots, or_iff_right fun h => hDots h.1, and_iff_right hDots]
  cases hRem : withoutLastSlash (withoutFirstSlash path) with
  | none =>
    have hSlash : path = ['/'] := by
      rw [withoutLastSlash, Option.map_eq_none_iff, List.getLast?_eq_none_iff, withoutFirstSlash] at hRem
      split at hRem
      · rename_i hHead
        obtain ⟨rest, rfl⟩ := List.head?_eq_some_iff.mp hHead
        exact congrArg _ hRem
      · exact absurd hRem hEmpty
    exact iff_of_false (fun h => h.1 rfl) fun h => h.1 hSlash
  | some rem =>
    have hPath : path ≠ ['/'] := by
      rintro rfl
      cases hRem
    rw [and_iff_right hPath]
    cases hRoot : withoutLastSlash root with
    | none =>
      rw [withoutLastSlash, Option.map_eq_none_iff, List.getLast?_eq_none_iff] at hRoot
      exact iff_of_false (fun h => h.1 rfl) fun h => h.1 hRoot
    | some fullpath =>
      have hNonempty : root ≠ [] := by
        rintro rfl
        cases hRoot
      have hParent : ['.', '.'] ∉ components path := by
        intro hMem
        exact hDots (infix_of_mem_components hMem)
      have hAllowed : Allowed t followSymLinks path root ↔ ∀ nodes node, nodes ++ [node] <+: components path →
          Admitted t followSymLinks (below root (nodes ++ [node])) :=
        ⟨Allowed.admitted, fun h => ⟨h, hParent⟩⟩
      rw [and_iff_right hNonempty, and_iff_right (checkNodes_error _ _ _), checkNodes_ok,
        passed_iff hPath hRem hRoot, hAllowed, and_iff_left_iff_imp]

/-- A slash alone: there is no last character of the rest to look at. -/
theorem slash_out_of_bounds : ¬ ∀ (t : Tree) (followSymLinks : Bool) (path root : Word),
    checkPath t followSymLinks path root ≠ .error .outOfBounds ∧
      (checkPath t followSymLinks path root = .ok () ↔ Allowed t followSymLinks path root) := by
  intro h
  exact (h ⟨fun _ => .directory true 0 [], 0, 0, 40⟩ true ['/'] "/data".toList).1 rfl

end Libdap.Bes
