import Mathlib.Data.List.TakeWhile

/-! # Trees of files with symbolic links

A pathname is resolved name by name; an empty name, from a slash behind another or at the end, stays in the directory.
-/

namespace Libdap.FileTree
set_option autoImplicit false

inductive Errno
  | noEntry
  | access
  | notDirectory
  | loop
  deriving DecidableEq, Repr

def strerror : Errno → List Char
  | .noEntry => "No such file or directory".toList
  | .access => "Permission denied".toList
  | .notDirectory => "Not a directory".toList
  | .loop => "Too many levels of symbolic links".toList

inductive Node
  | file
  | directory (search : Bool) (parent : Nat) (entries : List (List Char × Nat))
  | link (target : List Char)
  deriving DecidableEq, Repr

structure Tree where
  node : Nat → Node
  root : Nat
  cwd : Nat
  /-- How many links are followed for one pathname. -/
  maxLinks : Nat

/-- The end of a C string. -/
def cut (text : List Char) : List Char := text.takeWhile (· ≠ '\x00')

theorem cut_append_of_mem {u : List Char} (h : '\x00' ∈ u) (v : List Char) : cut (u ++ v) = cut u := by
  rw [cut, cut, List.takeWhile_append, if_neg]
  intro hLength
  have hWhole : u.takeWhile (· ≠ '\x00') = u := (List.takeWhile_prefix _).eq_of_length hLength
  rw [List.takeWhile_eq_self_iff] at hWhole
  exact absurd rfl (of_decide_eq_true (hWhole _ h))

theorem cut_append_of_notMem {u : List Char} (h : '\x00' ∉ u) (v : List Char) : cut (u ++ v) = u ++ cut v := by
  apply List.takeWhile_append_of_pos
  intro c hc
  apply decide_eq_true
  rintro rfl
  exact h hc

namespace Tree

variable (t : Tree) (follow : Bool)

def origin (dir : Nat) (path : List Char) : Nat := if path.head? = some '/' then t.root else dir

/-- The walk up to a link; a link at the end is followed on request only. -/
def walkNames (behindLink : Nat → List (List Char) → Except Errno Nat) :
    Nat → List (List Char) → Except Errno Nat
  | cur, [] => .ok cur
  | cur, name :: names =>
    match t.node cur with
    | .directory search parent entries =>
      if name = [] then walkNames behindLink cur names
      else if search = false then .error .access
      else if name = ['.'] then walkNames behindLink cur names
      else if name = ['.', '.'] then walkNames behindLink parent names
      else
        match entries.lookup name with
        | none => .error .noEntry
        | some ino =>
          match t.node ino with
          | .link target =>
            if names = [] ∧ follow = false then .ok ino
            else behindLink (t.origin cur target) (target.splitOn '/' ++ names)
          | _ => walkNames behindLink ino names
    | _ => .error .notDirectory

def walk : Nat → Nat → List (List Char) → Except Errno Nat
  | 0 => t.walkNames follow fun _ _ => .error .loop
  | links + 1 => t.walkNames follow (walk links)

def resolve (text : List Char) : Except Errno Nat :=
  let path := cut text
  if path = [] then .error .noEntry
  else t.walk follow t.maxLinks (t.origin t.cwd path) (path.splitOn '/')

def stat (text : List Char) : Except Errno Nat := t.resolve true text

def lstat (text : List Char) : Except Errno Nat := t.resolve false text

def IsDirectory (ino : Nat) : Prop := ∃ search parent entries, t.node ino = .directory search parent entries

def isLink (ino : Nat) : Bool :=
  match t.node ino with
  | .link _ => true
  | _ => false

variable {t follow} {behindLink : Nat → List (List Char) → Except Errno Nat} {n : List Char}
  {v : List (List Char)}

theorem IsDirectory.not_link {ino : Nat} (h : t.IsDirectory ino) : t.isLink ino = false := by
  obtain ⟨search, parent, entries, hNode⟩ := h
  rw [isLink, hNode]

/-! ## Slashes -/

theorem walkNames_slash
    (h : ∀ cur u, behindLink cur (u ++ [] :: n :: v) = behindLink cur (u ++ n :: v)) (cur : Nat)
    (u : List (List Char)) :
    t.walkNames follow behindLink cur (u ++ [] :: n :: v) = t.walkNames follow behindLink cur (u ++ n :: v) := by
  induction u generalizing cur with
  | nil =>
    rw [List.nil_append, List.nil_append, walkNames]
    cases hNode : t.node cur with
    | directory search parent entries => exact if_pos rfl
    | file => rw [walkNames, hNode]
    | link target => rw [walkNames, hNode]
  | cons name u ih =>
    rw [List.cons_append, List.cons_append, walkNames, walkNames, ih cur]
    cases t.node cur with
    | file => rfl
    | link target => rfl
    | directory search parent entries =>
      dsimp only
      rw [ih parent]
      cases entries.lookup name with
      | none => rfl
      | some ino =>
        dsimp only
        cases t.node ino with
        | file => rw [ih ino]
        | directory search parent entries => rw [ih ino]
        | link target =>
          have hNext : ¬ (u ++ n :: v = [] ∧ follow = false) :=
            fun hBoth => List.append_ne_nil_of_right_ne_nil _ (List.cons_ne_nil _ _) hBoth.1
          have hSlash : ¬ (u ++ [] :: n :: v = [] ∧ follow = false) :=
            fun hBoth => List.append_ne_nil_of_right_ne_nil _ (List.cons_ne_nil _ _) hBoth.1
          dsimp only
          rw [if_neg hSlash, if_neg hNext, ← List.append_assoc, h, List.append_assoc]

theorem walk_slash (links cur : Nat) (u : List (List Char)) :
    t.walk follow links cur (u ++ [] :: n :: v) = t.walk follow links cur (u ++ n :: v) := by
  induction links generalizing cur u with
  | zero => exact walkNames_slash (fun _ _ => rfl) cur u
  | succ links ih => exact walkNames_slash ih cur u

/-- Where a walk gets on, a slash at that point stands behind a directory. -/
theorem walkNames_before
    (h : ∀ cur u ino, behindLink cur (u ++ n :: v) = .ok ino →
      ∃ dir, behindLink cur (u ++ [[]]) = .ok dir ∧ t.IsDirectory dir)
    {cur : Nat} {u : List (List Char)} {ino : Nat} (hWalk : t.walkNames follow behindLink cur (u ++ n :: v) = .ok ino) :
    ∃ dir, t.walkNames follow behindLink cur (u ++ [[]]) = .ok dir ∧ t.IsDirectory dir := by
  induction u generalizing cur with
  | nil =>
    rw [List.nil_append, walkNames] at hWalk
    cases hNode : t.node cur with
    | file =>
      rw [hNode] at hWalk
      cases hWalk
    | link target =>
      rw [hNode] at hWalk
      cases hWalk
    | directory search parent entries =>
      refine ⟨cur, ?_, search, parent, entries, hNode⟩
      rw [List.nil_append, walkNames, hNode]
      rfl
  | cons name u ih =>
    rw [List.cons_append, walkNames] at hWalk ⊢
    cases hNode : t.node cur with
    | file =>
      rw [hNode] at hWalk
      cases hWalk
    | link target =>
      rw [hNode] at hWalk
      cases hWalk
    | directory search parent entries =>
      rw [hNode] at hWalk
      dsimp only at hWalk ⊢
      by_cases hEmpty : name = []
      · rw [if_pos hEmpty] at hWalk ⊢
        exact ih hWalk
      rw [if_neg hEmpty] at hWalk ⊢
      by_cases hSearch : search = false
      · rw [if_pos hSearch] at hWalk
        cases hWalk
      rw [if_neg hSearch] at hWalk ⊢
      by_cases hDot : name = ['.']
      · rw [if_pos hDot] at hWalk ⊢
        exact ih hWalk
      rw [if_neg hDot] at hWalk ⊢
      by_cases hParent : name = ['.', '.']
      · rw [if_pos hParent] at hWalk ⊢
        exact ih hWalk
      rw [if_neg hParent] at hWalk ⊢
      cases hEntry : entries.lookup name with
      | none =>
        rw [hEntry] at hWalk
        cases hWalk
      | some found =>
        rw [hEntry] at hWalk
        dsimp only at hWalk ⊢
        cases hFound : t.node found with
        | file =>
          rw [hFound] at hWalk
          exact ih hWalk
        | directory search parent entries =>
          rw [hFound] at hWalk
          exact ih hWalk
        | link target =>
          have hNext : ¬ (u ++ n :: v = [] ∧ follow = false) :=
            fun hBoth => List.append_ne_nil_of_right_ne_nil _ (List.cons_ne_nil _ _) hBoth.1
          have hSlash : ¬ (u ++ [[]] = [] ∧ follow = false) :=
            fun hBoth => List.append_ne_nil_of_right_ne_nil _ (List.cons_ne_nil _ _) hBoth.1
          rw [hFound] at hWalk
          dsimp only at hWalk ⊢
          rw [if_neg hNext, ← List.append_assoc] at hWalk
          rw [if_neg hSlash, ← List.append_assoc]
          exact h _ _ ino hWalk

theorem walk_before {links cur ino : Nat} {u : List (List Char)}
    (h : t.walk follow links cur (u ++ n :: v) = .ok ino) :
    ∃ dir, t.walk follow links cur (u ++ [[]]) = .ok dir ∧ t.IsDirectory dir := by
  induction links generalizing cur u ino with
  | zero =>
    refine walkNames_before ?_ h
    intro cur u ino hLoop
    cases hLoop
  | succ links ih => exact walkNames_before (fun _ _ _ => ih) h

/-! ## Pathnames -/

theorem splitOn_eq_cons (path : List Char) : ∃ n v, path.splitOn '/' = n :: v :=
  List.exists_cons_of_ne_nil (List.splitOn_ne_nil '/' path)

theorem origin_slash (dir : Nat) (u v : List Char) : t.origin dir (u ++ '/' :: v) = t.origin dir (u ++ ['/']) := by
  rw [origin, origin]
  cases u <;> rfl

theorem resolve_of_notMem {u : List Char} (h : '\x00' ∉ u) (v : List Char) : t.resolve follow (u ++ '/' :: v) =
    t.walk follow t.maxLinks (t.origin t.cwd (u ++ ['/'])) (u.splitOn '/' ++ (cut v).splitOn '/') := by
  have hCut : cut (u ++ '/' :: v) = u ++ '/' :: cut v := by
    rw [cut_append_of_notMem h]
    rfl
  have hNonempty : u ++ '/' :: cut v ≠ [] := List.append_ne_nil_of_right_ne_nil _ (List.cons_ne_nil _ _)
  rw [resolve, hCut, if_neg hNonempty, origin_slash, List.splitOn_append_cons_self]

theorem resolve_of_mem {u : List Char} (h : '\x00' ∈ u) (v : List Char) :
    t.resolve follow (u ++ v) = t.resolve follow u := by
  rw [resolve, resolve, cut_append_of_mem h]

/-- Two slashes are as good as one. -/
theorem resolve_slash (u v : List Char) :
    t.resolve follow (u ++ '/' :: '/' :: v) = t.resolve follow (u ++ '/' :: v) := by
  by_cases h : '\x00' ∈ u
  · rw [resolve_of_mem h, resolve_of_mem h]
  · obtain ⟨n, names, hNames⟩ := splitOn_eq_cons (cut v)
    have hSlash : (cut ('/' :: v)).splitOn '/' = [] :: n :: names := by
      rw [← hNames]
      exact List.splitOn_append_cons_self (a := '/') [] (cut v)
    rw [resolve_of_notMem h, resolve_of_notMem h, hSlash, hNames, walk_slash]

theorem resolve_before {u v : List Char} {ino : Nat} (h : t.resolve follow (u ++ '/' :: v) = .ok ino) :
    ∃ dir, t.resolve follow (u ++ ['/']) = .ok dir ∧ (t.IsDirectory dir ∨ dir = ino) := by
  by_cases hMem : '\x00' ∈ u
  · rw [resolve_of_mem hMem] at h
    exact ⟨ino, by rw [resolve_of_mem hMem, h], .inr rfl⟩
  · obtain ⟨n, names, hNames⟩ := splitOn_eq_cons (cut v)
    rw [resolve_of_notMem hMem, hNames] at h
    obtain ⟨dir, hDir, hIs⟩ := walk_before h
    refine ⟨dir, ?_, .inl hIs⟩
    rw [resolve_of_notMem hMem]
    exact hDir

end Tree

end Libdap.FileTree
