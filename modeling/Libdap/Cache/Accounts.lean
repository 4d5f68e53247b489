import Libdap.Cache.DAPCache3

/-! # What is counted in the recorded size

Beside the disk: the file that each process has made without having recorded its size yet, and the process, if
there is one, that is at work on the recorded size. A file that was made and not yet recorded is not counted.
-/

namespace Libdap.Cache
open Core Constraint CacheDisk
set_option autoImplicit false

structure Accounts (Pid : Type) where
  disk : CacheDisk Pid
  made : Pid → Option (Word × Nat)
  busy : Option Pid

namespace Accounts

variable {Pid : Type}

def Pending (a : Accounts Pid) (i : Nat) : Prop := ∃ q t, a.made q = some (t, i)

open Classical in
noncomputable def counted (a : Accounts Pid) (i : Nat) : Nat :=
  if a.Pending i then 0 else (a.disk.content i).length

noncomputable def total (a : Accounts Pid) : Nat := (a.disk.entries.map fun e => a.counted e.2).sum

variable {a a' : Accounts Pid}

theorem counted_pending {i : Nat} (h : a.Pending i) : a.counted i = 0 := if_pos h

theorem counted_recorded {i : Nat} (h : ¬ a.Pending i) : a.counted i = (a.disk.content i).length := if_neg h

theorem counted_empty {i : Nat} (h : a.disk.content i = []) : a.counted i = 0 := by
  rw [counted]
  split
  · rfl
  · rw [h, List.length_nil]

theorem counted_le (i : Nat) : a.counted i ≤ (a.disk.content i).length := by
  rw [counted]
  split
  · exact Nat.zero_le _
  · exact Nat.le_refl _

theorem counted_congr {i : Nat} (hMade : a'.Pending i ↔ a.Pending i) (hContent : a'.disk.content i = a.disk.content i) :
    a'.counted i = a.counted i := by
  by_cases h : a.Pending i
  · rw [counted_pending h, counted_pending (hMade.mpr h)]
  · rw [counted_recorded h, counted_recorded fun h' => h (hMade.mp h'), hContent]

theorem pending_congr {i : Nat} (hMade : a'.made = a.made) : a'.Pending i ↔
    a.Pending i := by rw [Pending, Pending, hMade]

theorem sum_le_sum {l : List (Word × Nat)} {f g : Nat → Nat} (h : ∀ e ∈ l, f e.2 ≤ g e.2) :
    (l.map fun e => f e.2).sum ≤ (l.map fun e => g e.2).sum := by
  induction l with
  | nil => exact Nat.le_refl _
  | cons e es ih =>
    simp only [List.map_cons, List.sum_cons]
    exact Nat.add_le_add (h e List.mem_cons_self) (ih fun e he => h e (List.mem_cons_of_mem _ he))

theorem sum_congr {l : List (Word × Nat)} {f g : Nat → Nat} (h : ∀ e ∈ l, f e.2 = g e.2) :
    (l.map fun e => f e.2).sum = (l.map fun e => g e.2).sum :=
  congrArg List.sum (List.map_congr_left h)

/-- Where only one file counts differently. -/
theorem sum_of_one {l : List (Word × Nat)} (hNodup : (l.map Prod.snd).Nodup) {e : Word × Nat} (he : e ∈ l)
    {f g : Nat → Nat}
    (hOther : ∀ i, i ≠ e.2 → g i = f i) :
    (l.map fun e => g e.2).sum + f e.2 = (l.map fun e => f e.2).sum + g e.2 := by
  induction l with
  | nil => cases he
  | cons d ds ih =>
    rw [List.map_cons, List.nodup_cons] at hNodup
    simp only [List.map_cons, List.sum_cons]
    rcases List.mem_cons.mp he with rfl | he
    · have hRest : (ds.map fun e => g e.2).sum = (ds.map fun e => f e.2).sum :=
        sum_congr fun d hd => hOther d.2 fun hSame => hNodup.1 (hSame ▸ List.mem_map_of_mem hd)
      omega
    · have hRest := ih hNodup.2 he
      have hHead : g d.2 = f d.2 := hOther d.2 fun hSame => hNodup.1 (hSame ▸ List.mem_map_of_mem he)
      omega

/-- Without one of the names. -/
theorem sum_without {l : List (Word × Nat)} (hNodup : (l.map Prod.fst).Nodup) {e : Word × Nat} (he : e ∈ l)
    (f : Nat → Nat) :
    ((l.filter fun d => d.1 ≠ e.1).map fun e => f e.2).sum + f e.2 = (l.map fun e => f e.2).sum := by
  induction l with
  | nil => cases he
  | cons d ds ih =>
    rw [List.map_cons, List.nodup_cons] at hNodup
    rcases List.mem_cons.mp he with rfl | he
    · have hAll : ds.filter (fun d => d.1 ≠ e.1) = ds := by
        apply List.filter_eq_self.mpr
        intro d hd
        have hNe : d.1 ≠ e.1 := fun hSame => hNodup.1 (hSame ▸ List.mem_map_of_mem hd)
        simpa using hNe
      rw [List.filter_cons_of_neg (by simp), hAll, List.map_cons, List.sum_cons, Nat.add_comm]
    · have hNe : d.1 ≠ e.1 := fun hSame => hNodup.1 (hSame ▸ List.mem_map_of_mem he)
      rw [List.filter_cons_of_pos (by simpa using hNe), List.map_cons, List.map_cons, List.sum_cons, List.sum_cons,
        ← ih hNodup.2 he, Nat.add_assoc]

theorem total_le : a.total ≤ a.disk.size := sum_le_sum (f := a.counted)
    (g := fun i => (a.disk.content i).length) fun e _ => counted_le e.2

theorem total_congr (hEntries : a'.disk.entries = a.disk.entries)
    (h : ∀ e ∈ a.disk.entries, a'.counted e.2 = a.counted e.2) :
    a'.total = a.total := by
  rw [total, total, hEntries]
  exact sum_congr h

/-! ## The books -/

structure Books (a : Accounts Pid) : Prop where
  /-- What is pending has its name, and its maker has it locked or the info file. -/
  named : ∀ q t i, a.made q = some (t, i) →
    (t, i) ∈ a.disk.entries ∧ ((∃ u, (a.disk.locks i).Holds q u) ∨ a.disk.infoLocks.Holds q .write)
  single : ∀ q r t u i, a.made q = some (t, i) → a.made r = some (u, i) → q = r
  right : a.busy = none → a.disk.info = a.total
  bounded : a.disk.size < ulonglong
  infoBounded : a.disk.info < ulonglong

/-- What a step of a process leaves to the others. -/
structure Leaves (p : Pid) (a a' : Accounts Pid) : Prop where
  steps : Steps p a.disk a'.disk
  made : ∀ q, q ≠ p → a'.made q = a.made q
  busy : a'.busy = a.busy ∨ ((a.busy = none ∨ a.busy = some p) ∧ (a'.busy = none ∨ a'.busy = some p))
  content : ∀ i, a'.disk.content i = a.disk.content i ∨ ∃ t, a.made p = some (t, i)
  total : a.busy ≠ some p → a'.total = a.total ∧ a'.disk.info = a.disk.info
  counted : a.busy ≠ some p → ∀ e ∈ a.disk.entries, a'.counted e.2 = a.counted e.2

theorem Leaves.refl (p : Pid) (a : Accounts Pid) : Leaves p a a :=
  ⟨.refl p a.disk, fun _ _ => rfl, .inl rfl, fun _ => .inl rfl, fun _ => ⟨rfl, rfl⟩, fun _ _ _ => rfl⟩

/-- The accounts after a step that files nothing: the files are the same, and nobody else is at work. -/
def next (a : Accounts Pid) (disk : CacheDisk Pid) (busy : Option Pid) : Accounts Pid := ⟨disk, a.made, busy⟩

theorem next_counted {disk : CacheDisk Pid} {busy : Option Pid} {i : Nat}
    (hContent : disk.content i = a.disk.content i) :
    (a.next disk busy).counted i = a.counted i := counted_congr Iff.rfl hContent

/-- A step that is only about locks. -/
structure Quiet (s s' : CacheDisk Pid) : Prop where
  entries : s'.entries = s.entries
  content : s'.content = s.content
  info : s'.info = s.info

theorem Quiet.total {disk : CacheDisk Pid} {busy : Option Pid} (h : Quiet a.disk disk) :
    (a.next disk busy).total = a.total :=
  total_congr h.entries fun e _ => next_counted (congrFun h.content e.2)

theorem Quiet.leaves {p : Pid} {disk : CacheDisk Pid} {busy : Option Pid} (h : Quiet a.disk disk)
    (hSteps : Steps p a.disk disk)
    (hBusy : busy = a.busy ∨ ((a.busy = none ∨ a.busy = some p) ∧ (busy = none ∨ busy = some p))) :
    Leaves p a (a.next disk busy) where
  steps := hSteps
  made _ _ := rfl
  busy := hBusy
  content i := .inl (congrFun h.content i)
  total _ := ⟨h.total, h.info⟩
  counted _ e _ := next_counted (congrFun h.content e.2)

theorem Quiet.books {p : Pid} {disk : CacheDisk Pid} {busy : Option Pid} (h : Quiet a.disk disk)
    (hSteps : Steps p a.disk disk)
    (hBooks : Books a)
    (hMade : ∀ t i, a.made p = some (t, i) → (∃ u, (disk.locks i).Holds p u) ∨ disk.infoLocks.Holds p .write)
    (hRight : busy = none → a.disk.info = a.total) : Books (a.next disk busy) where
  named q t i hq := by
    obtain ⟨hEntry, hHolds⟩ := hBooks.named q t i hq
    refine ⟨by rw [next, h.entries]; exact hEntry, ?_⟩
    rcases eq_or_ne q p with rfl | hNot
    · exact hMade t i hq
    · rcases hHolds with ⟨u, hu⟩ | hInfo
      · exact .inl ⟨u, (hSteps.locks i q u hNot).mpr hu⟩
      · exact .inr ((hSteps.infoLocks q _ hNot).mpr hInfo)
  single := hBooks.single
  right hNone := by
    rw [h.total]
    exact h.info.trans (hRight hNone)
  bounded := by
    have hSame : disk.size = a.disk.size := by rw [CacheDisk.size, h.entries, h.content, CacheDisk.size]
    exact hSame ▸ hBooks.bounded
  infoBounded := by
    change disk.info < ulonglong
    rw [h.info]
    exact hBooks.infoBounded

/-! ## The steps that file something -/

theorem writeInfo_steps (p : Pid) (s : CacheDisk Pid) (n : Nat) : Steps p s { s with info := n } :=
  ⟨fun _ _ _ => Iff.rfl, fun _ _ _ _ => Iff.rfl, .inl rfl, fun _ he => .inl he, fun _ => .inl rfl⟩

section
variable [DecidableEq Pid] {p : Pid} {disk : CacheDisk Pid}

/-- The accounts with another entry for the process. -/
def noting (a : Accounts Pid) (p : Pid) (file : Option (Word × Nat)) (disk : CacheDisk Pid) (busy : Option Pid) :
    Accounts Pid :=
  ⟨disk, Function.update a.made p file, busy⟩

variable {busy : Option Pid} {file : Option (Word × Nat)}

@[simp] theorem noting_self : (a.noting p file disk busy).made p = file := Function.update_self ..

theorem noting_of_ne {q : Pid} (hNot : q ≠ p) : (a.noting p file disk busy).made q = a.made q :=
    Function.update_of_ne hNot ..

/-- Other files are pending as before. -/
theorem noting_pending {i : Nat} (hOld : ∀ t, a.made p ≠ some (t, i)) (hNew : ∀ t, file ≠ some (t, i)) :
    (a.noting p file disk busy).Pending i ↔ a.Pending i := by
  constructor
  · rintro ⟨q, t, hq⟩
    rcases eq_or_ne q p with rfl | hNot
    · rw [noting_self] at hq
      exact absurd hq (hNew t)
    · rw [noting_of_ne hNot] at hq
      exact ⟨q, t, hq⟩
  · rintro ⟨q, t, hq⟩
    rcases eq_or_ne q p with rfl | hNot
    · exact absurd hq (hOld t)
    · exact ⟨q, t, by rw [noting_of_ne hNot]; exact hq⟩

theorem noting_single (hBooks : Books a) (hNew : ∀ t i, file = some (t, i) → ¬ a.Pending i) {q r : Pid} {t u : Word}
    {i : Nat}
    (hq : (a.noting p file disk busy).made q = some (t, i)) (hr : (a.noting p file disk busy).made r = some (u, i)) :
      q = r := by
  rcases eq_or_ne q p with hqp | hqp <;> rcases eq_or_ne r p with hrp | hrp
  · rw [hqp, hrp]
  · rw [hqp, noting_self] at hq
    rw [noting_of_ne hrp] at hr
    exact absurd ⟨r, u, hr⟩ (hNew t i hq)
  · rw [noting_of_ne hqp] at hq
    rw [hrp, noting_self] at hr
    exact absurd ⟨q, t, hq⟩ (hNew u i hr)
  · rw [noting_of_ne hqp] at hq
    rw [noting_of_ne hrp] at hr
    exact hBooks.single q r t u i hq hr

omit [DecidableEq Pid] in
/-- What is pending with another process stays as it was. -/
theorem Books.named_of_ne (hBooks : Books a) (hSteps : Steps p a.disk disk) {q : Pid} (hNot : q ≠ p) {t : Word}
    {i : Nat}
    (hq : a.made q = some (t, i)) (hKept : (t, i) ∈ a.disk.entries → (t, i) ∈ disk.entries) :
    (t, i) ∈ disk.entries ∧ ((∃ u, (disk.locks i).Holds q u) ∨ disk.infoLocks.Holds q .write) := by
  obtain ⟨hEntry, hHolds⟩ := hBooks.named q t i hq
  refine ⟨hKept hEntry, ?_⟩
  rcases hHolds with ⟨u, hu⟩ | hInfo
  · exact .inl ⟨u, (hSteps.locks i q u hNot).mpr hu⟩
  · exact .inr ((hSteps.infoLocks q _ hNot).mpr hInfo)

/-- A new file. -/
theorem Books.created (hBooks : Books a) {name : Word} (hNone : a.disk.find name = none) (hMade : a.made p = none)
    (hInfo : a.disk.infoLocks.Holds p .write) (hSteps : Steps p a.disk (a.disk.created name hNone)) :
    Books (a.noting p (some (name, a.disk.next)) (a.disk.created name hNone) a.busy) ∧
      Leaves p a (a.noting p (some (name, a.disk.next)) (a.disk.created name hNone) a.busy) := by
  have hFresh : ¬ a.Pending a.disk.next := by
    rintro ⟨q, t, hq⟩
    exact absurd (a.disk.born _ (hBooks.named q t _ hq).1) (Nat.lt_irrefl _)
  have hCounted : ∀ e ∈ a.disk.entries,
      (a.noting p (some (name, a.disk.next)) (a.disk.created name hNone) a.busy).counted e.2 = a.counted e.2 := by
    intro e he
    have hLt := a.disk.born e he
    refine counted_congr (noting_pending (by simp [hMade]) ?_) rfl
    intro t hSame
    have hNext : a.disk.next = e.2 := (Prod.mk.inj (Option.some.inj hSame)).2
    omega
  have hTotal : (a.noting p (some (name, a.disk.next)) (a.disk.created name hNone) a.busy).total = a.total := by
    have hNew : (a.noting p (some (name, a.disk.next)) (a.disk.created name hNone) a.busy).counted a.disk.next = 0 :=
      counted_pending ⟨p, name, noting_self⟩
    change ((a.disk.entries.map fun e => Accounts.counted _ e.2).cons _).sum = _
    rw [List.sum_cons]
    simp only [hNew, Nat.zero_add]
    exact sum_congr hCounted
  refine ⟨⟨?_, ?_, ?_, ?_, hBooks.infoBounded⟩, ⟨hSteps, fun q hNot => noting_of_ne hNot, .inl rfl, fun _ => .inl rfl,
    fun _ => ⟨hTotal, rfl⟩, fun _ => hCounted⟩⟩
  · intro q t i hq
    rcases eq_or_ne q p with rfl | hNot
    · rw [noting_self] at hq
      cases hq
      exact ⟨List.mem_cons_self, .inr hInfo⟩
    · rw [noting_of_ne hNot] at hq
      exact hBooks.named_of_ne hSteps hNot hq (List.mem_cons_of_mem _)
  · intro q r t u i hq hr
    exact noting_single hBooks (by rintro _ _ ⟨⟩; exact hFresh) hq hr
  · intro hBusy
    rw [hTotal]
    exact hBooks.right hBusy
  · have hSize : (a.disk.created name hNone).size = a.disk.size := by
      have hEmpty := (a.disk.unborn a.disk.next (Nat.le_refl _)).1
      change ((a.disk.entries.map fun e => (a.disk.content e.2).length).cons (a.disk.content a.disk.next).length).sum =
        _
      rw [List.sum_cons, hEmpty, List.length_nil, Nat.zero_add]
      rfl
    exact hSize ▸ hBooks.bounded

omit [DecidableEq Pid] in
/-- More data in a file that is not counted yet. -/
theorem Books.appended (hBooks : Books a) {t : Word} {fd : Nat} (hMade : a.made p = some (t, fd)) {data : Bytes}
    (hBound : a.disk.size + data.length < ulonglong) (hFd : fd < a.disk.next)
    (hSteps : Steps p a.disk (a.disk.append fd data hFd)) :
    Books (a.next (a.disk.append fd data hFd) a.busy) ∧ Leaves p a (a.next (a.disk.append fd data hFd) a.busy) := by
  have hOther : ∀ i, i ≠ fd → (a.disk.append fd data hFd).content i = a.disk.content i :=
    fun i hi => Function.update_of_ne hi ..
  have hCounted : ∀ i, (a.next (a.disk.append fd data hFd) a.busy).counted i = a.counted i := by
    intro i
    rcases eq_or_ne i fd with rfl | hi
    · rw [counted_pending (a := a) ⟨p, t, hMade⟩]
      exact counted_pending ⟨p, t, hMade⟩
    · exact next_counted (hOther i hi)
  have hTotal : (a.next (a.disk.append fd data hFd) a.busy).total = a.total :=
    total_congr rfl fun e _ => hCounted e.2
  refine ⟨⟨?_, hBooks.single, ?_, ?_, hBooks.infoBounded⟩,
    ⟨hSteps, fun _ _ => rfl, .inl rfl, ?_, fun _ => ⟨hTotal, rfl⟩,
    fun _ e _ => hCounted e.2⟩⟩
  · exact hBooks.named
  · intro hBusy
    rw [hTotal]
    exact hBooks.right hBusy
  · have hEntry := (hBooks.named p t fd hMade).1
    have hSum := sum_of_one a.disk.inodes hEntry (f := fun i => (a.disk.content i).length)
      (g := fun i => ((a.disk.append fd data hFd).content i).length) fun i hi => by rw [hOther i hi]
    have hSelf : (a.disk.append fd data hFd).content fd = a.disk.content fd ++ data := Function.update_self ..
    simp only [hSelf, List.length_append] at hSum
    change (a.disk.entries.map fun e => ((a.disk.append fd data hFd).content e.2).length).sum < ulonglong
    simp only [CacheDisk.size] at hBound
    omega
  · intro i
    rcases eq_or_ne i fd with rfl | hi
    · exact .inr ⟨t, hMade⟩
    · exact .inl (hOther i hi)

/-- A file that is empty need not be noted any more. -/
theorem Books.dropped (hBooks : Books a) {t : Word} {i : Nat} (hMade : a.made p = some (t, i))
    (hEmpty : a.disk.content i = [])
    (hQuiet : Quiet a.disk disk) (hSteps : Steps p a.disk disk) :
    Books (a.noting p none disk a.busy) ∧ Leaves p a (a.noting p none disk a.busy) := by
  have hCounted : ∀ j, (a.noting p none disk a.busy).counted j = a.counted j := by
    intro j
    rcases eq_or_ne j i with rfl | hj
    · rw [counted_empty hEmpty]
      apply counted_empty
      change disk.content j = []
      rw [hQuiet.content, hEmpty]
    · refine counted_congr (noting_pending ?_ (by simp)) (congrFun hQuiet.content j)
      intro u hu
      rw [hMade] at hu
      cases hu
      exact hj rfl
  have hTotal : (a.noting p none disk a.busy).total = a.total := total_congr hQuiet.entries fun e _ => hCounted e.2
  refine ⟨⟨?_, ?_, ?_, ?_, ?_⟩, ⟨hSteps, fun q hNot => noting_of_ne hNot, .inl rfl,
    fun j => .inl (congrFun hQuiet.content j),
    fun _ => ⟨hTotal, hQuiet.info⟩, fun _ e _ => hCounted e.2⟩⟩
  · intro q u j hq
    rcases eq_or_ne q p with rfl | hNot
    · rw [noting_self] at hq
      cases hq
    · rw [noting_of_ne hNot] at hq
      exact hBooks.named_of_ne hSteps hNot hq fun he => by rw [hQuiet.entries]; exact he
  · intro q r u v j hq hr
    exact noting_single hBooks (by rintro _ _ ⟨⟩) hq hr
  · intro hBusy
    rw [hTotal]
    exact hQuiet.info.trans (hBooks.right hBusy)
  · have hSame : disk.size = a.disk.size := by rw [CacheDisk.size, hQuiet.entries, hQuiet.content, CacheDisk.size]
    exact hSame ▸ hBooks.bounded
  · change disk.info < ulonglong
    rw [hQuiet.info]
    exact hBooks.infoBounded

/-- The size of a new file is recorded. -/
theorem Books.recorded (hBooks : Books a) {t : Word} {i : Nat} (hMade : a.made p = some (t, i))
    (hBusy : a.busy = some p) :
    Books (a.noting p none { a.disk with info := a.total + (a.disk.content i).length } none) ∧
      Leaves p a (a.noting p none { a.disk with info := a.total + (a.disk.content i).length } none) := by
  have hEntry := (hBooks.named p t i hMade).1
  have hGone : ¬ (a.noting p none { a.disk with info := a.total + (a.disk.content i).length } none).Pending i := by
    rintro ⟨q, u, hq⟩
    rcases eq_or_ne q p with rfl | hNot
    · rw [noting_self] at hq
      cases hq
    · rw [noting_of_ne hNot] at hq
      exact hNot (hBooks.single q p u t i hq hMade)
  have hTotal : (a.noting p none { a.disk with info := a.total + (a.disk.content i).length } none).total =
      a.total + (a.disk.content i).length := by
    have hSum := sum_of_one a.disk.inodes hEntry (f := a.counted)
      (g := (a.noting p none { a.disk with info := a.total + (a.disk.content i).length } none).counted) fun j hj => by
        refine counted_congr (noting_pending ?_ (by simp)) rfl
        intro u hu
        rw [hMade] at hu
        cases hu
        exact hj rfl
    rw [counted_pending (a := a) ⟨p, t, hMade⟩, counted_recorded hGone] at hSum
    exact hSum
  have hLe : a.total + (a.disk.content i).length ≤ a.disk.size := by
    rw [← hTotal]
    exact total_le
  refine ⟨⟨?_, ?_, fun _ => hTotal.symm, hBooks.bounded, Nat.lt_of_le_of_lt hLe hBooks.bounded⟩,
    ⟨writeInfo_steps p a.disk _, fun q hNot => noting_of_ne hNot, .inr ⟨.inr hBusy, .inl rfl⟩, fun _ => .inl rfl,
      fun hNot => absurd hBusy hNot, fun hNot => absurd hBusy hNot⟩⟩
  · intro q u j hq
    rcases eq_or_ne q p with rfl | hNot
    · rw [noting_self] at hq
      cases hq
    · rw [noting_of_ne hNot] at hq
      exact hBooks.named q u j hq
  · intro q r u v j hq hr
    exact noting_single hBooks (by rintro _ _ ⟨⟩) hq hr

omit [DecidableEq Pid] in
/-- The right size is recorded. -/
theorem Books.corrected (hBooks : Books a) (hBusy : a.busy = some p) :
    Books (a.next { a.disk with info := a.total } none) ∧ Leaves p a (a.next { a.disk with info := a.total } none) :=
  ⟨⟨hBooks.named, hBooks.single, fun _ => rfl, hBooks.bounded, Nat.lt_of_le_of_lt total_le hBooks.bounded⟩,
    ⟨writeInfo_steps p a.disk _, fun _ _ => rfl, .inr ⟨.inr hBusy, .inl rfl⟩, fun _ => .inl rfl,
      fun hNot => absurd hBusy hNot, fun hNot => absurd hBusy hNot⟩⟩

omit [DecidableEq Pid] in
/-- A file goes that the process has for itself. -/
theorem Books.removed (hBooks : Books a) {name : Word} {fd : Nat} (hEntry : (name, fd) ∈ a.disk.entries)
    (hInfo : a.disk.infoLocks.Holds p .write) (hHolds : (a.disk.locks fd).Holds p .write) (hMade : a.made p = none)
    (hBusy : a.busy = some p) (hSteps : Steps p a.disk (a.disk.without name)) :
    Books (a.next (a.disk.without name) a.busy) ∧ Leaves p a (a.next (a.disk.without name) a.busy) ∧
      (a.next (a.disk.without name) a.busy).total + (a.disk.content fd).length = a.total ∧
      a.counted fd = (a.disk.content fd).length := by
  have hMine : ¬ a.Pending fd := by
    rintro ⟨q, t, hq⟩
    have hSame : q = p := by
      rcases (hBooks.named q t fd hq).2 with ⟨u, hu⟩ | hOther
      · exact hHolds.alone hu
      · exact hInfo.alone hOther
    rw [hSame, hMade] at hq
    cases hq
  have hCounted : a.counted fd = (a.disk.content fd).length := counted_recorded hMine
  have hTotal : (a.next (a.disk.without name) a.busy).total + a.counted fd = a.total :=
    sum_without a.disk.names hEntry a.counted
  refine ⟨⟨?_, hBooks.single, ?_, ?_, hBooks.infoBounded⟩, ⟨hSteps, fun _ _ => rfl, .inl rfl, fun _ => .inl rfl,
    fun hNot => absurd hBusy hNot, fun hNot => absurd hBusy hNot⟩, by rw [← hCounted]; exact hTotal, hCounted⟩
  · intro q t i hq
    obtain ⟨hNamed, hLocked⟩ := hBooks.named q t i hq
    refine ⟨List.mem_filter.mpr ⟨hNamed, ?_⟩, hLocked⟩
    have hNe : t ≠ name := by
      rintro rfl
      rw [entry_inode hNamed hEntry] at hq
      exact hMine ⟨q, t, hq⟩
    simpa using hNe
  · intro hNone
    rw [show (a.next (a.disk.without name) a.busy).busy = a.busy from rfl, hBusy] at hNone
    cases hNone
  · have hLe : (a.disk.without name).size ≤ a.disk.size :=
      Nat.le.intro (sum_without a.disk.names hEntry fun i => (a.disk.content i).length)
    exact Nat.lt_of_le_of_lt hLe hBooks.bounded

end

/-! ## States of a process -/

/-- Nothing of the process is pending, and it is not at work on the size. -/
structure Idle (p : Pid) (a : Accounts Pid) : Prop where
  made : a.made p = none
  busy : a.busy ≠ some p

/-- It has the info file locked for work on the size, which is right so far. -/
structure Correct (p : Pid) (file : Option (Word × Nat)) (a : Accounts Pid) : Prop where
  made : a.made p = file
  busy : a.busy = some p
  locked : a.disk.infoLocks.Holds p .write
  right : a.disk.info = a.total

/-- What the handlers of exceptions find. -/
structure Settled (p : Pid) (a : Accounts Pid) : Prop where
  made : a.made p = none
  right : a.busy = some p → a.disk.infoLocks.Holds p .write ∧ a.disk.info = a.total

theorem Idle.settled {p : Pid} {a : Accounts Pid} (h : Idle p a) : Settled p a :=
    ⟨h.made, fun hBusy => absurd hBusy h.busy⟩

theorem Correct.settled {p : Pid} {a : Accounts Pid} (h : Correct p none a) : Settled p a :=
  ⟨h.made, fun _ => ⟨h.locked, h.right⟩⟩

/-! ## What the others leave -/

section
variable {p q : Pid} {a a' : Accounts Pid} (h : Leaves q a a') (hNot : q ≠ p)
include h hNot

theorem Leaves.made_eq : a'.made p = a.made p := h.made p hNot.symm

theorem Leaves.busy_eq (hBusy : a.busy = some p) : a'.busy = some p := by
  rcases h.busy with hSame | ⟨hNone | hOther, -⟩
  · exact hSame.trans hBusy
  · rw [hBusy] at hNone
    cases hNone
  · rw [hBusy] at hOther
    exact absurd (Option.some.inj hOther).symm hNot

theorem Leaves.notBusy (hBusy : a.busy ≠ some p) : a'.busy ≠ some p := by
  rcases h.busy with hSame | ⟨-, hNone | hOther⟩
  · rwa [hSame]
  · rw [hNone]
    exact (Option.some_ne_none p).symm
  · rw [hOther]
    exact fun hSame => hNot (Option.some.inj hSame)

theorem Leaves.figures (hBusy : a.busy = some p) : a'.total = a.total ∧ a'.disk.info = a.disk.info := by
  apply h.total
  rw [hBusy]
  exact fun hSame => hNot (Option.some.inj hSame).symm

theorem Leaves.counted_eq (hBusy : a.busy = some p) {n : Word} {i : Nat} (hi : (n, i) ∈ a.disk.entries) :
    a'.counted i = a.counted i := by
  refine h.counted ?_ (n, i) hi
  rw [hBusy]
  exact fun hSame => hNot (Option.some.inj hSame).symm

/-- The data of the file that the process is making. -/
theorem Leaves.content_eq (hBooks : Books a) {t : Word} {i : Nat} (hMade : a.made p = some (t, i)) :
    a'.disk.content i = a.disk.content i := by
  rcases h.content i with hSame | ⟨u, hu⟩
  · exact hSame
  · exact absurd (hBooks.single q p u t i hu hMade) hNot

theorem Leaves.idle (hIdle : Idle p a) : Idle p a' := ⟨(h.made_eq hNot).trans hIdle.made, h.notBusy hNot hIdle.busy⟩

theorem Leaves.correct {file : Option (Word × Nat)} (hCorrect : Correct p file a) : Correct p file a' where
  made := (h.made_eq hNot).trans hCorrect.made
  busy := h.busy_eq hNot hCorrect.busy
  locked := h.steps.holdsInfo hNot hCorrect.locked
  right := by
    obtain ⟨hTotal, hInfo⟩ := h.figures hNot hCorrect.busy
    rw [hTotal, hInfo, hCorrect.right]

theorem Leaves.settled (hSettled : Settled p a) : Settled p a' := by
  refine ⟨(h.made_eq hNot).trans hSettled.made, fun hBusy => ?_⟩
  have hBefore : a.busy = some p := by
    by_contra hIdle
    exact h.notBusy hNot hIdle hBusy
  obtain ⟨hLocked, hRight⟩ := hSettled.right hBefore
  obtain ⟨hTotal, hInfo⟩ := h.figures hNot hBefore
  exact ⟨h.steps.holdsInfo hNot hLocked, by rw [hTotal, hInfo, hRight]⟩

end


end Accounts

end Libdap.Cache
