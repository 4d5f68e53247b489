import Libdap.Core.Bytes

/-! # Input streams

The part of `std::istream` that the readers use: `read(p, n)` delivers exactly `n` bytes, or
everything that is left and sets the fail state; a stream in the fail state delivers nothing.
-/

namespace Libdap.Core
set_option autoImplicit false

structure IStream where
  rest : Bytes
  failed : Bool
  deriving DecidableEq, Repr

namespace IStream

def ofBytes (bs : Bytes) : IStream := ⟨bs, false⟩

def read (s : IStream) (n : Nat) : Bytes × IStream :=
  if s.failed then ([], s)
  else if n ≤ s.rest.length then (s.rest.take n, ⟨s.rest.drop n, false⟩)
  else (s.rest, ⟨[], true⟩)

/-- `read(p, n)` with the count an `int`: a negative count delivers nothing and fails. -/
def readInt (s : IStream) (n : Int) : Bytes × IStream :=
  if n < 0 then ([], { s with failed := true }) else s.read n.toNat

@[simp] theorem readInt_natCast (s : IStream) (n : Nat) : s.readInt n = s.read n := by
  rw [readInt, if_neg (by omega), Int.toNat_natCast]

@[simp] theorem read_append (bs rest : Bytes) :
    (ofBytes (bs ++ rest)).read bs.length = (bs, ofBytes rest) := by
  simp [read, ofBytes]

theorem read_append_of_length {bs rest : Bytes} {n : Nat} (h : bs.length = n) :
    (ofBytes (bs ++ rest)).read n = (bs, ofBytes rest) := by
  subst h
  exact read_append bs rest

theorem read_of_le {bs : Bytes} {n : Nat} (h : n ≤ bs.length) :
    (ofBytes bs).read n = (bs.take n, ofBytes (bs.drop n)) := by
  simp [read, ofBytes, h]

theorem read_of_lt {bs : Bytes} {n : Nat} (h : bs.length < n) :
    (ofBytes bs).read n = (bs, ⟨[], true⟩) := by
  simp [read, ofBytes, Nat.not_le.mpr h]

end IStream

end Libdap.Core

/-! ## Bytes that arrive in pieces

A read takes what has arrived, at least one byte and at most what was asked for, as long as there is any.
A reader that wants so many bytes reads again and again.
-/

namespace Libdap.Core
set_option autoImplicit false

structure Feed where
  rest : Bytes
  /-- How many bytes more than one have arrived at each of the coming reads. -/
  arrivals : Nat → Nat

namespace Feed

def read (n : Nat) (f : Feed) : Bytes × Feed :=
  (f.rest.take (min n (f.arrivals 0 + 1)),
    ⟨f.rest.drop (min n (f.arrivals 0 + 1)), fun i => f.arrivals (i + 1)⟩)

/-- Reads of at most `limit` bytes, until there are `n` or the stream has ended. -/
def readUpTo (limit : Nat) : Nat → Nat → Feed → Bytes × Feed
  | 0, _, f => ([], f)
  | _, 0, f => ([], f)
  | fuel + 1, n, f =>
    if (f.read (min n limit)).1.isEmpty then ([], (f.read (min n limit)).2)
    else
      ((f.read (min n limit)).1 ++ (readUpTo limit fuel (n - (f.read (min n limit)).1.length)
      (f.read (min n limit)).2).1,
        (readUpTo limit fuel (n - (f.read (min n limit)).1.length) (f.read (min n limit)).2).2)

theorem read_split (n : Nat) (f : Feed) : (f.read n).1 ++ (f.read n).2.rest = f.rest :=
  List.take_append_drop _ _

theorem read_length (n : Nat) (f : Feed) : (f.read n).1.length ≤ n := by
  rw [read, List.length_take]
  omega

theorem read_some {n : Nat} {f : Feed} (hn : n ≠ 0) (hRest : f.rest ≠ []) : (f.read n).1 ≠ [] := by
  have hLength := List.length_pos_iff.mpr hRest
  apply List.ne_nil_of_length_pos
  rw [read, List.length_take]
  omega

/-- However the bytes arrive, a reader that goes on gets as many as it wants. -/
theorem readUpTo_enough {limit fuel n : Nat} {f : Feed} (hLimit : limit ≠ 0) (hFuel : n ≤ fuel)
    (hRest : n ≤ f.rest.length) :
    (f.readUpTo limit fuel n).1 = f.rest.take n ∧ (f.readUpTo limit fuel n).2.rest = f.rest.drop n := by
  induction fuel generalizing n f with
  | zero =>
    obtain rfl := Nat.le_zero.mp hFuel
    exact ⟨rfl, rfl⟩
  | succ fuel ih =>
    cases n with
    | zero => exact ⟨rfl, rfl⟩
    | succ n =>
      have hNe : f.rest ≠ [] := by
        rintro hNil
        rw [hNil] at hRest
        cases hRest
      have hSome := read_some (n := min (n + 1) limit) (by omega) hNe
      have hAtMost : (f.read (min (n + 1) limit)).1.length ≤ n + 1 :=
        (read_length _ f).trans (Nat.min_le_left _ _)
      have hSplit := read_split (min (n + 1) limit) f
      have hPositive := List.length_pos_iff.mpr hSome
      have hEmpty : (f.read (min (n + 1) limit)).1.isEmpty = false := by simpa using hSome
      rw [readUpTo, if_neg (by simp [hEmpty])]
      case x_3 => exact Nat.succ_ne_zero n
      generalize hBytes : (f.read (min (n + 1) limit)).1 = bytes at *
      generalize (f.read (min (n + 1) limit)).2 = f' at *
      have hLengths := congrArg List.length hSplit
      rw [List.length_append] at hLengths
      obtain ⟨hTake, hDrop⟩ := ih (n := n + 1 - bytes.length) (f := f') (by omega) (by omega)
      constructor
      · rw [hTake, ← hSplit, List.take_append, List.take_of_length_le hAtMost]
      · rw [hDrop, ← hSplit, List.drop_append, List.drop_of_length_le hAtMost, List.nil_append]

end Feed

end Libdap.Core
