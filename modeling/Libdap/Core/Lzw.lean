import Libdap.Core.Bytes

/-! # LZW codes

What a sequence of codes denotes, by a dictionary of strings that gets an entry with every code but the first: the
string before, and the first byte of this one. The codes are packed into bytes with the width that the dictionary asks
for, eight of them to a group, and a new group starts where the width changes and after a clear code.
-/

namespace Libdap.Core.Lzw
set_option autoImplicit false

/-- The first code of an entry, whether the code 256 clears the dictionary, and the width that codes grow to. -/
structure Format where
  first : Nat
  clears : Bool
  maxbits : Nat

/-- The entries, and the string of the last code since the dictionary was empty. -/
structure Dict where
  entries : List Bytes
  prev : Option Bytes

/-! ## Strings -/

namespace Dict

def empty : Dict := ⟨[], none⟩

/-- The code of the next entry. -/
def free (f : Format) (d : Dict) : Nat := f.first + d.entries.length

def lookup (f : Format) (d : Dict) (code : Nat) : Option Bytes :=
  if code < 256 then some [UInt8.ofNat code] else if f.first ≤ code then d.entries[code - f.first]? else none

/-- The string of a code; the code of the next entry has the string that this entry will get. -/
def stringOf (f : Format) (d : Dict) (code : Nat) : Option Bytes :=
  match d.prev with
  | none => d.lookup f code
  | some w => if code = d.free f ∧ d.free f < 2 ^ f.maxbits then some (w ++ [w.headD 0]) else d.lookup f code

/-- The dictionary after a code with the string `s`: it gets no more entries when it is full. -/
def add (f : Format) (s : Bytes) (d : Dict) : Dict :=
  match d.prev with
  | none => ⟨d.entries, some s⟩
  | some w => ⟨if d.free f < 2 ^ f.maxbits then d.entries ++ [w ++ [s.headD 0]] else d.entries, some s⟩

end Dict

namespace Format

variable (f : Format)

def isClear (code : Nat) : Bool := f.clears && code == 256

/-- One code: the dictionary after it and what it denotes. -/
def read (d : Dict) (code : Nat) : Option (Dict × Bytes) :=
  if f.isClear code then some (.empty, []) else (d.stringOf f code).map fun s => (d.add f s, s)

/-- The dictionary after the codes, and what they denote together. -/
def readAll : Dict → List Nat → Option (Dict × Bytes)
  | d, [] => some (d, [])
  | d, code :: codes =>
    match f.read d code with
    | none => none
    | some (d', s) => (readAll d' codes).map fun last => (last.1, s ++ last.2)

theorem readAll_append (d : Dict) (codes more : List Nat) :
    f.readAll d (codes ++ more) =
      (f.readAll d codes).bind fun first => (f.readAll first.1 more).map fun last => (last.1, first.2 ++ last.2) := by
  induction codes generalizing d with
  | nil => simp [readAll]
  | cons code codes ih =>
    rw [List.cons_append, readAll, readAll]
    cases f.read d code with
    | none => rfl
    | some found =>
      obtain ⟨d', s⟩ := found
      dsimp only
      rw [ih]
      cases f.readAll d' codes with
      | none => rfl
      | some first =>
        simp only [Option.map_some, Option.bind_some, Option.map_map]
        congr 1
        funext last
        simp only [Function.comp_apply, List.append_assoc]

/-- What a sequence of codes denotes. A sequence does not start with a clear code. -/
def denote (codes : List Nat) : Option Bytes :=
  if codes.head?.any f.isClear then none else (f.readAll .empty codes).map Prod.snd

/-- The dictionary is not full when a code is read. -/
def Roomy : Dict → List Nat → Prop
  | _, [] => True
  | d, code :: codes => d.free f < 2 ^ f.maxbits ∧ ∀ d' s, f.read d code = some (d', s) → Roomy d' codes

/-! ## Bits -/

/-- The width of the next code. -/
def width (d : Dict) : Nat := min f.maxbits (max 9 (Nat.log2 (d.free f) + 1))

end Format

/-- The byte where the present groups start, and how many codes were read since. -/
structure Place where
  start : Nat
  index : Nat

namespace Place

def bit (n : Nat) (p : Place) : Nat := 8 * p.start + p.index * n

def next (p : Place) : Place := ⟨p.start, p.index + 1⟩

/-- The end of the group. -/
def skip (n : Nat) (p : Place) : Place := ⟨p.start + n * ((p.index + 7) / 8), 0⟩

/-- The place of the next code, which has the width `m` where the last one had `n`. -/
def forWidth (n m : Nat) (p : Place) : Place := if m = n then p else p.skip n

theorem next_bit (n : Nat) (p : Place) : p.next.bit n = p.bit n + n := by
  simp only [bit, next]
  ring

theorem bit_le_skip (n m : Nat) (p : Place) : p.bit n ≤ (p.skip n).bit m := by
  simp only [bit, skip, Nat.zero_mul, Nat.add_zero]
  have hGroup : p.index * n ≤ 8 * (n * ((p.index + 7) / 8)) := by
    calc p.index * n ≤ (8 * ((p.index + 7) / 8)) * n := Nat.mul_le_mul_right n (by omega)
      _ = 8 * (n * ((p.index + 7) / 8)) := by ring
  omega

end Place

namespace Format

/-- The place after a code of the width `n`. -/
def after (f : Format) (n code : Nat) (p : Place) : Place := if f.isClear code then p.next.skip n else p.next

/-- The file holds the codes from the place `p` on, where the last code had the width `n`, and then less than a byte. -/
def Packed (f : Format) (file : Bytes) : Nat → Place → Dict → List Nat → Prop
  | n, p, d, [] => 8 * file.length < (p.forWidth n (f.width d)).bit (f.width d) + 8
  | n, p, d, code :: codes =>
    (p.forWidth n (f.width d)).bit (f.width d) + f.width d ≤ 8 * file.length ∧
      codeAt file ((p.forWidth n (f.width d)).bit (f.width d)) (f.width d) = code ∧
      ∀ d' s, f.read d code = some (d', s) →
        Packed f file (if f.isClear code then f.width d' else f.width d)
          (f.after (f.width d) code (p.forWidth n (f.width d))) d' codes

end Format

/-! ## Widths -/

/-- The widths that go with a number of codes: the last one, and the next. -/
structure Fits (maxbits free n : Nat) : Prop where
  low : 9 ≤ n
  high : n ≤ maxbits
  most : free ≤ 2 ^ n
  least : n = 9 ∨ 2 ^ (n - 1) ≤ free

section
variable {f : Format} {d : Dict} {n : Nat}

theorem Fits.width_same (h : Fits f.maxbits (d.free f) n) (hRoom : d.free f < 2 ^ n ∨ n = f.maxbits) :
    f.width d = n := by
  have hLow := h.low
  have hHigh := h.high
  rw [Format.width]
  have hLeast : n ≤ max 9 (Nat.log2 (d.free f) + 1) := by
    rcases h.least with hNine | hPow
    · omega
    · have hPos : 0 < 2 ^ (n - 1) := Nat.two_pow_pos _
      have hLog := (Nat.le_log2 (by omega)).mpr hPow
      omega
  rcases hRoom with hLess | hTop
  · have hLog : Nat.log2 (d.free f) < n := by
      rcases Nat.eq_zero_or_pos (d.free f) with hZero | hPos
      · rw [hZero, Nat.log2_zero]
        omega
      · exact (Nat.log2_lt (by omega)).mpr hLess
    omega
  · omega

theorem Fits.width_next (h : Fits f.maxbits (d.free f) n) (hFull : d.free f = 2 ^ n) (hBits : n < f.maxbits) :
    f.width d = n + 1 := by
  have hLow := h.low
  rw [Format.width, hFull, Nat.log2_two_pow]
  omega

theorem Fits.widen {maxbits free : Nat} (h : Fits maxbits free n) (hFull : free = 2 ^ n) (hBits : n < maxbits) :
    Fits maxbits free (n + 1) where
  low := Nat.le_succ_of_le h.low
  high := hBits
  most := hFull.le.trans (Nat.pow_le_pow_right (by decide) (Nat.le_succ n))
  least := .inr hFull.ge

theorem Fits.empty {maxbits first : Nat} (hNine : 9 ≤ maxbits) (hFirst : 0 < first ∧ first ≤ 512) :
    Fits maxbits first 9 :=
  ⟨Nat.le_refl 9, hNine, hFirst.2, .inl rfl⟩

theorem Dict.add_free {s : Bytes} :
    d.free f ≤ (d.add f s).free f ∧ (d.add f s).free f ≤ d.free f + 1 ∧
      (2 ^ f.maxbits ≤ d.free f → (d.add f s).free f = d.free f) := by
  rw [Dict.add]
  split
  · exact ⟨Nat.le_refl _, Nat.le_succ _, fun _ => rfl⟩
  · by_cases hRoom : d.free f < 2 ^ f.maxbits
    · rw [if_pos hRoom]
      simp only [Dict.free, List.length_append, List.length_singleton] at hRoom ⊢
      exact ⟨by omega, by omega, fun hFull => by omega⟩
    · rw [if_neg hRoom]
      exact ⟨Nat.le_refl _, Nat.le_succ _, fun _ => rfl⟩

/-- The entry that a code makes goes with the width of the code. -/
theorem Fits.add (h : Fits f.maxbits (d.free f) n) (hRoom : d.free f < 2 ^ n ∨ n = f.maxbits) (s : Bytes) :
    Fits f.maxbits ((d.add f s).free f) n := by
  obtain ⟨hMore, hOne, hFull⟩ := Dict.add_free (f := f) (d := d) (s := s)
  refine ⟨h.low, h.high, ?_, h.least.imp_right fun hPow => hPow.trans hMore⟩
  rcases hRoom with hLess | hTop
  · omega
  · have hMost := h.most
    rw [hTop] at hMost ⊢
    by_cases hEnd : 2 ^ f.maxbits ≤ d.free f
    · rw [hFull hEnd]
      exact hMost
    · omega

end

end Libdap.Core.Lzw
