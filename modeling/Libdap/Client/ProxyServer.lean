import Mathlib.Data.List.Induction
import Libdap.Client.RCReader

/-! # The parts of a proxy server

A value is cut at the first separator of each kind, so a separator within the user's part is taken for another one.
-/

namespace Libdap.Client
open Core Constraint Http
set_option autoImplicit false

/-! ## Cuts -/

section
variable {c : Char} {s u v w sep : Word}

theorem cut_some (h : c ∉ u) (v : Word) : cut c (u ++ c :: v) = some (u, v) := by
  have hPassed : ∀ d ∈ u, decide (d ≠ c) = true := fun d hd => decide_eq_true fun hSame => h (hSame ▸ hd)
  rw [cut, if_pos (by simp), List.takeWhile_append_of_pos hPassed, List.takeWhile_cons_of_neg (by simp),
    List.append_nil,
    List.dropWhile_append_of_pos hPassed, List.dropWhile_cons_of_neg (by simp)]
  rfl

theorem cut_none (h : c ∉ s) : cut c s = none := by
  rw [cut, if_neg (by simpa using h)]

theorem behind_prefix (sep v : Word) (hSep : sep ≠ []) : behind sep (sep ++ v) = some v := by
  obtain ⟨d, ds, rfl⟩ := List.exists_cons_of_ne_nil hSep
  have hPrefix : (d :: ds).isPrefixOf (d :: (ds ++ v)) = true :=
    List.isPrefixOf_iff_prefix.mpr (List.prefix_append (d :: ds) v)
  rw [List.cons_append, behind, if_pos hPrefix, ← List.cons_append, List.drop_left]

theorem behind_some (h : behind sep s = some v) : ∃ u, s = u ++ (sep ++ v) := by
  induction s with
  | nil =>
    rw [behind] at h
    split at h
    next hSep =>
      cases h
      exact ⟨[], by rw [hSep]; rfl⟩
    next => cases h
  | cons d s ih =>
    rw [behind] at h
    split at h
    next hPrefix =>
      obtain ⟨w, hw⟩ := List.isPrefixOf_iff_prefix.mp hPrefix
      refine ⟨[], ?_⟩
      rw [← hw, List.drop_left] at h
      rw [← Option.some.inj h, hw]
      rfl
    next =>
      obtain ⟨u, rfl⟩ := ih h
      exact ⟨d :: u, rfl⟩

theorem behind_none (hSep : sep ≠ []) : behind sep s = none ↔ ¬sep <:+: s := by
  induction s with
  | nil => simp [behind, hSep]
  | cons d s ih =>
    rw [behind, List.infix_cons_iff, ← List.isPrefixOf_iff_prefix]
    by_cases hPrefix : sep.isPrefixOf (d :: s) = true
    · simp [hPrefix]
    · rw [if_neg hPrefix, ih, not_or]
      exact (and_iff_right hPrefix).symm

/-- A text without a character is within a part that the character ends. -/
theorem infix_parts (hSep : c ∉ sep) (h : sep <:+: u ++ c :: w) : sep <:+: u ∨ sep <:+: w := by
  obtain ⟨a, b, hab⟩ := h
  rw [List.append_assoc] at hab
  rcases List.append_eq_append_iff.mp hab with ⟨x, rfl, hRest⟩ | ⟨x, rfl, hRest⟩
  · rcases List.append_eq_append_iff.mp hRest with ⟨y, rfl, -⟩ | ⟨y, rfl, hBehind⟩
    · exact .inl ⟨a, y, List.append_assoc ..⟩
    · cases y with
      | nil => exact .inl ⟨a, [], by simp⟩
      | cons d y =>
        cases hBehind
        exact absurd (List.mem_append_right x List.mem_cons_self) hSep
  · cases x with
    | nil =>
      cases sep with
      | nil => exact .inl List.nil_infix
      | cons d sep =>
        cases hRest
        exact absurd List.mem_cons_self hSep
    | cons d x =>
      cases hRest
      exact .inr ⟨x, b, List.append_assoc ..⟩

/-- A suffix of a text in two parts begins in the first part or in the second. -/
theorem suffix_parts {tail t : Word} (h : t <:+ u ++ c :: tail) :
    (∃ u', t = u' ++ c :: tail ∧ u' <:+ u) ∨ t <:+ tail := by
  obtain ⟨w, hw⟩ := h
  rcases List.append_eq_append_iff.mp hw with ⟨u', rfl, rfl⟩ | ⟨u', rfl, hBehind⟩
  · exact .inl ⟨u', rfl, List.suffix_append ..⟩
  · cases u' with
    | nil => exact .inl ⟨[], hBehind.symm, List.nil_suffix⟩
    | cons d u' =>
      cases hBehind
      exact .inr (List.suffix_append ..)

end

/-! ## Ports -/

section
variable {p : Word}

/-- What `strtol` reads of a number with a leading zero. -/
def octal (p : Word) : Nat := valueOf 8 (p.takeWhile (isDigitOf 8))

theorem valueOf_octal_append (p : Word) (c : Char) :
    valueOf 8 (p ++ [c]) = valueOf 8 p * 8 + (digitOf c).getD 0 := by
  rw [valueOf, List.foldl_append]
  rfl

theorem octal_append (p : Word) {c : Char} (h : isDigit c = true) :
    (p.all (isDigitOf 8) = true ∧ (digitOf c).getD 0 < 8 ∧ octal (p ++ [c]) = octal p * 8 + (digitOf c).getD 0) ∨
    ((p.all (isDigitOf 8) = true → 8 ≤ (digitOf c).getD 0) ∧ octal (p ++ [c]) = octal p) := by
  have hDigit := digitOf_of_isDigit h
  by_cases hAll : p.all (isDigitOf 8) = true
  · have hTake : p.takeWhile (isDigitOf 8) = p := List.takeWhile_eq_self_iff.mpr (List.all_eq_true.mp hAll)
    have hNext : (p ++ [c]).takeWhile (isDigitOf 8) = p ++ [c].takeWhile (isDigitOf 8) :=
      List.takeWhile_append_of_pos (List.all_eq_true.mp hAll)
    by_cases hOctal : isDigitOf 8 c = true
    · refine .inl ⟨hAll, ?_, ?_⟩
      · simpa [isDigitOf, hDigit] using hOctal
      · rw [octal, hNext, List.takeWhile_cons_of_pos hOctal, List.takeWhile_nil, valueOf_octal_append, octal, hTake]
    · refine .inr ⟨fun _ => ?_, ?_⟩
      · simpa [isDigitOf, hDigit] using hOctal
      · rw [octal, hNext, List.takeWhile_cons_of_neg hOctal, List.append_nil, octal, hTake]
  · refine .inr ⟨fun h => absurd h hAll, ?_⟩
    have hNot : (p.takeWhile (isDigitOf 8)).length ≠ p.length := fun hLength => hAll <| by
      rw [List.all_eq_true, ← List.takeWhile_eq_self_iff]
      exact (List.takeWhile_prefix _).eq_of_length hLength
    rw [octal, List.takeWhile_append, if_neg hNot, octal]

/-- A number is read alike in both bases only if it is a single digit that both have. -/
theorem octal_cases (h : ∀ c ∈ p, isDigit c = true) :
    (valueOf 10 p < 8 ∧ octal p = valueOf 10 p ∧ p.all (isDigitOf 8) = true) ∨
    (8 ≤ valueOf 10 p ∧ octal p < valueOf 10 p) := by
  induction p using List.reverseRecOn with
  | nil => exact .inl ⟨by decide, rfl, rfl⟩
  | append_singleton p c ih =>
    have hDigit : isDigit c = true := h c (by simp)
    have hRest := ih fun d hd => h d (by simp [hd])
    have hValue := valueOf_append_one p c
    rcases octal_append p hDigit with ⟨hAll, hSmall, hOctal⟩ | ⟨hLarge, hOctal⟩
    · have hLast : isDigitOf 8 c = true := by
        simpa [isDigitOf, digitOf_of_isDigit hDigit] using hSmall
      have hBoth : (p ++ [c]).all (isDigitOf 8) = true := by
        rw [List.all_append, hAll, List.all_cons, hLast]
        rfl
      rcases hRest with ⟨hLess, hSame, -⟩ | ⟨hMore, hLess⟩
      · by_cases hZero : valueOf 10 p = 0
        · exact .inl ⟨by omega, by omega, hBoth⟩
        · exact .inr ⟨by omega, by omega⟩
      · exact .inr ⟨by omega, by omega⟩
    · rcases hRest with ⟨hLess, hSame, hAll⟩ | ⟨hMore, hLess⟩
      · have := hLarge hAll
        exact .inr ⟨by omega, by omega⟩
      · exact .inr ⟨by omega, by omega⟩

theorem baseOf_digits (h : ∀ c ∈ p, isDigit c = true) :
    baseOf p = (if p.head? = some '0' then 8 else 10, p) := by
  unfold baseOf
  split
  next x c cs =>
    have hx : isDigit x = true := h x (by simp)
    have hNot : ¬((x = 'x' ∨ x = 'X') ∧ isDigitOf 16 c = true) := by
      rintro ⟨rfl | rfl, -⟩
      · exact absurd hx (by decide)
      · exact absurd hx (by decide)
    rw [if_neg hNot]
    rfl
  next => rfl
  next hThree hZero =>
    have hNot : p.head? ≠ some '0' := by
      rintro hHead
      cases p with
      | nil => cases hHead
      | cons c cs => exact hZero cs (congrArg (· :: cs) (Option.some.inj hHead))
    rw [if_neg hNot]

/-- The value of digits in base 0. -/
def baseZero (p : Word) : Nat := if p.head? = some '0' then octal p else valueOf 10 p

theorem strtol_digits (hSome : p ≠ []) (h : ∀ c ∈ p, isDigit c = true) :
    strtol p = min LONG_MAX (baseZero p) ∧ strtol ('-' :: p) = max (-LONG_MAX - 1) (-baseZero p) := by
  obtain ⟨c, cs, rfl⟩ := List.exists_cons_of_ne_nil hSome
  have hFirst : isDigit c = true := h c List.mem_cons_self
  have hSpace : (c :: cs).dropWhile isSpace = c :: cs :=
    List.dropWhile_cons_of_neg (by simp [digit_not_space hFirst])
  have hMinus : ('-' :: c :: cs).dropWhile isSpace = '-' :: c :: cs := rfl
  have hAll : (c :: cs).takeWhile (isDigitOf 10) = c :: cs := List.takeWhile_eq_self_iff.mpr h
  rw [strtol, number, hSpace, sign_of_digit hFirst, strtol, number, hMinus, sign, baseZero]
  simp only [baseOf_digits h]
  by_cases hZero : (c :: cs).head? = some '0'
  · have hOctal : ((c :: cs).takeWhile (isDigitOf 8)).isEmpty = false := by
      have hc : c = '0' := Option.some.inj hZero
      rw [hc, List.takeWhile_cons_of_pos (by decide)]
      rfl
    rw [if_pos hZero, if_pos hZero, hOctal, if_neg Bool.false_ne_true, if_neg Bool.false_ne_true]
    exact ⟨rfl, rfl⟩
  · rw [if_neg hZero, if_neg hZero, hAll]
    exact ⟨rfl, rfl⟩

/-- A leading zero is harmless before a single octal digit only. -/
theorem port_iff (hSome : p ≠ []) (h : ∀ c ∈ p, isDigit c = true) :
    (CInt.of (strtol p)).1 = valueOf 10 p ↔
      (p.head? = some '0' → valueOf 10 p < 8) ∧ (valueOf 10 p : Int) ≤ INT_MAX := by
  have hInt (v : Nat) : (int32 (min LONG_MAX v) = v ↔ (v : Int) ≤ INT_MAX) ∧ int32 (min LONG_MAX v) ≤ v := by
    simp only [int32, LONG_MAX, INT_MAX]
    omega
  change int32 (strtol p) = _ ↔ _
  rw [(strtol_digits hSome h).1, baseZero]
  by_cases hZero : p.head? = some '0'
  · rw [if_pos hZero]
    rcases octal_cases h with ⟨hSmall, hSame, -⟩ | ⟨hMore, hLess⟩
    · rw [hSame, (hInt _).1]
      exact (and_iff_right fun _ => hSmall).symm
    · have hAtMost := (hInt (octal p)).2
      refine iff_of_false (by omega) fun hBoth => ?_
      have hSmall := hBoth.1 hZero
      omega
  · rw [if_neg hZero, (hInt _).1]
    exact (and_iff_right fun hHead => absurd hHead hZero).symm

end

/-! ## Values -/

/-- The parts of a value, the optional ones as they are given. -/
structure ProxyValue where
  protocol : Bool
  scheme : Bool
  login : Option (Word × Word)
  host : Word
  port : Option Word
  host_plain : ∀ c ∈ host, c ≠ ',' ∧ c ≠ ':' ∧ c ≠ '@' ∧ c ≠ '/'
  port_digits : ∀ p ∈ port, p ≠ [] ∧ ∀ c ∈ p, isDigit c = true

namespace ProxyValue

variable {v : ProxyValue} {rc rc' : RCReader}

/-- The user name and the password. -/
def userpw (v : ProxyValue) : Word :=
  match v.login with
  | none => []
  | some (user, password) => user ++ ':' :: password

def tail (v : ProxyValue) : Word :=
  v.host ++ match v.port with
    | none => []
    | some p => ':' :: p

/-- What is behind the scheme. -/
def authority (v : ProxyValue) : Word :=
  match v.login with
  | none => v.tail
  | some _ => v.userpw ++ '@' :: v.tail

def unprefixed (v : ProxyValue) : Word := (if v.scheme then RCReader.HTTP ++ RCReader.SCHEME_END else []) ++ v.authority

/-- `[http,][http://][user:password@]host[:port]` -/
def text (v : ProxyValue) : Word := (if v.protocol then RCReader.HTTP ++ [','] else []) ++ v.unprefixed

def portNumber (v : ProxyValue) : Nat :=
  match v.port with
  | none => 80
  | some p => valueOf 10 p

/-- The parts that are stored are those of the value. -/
def Stored (v : ProxyValue) : Prop :=
  ∀ rc, ∃ rc', RCReader.setProxyServer v.text rc = .ok () rc' ∧ rc'.proxyServerUserpw = v.userpw ∧
    rc'.proxyServerHost = v.host ∧ rc'.proxyServerPort.1 = v.portNumber

/-- The user's part holds no separator that is looked for before its end. -/
def Separable (v : ProxyValue) : Prop :=
  '@' ∉ v.userpw ∧ (v.protocol = false → ',' ∉ v.userpw) ∧ (v.scheme = false → ¬RCReader.SCHEME_END <:+: v.userpw)

def PlainPort (v : ProxyValue) : Prop :=
  ∀ p ∈ v.port, (p.head? = some '0' → valueOf 10 p < 8) ∧ (valueOf 10 p : Int) ≤ INT_MAX

theorem tail_plain (v : ProxyValue) : ',' ∉ v.tail ∧ '@' ∉ v.tail ∧ '/' ∉ v.tail := by
  have hPort : ∀ c, isDigit c = false → c ≠ ':' → (c ∈ v.tail → c ∈ v.host) := by
    intro c hDigit hColon hMem
    rcases List.mem_append.mp hMem with hHost | hPort
    · exact hHost
    · cases hSome : v.port with
      | none =>
        rw [hSome] at hPort
        cases hPort
      | some p =>
        rw [hSome] at hPort
        rcases List.mem_cons.mp hPort with hSame | hIn
        · exact absurd hSame hColon
        · rw [(v.port_digits p hSome).2 c hIn] at hDigit
          cases hDigit
  exact ⟨fun h => (v.host_plain _ (hPort ',' (by decide) (by decide) h)).1 rfl,
    fun h => (v.host_plain _ (hPort '@' (by decide) (by decide) h)).2.2.1 rfl,
    fun h => (v.host_plain _ (hPort '/' (by decide) (by decide) h)).2.2.2 rfl⟩

theorem not_scheme_end {s : Word} (h : '/' ∉ s) : ¬RCReader.SCHEME_END <:+: s := by
  rintro ⟨u, w, hw⟩
  exact h (hw ▸ by simp [RCReader.SCHEME_END])

theorem cut_tail (v : ProxyValue) : cut ':' v.tail = v.port.map fun p => (v.host, p) := by
  have hHost : ':' ∉ v.host := fun h => (v.host_plain _ h).2.1 rfl
  rw [tail]
  cases v.port with
  | none =>
    rw [List.append_nil]
    exact cut_none hHost
  | some p => exact cut_some hHost p

/-- The user's part, the host and the port, once the scheme is off. -/
def parts (v : ProxyValue) (rc : RCReader) : RCReader :=
  { rc with
    proxyServerUserpw := v.userpw
    proxyServerHost := v.host
    proxyServerPort := .of (match v.port with | none => 80 | some p => strtol p) }

theorem setParts_authority (h : '@' ∉ v.userpw) {proxy : Word}
    (hScheme : (behind RCReader.SCHEME_END proxy).getD proxy = v.authority) :
    RCReader.setProxyParts proxy rc = v.parts rc := by
  obtain ⟨-, hAt, -⟩ := v.tail_plain
  rw [RCReader.setProxyParts, hScheme, authority, parts]
  cases hLogin : v.login with
  | none =>
    have hNone : v.userpw = [] := by rw [userpw, hLogin]
    simp only [cut_none hAt, Option.getD_none, cut_tail, hNone]
    cases hPort : v.port with
    | none =>
      have hTail : v.tail = v.host := by rw [tail, hPort, List.append_nil]
      simp only [Option.map_none, hTail]
    | some p => rfl
  | some =>
    simp only [cut_some h, Option.getD_some, cut_tail]
    cases hPort : v.port with
    | none =>
      have hTail : v.tail = v.host := by rw [tail, hPort, List.append_nil]
      simp only [Option.map_none, hTail]
    | some p => rfl

/-! ## Values that are stored -/

theorem behind_http (proxy : Word) :
    behind RCReader.SCHEME_END (RCReader.HTTP ++ RCReader.SCHEME_END ++ proxy) = some proxy := rfl

theorem scheme_off (h : v.scheme = false → ¬RCReader.SCHEME_END <:+: v.userpw) :
    (behind RCReader.SCHEME_END v.unprefixed).getD v.unprefixed = v.authority := by
  rw [unprefixed]
  cases hScheme : v.scheme with
  | true => rw [if_pos rfl, behind_http, Option.getD_some]
  | false =>
    rw [if_neg Bool.false_ne_true, List.nil_append]
    have hTail := not_scheme_end v.tail_plain.2.2
    have hNone : behind RCReader.SCHEME_END v.authority = none := by
      rw [behind_none (by decide), authority]
      cases v.login with
      | none => exact hTail
      | some =>
        intro hInfix
        rcases infix_parts (by decide) hInfix with hUser | hRest
        · exact h hScheme hUser
        · exact hTail hRest
    rw [hNone, Option.getD_none]

theorem comma_unprefixed (h : ',' ∉ v.userpw) : ',' ∉ v.unprefixed := by
  have hTail := v.tail_plain.1
  have hAuthority : ',' ∉ v.authority := by
    rw [authority]
    cases v.login with
    | none => exact hTail
    | some => simp [h, hTail]
  rw [unprefixed, List.mem_append, not_or]
  refine ⟨?_, hAuthority⟩
  split <;> decide

/-- The text behind the protocol. -/
theorem setProxyServer_text (h : v.protocol = false → ',' ∉ v.userpw) :
    RCReader.setProxyServer v.text rc =
      .ok () (RCReader.setProxyParts v.unprefixed { rc with proxyServerProtocol := RCReader.HTTP }) := by
  rw [RCReader.setProxyServer, text]
  cases hProtocol : v.protocol with
  | true =>
    have hCut : cut ',' (RCReader.HTTP ++ [','] ++ v.unprefixed) = some (RCReader.HTTP, v.unprefixed) := by
      rw [List.append_assoc]
      exact cut_some (by decide) _
    have hSame : Dap4.downcase RCReader.HTTP = RCReader.HTTP := by decide
    rw [if_pos rfl, hCut]
    simp only [hSame, if_true]
  | false =>
    rw [if_neg Bool.false_ne_true, List.nil_append, cut_none (comma_unprefixed (h hProtocol))]

/-! ## Values that are not -/

/-- The user's part that is stored of a text. -/
def userpwOf (proxy : Word) : Word :=
  ((cut '@' ((behind RCReader.SCHEME_END proxy).getD proxy)).map Prod.fst).getD []

theorem setParts_userpw (proxy : Word) (rc : RCReader) :
    (RCReader.setProxyParts proxy rc).proxyServerUserpw = userpwOf proxy := by
  rw [RCReader.setProxyParts, userpwOf]
  cases cut '@' ((behind RCReader.SCHEME_END proxy).getD proxy) with
  | none =>
    simp only [Option.getD_none, Option.map_none]
    split <;> rfl
  | some p =>
    obtain ⟨user, host⟩ := p
    simp only [Option.getD_some, Option.map_some]
    split <;> rfl

theorem userpwOf_plain (proxy : Word) : '@' ∉ userpwOf proxy := by
  rw [userpwOf, cut]
  split
  · intro hMem
    simpa using List.mem_takeWhile_imp hMem
  · exact List.not_mem_nil

/-- What is stored of a suffix that is read is no longer than the part of it before the `@`. -/
theorem userpwOf_suffix {proxy u rest : Word} (hAt : '@' ∉ u) (hRest : '@' ∉ rest)
    (h : (behind RCReader.SCHEME_END proxy).getD proxy <:+ u ++ '@' :: rest) :
    (userpwOf proxy).length ≤ u.length ∧
      (userpwOf proxy = u → u = [] ∨ (behind RCReader.SCHEME_END proxy).getD proxy = u ++ '@' :: rest) := by
  rw [userpwOf]
  rcases suffix_parts h with ⟨u', hText, hSuffix⟩ | hTail
  · have hNot : '@' ∉ u' := fun hMem => hAt (hSuffix.subset hMem)
    rw [hText, cut_some hNot]
    exact ⟨hSuffix.length_le, fun hSame => .inr (by rw [← hSame]; rfl)⟩
  · have hNot : '@' ∉ (behind RCReader.SCHEME_END proxy).getD proxy := fun hMem => hRest (hTail.subset hMem)
    rw [cut_none hNot]
    exact ⟨Nat.zero_le _, fun hSame => .inl hSame.symm⟩

theorem behind_suffix (proxy : Word) : (behind RCReader.SCHEME_END proxy).getD proxy <:+ proxy := by
  cases hBehind : behind RCReader.SCHEME_END proxy with
  | none => exact List.suffix_refl _
  | some rest =>
    obtain ⟨u, hu⟩ := behind_some hBehind
    rw [hu, ← List.append_assoc]
    exact List.suffix_append ..

/-- A run that returns has set the parts of some text. -/
theorem run_parts {value : Word} (h : RCReader.setProxyServer value rc = .ok () rc') :
    ∃ proxy, rc'.proxyServerUserpw = userpwOf proxy ∧
      (cut ',' value = none ∧ proxy = value ∨ ∃ protocol, cut ',' value = some (protocol, proxy)) := by
  rw [RCReader.setProxyServer] at h
  cases hCut : cut ',' value with
  | none =>
    rw [hCut] at h
    cases h
    exact ⟨value, setParts_userpw .., .inl ⟨rfl, rfl⟩⟩
  | some p =>
    obtain ⟨protocol, proxy⟩ := p
    simp only [hCut] at h
    split at h
    · cases h
      exact ⟨proxy, setParts_userpw .., .inr ⟨protocol, rfl⟩⟩
    · cases h

theorem separable_of_stored (hRun : RCReader.setProxyServer v.text rc = .ok () rc')
    (hStored : rc'.proxyServerUserpw = v.userpw) : v.Separable := by
  obtain ⟨proxy, hUser, hProxy⟩ := run_parts hRun
  have hSame : userpwOf proxy = v.userpw := hUser.symm.trans hStored
  have hAt : '@' ∉ v.userpw := hSame ▸ userpwOf_plain proxy
  obtain ⟨hComma, hTail, hSlash⟩ := v.tail_plain
  cases hLogin : v.login with
  | none =>
    have hNone : v.userpw = [] := by rw [userpw, hLogin]
    rw [Separable, hNone]
    exact ⟨List.not_mem_nil, fun _ => List.not_mem_nil, fun _ hInfix => absurd (List.infix_nil.mp hInfix) (by decide)⟩
  | some login =>
    have hSome : v.userpw ≠ [] := by simp [userpw, hLogin]
    have hAuthority : v.authority = v.userpw ++ '@' :: v.tail := by rw [authority, hLogin]
    have hNoComma : v.protocol = false → ',' ∉ v.userpw := by
      intro hProtocol hMem
      obtain ⟨a, b, hSplit, ha⟩ := List.eq_append_cons_of_mem hMem
      have hText : v.text = ((if v.scheme then RCReader.HTTP ++ RCReader.SCHEME_END else []) ++ a) ++
          ',' :: (b ++ '@' :: v.tail) := by
        rw [text, hProtocol, if_neg Bool.false_ne_true, List.nil_append, unprefixed, hAuthority, hSplit]
        simp
      have hBefore : ',' ∉ (if v.scheme then RCReader.HTTP ++ RCReader.SCHEME_END else []) ++ a := by
        rw [List.mem_append, not_or]
        refine ⟨?_, ha⟩
        split <;> decide
      rw [hText, cut_some hBefore] at hProxy
      rcases hProxy with ⟨hNone, -⟩ | ⟨protocol, hCut⟩
      · cases hNone
      · cases hCut
        have hb : '@' ∉ b := fun h => hAt (hSplit ▸ List.mem_append_right a (List.mem_cons_of_mem _ h))
        have hShort := (userpwOf_suffix hb hTail (behind_suffix _)).1
        rw [hSame, hSplit, List.length_append, List.length_cons] at hShort
        omega
    refine ⟨hAt, hNoComma, fun hScheme hInfix => ?_⟩
    have hProxy' : proxy = v.userpw ++ '@' :: v.tail := by
      rw [← hAuthority]
      have hUnprefixed : v.unprefixed = v.authority := by
        rw [unprefixed, hScheme, if_neg Bool.false_ne_true, List.nil_append]
      rw [text, hUnprefixed] at hProxy
      cases hProtocol : v.protocol with
      | true =>
        rw [hProtocol, if_pos rfl, List.append_assoc, List.singleton_append, cut_some (by decide)] at hProxy
        rcases hProxy with ⟨hNone, -⟩ | ⟨protocol, hCut⟩
        · cases hNone
        · cases hCut
          rfl
      | false =>
        have hNot : ',' ∉ v.authority := hUnprefixed ▸ comma_unprefixed (hNoComma hProtocol)
        rw [hProtocol, if_neg Bool.false_ne_true, List.nil_append, cut_none hNot] at hProxy
        rcases hProxy with ⟨-, hWhole⟩ | ⟨protocol, hCut⟩
        · exact hWhole
        · cases hCut
    have hSuffix : (behind RCReader.SCHEME_END proxy).getD proxy <:+ v.userpw ++ '@' :: v.tail :=
      hProxy' ▸ behind_suffix proxy
    rcases (userpwOf_suffix hAt hTail hSuffix).2 hSame with hNone | hWhole
    · exact hSome hNone
    · cases hBehind : behind RCReader.SCHEME_END proxy with
      | none =>
        rw [hProxy', behind_none (by decide)] at hBehind
        exact hBehind (hInfix.trans (List.prefix_append ..).isInfix)
      | some rest =>
        obtain ⟨u, hu⟩ := behind_some hBehind
        rw [hBehind, Option.getD_some, ← hProxy'] at hWhole
        have hLength := congrArg List.length hu
        rw [hWhole, List.length_append, List.length_append] at hLength
        have hThree : RCReader.SCHEME_END.length = 3 := rfl
        omega

theorem port_stored (v : ProxyValue) (rc : RCReader) :
    (v.parts rc).proxyServerPort.1 = v.portNumber ↔ v.PlainPort := by
  rw [parts, portNumber, PlainPort]
  cases hPort : v.port with
  | none => exact iff_of_true rfl nofun
  | some p =>
    obtain ⟨hSome, hDigits⟩ := v.port_digits p hPort
    refine (port_iff hSome hDigits).trans ⟨fun hPlain q hq => ?_, fun hAll => hAll p rfl⟩
    cases hq
    exact hPlain

theorem stored_iff (v : ProxyValue) : v.Stored ↔ v.Separable ∧ v.PlainPort := by
  have hRun (h : v.Separable) (rc : RCReader) : RCReader.setProxyServer v.text rc =
      .ok () (v.parts { rc with proxyServerProtocol := RCReader.HTTP }) := by
    rw [setProxyServer_text h.2.1, setParts_authority h.1 (scheme_off h.2.2)]
  constructor
  · intro hStored
    obtain ⟨rc', hText, hUser, -, hNumber⟩ := hStored .initial
    have hSeparable := separable_of_stored hText hUser
    rw [hRun hSeparable] at hText
    cases hText
    exact ⟨hSeparable, (port_stored v _).mp hNumber⟩
  · rintro ⟨hSeparable, hPlain⟩ rc
    exact ⟨_, hRun hSeparable rc, rfl, rfl, (port_stored v _).mpr hPlain⟩

end ProxyValue

end Libdap.Client
