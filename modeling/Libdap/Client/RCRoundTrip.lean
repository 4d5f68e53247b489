import Libdap.Client.ProxyServer
import Libdap.Client.RCReader

/-! # Reading the file that was written

Numbers always come back. A text comes back if it fits its line and none of its characters is taken for a separator.
-/

namespace Libdap.Client
open Core Constraint Http Bes
set_option autoImplicit false

/-! ## Numbers -/

theorem atoi_decimal (n : Nat) : atoi (decimal n) = int32 (min LONG_MAX n) ∧
    atoi ('-' :: decimal n) = int32 (max (-LONG_MAX - 1) (-n)) := by
  obtain ⟨hPlain, hMinus⟩ := decimalNumber_digits [] (fun c hc => absurd hc List.not_mem_nil) (digits_of_decimal n)
    (decimal_ne_nil n) Stops.nil
  rw [List.nil_append, List.append_nil, decimalNumber, valueOf_decimal] at hPlain hMinus
  rw [atoi, atoi, hPlain, hMinus]
  exact ⟨rfl, rfl⟩

theorem atoi_integer (n : CInt) : CInt.of (atoi (integer n.1)) = n := by
  obtain ⟨n, hLow, hHigh⟩ := n
  refine Subtype.ext ?_
  change int32 (atoi (integer n)) = n
  simp only [INT_MAX] at hHigh
  cases n with
  | ofNat n =>
    rw [integer, (atoi_decimal n).1]
    simp only [int32, LONG_MAX, Int.ofNat_eq_natCast] at hHigh ⊢
    omega
  | negSucc n =>
    rw [integer, (atoi_decimal (n + 1)).2]
    simp only [int32, LONG_MAX]
    omega

theorem atoi_unsigned (n : CUnsigned) : CUnsigned.of (atoi (decimal n.1)) = n := by
  obtain ⟨n, hn⟩ := n
  refine Subtype.ext ?_
  change uint32 (atoi (decimal n)) = n
  rw [(atoi_decimal n).1]
  simp only [int32, uint32, LONG_MAX]
  omega

theorem atoi_digit (b : Bool) : decide (atoi (RCReader.digit b) ≠ 0) = b := by
  cases b <;> decide

theorem decimal_head {n : Nat} (h : 0 < n) : (decimal n).head? ≠ some '0' := by
  induction n using Nat.strong_induction_on with
  | _ n ih =>
    rw [decimal, Nat.toDigits_eq_if (by decide)]
    split
    next hSmall =>
      intro hHead
      have hDigit : Nat.digitChar n = '0' := Option.some.inj hHead
      have hValue := digitOf_digitChar hSmall
      rw [hDigit] at hValue
      have hZero : n = 0 := (Option.some.inj hValue).symm
      omega
    next hLarge =>
      obtain ⟨c, cs, hSome⟩ := List.exists_cons_of_ne_nil (decimal_ne_nil (n / 10))
      have hRest := ih (n / 10) (by omega) (by omega)
      rw [decimal] at hSome hRest
      rw [hSome] at hRest ⊢
      exact hRest

/-- A port that is printed is read in base ten. -/
theorem strtol_decimal (n : Nat) : strtol (decimal n) = min LONG_MAX n ∧
    strtol ('-' :: decimal n) = max (-LONG_MAX - 1) (-n) := by
  have hValue : baseZero (decimal n) = n := by
    rw [baseZero]
    split
    next hZero =>
      have hNone : n = 0 := Nat.eq_zero_of_not_pos fun hPos => decimal_head hPos hZero
      rw [hNone]
      decide
    next => exact valueOf_decimal n
  have hDigits := strtol_digits (decimal_ne_nil n) (digits_of_decimal n)
  rwa [hValue] at hDigits

theorem strtol_integer (n : CInt) : CInt.of (strtol (integer n.1)) = n := by
  obtain ⟨n, hLow, hHigh⟩ := n
  refine Subtype.ext ?_
  change int32 (strtol (integer n)) = n
  simp only [INT_MAX] at hHigh
  cases n with
  | ofNat n =>
    rw [integer, (strtol_decimal n).1]
    simp only [int32, LONG_MAX, Int.ofNat_eq_natCast] at hHigh ⊢
    omega
  | negSucc n =>
    rw [integer, (strtol_decimal (n + 1)).2]
    simp only [int32, LONG_MAX]
    omega

namespace RCReader

variable {a b rc rc' : RCReader} {s : Setting} {value line : Word}

/-! ## Lines -/

/-- A text that is one line of a file. -/
def Clean (s : Word) : Prop := ∀ c ∈ s, c ≠ '\n' ∧ c ≠ Char.ofNat 0

theorem Clean.cString (h : Clean value) : cString value = value :=
  List.takeWhile_eq_self_iff.mpr fun c hc => decide_eq_true (h c hc).2

theorem token_clean (s : Setting) : Clean s.token ∧ '=' ∉ s.token := by
  cases s <;> exact ⟨forall_mem_of_all (by decide), by decide⟩

theorem assignment_clean (h : Clean value) (s : Setting) : Clean (assignment s value) := by
  intro c hc
  rcases List.mem_append.mp hc with hToken | hValue
  · exact (token_clean s).1 c hToken
  · rcases List.mem_cons.mp hValue with rfl | hIn
    · decide
    · exact h c hIn

theorem token_found (s : Setting) : Setting.all.find? (·.token = s.token) = some s := by
  cases s <;> decide

theorem setting_assignment (h : Clean value) (s : Setting) : setting (assignment s value) = some (s, value) := by
  rw [setting, (assignment_clean h s).cString, assignment, cut_some (token_clean s).2]
  simp only [token_found, Option.map_some]

theorem processLine_assignment (h : Clean value) (s : Setting) : processLine (assignment s value) = apply value s := by
  rw [processLine, setting_assignment h]

theorem processLine_comment (text : String) : processLine (comment text) = pure () := by
  have hNone : setting (comment text) = none := by
    rw [setting, comment]
    cases hCut : cut '=' (cString ('#' :: text.toList)) with
    | none => rfl
    | some p =>
      obtain ⟨name, value⟩ := p
      have hToken : ∀ s : Setting, s.token.head? ≠ some '#' := by
        intro s
        cases s <;> decide
      have hName : name.head? = some '#' := by
        rw [cut] at hCut
        split at hCut
        next =>
          have hFirst : (cString ('#' :: text.toList)) = '#' :: cString text.toList := rfl
          rw [hFirst, List.takeWhile_cons_of_pos (by decide)] at hCut
          cases hCut
          rfl
        next => cases hCut
      have hFind : Setting.all.find? (·.token = name) = none := by
        rw [List.find?_eq_none]
        intro s _ hSame
        have hSame : s.token = name := of_decide_eq_true hSame
        exact hToken s (hSame ▸ hName)
      simp only [hFind, Option.map_none]
  rw [processLine, hNone]

theorem forM_comment (text : String) (lines : List Word) :
    (comment text :: lines).forM processLine = lines.forM processLine := by
  rw [forM_line, processLine_comment]
  rfl

/-- A line that fits the buffer. -/
def Short (line : Word) : Prop := line.length < 1023

theorem decimal_clean (n : Nat) : Clean (decimal n) := fun c hc => by
  have hDigit := digits_of_decimal n c hc
  constructor
  · rintro rfl
    exact absurd hDigit (by decide)
  · rintro rfl
    exact absurd hDigit (by decide)

theorem decimal_length {n : Nat} (h : n < 4294967296) : (decimal n).length ≤ 10 :=
  (Nat.length_toDigits_le_iff (by decide) (by decide)).mpr (by omega)

theorem integer_clean (n : Int) : Clean (integer n) := by
  cases n with
  | ofNat n => exact decimal_clean n
  | negSucc n => exact List.forall_mem_cons.mpr ⟨by decide, decimal_clean (n + 1)⟩

theorem integer_length (n : CInt) : (integer n.1).length ≤ 11 := by
  obtain ⟨n, hLow, hHigh⟩ := n
  simp only [INT_MAX] at hHigh
  cases n with
  | ofNat n =>
    have := decimal_length (n := n) (by simp only [Int.ofNat_eq_natCast] at hHigh; omega)
    simp only [integer]
    omega
  | negSucc n =>
    have := decimal_length (n := n + 1) (by omega)
    simp only [integer, List.length_cons]
    omega

theorem digit_clean (b : Bool) : Clean (digit b) := by
  cases b <;> exact forall_mem_of_all (by decide)

theorem token_length (s : Setting) : s.token.length ≤ 15 := by
  cases s <;> decide

theorem assignment_short (h : value.length ≤ 11) (s : Setting) : Short (assignment s value) := by
  have hToken := token_length s
  rw [Short, assignment, List.length_append, List.length_cons]
  omega

theorem digit_length (b : Bool) : (digit b).length ≤ 11 := by
  cases b <;> decide

/-- A line that is read whole. -/
def Whole (line : Word) : Prop := Clean line ∧ Short line

theorem assignment_whole (h : Clean value) (hShort : value.length ≤ 11) (s : Setting) : Whole (assignment s value) :=
  ⟨assignment_clean h s, assignment_short hShort s⟩

instance (s : Word) : Decidable (Clean s) := inferInstanceAs (Decidable (∀ c ∈ s, c ≠ '\n' ∧ c ≠ Char.ofNat 0))

instance (line : Word) : Decidable (Short line) := inferInstanceAs (Decidable (line.length < 1023))

instance (line : Word) : Decidable (Whole line) := inferInstanceAs (Decidable (Clean line ∧ Short line))

/-- Visible characters on a line. -/
theorem comment_whole {text : String} {l : Word} (hText : text = String.ofList l)
    (h : (l.all fun c => 32 ≤ c.toNat) = true) (hShort : l.length < 1022) : Whole (comment text) := by
  refine of_literal (p := fun w => Whole ('#' :: w)) hText ?_
  constructor
  · refine List.forall_mem_cons.mpr ⟨by decide, fun c hc => ?_⟩
    have hVisible : 32 ≤ c.toNat := by simpa using List.all_eq_true.mp h c hc
    constructor
    · rintro rfl
      exact absurd hVisible (by decide)
    · rintro rfl
      exact absurd hVisible (by decide)
  · rw [Short, List.length_cons]
    omega

theorem linesBefore_whole (a : RCReader) : ∀ line ∈ linesBefore a, Whole line := by
  simp only [linesBefore, List.forall_mem_cons, List.not_mem_nil, false_implies, implies_true, and_true]
  refine ⟨comment_whole rfl rfl (by decide), comment_whole rfl rfl (by decide),
    assignment_whole (digit_clean _) (digit_length _) _, comment_whole rfl rfl (by decide),
    assignment_whole (decimal_clean _) ((decimal_length a.dodsCacheMax.2).trans (by decide)) _,
    assignment_whole (decimal_clean _) ((decimal_length a.dodsCachedObj.2).trans (by decide)) _,
    assignment_whole (integer_clean _) (integer_length _) _⟩

theorem linesBetween_whole (a : RCReader) : ∀ line ∈ linesBetween a, Whole line := by
  simp only [linesBetween, List.forall_mem_cons, List.not_mem_nil, false_implies, implies_true, and_true]
  exact ⟨assignment_whole (integer_clean _) (integer_length _) _,
    assignment_whole (integer_clean _) (integer_length _) _,
    comment_whole rfl rfl (by decide), comment_whole rfl rfl (by decide),
    assignment_whole (digit_clean _) (digit_length _) _, comment_whole rfl rfl (by decide),
    comment_whole rfl rfl (by decide), assignment_whole (integer_clean _) (integer_length _) _,
    comment_whole rfl rfl (by decide), comment_whole rfl rfl (by decide), comment_whole rfl rfl (by decide),
    comment_whole rfl rfl (by decide)⟩

theorem linesBehind_whole : ∀ line ∈ linesBehind, Whole line := by
  simp only [linesBehind, List.forall_mem_cons, List.not_mem_nil, false_implies, implies_true, and_true]
  exact ⟨comment_whole rfl rfl (by decide), comment_whole rfl rfl (by decide), comment_whole rfl rfl (by decide),
    comment_whole rfl rfl (by decide), comment_whole rfl rfl (by decide), comment_whole rfl rfl (by decide),
    comment_whole rfl rfl (by decide), comment_whole rfl rfl (by decide)⟩

/-- What the lines before the cache's directory set. -/
def setBefore (a rc : RCReader) : RCReader :=
  { rc with
    dodsUseCache := a.dodsUseCache
    dodsCacheMax := a.dodsCacheMax
    dodsCachedObj := a.dodsCachedObj
    dodsIgnExpires := a.dodsIgnExpires }

/-- What the lines between the cache's directory and the proxy set. -/
def setBetween (a rc : RCReader) : RCReader :=
  { rc with
    dodsDefaultExpires := a.dodsDefaultExpires
    dodsAlwaysValidate := a.dodsAlwaysValidate
    dodsDeflate := a.dodsDeflate
    validateSsl := a.validateSsl }

theorem linesBefore_read (a rc : RCReader) : (linesBefore a).forM processLine rc = .ok () (setBefore a rc) := by
  have hLines : (linesBefore a).forM processLine =
      (apply (digit a.dodsUseCache) .useCache >>= fun _ =>
        apply (decimal a.dodsCacheMax.1) .maxCacheSize >>= fun _ =>
        apply (decimal a.dodsCachedObj.1) .maxCachedObj >>= fun _ =>
        apply (integer a.dodsIgnExpires.1) .ignoreExpires) := by
    rw [linesBefore, forM_comment, forM_comment, forM_line, forM_comment, forM_line, forM_line, forM_line,
      processLine_assignment (digit_clean _), processLine_assignment (decimal_clean _),
      processLine_assignment (decimal_clean _), processLine_assignment (integer_clean _)]
    rfl
  have hRun : (linesBefore a).forM processLine rc = .ok () { rc with
      dodsUseCache := decide (atoi (digit a.dodsUseCache) ≠ 0)
      dodsCacheMax := .of (atoi (decimal a.dodsCacheMax.1))
      dodsCachedObj := .of (atoi (decimal a.dodsCachedObj.1))
      dodsIgnExpires := .of (atoi (integer a.dodsIgnExpires.1)) } := by
    rw [hLines]
    rfl
  rw [hRun, atoi_digit, atoi_unsigned, atoi_unsigned, atoi_integer, setBefore]

theorem linesBetween_read (a rc : RCReader) : (linesBetween a).forM processLine rc = .ok () (setBetween a rc) := by
  have hLines : (linesBetween a).forM processLine =
      (apply (integer a.dodsDefaultExpires.1) .defaultExpires >>= fun _ =>
        apply (integer a.dodsAlwaysValidate.1) .alwaysValidate >>= fun _ =>
        apply (digit a.dodsDeflate) .deflate >>= fun _ =>
        apply (integer a.validateSsl.1) .validateSsl) := by
    rw [linesBetween, forM_line, forM_line, forM_comment, forM_comment, forM_line, forM_comment, forM_comment,
      forM_line, forM_comment, forM_comment, forM_comment, forM_comment, processLine_assignment (integer_clean _),
      processLine_assignment (integer_clean _), processLine_assignment (digit_clean _),
      processLine_assignment (integer_clean _)]
    rfl
  have hRun : (linesBetween a).forM processLine rc = .ok () { rc with
      dodsDefaultExpires := .of (atoi (integer a.dodsDefaultExpires.1))
      dodsAlwaysValidate := .of (atoi (integer a.dodsAlwaysValidate.1))
      dodsDeflate := decide (atoi (digit a.dodsDeflate) ≠ 0)
      validateSsl := .of (atoi (integer a.validateSsl.1)) } := by
    rw [hLines]
    rfl
  rw [hRun, atoi_digit, atoi_integer, atoi_integer, atoi_integer, setBetween]

theorem linesBehind_read (rc : RCReader) : linesBehind.forM processLine rc = .ok () rc := by
  rw [linesBehind, forM_comment, forM_comment, forM_comment, forM_comment, forM_comment, forM_comment,
    forM_comment, forM_comment]
  rfl

/-! ## What reading keeps -/

/-- What the texts of a reader are like whatever it has read. -/
structure Tidy (rc : RCReader) : Prop where
  cacheRoot : Clean rc.cacheRoot
  rootEnd : rc.cacheRoot = [] ∨ rc.cacheRoot.getLast? = some '/'
  userpw : Clean rc.proxyServerUserpw
  host : Clean rc.proxyServerHost
  protocol : rc.proxyServerHost ≠ [] → rc.proxyServerProtocol = HTTP
  noProxy : Clean rc.noProxyForHost

theorem clean_append {u v : Word} (hu : Clean u) (hv : Clean v) : Clean (u ++ v) := fun c hc =>
  (List.mem_append.mp hc).elim (hu c) (hv c)

theorem clean_nil : Clean [] := fun _ hc => absurd hc List.not_mem_nil

theorem initial_tidy : Tidy .initial where
  cacheRoot := clean_nil
  rootEnd := .inl rfl
  userpw := clean_nil
  host := clean_nil
  protocol := fun h => absurd rfl h
  noProxy := clean_nil

theorem Clean.sub {t : Word} (h : Clean value) (hSub : t ⊆ value) : Clean t := fun c hc => h c (hSub hc)

theorem cut_sub {c : Char} {t u v : Word} (h : cut c t = some (u, v)) : u ⊆ t ∧ v ⊆ t := by
  rw [cut] at h
  split at h
  · cases h
    exact ⟨(List.takeWhile_sublist _).subset,
      ((List.drop_sublist _ _).trans (List.dropWhile_sublist _)).subset⟩
  · cases h

theorem setting_clean (hLine : '\n' ∉ line) (h : setting line = some (s, value)) : Clean value := by
  rw [setting] at h
  cases hCut : cut '=' (cString line) with
  | none =>
    rw [hCut] at h
    cases h
  | some p =>
    obtain ⟨name, v⟩ := p
    simp only [hCut, Option.map_eq_some_iff, Prod.mk.injEq] at h
    obtain ⟨-, -, -, rfl⟩ := h
    intro c hc
    have hMem := (cut_sub hCut).2 hc
    exact ⟨fun hSame => hLine (hSame ▸ (List.takeWhile_sublist _).subset hMem),
      by simpa using List.mem_takeWhile_imp hMem⟩

/-- The parts that are stored are parts of the text. -/
theorem setParts_sub (proxy : Word) (rc : RCReader) :
    (setProxyParts proxy rc).proxyServerUserpw ⊆ proxy ∧ (setProxyParts proxy rc).proxyServerHost ⊆ proxy := by
  have hBehind : (behind SCHEME_END proxy).getD proxy ⊆ proxy := (ProxyValue.behind_suffix proxy).subset
  rw [setProxyParts]
  generalize (behind SCHEME_END proxy).getD proxy = authority at hBehind ⊢
  cases hAt : cut '@' authority with
  | none =>
    simp only [Option.getD_none]
    split
    next hColon => exact ⟨List.nil_subset _, fun c hc => hBehind ((cut_sub hColon).1 hc)⟩
    next => exact ⟨List.nil_subset _, hBehind⟩
  | some p =>
    obtain ⟨user, rest⟩ := p
    have hParts := cut_sub hAt
    simp only [Option.getD_some]
    split
    next hColon =>
      exact ⟨fun c hc => hBehind (hParts.1 hc), fun c hc => hBehind (hParts.2 ((cut_sub hColon).1 hc))⟩
    next => exact ⟨fun c hc => hBehind (hParts.1 hc), fun c hc => hBehind (hParts.2 hc)⟩

/-- The other fields are left as they are. -/
theorem setParts_frame (proxy : Word) (rc : RCReader) :
    (setProxyParts proxy rc).cacheRoot = rc.cacheRoot ∧ (setProxyParts proxy rc).noProxyForHost = rc.noProxyForHost ∧
      (setProxyParts proxy rc).proxyServerProtocol = rc.proxyServerProtocol := by
  rw [setProxyParts]
  generalize (behind SCHEME_END proxy).getD proxy = authority
  generalize (cut '@' authority).getD ([], authority) = parts
  obtain ⟨user, rest⟩ := parts
  dsimp only
  split <;> exact ⟨rfl, rfl, rfl⟩

theorem setProxyServer_tidy (hClean : Clean value) (h : Tidy rc) (hRun : setProxyServer value rc = .ok () rc') :
    Tidy rc' := by
  have hParts (proxy : Word) (hSub : proxy ⊆ value) (rc₁ : RCReader) (hRoot : rc₁.cacheRoot = rc.cacheRoot)
      (hNoProxy : rc₁.noProxyForHost = rc.noProxyForHost) (hHttp : rc₁.proxyServerProtocol = HTTP) :
      Tidy (setProxyParts proxy rc₁) := by
    obtain ⟨hRoot', hNoProxy', hProtocol'⟩ := setParts_frame proxy rc₁
    obtain ⟨hUser, hHost⟩ := setParts_sub proxy rc₁
    exact {
      cacheRoot := hRoot' ▸ hRoot ▸ h.cacheRoot
      rootEnd := hRoot' ▸ hRoot ▸ h.rootEnd
      userpw := hClean.sub fun c hc => hSub (hUser hc)
      host := hClean.sub fun c hc => hSub (hHost hc)
      protocol := fun _ => hProtocol'.trans hHttp
      noProxy := hNoProxy' ▸ hNoProxy ▸ h.noProxy }
  rw [setProxyServer] at hRun
  cases hCut : cut ',' value with
  | none =>
    rw [hCut] at hRun
    cases hRun
    exact hParts value (List.Subset.refl _) _ rfl rfl rfl
  | some p =>
    obtain ⟨protocol, proxy⟩ := p
    simp only [hCut] at hRun
    split at hRun
    next hHttp =>
      cases hRun
      exact hParts proxy (cut_sub hCut).2 _ rfl rfl hHttp
    next => cases hRun

theorem processLine_tidy (hLine : '\n' ∉ line) (h : Tidy rc) (hRun : processLine line rc = .ok () rc') : Tidy rc' := by
  rw [processLine] at hRun
  cases hSetting : setting line with
  | none =>
    rw [hSetting] at hRun
    cases hRun
    exact h
  | some p =>
    obtain ⟨s, value⟩ := p
    have hClean := setting_clean hLine hSetting
    rw [hSetting] at hRun
    change apply value s rc = _ at hRun
    cases s with
    | cacheRoot =>
      rw [apply, setCacheRoot] at hRun
      split at hRun
      · cases hRun
      · cases hRun
        by_cases hLast : value.getLast? = some '/'
        · rw [if_pos hLast]
          exact ⟨hClean, .inr hLast, h.userpw, h.host, h.protocol, h.noProxy⟩
        · rw [if_neg hLast]
          exact ⟨clean_append hClean (forall_mem_of_all (by decide)), .inr List.getLast?_concat, h.userpw, h.host, h.protocol, h.noProxy⟩
    | proxyServer => exact setProxyServer_tidy hClean h hRun
    | noProxyFor =>
      cases hRun
      rw [setNoProxyFor]
      split
      next => exact ⟨h.cacheRoot, h.rootEnd, h.userpw, h.host, h.protocol, hClean⟩
      next hCut => exact ⟨h.cacheRoot, h.rootEnd, h.userpw, h.host, h.protocol, hClean.sub (cut_sub hCut).2⟩
    | cookieJar =>
      cases hRun
      rw [setCookieJar]
      split <;> exact ⟨h.cacheRoot, h.rootEnd, h.userpw, h.host, h.protocol, h.noProxy⟩
    | _ =>
      cases hRun
      exact ⟨h.cacheRoot, h.rootEnd, h.userpw, h.host, h.protocol, h.noProxy⟩

theorem lines_tidy {ls : List Word} (hLines : ∀ line ∈ ls, '\n' ∉ line) (h : Tidy rc)
    (hRun : ls.forM processLine rc = .ok () rc') : Tidy rc' := by
  induction ls generalizing rc with
  | nil =>
    cases hRun
    exact h
  | cons l ls ih =>
    obtain ⟨hFirst, hRest⟩ := List.forall_mem_cons.mp hLines
    obtain ⟨_, rc₁, hLine, hOthers⟩ := Call.bind_ok.mp hRun
    exact ih hRest (processLine_tidy hFirst h hLine) hOthers

/-! ## The proxy that is written -/

theorem integer_plain (n : Int) {c : Char} (hc : c ∈ integer n) : c = '-' ∨ isDigit c = true := by
  cases n with
  | ofNat n => exact .inr (digits_of_decimal n c hc)
  | negSucc n => exact (List.mem_cons.mp hc).imp_right fun hIn => digits_of_decimal (n + 1) c hIn

theorem integer_not_mem (n : Int) {c : Char} (hMinus : c ≠ '-') (hDigit : isDigit c = false) : c ∉ integer n := by
  intro hc
  rcases integer_plain n hc with hSame | hIs
  · exact hMinus hSame
  · rw [hIs] at hDigit
    cases hDigit

/-- The host and the port, as they are written. -/
def hostText (a : RCReader) : Word := a.proxyServerHost ++ ':' :: integer a.proxyServerPort.1

def loginText (a : RCReader) : Word := if a.proxyServerUserpw = [] then [] else a.proxyServerUserpw ++ ['@']

theorem proxyText_eq (h : a.proxyServerProtocol = HTTP) :
    proxyText a = HTTP ++ SCHEME_END ++ (loginText a ++ hostText a) := by
  rw [proxyText, h, ← loginText, hostText, List.append_assoc, List.append_assoc]

/-- No separator stands where it would be taken for another one. -/
structure Separated (a : RCReader) : Prop where
  comma : ',' ∉ a.proxyServerUserpw ∧ ',' ∉ a.proxyServerHost
  at_userpw : '@' ∉ a.proxyServerUserpw
  at_host : a.proxyServerUserpw = [] → '@' ∉ a.proxyServerHost
  colon : ':' ∉ a.proxyServerHost

/-- The reader with the proxy of another. -/
def withProxy (a rc : RCReader) : RCReader :=
  { rc with
    proxyServerProtocol := HTTP
    proxyServerUserpw := a.proxyServerUserpw
    proxyServerHost := a.proxyServerHost
    proxyServerPort := a.proxyServerPort }

theorem comma_text (a : RCReader) :
    ',' ∉ loginText a ++ hostText a ↔ ',' ∉ a.proxyServerUserpw ∧ ',' ∉ a.proxyServerHost := by
  have hPort : ',' ∉ integer a.proxyServerPort.1 := integer_not_mem _ (by decide) (by decide)
  rw [loginText, hostText]
  split
  next hNone => simp [hPort, hNone]
  next => simp [hPort]

theorem proxyText_comma (hComma : ',' ∉ loginText a ++ hostText a) (h : a.proxyServerProtocol = HTTP) (rc : RCReader) :
    setProxyServer (proxyText a) rc =
      .ok () (setProxyParts (proxyText a) { rc with proxyServerProtocol := HTTP }) := by
  have hNone : ',' ∉ proxyText a := by
    rw [proxyText_eq h, List.mem_append, not_or]
    exact ⟨by decide, hComma⟩
  rw [setProxyServer, cut_none hNone]

theorem authority_eq (h : a.proxyServerProtocol = HTTP) :
    (behind SCHEME_END (proxyText a)).getD (proxyText a) = loginText a ++ hostText a := by
  rw [proxyText_eq h, ProxyValue.behind_http, Option.getD_some]

/-- What is read behind the user's part. -/
theorem login_cut (hUser : '@' ∉ a.proxyServerUserpw) (hHost : a.proxyServerUserpw = [] → '@' ∉ a.proxyServerHost) :
    (cut '@' (loginText a ++ hostText a)).getD ([], loginText a ++ hostText a) = (a.proxyServerUserpw, hostText a) := by
  rw [loginText]
  split
  next hNone =>
    have hPort : '@' ∉ integer a.proxyServerPort.1 := integer_not_mem _ (by decide) (by decide)
    have hText : '@' ∉ hostText a := by
      rw [hostText]
      simp [hHost hNone, hPort]
    rw [List.nil_append, cut_none hText, hNone, Option.getD_none]
  next => rw [List.append_assoc, List.singleton_append, cut_some hUser, Option.getD_some]

theorem proxyText_read (h : Separated a) (hProtocol : a.proxyServerProtocol = HTTP) (rc : RCReader) :
    setProxyServer (proxyText a) rc = .ok () (withProxy a rc) := by
  rw [proxyText_comma ((comma_text a).mpr h.comma) hProtocol, setProxyParts, authority_eq hProtocol,
    login_cut h.at_userpw h.at_host]
  simp only [hostText, cut_some h.colon, strtol_integer, withProxy]

theorem parts_host (proxy : Word) (rc : RCReader) : (setProxyParts proxy rc).proxyServerHost =
    ((cut ':' ((cut '@' ((behind SCHEME_END proxy).getD proxy)).getD ([], (behind SCHEME_END proxy).getD proxy)).2).map
      Prod.fst).getD ((cut '@' ((behind SCHEME_END proxy).getD proxy)).getD
        ([], (behind SCHEME_END proxy).getD proxy)).2 := by
  rw [setProxyParts]
  generalize (cut '@' ((behind SCHEME_END proxy).getD proxy)).getD ([], (behind SCHEME_END proxy).getD proxy) = parts
  obtain ⟨user, rest⟩ := parts
  dsimp only
  cases cut ':' rest <;> rfl

/-- The host is cut before the first colon. -/
theorem cut_colon (u v : Word) :
    ∃ host rest, cut ':' (u ++ ':' :: v) = some (host, rest) ∧ ':' ∉ host ∧ host.length ≤ u.length := by
  have hMem : ':' ∈ u ++ ':' :: v := by simp
  obtain ⟨host, rest, hSplit, hNot⟩ := List.eq_append_cons_of_mem hMem
  refine ⟨host, rest, hSplit ▸ cut_some hNot rest, hNot, ?_⟩
  by_contra hLonger
  have hPlace : (host ++ ':' :: rest)[u.length]? = some ':' := by
    rw [← hSplit, List.getElem?_append_right (Nat.le_refl _), Nat.sub_self]
    rfl
  rw [List.getElem?_append_left (by omega)] at hPlace
  exact hNot (List.mem_of_getElem? hPlace)

theorem separated_of_read (hProtocol : a.proxyServerProtocol = HTTP)
    (hRun : setProxyServer (proxyText a) rc = .ok () rc')
    (hUser : rc'.proxyServerUserpw = a.proxyServerUserpw) (hHost : rc'.proxyServerHost = a.proxyServerHost) :
    Separated a := by
  have hComma : ',' ∉ loginText a ++ hostText a := by
    intro hMem
    obtain ⟨u, v, hSplit, hu⟩ := List.eq_append_cons_of_mem hMem
    have hBefore : ',' ∉ HTTP ++ SCHEME_END ++ u := by
      rw [List.mem_append, not_or]
      exact ⟨by decide, hu⟩
    have hLonger : Dap4.downcase (HTTP ++ SCHEME_END ++ u) ≠ HTTP := by
      intro hSame
      have hLength := congrArg List.length hSame
      rw [Dap4.downcase, List.length_map, List.length_append] at hLength
      have hFour : HTTP.length = 4 := rfl
      have hSeven : (HTTP ++ SCHEME_END).length = 7 := rfl
      omega
    rw [setProxyServer, proxyText_eq hProtocol, hSplit, ← List.append_assoc, cut_some hBefore] at hRun
    simp only [hLonger, if_false] at hRun
    cases hRun
  rw [proxyText_comma hComma hProtocol] at hRun
  cases hRun
  rw [ProxyValue.setParts_userpw] at hUser
  rw [parts_host, authority_eq hProtocol] at hHost
  have hAt : '@' ∉ a.proxyServerUserpw := hUser ▸ ProxyValue.userpwOf_plain _
  have hAtHost : a.proxyServerUserpw = [] → '@' ∉ a.proxyServerHost := by
    intro hNone hMem
    obtain ⟨u, w, hSplit, hu⟩ := List.eq_append_cons_of_mem hMem
    have hText : loginText a ++ hostText a = u ++ '@' :: (w ++ ':' :: integer a.proxyServerPort.1) := by
      rw [loginText, if_pos hNone, hostText, hSplit]
      simp
    obtain ⟨host, rest, hCut, -, hShort⟩ := cut_colon w (integer a.proxyServerPort.1)
    rw [hText, cut_some hu, Option.getD_some, hCut] at hHost
    have hSame : host = a.proxyServerHost := hHost
    rw [hSame, hSplit, List.length_append, List.length_cons] at hShort
    omega
  refine ⟨(comma_text a).mp hComma, hAt, hAtHost, ?_⟩
  obtain ⟨host, rest, hCut, hColon, -⟩ := cut_colon a.proxyServerHost (integer a.proxyServerPort.1)
  rw [login_cut hAt hAtHost] at hHost
  have hSame : host = a.proxyServerHost := by
    rw [hostText, hCut] at hHost
    exact hHost
  exact hSame ▸ hColon

/-! ## The whole file -/

theorem lines_newline (content : Word) : ∀ line ∈ lines content, '\n' ∉ line := by
  induction hLength : content.length using Nat.strong_induction_on generalizing content with
  | _ length ih =>
    by_cases hBreak : '\n' ∈ content
    · obtain ⟨line, rest, rfl, hLine⟩ := List.eq_append_cons_of_mem hBreak
      rw [List.length_append, List.length_cons] at hLength
      rw [lines_line hLine]
      exact List.forall_mem_cons.mpr ⟨hLine, ih rest.length (by omega) rest rfl⟩
    · rw [lines_last hBreak]
      exact List.forall_mem_cons.mpr ⟨hBreak, fun line hLine => absurd hLine List.not_mem_nil⟩

theorem terminated_written {ls : List Word} (h : ∀ line ∈ ls, '\n' ∉ line) :
    terminated (ls.flatMap (· ++ ['\n'])) = ls := by
  induction ls with
  | nil => exact terminated_last List.not_mem_nil
  | cons l ls ih =>
    obtain ⟨hFirst, hRest⟩ := List.forall_mem_cons.mp h
    rw [List.flatMap_cons, List.append_assoc, List.singleton_append, terminated_line hFirst, ih hRest]

def shortLines (ls : List Word) : List Word := ls.takeWhile (·.length < 1023)

theorem shortLines_append {xs : List Word} (h : ∀ line ∈ xs, Whole line) (ys : List Word) :
    shortLines (xs ++ ys) = xs ++ shortLines ys :=
  List.takeWhile_append_of_pos fun line hLine => decide_eq_true (h line hLine).2

theorem shortLines_short (h : Short line) (ys : List Word) : shortLines (line :: ys) = line :: shortLines ys :=
  List.takeWhile_cons_of_pos (decide_eq_true h)

theorem shortLines_long (h : ¬Short line) (ys : List Word) : shortLines (line :: ys) = [] :=
  List.takeWhile_cons_of_neg (by simpa [Short] using h)

theorem run_append {xs ys : List Word} (h : xs.forM processLine rc = .ok () rc') :
    (xs ++ ys).forM processLine rc = ys.forM processLine rc' := by
  induction xs generalizing rc with
  | nil =>
    cases h
    rfl
  | cons x xs ih =>
    obtain ⟨_, rc₁, hFirst, hRest⟩ := Call.bind_ok.mp h
    exact (Call.bind_of_ok hFirst).trans (ih hRest)

/-- What is read of the lines from the one about hosts without a proxy on. -/
theorem noProxyLines_read (h : a.noProxyForHost ≠ [] → Clean a.noProxyForHost) (rc : RCReader) :
    (shortLines (noProxyLines a)).forM processLine rc = .ok () (
      if a.noProxyForHost ≠ [] ∧ Short (assignment .noProxyFor a.noProxyForHost) then setNoProxyFor a.noProxyForHost rc
      else rc) := by
  have hComment : Whole (comment " NO_PROXY_FOR=<host|domain>") := ⟨forall_mem_of_all (by decide), by decide⟩
  have hBehind : shortLines linesBehind = linesBehind := by
    have hAll := shortLines_append linesBehind_whole []
    rw [List.append_nil] at hAll
    exact hAll.trans (List.append_nil _)
  rw [noProxyLines, shortLines_short hComment.2, forM_line, processLine_comment]
  change (shortLines _).forM processLine rc = _
  by_cases hNone : a.noProxyForHost = []
  · rw [if_pos hNone, if_neg (fun hBoth => hBoth.1 hNone), List.nil_append, hBehind]
    exact linesBehind_read rc
  · rw [if_neg hNone, List.singleton_append]
    by_cases hShort : Short (assignment .noProxyFor a.noProxyForHost)
    · have hApply : apply a.noProxyForHost .noProxyFor rc = .ok () (setNoProxyFor a.noProxyForHost rc) := rfl
      rw [if_pos ⟨hNone, hShort⟩, shortLines_short hShort, hBehind, forM_line, processLine_assignment (h hNone)]
      exact (Call.bind_of_ok hApply).trans (linesBehind_read _)
    · rw [if_neg (fun hBoth => hShort hBoth.2), shortLines_long hShort]
      rfl

/-- What is read of the lines from the proxy on. -/
theorem proxyLines_read (hProxy : a.proxyServerHost ≠ [] → Clean (proxyText a)) (rc : RCReader) :
    (a.proxyServerHost = [] ∧ (shortLines (proxyLines a)).forM processLine rc =
      (shortLines (noProxyLines a)).forM processLine rc) ∨
    (a.proxyServerHost ≠ [] ∧ ¬Short (assignment .proxyServer (proxyText a)) ∧
      (shortLines (proxyLines a)).forM processLine rc = .ok () rc) ∨
    (a.proxyServerHost ≠ [] ∧ Short (assignment .proxyServer (proxyText a)) ∧
      (shortLines (proxyLines a)).forM processLine rc =
        (setProxyServer (proxyText a) >>= fun _ => (shortLines (noProxyLines a)).forM processLine) rc) := by
  rw [proxyLines]
  by_cases hNone : a.proxyServerHost = []
  · rw [if_pos hNone]
    exact .inl ⟨hNone, rfl⟩
  · rw [if_neg hNone, List.singleton_append]
    by_cases hShort : Short (assignment .proxyServer (proxyText a))
    · rw [shortLines_short hShort, forM_line, processLine_assignment (hProxy hNone)]
      exact .inr (.inr ⟨hNone, hShort, rfl⟩)
    · rw [shortLines_long hShort]
      exact .inr (.inl ⟨hNone, hShort, rfl⟩)

/-- The settings that are written are those of another reader. -/
structure Restored (a rc : RCReader) : Prop where
  useCache : rc.dodsUseCache = a.dodsUseCache
  cacheMax : rc.dodsCacheMax = a.dodsCacheMax
  cachedObj : rc.dodsCachedObj = a.dodsCachedObj
  ignExpires : rc.dodsIgnExpires = a.dodsIgnExpires
  cacheRoot : rc.cacheRoot = a.cacheRoot
  defaultExpires : rc.dodsDefaultExpires = a.dodsDefaultExpires
  alwaysValidate : rc.dodsAlwaysValidate = a.dodsAlwaysValidate
  deflate : rc.dodsDeflate = a.dodsDeflate
  validateSsl : rc.validateSsl = a.validateSsl
  proxy : a.proxyServerHost ≠ [] → rc.proxyServerProtocol = a.proxyServerProtocol ∧
    rc.proxyServerUserpw = a.proxyServerUserpw ∧ rc.proxyServerHost = a.proxyServerHost ∧
    rc.proxyServerPort = a.proxyServerPort
  noProxy : a.noProxyForHost ≠ [] → rc.noProxyForHost = a.noProxyForHost

/-- Whatever the reader had before, reading the file restores the settings. -/
def Restores (a : RCReader) : Prop := ∀ b, ∃ rc, readRcFile (writeRcFile a) b = .ok () rc ∧ Restored a rc

/-- The texts that are written are lines that fit the buffer, with no separator that is taken for another one. -/
structure Writable (a : RCReader) : Prop where
  cacheRoot : Clean a.cacheRoot ∧ a.cacheRoot.getLast? = some '/' ∧ Short (assignment .cacheRoot a.cacheRoot)
  proxy : a.proxyServerHost ≠ [] → a.proxyServerProtocol = HTTP ∧
    (Clean a.proxyServerUserpw ∧ Clean a.proxyServerHost) ∧
    Separated a ∧ Short (assignment .proxyServer (proxyText a))
  noProxy : a.noProxyForHost ≠ [] →
    Clean a.noProxyForHost ∧ ',' ∉ a.noProxyForHost ∧ Short (assignment .noProxyFor a.noProxyForHost)

theorem proxyText_clean (hProtocol : a.proxyServerProtocol = HTTP) (hUser : Clean a.proxyServerUserpw)
    (hHost : Clean a.proxyServerHost) : Clean (proxyText a) := by
  have hHttp : Clean (HTTP ++ SCHEME_END) := forall_mem_of_all (by decide)
  have hLogin : Clean (loginText a) := by
    rw [loginText]
    split
    · exact clean_nil
    · exact clean_append hUser (forall_mem_of_all (by decide))
  have hColon : Clean (':' :: integer a.proxyServerPort.1) :=
    List.forall_mem_cons.mpr ⟨by decide, integer_clean _⟩
  rw [proxyText_eq hProtocol]
  exact clean_append hHttp (clean_append hLogin (clean_append hHost hColon))

theorem Clean.newline (h : Clean line) : '\n' ∉ line := fun hMem => (h '\n' hMem).1 rfl

/-- The lines that are read of the file. -/
theorem taken_written (hRoot : Clean a.cacheRoot) (hProxy : a.proxyServerHost ≠ [] → Clean (proxyText a))
    (hNoProxy : a.noProxyForHost ≠ [] → Clean a.noProxyForHost) :
    taken (writeRcFile a) = shortLines (rcLines a) := by
  have hTail : ∀ line ∈ noProxyLines a, '\n' ∉ line := by
    rw [noProxyLines, List.forall_mem_cons, List.forall_mem_append]
    refine ⟨by decide, ?_, fun line hLine => (linesBehind_whole line hLine).1.newline⟩
    split
    next => exact fun line hLine => absurd hLine List.not_mem_nil
    next hSome =>
      rw [List.forall_mem_singleton]
      exact (assignment_clean (hNoProxy hSome) _).newline
  have hAll : ∀ line ∈ rcLines a, '\n' ∉ line := by
    rw [rcLines, List.forall_mem_append, List.forall_mem_cons, List.forall_mem_append, proxyLines,
      List.forall_mem_append]
    refine ⟨fun line hLine => (linesBefore_whole a line hLine).1.newline, (assignment_clean hRoot _).newline,
      fun line hLine => (linesBetween_whole a line hLine).1.newline, ?_, hTail⟩
    split
    next => exact fun line hLine => absurd hLine List.not_mem_nil
    next hSome =>
      rw [List.forall_mem_singleton]
      exact (assignment_clean (hProxy hSome) _).newline
  rw [taken, writeRcFile, terminated_written hAll, shortLines]

/-- What is read up to the proxy. -/
theorem written_file_read (hRoot : Clean a.cacheRoot) (hProxy : a.proxyServerHost ≠ [] → Clean (proxyText a))
    (hNoProxy : a.noProxyForHost ≠ [] → Clean a.noProxyForHost) (b : RCReader) :
    (¬Short (assignment .cacheRoot a.cacheRoot) ∧ readRcFile (writeRcFile a) b = .ok () (setBefore a b)) ∨
    (Short (assignment .cacheRoot a.cacheRoot) ∧ readRcFile (writeRcFile a) b =
      (setCacheRoot a.cacheRoot >>= fun _ => (linesBetween a ++ shortLines (proxyLines a)).forM processLine)
        (setBefore a b)) := by
  rw [readRcFile_eq, taken_written hRoot hProxy hNoProxy, rcLines, shortLines_append (linesBefore_whole a),
    run_append (linesBefore_read a b)]
  by_cases hShort : Short (assignment .cacheRoot a.cacheRoot)
  · rw [shortLines_short hShort, shortLines_append (linesBetween_whole a), forM_line, processLine_assignment hRoot]
    exact .inr ⟨hShort, rfl⟩
  · rw [shortLines_long hShort]
    exact .inl ⟨hShort, rfl⟩

/-- The reader after the numbers and the cache's directory. -/
def withNumbers (a b : RCReader) : RCReader := setBetween a { setBefore a b with cacheRoot := a.cacheRoot }

theorem numbers_read (hLast : a.cacheRoot.getLast? = some '/') (b : RCReader) :
    (setCacheRoot a.cacheRoot >>= fun _ => (linesBetween a ++ shortLines (proxyLines a)).forM processLine)
      (setBefore a b) = (shortLines (proxyLines a)).forM processLine (withNumbers a b) := by
  have hSome : a.cacheRoot ≠ [] := by
    intro hNone
    rw [hNone] at hLast
    cases hLast
  have hSet : setCacheRoot a.cacheRoot (setBefore a b) = .ok () { setBefore a b with cacheRoot := a.cacheRoot } := by
    rw [setCacheRoot, if_neg hSome, if_pos hLast]
  exact (Call.bind_of_ok hSet).trans (run_append (linesBetween_read a _))

/-- The last setting leaves the others as they are. -/
theorem Restored.noProxy_read (hNumbers : Restored { a with noProxyForHost := [] } rc) (h : Writable a) :
    Restored a (if a.noProxyForHost ≠ [] ∧ Short (assignment .noProxyFor a.noProxyForHost) then
      setNoProxyFor a.noProxyForHost rc else rc) := by
  split
  next hBoth =>
    rw [setNoProxyFor, cut_none (h.noProxy hBoth.1).2.1]
    exact { hNumbers with noProxy := fun _ => rfl }
  next hNone =>
    exact { hNumbers with noProxy := fun hSome => absurd ⟨hSome, (h.noProxy hSome).2.2⟩ hNone }

theorem restores_of_writable (h : Writable a) : Restores a := by
  intro b
  have hProxy : a.proxyServerHost ≠ [] → Clean (proxyText a) := fun hSome =>
    proxyText_clean (h.proxy hSome).1 (h.proxy hSome).2.1.1 (h.proxy hSome).2.1.2
  have hNoProxy : a.noProxyForHost ≠ [] → Clean a.noProxyForHost := fun hSome => (h.noProxy hSome).1
  rcases written_file_read h.cacheRoot.1 hProxy hNoProxy b with ⟨hLong, -⟩ | ⟨-, hRun⟩
  · exact absurd h.cacheRoot.2.2 hLong
  rw [hRun, numbers_read h.cacheRoot.2.1]
  rcases proxyLines_read hProxy (withNumbers a b) with ⟨hNone, hLines⟩ | ⟨hSome, hLong, -⟩ | ⟨hSome, -, hLines⟩
  · rw [hLines, noProxyLines_read hNoProxy]
    refine ⟨_, rfl, Restored.noProxy_read ?_ h⟩
    exact ⟨rfl, rfl, rfl, rfl, rfl, rfl, rfl, rfl, rfl, fun hSome => absurd hNone hSome, fun hSome => absurd rfl hSome⟩
  · exact absurd (h.proxy hSome).2.2.2 hLong
  · have hRead := proxyText_read (h.proxy hSome).2.2.1 (h.proxy hSome).1 (withNumbers a b)
    rw [hLines, Call.bind_of_ok hRead, noProxyLines_read hNoProxy]
    refine ⟨_, rfl, Restored.noProxy_read ?_ h⟩
    exact ⟨rfl, rfl, rfl, rfl, rfl, rfl, rfl, rfl, rfl, fun _ => ⟨(h.proxy hSome).1.symm, rfl, rfl, rfl⟩,
      fun hSome => absurd rfl hSome⟩

theorem noProxy_fits (hClean : a.noProxyForHost ≠ [] → Clean a.noProxyForHost) (hNone : rc.noProxyForHost = [])
    (hRun : (shortLines (noProxyLines a)).forM processLine rc = .ok () rc')
    (hRestored : a.noProxyForHost ≠ [] → rc'.noProxyForHost = a.noProxyForHost) (hSome : a.noProxyForHost ≠ []) :
    ',' ∉ a.noProxyForHost ∧ Short (assignment .noProxyFor a.noProxyForHost) := by
  rw [noProxyLines_read hClean] at hRun
  have hHost := hRestored hSome
  by_cases hShort : Short (assignment .noProxyFor a.noProxyForHost)
  · rw [if_pos ⟨hSome, hShort⟩] at hRun
    refine ⟨fun hMem => ?_, hShort⟩
    obtain ⟨u, v, hSplit, hu⟩ := List.eq_append_cons_of_mem hMem
    cases hRun
    rw [setNoProxyFor, hSplit, cut_some hu] at hHost
    have hLength := congrArg List.length hHost
    simp only [List.length_append, List.length_cons] at hLength
    omega
  · rw [if_neg fun hBoth => hShort hBoth.2] at hRun
    cases hRun
    exact absurd (hHost.symm.trans hNone) hSome

/-- The lines behind the proxy leave it as it is. -/
theorem noProxyLines_frame (hClean : a.noProxyForHost ≠ [] → Clean a.noProxyForHost)
    (hRun : (shortLines (noProxyLines a)).forM processLine rc = .ok () rc') :
    rc'.proxyServerUserpw = rc.proxyServerUserpw ∧ rc'.proxyServerHost = rc.proxyServerHost := by
  rw [noProxyLines_read hClean] at hRun
  cases hRun
  split
  · rw [setNoProxyFor]
    split <;> exact ⟨rfl, rfl⟩
  · exact ⟨rfl, rfl⟩

theorem setProxyServer_noProxy {proxy : Word} (hRun : setProxyServer proxy rc = .ok () rc') :
    rc'.noProxyForHost = rc.noProxyForHost := by
  rw [setProxyServer] at hRun
  split at hRun
  · dsimp only at hRun
    split at hRun
    · cases hRun
      exact (setParts_frame _ _).2.1
    · cases hRun
  · cases hRun
    exact (setParts_frame _ _).2.1

theorem writable_of_restores (h : Restores a) : Writable a := by
  obtain ⟨rc, hRun, hRestored⟩ := h .initial
  have hTidy : Tidy rc := by
    rw [readRcFile_eq] at hRun
    refine lines_tidy (fun line hLine => lines_newline (writeRcFile a) line ?_) initial_tidy hRun
    rw [← taken_skipped]
    exact List.mem_append_left _ hLine
  have hRoot : Clean a.cacheRoot := hRestored.cacheRoot ▸ hTidy.cacheRoot
  have hParts (hSome : a.proxyServerHost ≠ []) : a.proxyServerProtocol = HTTP ∧ Clean a.proxyServerUserpw ∧
      Clean a.proxyServerHost := by
    obtain ⟨hProtocol, hUser, hHost, -⟩ := hRestored.proxy hSome
    exact ⟨hProtocol.symm.trans (hTidy.protocol (hHost ▸ hSome)), hUser ▸ hTidy.userpw, hHost ▸ hTidy.host⟩
  have hProxy : a.proxyServerHost ≠ [] → Clean (proxyText a) := fun hSome =>
    proxyText_clean (hParts hSome).1 (hParts hSome).2.1 (hParts hSome).2.2
  have hNoProxy : a.noProxyForHost ≠ [] → Clean a.noProxyForHost := fun hSome =>
    hRestored.noProxy hSome ▸ hTidy.noProxy
  rcases written_file_read hRoot hProxy hNoProxy .initial with ⟨hLong, hRead⟩ | ⟨hShort, hRead⟩
  · rw [hRead] at hRun
    cases hRun
    have hNone : a.cacheRoot = [] := hRestored.cacheRoot.symm
    rw [hNone] at hLong
    exact absurd (by decide) hLong
  have hLast : a.cacheRoot.getLast? = some '/' := by
    rcases hRestored.cacheRoot ▸ hTidy.rootEnd with hNone | hLast
    · rw [hRead] at hRun
      obtain ⟨_, _, hSet, -⟩ := Call.bind_ok.mp hRun
      rw [setCacheRoot, if_pos hNone] at hSet
      cases hSet
    · exact hLast
  rw [hRead, numbers_read hLast] at hRun
  rcases proxyLines_read hProxy (withNumbers a .initial) with ⟨hNone, hLines⟩ | ⟨hSome, -, hLines⟩ | ⟨hSome, hFits,
    hLines⟩
  · rw [hLines] at hRun
    exact ⟨⟨hRoot, hLast, hShort⟩, fun hSome => absurd hNone hSome, fun hSome =>
      ⟨hNoProxy hSome, noProxy_fits hNoProxy rfl hRun hRestored.noProxy hSome⟩⟩
  · rw [hLines] at hRun
    cases hRun
    exact absurd (hRestored.proxy hSome).2.2.1.symm hSome
  · rw [hLines] at hRun
    obtain ⟨_, rc₂, hSet, hRest⟩ := Call.bind_ok.mp hRun
    obtain ⟨hUser, hHost⟩ := noProxyLines_frame hNoProxy hRest
    obtain ⟨-, hUser', hHost', -⟩ := hRestored.proxy hSome
    have hSeparated := separated_of_read (hParts hSome).1 hSet (hUser.symm.trans hUser') (hHost.symm.trans hHost')
    exact ⟨⟨hRoot, hLast, hShort⟩, fun _ => ⟨(hParts hSome).1, (hParts hSome).2, hSeparated, hFits⟩, fun hSome' =>
      ⟨hNoProxy hSome', noProxy_fits hNoProxy (setProxyServer_noProxy hSet) hRest hRestored.noProxy hSome'⟩⟩

/-- The file is applied whole if no setting stands on a line that does not fit or behind the last newline, and in bounds
unless an empty cache directory comes first of what ends the reading. A proxy is stored by its parts if they hold no
separator that is looked for before they end, and a file restores the settings it was written from if their texts are
such lines. -/
theorem rcFile_iff (content : Word) (v : ProxyValue) (a : RCReader) :
    (AppliesAll content ↔ ∀ line ∈ skipped content, isSetting line = false) ∧
    (InBounds content ↔ (applied content).findSome? failure ≠ some .outOfBounds) ∧
    (v.Stored ↔ v.Separable ∧ v.PlainPort) ∧ (Restores a ↔ Writable a) :=
  ⟨appliesAll_iff content, inBounds_iff content, v.stored_iff, writable_of_restores, restores_of_writable⟩

/-- The last line of a file that does not end with a newline. -/
theorem last_line_lost : ¬AppliesAll "DEFLATE=1".toList := by
  rw [appliesAll_iff]
  intro hAll
  exact absurd (hAll "DEFLATE=1".toList (by decide)) (by decide)

end RCReader

end Libdap.Client
