import Libdap.Http.TableInvariant
import Libdap.Http.Extraction

/-! # An index written and read again

What comes back is what was written unless a blank, a null character or the word for no ETag is in a
field, or a line is longer than the reader's buffer.
-/

namespace Libdap.Http
open Core Constraint HTTPCacheTable
set_option autoImplicit false

def HTTPCacheTable.Holds (t : HTTPCacheTable) (e : CacheEntry) : Prop :=
  ∃ s < CACHE_TABLE_SIZE, ∃ a, some (a, e) ∈ t.slots s

/-- The fields of an entry that an index keeps. -/
structure Kept where
  url : Word
  cachename : Word
  etag : Word
  lm : Int
  expires : Int
  size : Nat
  hash : Int
  hits : Int
  freshnessLifetime : Int
  responseTime : Int
  correctedInitialAge : Int
  mustRevalidate : Bool
  deriving DecidableEq, Repr

def CacheEntry.kept (e : CacheEntry) : Kept where
  url := e.url
  cachename := e.cachename
  etag := e.etag
  lm := e.lm
  expires := e.expires
  size := e.size
  hash := e.hash
  hits := e.hits
  freshnessLifetime := e.freshnessLifetime
  responseTime := e.responseTime
  correctedInitialAge := e.correctedInitialAge
  mustRevalidate := e.mustRevalidate

/-- An entry as `cache_response` makes it, with any URL it takes and any headers. -/
structure Created (e : CacheEntry) : Prop where
  url : (find "http:".toList e.url).isSome ∨ (find "https:".toList e.url).isSome
  hash : e.hash = getHash e.url
  cachename : e.cachename ≠ []
  time : ∀ n ∈ [e.lm, e.expires, e.freshnessLifetime, e.responseTime, e.correctedInitialAge],
    -LONG_MAX - 1 ≤ n ∧ n ≤ LONG_MAX
  hits : -INT_MAX - 1 ≤ e.hits ∧ e.hits ≤ INT_MAX
  size : e.size ≤ ULONG_MAX

/-- The index is read into a new table, and the entries are the same. -/
def RoundTrip (t : HTTPCacheTable) : Prop :=
  ∃ t', cacheIndexRead (some t.indexText) (.new t.blockSize) = .ok true t' ∧
    ∀ k, (∃ e, t'.Holds e ∧ e.kept = k) ↔ ∃ e, t.Holds e ∧ e.kept = k

def NoBlank (w : Word) : Prop := ∀ c ∈ w, isSpace c = false ∧ c ≠ Char.ofNat 0

/-- No field of the entry is taken for anything else. -/
structure Plain (e : CacheEntry) : Prop where
  url : NoBlank e.url
  cachename : NoBlank e.cachename
  etag : NoBlank e.etag
  notEmpty : e.etag ≠ CACHE_EMPTY_ETAG

/-- The line fits into the buffer of 1024 characters. -/
def Fits (e : CacheEntry) : Prop := (indexLine e).length ≤ 1023

/-! ## Lines -/

theorem NoBlank.no_null {w : Word} (h : NoBlank w) : Char.ofNat 0 ∉ w :=
  fun hNull => (h _ hNull).2 rfl

theorem NoBlank.of_all {w : Word} (h : w.all (fun c => !isSpace c && c ≠ Char.ofNat 0) = true) : NoBlank w := by
  intro c hc
  simpa using List.all_eq_true.mp h c hc

theorem NoBlank.isWord {w : Word} (h : NoBlank w) (hNe : w ≠ []) : IsWord w :=
  ⟨hNe, fun c hc => (h c hc).1⟩

theorem find_nil_ne {pattern url : Word} (hPattern : pattern ≠ []) (h : (find pattern url).isSome) : url ≠ [] := by
  rintro rfl
  cases pattern with
  | nil => exact hPattern rfl
  | cons c cs => cases h

theorem Created.url_ne {e : CacheEntry} (h : Created e) : e.url ≠ [] := by
  rcases h.url with hFind | hFind
  · exact find_nil_ne (by simp) hFind
  · exact find_nil_ne (by simp) hFind

def etagText (e : CacheEntry) : Word := if e.etag = [] then CACHE_EMPTY_ETAG else e.etag

theorem etagText_noBlank {e : CacheEntry} (h : Plain e) : NoBlank (etagText e) := by
  rw [etagText]
  split
  · exact NoBlank.of_all (by decide)
  · exact h.etag

theorem etagText_ne (e : CacheEntry) : etagText e ≠ [] := by
  rw [etagText]
  split
  · decide
  · assumption

theorem etagText_read {e : CacheEntry} (h : Plain e) :
    (if etagText e = CACHE_EMPTY_ETAG then [] else etagText e) = e.etag := by
  rw [etagText]
  split
  · rename_i hEmpty
    rw [if_pos rfl, hEmpty]
  · rw [if_neg h.notEmpty]

theorem integer_part (n : Int) : NumberPart (integer n) ∧ integer n ≠ [] := by
  cases n with
  | ofNat n => exact ⟨⟨decimal n, digits_of_decimal n, Or.inl rfl⟩, decimal_ne_nil n⟩
  | negSucc n => exact ⟨⟨decimal (n + 1), digits_of_decimal (n + 1), Or.inr rfl⟩, List.cons_ne_nil _ _⟩

theorem flag_eq (b : Bool) : flag b = integer b.toNat := by
  cases b <;> decide

theorem NumberPart.noBlank {w : Word} (h : NumberPart w) : NoBlank w := by
  have hDigit : ∀ c : Char, isDigit c = true → isSpace c = false ∧ c ≠ Char.ofNat 0 := by
    intro c hc
    refine ⟨digit_not_space hc, ?_⟩
    rintro rfl
    exact absurd hc (by decide)
  obtain ⟨ds, hDigits, rfl | rfl⟩ := h
  · exact fun c hc => hDigit c (hDigits c hc)
  · intro c hc
    rcases List.mem_cons.mp hc with rfl | hTail
    · decide
    · exact hDigit c (hDigits c hTail)

/-- The line from the hash on. -/
def lineEnd (e : CacheEntry) : Word :=
  ' ' :: (integer e.hash ++ ' ' :: (integer e.hits ++ ' ' :: (integer e.freshnessLifetime ++
    ' ' :: (integer e.responseTime ++ ' ' :: (integer e.correctedInitialAge ++
      ' ' :: (flag e.mustRevalidate ++ "\r\n".toList))))))

/-- The four numbers in front of the hash. -/
def lineMiddle (e : CacheEntry) : Word :=
  ' ' :: (integer e.lm ++ ' ' :: (integer e.expires ++ ' ' :: (integer (asLong e.size) ++ ' ' :: flag e.range)))

theorem indexFields_eq {e : CacheEntry} (h : Plain e) :
    indexFields e = [e.url, e.cachename, etagText e, integer e.lm, integer e.expires, integer (asLong e.size),
      flag e.range, integer e.hash, integer e.hits, integer e.freshnessLifetime, integer e.responseTime,
      integer e.correctedInitialAge, flag e.mustRevalidate] := by
  rw [indexFields, cString_of_no_null h.url.no_null, cString_of_no_null h.cachename.no_null,
    cString_of_no_null h.etag.no_null, etagText]

theorem joined_thirteen (a b c d e f g h i j k l m tail : Word) :
    joined [a, b, c, d, e, f, g, h, i, j, k, l, m] ++ tail =
      a ++ ' ' :: (b ++ ' ' :: (c ++ ((' ' :: (d ++ ' ' :: (e ++ ' ' :: (f ++ ' ' :: g)))) ++
        (' ' :: (h ++ ' ' :: (i ++ ' ' :: (j ++ ' ' :: (k ++ ' ' :: (l ++ ' ' :: (m ++ tail)))))))))) := by
  simp only [joined, List.append_assoc, List.cons_append]

theorem indexLine_eq {e : CacheEntry} (h : Plain e) :
    indexLine e = e.url ++ ' ' :: (e.cachename ++ ' ' :: (etagText e ++ (lineMiddle e ++ lineEnd e))) := by
  rw [indexLine, indexFields_eq h]
  exact joined_thirteen _ _ _ _ _ _ _ _ _ _ _ _ _ _

theorem four_append (a b c d rest : Word) :
    (' ' :: (a ++ ' ' :: (b ++ ' ' :: (c ++ ' ' :: d)))) ++ rest =
      ' ' :: (a ++ ' ' :: (b ++ ' ' :: (c ++ ' ' :: (d ++ rest)))) := by
  simp only [List.append_assoc, List.cons_append]

theorem lineMiddle_numbers (e : CacheEntry) : Numbers 4 (lineMiddle e) := by
  have hNumber : ∀ (k : Nat) (n : Int) (rest : Word), Ends rest → Numbers k rest →
      Numbers (k + 1) (' ' :: (integer n ++ rest)) :=
    fun k n rest hEnds hRest => .space rfl (.part (integer_part n).1 (integer_part n).2 hEnds hRest)
  have hLast := hNumber 0 e.range.toNat [] Ends.nil (.nil 0)
  rw [List.append_nil, ← flag_eq] at hLast
  exact hNumber 3 _ _ (Ends.blank _) (hNumber 2 _ _ (Ends.blank _) (hNumber 1 _ _ (Ends.blank _) hLast))

theorem lineEnd_numbers (e : CacheEntry) : Numbers 6 (lineEnd e) := by
  have hNumber : ∀ (k : Nat) (n : Int) (rest : Word), Ends rest → Numbers k rest →
      Numbers (k + 1) (' ' :: (integer n ++ rest)) :=
    fun k n rest hEnds hRest => .space rfl (.part (integer_part n).1 (integer_part n).2 hEnds hRest)
  have hReturn : Numbers 0 "\r\n".toList := .space rfl (.space rfl (.nil 0))
  have hLast := hNumber 0 e.mustRevalidate.toNat "\r\n".toList Ends.lineBreak hReturn
  rw [← flag_eq] at hLast
  exact hNumber 5 _ _ (Ends.blank _) (hNumber 4 _ _ (Ends.blank _) (hNumber 3 _ _ (Ends.blank _)
    (hNumber 2 _ _ (Ends.blank _) (hNumber 1 _ _ (Ends.blank _) hLast))))

theorem indexLine_no_null {e : CacheEntry} (h : Plain e) : Char.ofNat 0 ∉ indexLine e := by
  have hNumber : ∀ n, Char.ofNat 0 ∉ integer n := fun n => (integer_part n).1.noBlank.no_null
  have hReturn : Char.ofNat 0 ∉ "\r\n".toList := by decide
  rw [indexLine_eq h, lineMiddle, lineEnd, flag_eq, flag_eq]
  simp only [List.mem_append, List.mem_cons, not_or]
  have hSpace : Char.ofNat 0 ≠ ' ' := by decide
  exact ⟨h.url.no_null, hSpace, h.cachename.no_null, hSpace, (etagText_noBlank h).no_null,
    ⟨hSpace, hNumber _, hSpace, hNumber _, hSpace, hNumber _, hSpace, hNumber _⟩, hSpace, hNumber _, hSpace,
    hNumber _, hSpace, hNumber _, hSpace, hNumber _, hSpace, hNumber _, hSpace, hNumber _, hReturn⟩

/-- A line that is read whole gives the entry back. -/
theorem parse_indexLine {e : CacheEntry} (hCreated : Created e) (h : Plain e) :
    (cacheIndexParseLine (indexLine e)).kept = e.kept := by
  have hLine : cString (indexLine e) = e.url ++ ' ' :: (e.cachename ++ ' ' :: (etagText e ++
      (lineMiddle e ++ lineEnd e))) := by
    rw [cString_of_no_null (indexLine_no_null h), indexLine_eq h]
  have hSpaces : ∀ c ∈ [' '], isSpace c = true := by simp [isSpace]
  have hTime : ∀ n ∈ [e.lm, e.expires, e.freshnessLifetime, e.responseTime, e.correctedInitialAge],
      ∀ (old : Int) (rest : Word), Ends rest → extractLong old (some (' ' :: (integer n ++ rest))) = (n, some rest) :=
    fun n hn old rest hEnds => extractInt_integer (hCreated.time n hn).1 (hCreated.time n hn).2 hEnds
  have hHash : -INT_MAX - 1 ≤ e.hash ∧ e.hash ≤ INT_MAX := by
    have hBound := getHash_lt e.url
    rw [CACHE_TABLE_SIZE] at hBound
    rw [hCreated.hash, INT_MAX]
    omega
  have hMiddle : lineMiddle e ++ lineEnd e = ' ' :: (integer e.lm ++ ' ' :: (integer e.expires ++
      ' ' :: (integer (asLong e.size) ++ ' ' :: (flag e.range ++ lineEnd e)))) := by
    rw [lineMiddle]
    exact four_append _ _ _ _ _
  rw [hMiddle] at hLine
  have hUrl := extractWord_word [] (by simp) (h.url.isWord hCreated.url_ne) (Ends.blank (e.cachename ++
    ' ' :: (etagText e ++ ' ' :: (integer e.lm ++ ' ' :: (integer e.expires ++
      ' ' :: (integer (asLong e.size) ++ ' ' :: (flag e.range ++ lineEnd e)))))))
  have hName := extractWord_word [' '] hSpaces (h.cachename.isWord hCreated.cachename)
    (Ends.blank (etagText e ++ ' ' :: (integer e.lm ++ ' ' :: (integer e.expires ++
      ' ' :: (integer (asLong e.size) ++ ' ' :: (flag e.range ++ lineEnd e))))))
  have hEtag := extractWord_word [' '] hSpaces ((etagText_noBlank h).isWord (etagText_ne e))
    (Ends.blank (integer e.lm ++ ' ' :: (integer e.expires ++
      ' ' :: (integer (asLong e.size) ++ ' ' :: (flag e.range ++ lineEnd e)))))
  rw [List.nil_append] at hUrl
  rw [List.singleton_append] at hName hEtag
  simp only [cacheIndexParseLine, hLine, hUrl, hName, hEtag, hTime e.lm (by simp) (-1) _ (Ends.blank _),
    hTime e.expires (by simp) (-1) _ (Ends.blank _), extractUnsigned_asLong 0 hCreated.size (Ends.blank _),
    etagText_read h]
  rw [lineEnd]
  simp only [parseTail, extractBool_flag _ _ (Ends.blank _), extractShortInt,
    extractInt_integer hHash.1 hHash.2 (Ends.blank _), extractInt_integer hCreated.hits.1 hCreated.hits.2
      (Ends.blank _),
    hTime e.freshnessLifetime (by simp) _ _ (Ends.blank _), hTime e.responseTime (by simp) _ _ (Ends.blank _),
    hTime e.correctedInitialAge (by simp) _ _ (Ends.blank _)]
  rw [extractBool_flag _ e.mustRevalidate Ends.lineBreak]
  rfl

/-! ## Lines cut into pieces -/

theorem fgets_line {n : Nat} {body : Word} (rest : Word) (hBody : '\n' ∉ body) (hLength : body.length < n) :
    fgets n (body ++ '\n' :: rest) = (body ++ ['\n'], rest) := by
  induction body generalizing n with
  | nil =>
    obtain ⟨m, rfl⟩ := Nat.exists_eq_add_one.mpr hLength
    rfl
  | cons c cs ih =>
    obtain ⟨m, rfl⟩ := Nat.exists_eq_add_one.mpr (Nat.zero_lt_of_lt hLength)
    rw [List.mem_cons, not_or] at hBody
    have hRest := ih hBody.2 (Nat.lt_of_succ_lt_succ hLength)
    rw [List.cons_append, fgets, if_neg (Ne.symm hBody.1), hRest, List.cons_append]

theorem fgets_long {n : Nat} {body : Word} (rest : Word) (hBody : '\n' ∉ body) (hLength : n ≤ body.length) :
    fgets n (body ++ rest) = (body.take n, body.drop n ++ rest) := by
  induction body generalizing n with
  | nil =>
    obtain rfl := Nat.le_zero.mp hLength
    rfl
  | cons c cs ih =>
    cases n with
    | zero => rfl
    | succ n =>
      rw [List.mem_cons, not_or] at hBody
      have hRest := ih hBody.2 (Nat.le_of_succ_le_succ hLength)
      rw [List.cons_append, fgets, if_neg (Ne.symm hBody.1), hRest, List.take_succ_cons, List.drop_succ_cons]

theorem fgets_split (n : Nat) (file : Word) : (fgets n file).1 ++ (fgets n file).2 = file := by
  induction file generalizing n with
  | nil => cases n <;> rfl
  | cons c cs ih =>
    cases n with
    | zero => rfl
    | succ n =>
      rw [fgets]
      split
      · rfl
      · rw [List.cons_append, ih n]

theorem fgets_shorter (n : Nat) (c : Char) (cs : Word) : (fgets (n + 1) (c :: cs)).2.length ≤ cs.length := by
  rw [fgets]
  split
  · exact le_refl _
  · have hSplit := congrArg List.length (fgets_split n cs)
    rw [List.length_append] at hSplit
    exact (Nat.le_add_left _ _).trans hSplit.le

/-- So many calls are enough. -/
theorem pieces_enough {fuel : Nat} {file : Word} (h : file.length ≤ fuel) : pieces fuel file = piecesOf file := by
  rw [piecesOf]
  induction fuel using Nat.strong_induction_on generalizing file with
  | _ fuel ih =>
    cases file with
    | nil => cases fuel <;> rfl
    | cons c cs =>
      obtain ⟨fuel, rfl⟩ := Nat.exists_eq_add_one.mpr (Nat.zero_lt_of_lt h)
      have hShorter := fgets_shorter 1022 c cs
      have hLeft : cs.length ≤ fuel := Nat.le_of_succ_le_succ h
      rw [pieces, List.length_cons, pieces]
      rw [ih fuel (Nat.lt_succ_self fuel) (hShorter.trans hLeft)]
      rcases Nat.lt_or_ge cs.length (fuel + 1) with hLess | hMore
      · rw [ih cs.length hLess hShorter]
      · exact absurd hLeft (by omega)

theorem piecesOf_fgets {file : Word} (h : file ≠ []) :
    piecesOf file = (fgets 1023 file).1 :: piecesOf (fgets 1023 file).2 := by
  cases file with
  | nil => exact absurd rfl h
  | cons c cs =>
    rw [piecesOf, List.length_cons, pieces]
    exact congrArg _ (pieces_enough (fgets_shorter 1022 c cs))

theorem indexLine_body {e : CacheEntry} (h : Plain e) : ∃ body, indexLine e = body ++ ['\n'] ∧ '\n' ∉ body := by
  refine ⟨joined (indexFields e) ++ ['\r'], ?_, ?_⟩
  · rw [indexLine, List.append_assoc]
    rfl
  · have hNumber : ∀ n, '\n' ∉ integer n := fun n hMem => absurd ((integer_part n).1.noBlank _ hMem).1 (by decide)
    have hWord : ∀ w, NoBlank w → '\n' ∉ w := fun w hw hMem => absurd (hw _ hMem).1 (by decide)
    have hSpace : '\n' ≠ ' ' := by decide
    rw [indexFields_eq h, joined_thirteen, flag_eq, flag_eq]
    simp only [List.mem_append, List.mem_cons, not_or]
    exact ⟨hWord _ h.url, hSpace, hWord _ h.cachename, hSpace, hWord _ (etagText_noBlank h),
      ⟨hSpace, hNumber _, hSpace, hNumber _, hSpace, hNumber _, hSpace, hNumber _⟩, hSpace, hNumber _, hSpace,
      hNumber _, hSpace, hNumber _, hSpace, hNumber _, hSpace, hNumber _, hSpace, hNumber _, by decide,
      List.not_mem_nil⟩

theorem piecesOf_line {e : CacheEntry} (h : Plain e) (hFits : Fits e) (rest : Word) :
    piecesOf (indexLine e ++ rest) = indexLine e :: piecesOf rest := by
  obtain ⟨body, hLine, hBody⟩ := indexLine_body h
  have hLength : body.length < 1023 := by
    rw [Fits, hLine, List.length_append, List.length_singleton] at hFits
    omega
  rw [hLine, List.append_assoc, List.singleton_append, piecesOf_fgets (by simp), fgets_line rest hBody hLength]

/-! ## A line that is too long -/

/-- What `cache_index_parse_line` has left after the ETag. -/
def afterWords (line : Word) : Extraction :=
  (extractWord (extractWord (extractWord (some (cString line))).2).2).2

theorem hash_unread {line : Word} (h : Few 4 (afterWords line)) : (cacheIndexParseLine line).hash = -1 := by
  have hNone : Few 0 (extractBool false (extractUnsigned 0 (extractLong (-1) (extractLong (-1)
      (afterWords line)).2).2).2).2 :=
    (((h.extractInt _ _ _).extractInt _ _ _).extractUnsigned 0).extractBool false
  exact hNone.unread _ _ _

theorem cString_start (line : Word) : cString line <+: line := List.takeWhile_prefix _

theorem Numbers.of_start {k : Nat} {a text : Word} (h : Numbers k text) (hPrefix : a <+: text) : Numbers k a := by
  obtain ⟨b, rfl⟩ := hPrefix
  exact h.left

/-- Six numbers are not enough for the hash. -/
theorem hash_unread_numbers {line : Word} (h : Numbers 6 line) : (cacheIndexParseLine line).hash = -1 := by
  have hString : Few 6 (some (cString line)) := by
    rintro _ ⟨⟩
    exact h.of_start (cString_start line)
  have hWords : Few 3 (afterWords line) := hString.extractWord.extractWord.extractWord
  exact hash_unread fun text hText => (hWords text hText).more

/-- The stream has failed, or what is left in it is where the text begins. -/
def Within (s : Extraction) (text : Word) : Prop := ∀ p, s = some p → p <+: text

theorem dropWhile_start {p text : Word} (f : Char → Bool) (h : p <+: text) : p.dropWhile f <+: text.dropWhile f := by
  induction p generalizing text with
  | nil => exact List.nil_prefix
  | cons c cs ih =>
    obtain ⟨more, rfl⟩ := h
    rw [List.cons_append, List.dropWhile_cons, List.dropWhile_cons]
    split
    · exact ih (List.prefix_append cs more)
    · exact List.prefix_append (c :: cs) more

theorem Within.extractWord {s : Extraction} {text : Word} (h : Within s text) :
    Within (extractWord s).2 (behindWord text) := by
  cases s with
  | none => rintro _ ⟨⟩
  | some p =>
    have hBehind := dropWhile_start notSpace (dropWhile_start isSpace (h p rfl))
    rw [Http.extractWord, Option.map_some]
    cases hText : p.dropWhile isSpace with
    | nil => rintro _ ⟨⟩
    | cons c cs =>
      rw [hText] at hBehind
      rintro _ ⟨⟩
      exact hBehind

theorem behindWord_word {w rest : Word} (hWord : IsWord w) (hEnds : Ends rest) : behindWord (w ++ rest) = rest := by
  rw [behindWord, hWord.not_blank, List.dropWhile_append_of_pos hWord.notSpace, hEnds.dropWhile]

theorem behindWord_blank (text : Word) : behindWord (' ' :: text) = behindWord text := by
  rw [behindWord, List.dropWhile_cons_of_pos (by decide), ← behindWord]

theorem lineMiddle_ends (e : CacheEntry) : Ends (lineMiddle e) := Ends.blank _

/-- A piece that ends before the hash. -/
theorem hash_unread_start {e : CacheEntry} (hCreated : Created e) (h : Plain e) {piece : Word}
    (hPiece : piece <+: e.url ++ ' ' :: (e.cachename ++ ' ' :: (etagText e ++ lineMiddle e))) :
    (cacheIndexParseLine piece).hash = -1 := by
  have hString : Within (some (cString piece)) (e.url ++
      ' ' :: (e.cachename ++ ' ' :: (etagText e ++ lineMiddle e))) := by
    rintro _ ⟨⟩
    exact (cString_start piece).trans hPiece
  have hWords : Within (afterWords piece) (lineMiddle e) := by
    have hThree := hString.extractWord.extractWord.extractWord
    rw [behindWord_word (h.url.isWord hCreated.url_ne) (Ends.blank _), behindWord_blank,
      behindWord_word (h.cachename.isWord hCreated.cachename) (Ends.blank _), behindWord_blank,
      behindWord_word ((etagText_noBlank h).isWord (etagText_ne e)) (lineMiddle_ends e)] at hThree
    exact hThree
  exact hash_unread fun text hText => (lineMiddle_numbers e).of_start (hWords text hText)

/-- One of the first two pieces of a line that is too long has no hash. -/
theorem long_line_unread {e : CacheEntry} (hCreated : Created e) (h : Plain e) (hLong : ¬ Fits e) (rest : Word) :
    ∃ piece ∈ piecesOf (indexLine e ++ rest), (cacheIndexParseLine piece).hash = -1 := by
  obtain ⟨body, hLine, hBody⟩ := indexLine_body h
  have hLength : 1023 ≤ body.length := by
    rw [Fits, hLine, List.length_append, List.length_singleton] at hLong
    omega
  have hPieces : piecesOf (indexLine e ++ rest) = body.take 1023 :: piecesOf (body.drop 1023 ++ '\n' :: rest) := by
    rw [hLine, List.append_assoc, List.singleton_append, piecesOf_fgets (by simp), fgets_long _ hBody hLength]
  have hStart : indexLine e = (e.url ++ ' ' :: (e.cachename ++ ' ' :: (etagText e ++ lineMiddle e))) ++ lineEnd e := by
    rw [indexLine_eq h]
    simp only [List.append_assoc, List.cons_append]
  have hFirst : body.take 1023 <+: indexLine e := by
    rw [hLine]
    exact (List.take_prefix 1023 body).trans (List.prefix_append body _)
  rw [hStart] at hFirst
  rcases List.prefix_or_prefix_of_prefix hFirst (List.prefix_append _ (lineEnd e)) with hIn | hOver
  · refine ⟨body.take 1023, ?_, hash_unread_start hCreated h hIn⟩
    rw [hPieces]
    exact List.mem_cons_self
  · obtain ⟨more, hMore⟩ := hOver
    have hEnd : lineEnd e = more ++ (body.drop 1023 ++ ['\n']) := by
      apply List.append_cancel_left
      rw [← hStart, hLine, ← List.append_assoc, hMore, ← List.append_assoc, List.take_append_drop]
    have hNumbers : Numbers 6 (body.drop 1023 ++ ['\n']) := by
      have hAll := lineEnd_numbers e
      rw [hEnd] at hAll
      exact hAll.right
    have hRest : '\n' ∉ body.drop 1023 := fun hMem => hBody (List.mem_of_mem_drop hMem)
    refine ⟨(fgets 1023 (body.drop 1023 ++ '\n' :: rest)).1, ?_, ?_⟩
    · rw [hPieces, piecesOf_fgets (by simp)]
      exact List.mem_cons_of_mem _ List.mem_cons_self
    · apply hash_unread_numbers
      rcases Nat.lt_or_ge (body.drop 1023).length 1023 with hShort | hLongAgain
      · rw [fgets_line rest hRest hShort]
        exact hNumbers
      · rw [fgets_long _ hRest hLongAgain]
        exact hNumbers.left.of_start (List.take_prefix 1023 _)

/-! ## The table that is read -/

def ValidHash (e : CacheEntry) : Prop := 0 ≤ e.hash ∧ e.hash ≤ CACHE_TABLE_SIZE - 1

theorem addEntry_ok {t t' : HTTPCacheTable} {e : CacheEntry} (hBlock : t.blockSize ≠ 0) :
    addEntryToCacheTable e t = .ok () t' ↔ ValidHash e ∧ t' = push e t := by
  rw [addEntryToCacheTable, Call.bind_ok]
  constructor
  · rintro ⟨_, _, ⟨⟩, hRun⟩
    split at hRun
    · exact absurd hRun Call.throw_not_ok
    · rename_i hHash
      cases hRun
      rw [not_or] at hHash
      exact ⟨⟨Int.not_lt.mp hHash.2, Int.not_lt.mp hHash.1⟩, rfl⟩
  · rintro ⟨⟨hLow, hHigh⟩, rfl⟩
    refine ⟨t, t, rfl, ?_⟩
    have hHash : ¬ (e.hash > CACHE_TABLE_SIZE - 1 ∨ e.hash < 0) := by
      rw [not_or]
      exact ⟨Int.not_lt.mpr hHigh, Int.not_lt.mpr hLow⟩
    rw [if_neg hHash, if_neg hBlock]
    rfl

def pushLines (lines : List Word) (t : HTTPCacheTable) : HTTPCacheTable :=
  lines.foldl (fun t line => push (cacheIndexParseLine line) t) t

theorem addLines_ok {lines : List Word} {t t' : HTTPCacheTable} (hBlock : t.blockSize ≠ 0) :
    addLines lines t = .ok () t' ↔
      (∀ line ∈ lines, ValidHash (cacheIndexParseLine line)) ∧ t' = pushLines lines t := by
  induction lines generalizing t with
  | nil =>
    rw [addLines, Call.pure_ok]
    simp [pushLines]
  | cons line lines ih =>
    rw [addLines, Call.bind_ok]
    have hRest := ih (t := push (cacheIndexParseLine line) t) hBlock
    rw [List.forall_mem_cons]
    constructor
    · rintro ⟨_, t₁, hFirst, hRun⟩
      obtain ⟨hValid, rfl⟩ := (addEntry_ok hBlock).mp hFirst
      obtain ⟨hAll, rfl⟩ := hRest.mp hRun
      exact ⟨⟨hValid, hAll⟩, rfl⟩
    · rintro ⟨⟨hValid, hAll⟩, rfl⟩
      exact ⟨(), _, (addEntry_ok hBlock).mpr ⟨hValid, rfl⟩, hRest.mpr ⟨hAll, rfl⟩⟩

theorem push_holds {t : HTTPCacheTable} {e e' : CacheEntry} (hValid : ValidHash e) :
    (push e t).Holds e' ↔ t.Holds e' ∨ e' = e := by
  have hSlot : e.hash.toNat < CACHE_TABLE_SIZE := by
    obtain ⟨hLow, hHigh⟩ := hValid
    rw [CACHE_TABLE_SIZE] at hHigh ⊢
    omega
  constructor
  · rintro ⟨s, hs, a, hMem⟩
    rw [push] at hMem
    rcases eq_or_ne s e.hash.toNat with rfl | hOther
    · simp only [Function.update_self] at hMem
      rcases List.mem_append.mp hMem with hOld | hNew
      · exact Or.inl ⟨_, hs, a, hOld⟩
      · obtain ⟨-, rfl⟩ := Prod.mk.inj (Option.some.inj (List.mem_singleton.mp hNew))
        exact Or.inr rfl
    · simp only [Function.update_of_ne hOther] at hMem
      exact Or.inl ⟨s, hs, a, hMem⟩
  · rintro (⟨s, hs, a, hMem⟩ | rfl)
    · refine ⟨s, hs, a, ?_⟩
      rw [push]
      rcases eq_or_ne s e.hash.toNat with rfl | hOther
      · simp only [Function.update_self]
        exact List.mem_append_left _ hMem
      · simp only [Function.update_of_ne hOther]
        exact hMem
    · refine ⟨_, hSlot, t.nextAddress, ?_⟩
      rw [push]
      simp only [Function.update_self]
      exact List.mem_append_right _ List.mem_cons_self

theorem pushLines_holds {lines : List Word} {t : HTTPCacheTable} {e : CacheEntry}
    (hValid : ∀ line ∈ lines, ValidHash (cacheIndexParseLine line)) :
    (pushLines lines t).Holds e ↔ t.Holds e ∨ ∃ line ∈ lines, e = cacheIndexParseLine line := by
  induction lines generalizing t with
  | nil => simp [pushLines]
  | cons line lines ih =>
    rw [List.forall_mem_cons] at hValid
    have hRest := ih (t := push (cacheIndexParseLine line) t) hValid.2
    rw [push_holds hValid.1] at hRest
    simp only [List.mem_cons, exists_eq_or_imp]
    rw [← or_assoc]
    exact hRest

theorem new_holds {blockSize : Nat} {e : CacheEntry} : ¬ (HTTPCacheTable.new blockSize).Holds e := by
  rintro ⟨s, -, a, ⟨⟩⟩

theorem newEntries_holds (t : HTTPCacheTable) (n : Int) (e : CacheEntry) :
    HTTPCacheTable.Holds { t with newEntries := n } e ↔ t.Holds e := Iff.rfl

theorem cacheIndexRead_ok {text : Word} {t t' : HTTPCacheTable} (hBlock : t.blockSize ≠ 0) :
    cacheIndexRead (some text) t = .ok true t' ↔
      (∀ line ∈ piecesOf text, ValidHash (cacheIndexParseLine line)) ∧
        ∃ t₁, t₁ = pushLines (piecesOf text) t ∧ t' = { t₁ with newEntries := 0 } := by
  rw [cacheIndexRead, Call.bind_ok]
  constructor
  · rintro ⟨_, t₁, hLines, hRun⟩
    obtain ⟨hValid, hEq⟩ := (addLines_ok hBlock).mp hLines
    cases hRun
    exact ⟨hValid, t₁, hEq, rfl⟩
  · rintro ⟨hValid, t₁, hEq, rfl⟩
    exact ⟨(), t₁, (addLines_ok hBlock).mpr ⟨hValid, hEq⟩, rfl⟩

theorem roundTrip_iff {t : HTTPCacheTable} (hBlock : t.blockSize ≠ 0) :
    RoundTrip t ↔ (∀ line ∈ piecesOf t.indexText, ValidHash (cacheIndexParseLine line)) ∧
      ∀ k, (∃ line ∈ piecesOf t.indexText, (cacheIndexParseLine line).kept = k) ↔ ∃ e, t.Holds e ∧ e.kept = k := by
  have hHolds : (∀ line ∈ piecesOf t.indexText, ValidHash (cacheIndexParseLine line)) → ∀ t₁ : HTTPCacheTable,
      t₁ = pushLines (piecesOf t.indexText) (.new t.blockSize) → ∀ k,
        (∃ e, t₁.Holds e ∧ e.kept = k) ↔ ∃ line ∈ piecesOf t.indexText, (cacheIndexParseLine line).kept = k := by
    rintro hValid t₁ hEq k
    constructor
    · rintro ⟨e, hMem, rfl⟩
      rw [hEq] at hMem
      rcases (pushLines_holds hValid).mp hMem with hNew | ⟨line, hLine, rfl⟩
      · exact absurd hNew new_holds
      · exact ⟨line, hLine, rfl⟩
    · rintro ⟨line, hLine, rfl⟩
      refine ⟨cacheIndexParseLine line, ?_, rfl⟩
      rw [hEq]
      exact (pushLines_holds hValid).mpr (Or.inr ⟨line, hLine, rfl⟩)
  constructor
  · rintro ⟨t', hRun, hSame⟩
    obtain ⟨hValid, t₁, hEq, rfl⟩ := (cacheIndexRead_ok (t := .new t.blockSize) hBlock).mp hRun
    simp only [newEntries_holds] at hSame
    exact ⟨hValid, fun k => (hHolds hValid t₁ hEq k).symm.trans (hSame k)⟩
  · rintro ⟨hValid, hSame⟩
    refine ⟨_, (cacheIndexRead_ok (t := .new t.blockSize) hBlock).mpr ⟨hValid, _, rfl, rfl⟩, ?_⟩
    intro k
    simp only [newEntries_holds]
    exact (hHolds hValid _ rfl k).trans (hSame k)

/-! ## The round trip -/

/-- The entries in the order in which they are written. -/
def HTTPCacheTable.written (t : HTTPCacheTable) : List CacheEntry :=
  (List.range CACHE_TABLE_SIZE).flatMap fun s => (t.slots s).filterMap (Option.map Prod.snd)

theorem written_slot (cells : List Cell) :
    (cells.flatMap fun c => (c.map fun p => indexLine p.2).getD []) =
      (cells.filterMap (Option.map Prod.snd)).flatMap indexLine := by
  induction cells with
  | nil => rfl
  | cons c cells ih =>
    cases c with
    | none => exact ih
    | some p =>
      rw [List.flatMap_cons, ih]
      rfl

theorem indexText_eq (t : HTTPCacheTable) : t.indexText = t.written.flatMap indexLine := by
  rw [indexText, written, List.flatMap_assoc]
  exact List.flatMap_congr fun s _ => written_slot (t.slots s)

theorem mem_written {t : HTTPCacheTable} {e : CacheEntry} : e ∈ t.written ↔ t.Holds e := by
  simp only [written, List.mem_flatMap, List.mem_range, List.mem_filterMap, Option.map_eq_some_iff]
  constructor
  · rintro ⟨s, hs, c, hMem, p, rfl, rfl⟩
    exact ⟨s, hs, p.1, hMem⟩
  · rintro ⟨s, hs, a, hMem⟩
    exact ⟨s, hs, some (a, e), hMem, (a, e), rfl, rfl⟩

/-- Lines that fit are read whole. -/
theorem pieces_whole {es : List CacheEntry} (h : ∀ e ∈ es, Plain e ∧ Fits e) :
    piecesOf (es.flatMap indexLine) = es.map indexLine := by
  induction es with
  | nil => rfl
  | cons e es ih =>
    rw [List.forall_mem_cons] at h
    rw [List.flatMap_cons, piecesOf_line h.1.1 h.1.2, ih h.2, List.map_cons]

/-- When no line is refused, all lines fit. -/
theorem all_fit {es : List CacheEntry} (h : ∀ e ∈ es, Created e ∧ Plain e)
    (hValid : ∀ line ∈ piecesOf (es.flatMap indexLine), ValidHash (cacheIndexParseLine line)) :
    ∀ e ∈ es, Fits e := by
  induction es with
  | nil => simp
  | cons e es ih =>
    rw [List.forall_mem_cons] at h
    rw [List.flatMap_cons] at hValid
    have hFits : Fits e := by
      by_contra hLong
      obtain ⟨piece, hPiece, hHash⟩ := long_line_unread h.1.1 h.1.2 hLong (es.flatMap indexLine)
      have hLow := (hValid piece hPiece).1
      rw [hHash] at hLow
      exact absurd hLow (by decide)
    rw [piecesOf_line h.1.2 hFits, List.forall_mem_cons] at hValid
    exact List.forall_mem_cons.mpr ⟨hFits, ih h.2 hValid.2⟩

theorem word_noBlank {s : Extraction} (h : ∀ text, s = some text → Char.ofNat 0 ∉ text) :
    NoBlank (extractWord s).1 ∧ ∀ text, (extractWord s).2 = some text → Char.ofNat 0 ∉ text := by
  cases s with
  | none =>
    constructor
    · rintro c ⟨⟩
    · rintro text ⟨⟩
  | some text =>
    have hNull := h text rfl
    rw [extractWord, Option.map_some]
    have hLeft : ∀ c ∈ text.dropWhile isSpace, c ∈ text :=
      fun c hc => (List.dropWhile_sublist isSpace).mem hc
    cases hText : text.dropWhile isSpace with
    | nil =>
      constructor
      · rintro c ⟨⟩
      · rintro text ⟨⟩
    | cons c cs =>
      rw [hText] at hLeft
      constructor
      · intro d hd
        refine ⟨?_, ?_⟩
        · simpa [notSpace] using List.mem_takeWhile_imp hd
        · rintro rfl
          exact hNull (hLeft _ ((List.takeWhile_sublist notSpace).mem hd))
      · rintro _ ⟨⟩ hd
        exact hNull (hLeft _ ((List.dropWhile_sublist notSpace).mem hd))

theorem cString_no_null (s : Word) : Char.ofNat 0 ∉ cString s := by
  intro hNull
  have hNot := List.mem_takeWhile_imp hNull
  simp at hNot

/-- What is read has no blanks, and no text for an empty ETag. -/
theorem parsed_plain (line : Word) : Plain (cacheIndexParseLine line) := by
  have hLine : ∀ text, some (cString line) = some text → Char.ofNat 0 ∉ text := by
    rintro _ ⟨⟩
    exact cString_no_null line
  obtain ⟨hUrl, hFirst⟩ := word_noBlank hLine
  obtain ⟨hName, hSecond⟩ := word_noBlank hFirst
  obtain ⟨hEtag, -⟩ := word_noBlank hSecond
  have hTag : (cacheIndexParseLine line).etag =
      if (extractWord (extractWord (extractWord (some (cString line))).2).2).1 = CACHE_EMPTY_ETAG then []
      else (extractWord (extractWord (extractWord (some (cString line))).2).2).1 := rfl
  refine ⟨hUrl, hName, ?_, ?_⟩
  · rw [hTag]
    split
    · rintro c ⟨⟩
    · exact hEtag
  · rw [hTag]
    split
    · decide
    · assumption

theorem Plain.of_kept {e e' : CacheEntry} (h : Plain e) (hKept : e.kept = e'.kept) : Plain e' := by
  have hUrl : e.url = e'.url := congrArg Kept.url hKept
  have hName : e.cachename = e'.cachename := congrArg Kept.cachename hKept
  have hEtag : e.etag = e'.etag := congrArg Kept.etag hKept
  exact ⟨hUrl ▸ h.url, hName ▸ h.cachename, hEtag ▸ h.etag, hEtag ▸ h.notEmpty⟩

/-- An index comes back as it was exactly when all its fields are plain and all its lines fit. -/
theorem index_round_trip_iff {t : HTTPCacheTable} (hCreated : ∀ e, t.Holds e → Created e)
    (hBlock : t.blockSize ≠ 0) : RoundTrip t ↔ ∀ e, t.Holds e → Plain e ∧ Fits e := by
  rw [roundTrip_iff hBlock, indexText_eq]
  simp only [← mem_written] at hCreated ⊢
  constructor
  · rintro ⟨hValid, hSame⟩
    have hPlain : ∀ e ∈ t.written, Plain e := by
      intro e he
      obtain ⟨line, -, hKept⟩ := (hSame e.kept).mpr ⟨e, he, rfl⟩
      exact (parsed_plain line).of_kept hKept
    have hFits := all_fit (fun e he => ⟨hCreated e he, hPlain e he⟩) hValid
    exact fun e he => ⟨hPlain e he, hFits e he⟩
  · intro h
    have hParsed : ∀ e ∈ t.written, (cacheIndexParseLine (indexLine e)).kept = e.kept :=
      fun e he => parse_indexLine (hCreated e he) (h e he).1
    rw [pieces_whole h]
    simp only [List.mem_map, forall_exists_index, and_imp, forall_apply_eq_imp_iff₂]
    constructor
    · intro e he
      have hHash : (cacheIndexParseLine (indexLine e)).hash = e.hash := congrArg Kept.hash (hParsed e he)
      have hBound := getHash_lt e.url
      rw [ValidHash, hHash, (hCreated e he).hash]
      omega
    · intro k
      constructor
      · rintro ⟨_, ⟨e, he, rfl⟩, rfl⟩
        exact ⟨e, he, (hParsed e he).symm⟩
      · rintro ⟨e, he, rfl⟩
        exact ⟨_, ⟨e, he, rfl⟩, hParsed e he⟩

def tagged (etag : Word) : CacheEntry :=
  { CacheEntry.new "http://h/a".toList with cachename := "/cache/dodsAb3dEf".toList, etag := etag }

theorem tagged_created (etag : Word) : Created (tagged etag) where
  url := by
    have hFind : (find "http:".toList "http://h/a".toList).isSome = true := by decide
    exact Or.inl hFind
  hash := rfl
  cachename := List.cons_ne_nil _ _
  time := by simp [tagged, CacheEntry.new, CacheEntry.empty, LONG_MAX]
  hits := by simp [tagged, CacheEntry.new, CacheEntry.empty, INT_MAX]
  size := Nat.zero_le _

def taggedTable (etag : Word) : HTTPCacheTable := push (tagged etag) (.new 4096)

theorem taggedTable_holds {etag : Word} {e : CacheEntry} : (taggedTable etag).Holds e ↔ e = tagged etag := by
  have hBound := getHash_lt (tagged etag).url
  have hValid : ValidHash (tagged etag) := by
    rw [ValidHash, (tagged_created etag).hash]
    omega
  rw [taggedTable, push_holds hValid]
  exact ⟨fun h => h.resolve_left new_holds, Or.inr⟩

theorem quoted_tag_kept : RoundTrip (taggedTable "\"v1\"".toList) := by
  refine (index_round_trip_iff ?_ (by decide)).mpr ?_
  · intro e he
    rw [taggedTable_holds.mp he]
    exact tagged_created _
  · intro e he
    rw [taggedTable_holds.mp he]
    refine ⟨⟨NoBlank.of_all (by decide), NoBlank.of_all (by decide), NoBlank.of_all (by decide), by decide⟩, ?_⟩
    rw [Fits]
    decide

/-- A blank in a quoted tag. -/
theorem tag_with_blank_lost :
    (∀ e, (taggedTable "\"v 1\"".toList).Holds e → Created e) ∧ ¬ RoundTrip (taggedTable "\"v 1\"".toList) := by
  constructor
  · intro e he
    rw [taggedTable_holds.mp he]
    exact tagged_created _
  · intro hTrip
    obtain ⟨-, hSame⟩ := (roundTrip_iff (by decide)).mp hTrip
    obtain ⟨line, -, hKept⟩ := (hSame (tagged "\"v 1\"".toList).kept).mpr ⟨_, taggedTable_holds.mpr rfl, rfl⟩
    have hBlank := ((parsed_plain line).of_kept hKept).etag ' ' (by decide)
    exact absurd hBlank.1 (by decide)

end Libdap.Http
