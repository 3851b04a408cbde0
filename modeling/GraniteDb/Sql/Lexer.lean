/- The lexer reads back what its tokens are written as, and what it refuses. -/

import GraniteDb.Sql.Parser
import Mathlib.Data.FinEnum
import Mathlib.Data.List.TakeWhile

namespace GraniteDb.Sql.Lexer

open Sql.Parser (SqlTokenType)
open List (mem_cons_self mem_cons_of_mem length_append length_cons cons_append not_mem_nil)

def isSpace (c : UInt8) : Bool := c == 32 || 9 ≤ c && c ≤ 13

def isAlpha (c : UInt8) : Bool := 65 ≤ c && c ≤ 90 || 97 ≤ c && c ≤ 122

def isDigit (c : UInt8) : Bool := 48 ≤ c && c ≤ 57

def startsWord (c : UInt8) : Bool := isAlpha c || c == 95

def inWord (c : UInt8) : Bool := isAlpha c || isDigit c || c == 95

def toUpper (c : UInt8) : UInt8 := if 97 ≤ c && c ≤ 122 then c - 32 else c

def quote : UInt8 := 39

def point : UInt8 := 46

def ascii (s : String) : List UInt8 := s.toList.map fun c => UInt8.ofNat c.toNat

/-- `Peek`; beyond the input there are zeros. -/
def peek (rest : List UInt8) : UInt8 := rest.headD 0

theorem peek_cons (c : UInt8) (rest : List UInt8) : peek (c :: rest) = c := rfl

structure SqlToken where
  type : SqlTokenType
  text : List UInt8
  position : Nat
  deriving DecidableEq

def keywords : List (List UInt8 × SqlTokenType) :=
  [("CREATE", SqlTokenType.create), ("TABLE", .table), ("INDEX", .index), ("UNIQUE", .unique),
    ("ON", .onKw), ("INSERT", .insert), ("INTO", .into), ("VALUES", .values), ("SELECT", .select),
    ("FROM", .fromKw), ("WHERE", .whereKw), ("JOIN", .join), ("ORDER", .order), ("BY", .byKw),
    ("GROUP", .group), ("LIMIT", .limitKw), ("AS", .asKw), ("UPDATE", .update), ("SET", .setKw),
    ("DELETE", .deleteKw), ("EXPLAIN", .explainKw), ("AND", .andKw), ("OR", .orKw),
    ("NOT", .notKw), ("TRUE", .trueKw), ("FALSE", .falseKw), ("NULL", .nullKw),
    ("UNION", .unionKw), ("INTERSECT", .intersectKw), ("EXCEPT", .exceptKw), ("ALL", .allKw),
    ("DISTINCT", .distinctKw), ("COUNT", .count), ("SUM", .sum), ("MIN", .min), ("MAX", .max),
    ("BOOLEAN", .booleanT), ("INT", .intT), ("INTEGER", .integerT), ("BIGINT", .bigintT),
    ("DOUBLE", .doubleT), ("VARCHAR", .varcharT), ("ASC", .asc), ("DESC", .desc)].map
    fun entry => (ascii entry.1, entry.2)

def keyword (text : List UInt8) : Option SqlTokenType := keywords.lookup (text.map toUpper)

def punctuation (c : UInt8) : Option SqlTokenType :=
  if c = 44 then some .comma
  else if c = 59 then some .semicolon
  else if c = 46 then some .dot
  else if c = 40 then some .lparen
  else if c = 41 then some .rparen
  else if c = 42 then some .star
  else if c = 61 then some .eq
  else if c = 60 then some .lt
  else if c = 62 then some .gt
  else none

/-- A number after its first digit, and the rest: digits with one point at most. -/
def readNumber : Bool → List UInt8 → List UInt8 × List UInt8
  | _, [] => ([], [])
  | seenDot, c :: rest =>
    if isDigit c then ((readNumber seenDot rest).map (c :: ·) id)
    else if c = point && !seenDot then ((readNumber true rest).map (c :: ·) id)
    else ([], c :: rest)

/-- A string after its first quote, and the rest. A doubled quote stands for one; the string
ends after a single one, or with the input. -/
def readString : List UInt8 → List UInt8 × List UInt8
  | [] => ([], [])
  | c :: rest =>
    if c = quote then
      match rest with
      | d :: more => if d = quote then ((readString more).map (quote :: ·) id) else ([], d :: more)
      | [] => ([], [])
    else ((readString rest).map (c :: ·) id)

/-- One round of the loop of `Tokenize`: the token, if it is not a blank, and the rest. -/
def nextToken (pos : Nat) (c : UInt8) (rest : List UInt8) :
    Except String (Option SqlToken × List UInt8) :=
  if isSpace c then .ok (none, rest)
  else if startsWord c then
    let text := c :: rest.takeWhile inWord
    .ok (some ⟨(keyword text).getD .identifier, text, pos⟩, rest.dropWhile inWord)
  else if isDigit c then
    let number := readNumber false rest
    .ok (some ⟨.number, c :: number.1, pos⟩, number.2)
  else if c = quote then
    let string := readString rest
    .ok (some ⟨.string, string.1, pos⟩, string.2)
  else if c = 33 ∧ peek rest = 61 then .ok (some ⟨.neq, ascii "!=", pos⟩, rest.drop 1)
  else if c = 60 ∧ peek rest = 61 then .ok (some ⟨.lte, ascii "<=", pos⟩, rest.drop 1)
  else if c = 62 ∧ peek rest = 61 then .ok (some ⟨.gte, ascii ">=", pos⟩, rest.drop 1)
  else
    match punctuation c with
    | some type => .ok (some ⟨type, [c], pos⟩, rest)
    | none => .error ("Unexpected SQL character at position " ++ toString pos)

theorem readNumber_append (seenDot : Bool) (rest : List UInt8) :
    (readNumber seenDot rest).1 ++ (readNumber seenDot rest).2 = rest := by
  induction rest generalizing seenDot with
  | nil => rfl
  | cons c rest ih =>
    rw [readNumber]
    split
    · exact congrArg (c :: ·) (ih seenDot)
    split
    · exact congrArg (c :: ·) (ih true)
    · rfl

theorem readString_quotes (more : List UInt8) :
    readString (quote :: quote :: more) = (readString more).map (quote :: ·) id := by
  rw [readString.eq_def]
  rfl

theorem readString_end {after : List UInt8} (other : ∀ d ∈ after.head?, d ≠ quote) :
    readString (quote :: after) = ([], after) := by
  rw [readString.eq_def]
  cases after with
  | nil => rfl
  | cons d more => exact if_neg (other d rfl)

theorem readString_cons {c : UInt8} (other : c ≠ quote) (rest : List UInt8) :
    readString (c :: rest) = (readString rest).map (c :: ·) id := by
  rw [readString.eq_def]
  exact if_neg other

theorem readString_length (rest : List UInt8) : (readString rest).2.length ≤ rest.length := by
  fun_induction readString rest with
  | case1 => exact Nat.le_refl _
  | case2 more ih =>
    have shorter : (readString more).2.length ≤ more.length := ih
    simp only [length_cons, Prod.map_snd, id_eq]
    omega
  | case3 d more other => simp only [length_cons]; omega
  | case4 => exact Nat.zero_le _
  | case5 c rest other ih =>
    have shorter : (readString rest).2.length ≤ rest.length := ih
    simp only [length_cons, Prod.map_snd, id_eq]
    omega

theorem nextToken_length {pos : Nat} {c : UInt8} {rest : List UInt8}
    {result : Option SqlToken × List UInt8} (next : nextToken pos c rest = .ok result) :
    result.2.length ≤ rest.length := by
  have number := congrArg List.length (readNumber_append false rest)
  have word := congrArg List.length (List.takeWhile_append_dropWhile (p := inWord) (l := rest))
  have string := readString_length rest
  rw [length_append] at number word
  unfold nextToken at next
  repeat' split at next
  all_goals cases next
  all_goals simp only [List.length_drop]
  all_goals omega

/-- The loop of `Tokenize`, on what is left of an input. -/
def scan (size : Nat) : List UInt8 → Except String (List SqlToken)
  | [] => .ok [⟨.endToken, [], size⟩]
  | c :: rest =>
    match _next : nextToken (size - (rest.length + 1)) c rest with
    | .error what => .error what
    | .ok result => (scan size result.2).map (result.1.toList ++ ·)
termination_by input => input.length
decreasing_by
  have shorter := nextToken_length _next
  simp only [length_cons]
  omega

def tokenize (input : List UInt8) : Except String (List SqlToken) := scan input.length input

section Spelling

structure Lexeme where
  type : SqlTokenType
  text : List UInt8
  deriving DecidableEq

def symbols : List Lexeme :=
  [⟨.neq, ascii "!="⟩, ⟨.lte, ascii "<="⟩, ⟨.gte, ascii ">="⟩, ⟨.comma, ascii ","⟩,
    ⟨.semicolon, ascii ";"⟩, ⟨.dot, ascii "."⟩, ⟨.lparen, ascii "("⟩, ⟨.rparen, ascii ")"⟩,
    ⟨.star, ascii "*"⟩, ⟨.eq, ascii "="⟩, ⟨.lt, ascii "<"⟩, ⟨.gt, ascii ">"⟩]

/-- A letter or an underscore, and then letters, digits and underscores. -/
def IsWord : List UInt8 → Prop
  | [] => False
  | c :: rest => startsWord c = true ∧ ∀ d ∈ rest, inWord d = true

def IsNumber : List UInt8 → Prop
  | [] => False
  | c :: rest => isDigit c = true ∧ (∀ d ∈ rest, isDigit d = true ∨ d = point) ∧
      rest.count point ≤ 1

/-- The tokens: keywords in any letter case, other words, numbers, strings of any bytes, and
symbols. -/
inductive Lexeme.Valid : Lexeme → Prop
  | keyword {type : SqlTokenType} {text : List UInt8} : keyword text = some type →
      Valid ⟨type, text⟩
  | identifier {text : List UInt8} : IsWord text → Lexer.keyword text = none →
      Valid ⟨.identifier, text⟩
  | number {text : List UInt8} : IsNumber text → Valid ⟨.number, text⟩
  | string (text : List UInt8) : Valid ⟨.string, text⟩
  | symbol {t : Lexeme} : t ∈ symbols → Valid t

def double (text : List UInt8) : List UInt8 :=
  text.flatMap fun c => if c = quote then [c, c] else [c]

def Lexeme.spelling (t : Lexeme) : List UInt8 :=
  if t.type = .string then quote :: (double t.text ++ [quote]) else t.text

def Separated (after : List UInt8) : Prop := ∀ c ∈ after.head?, isSpace c = true

variable {c : UInt8} {after text : List UInt8} {type : SqlTokenType}

theorem word_char (starts : startsWord c = true) : isSpace c = false ∧ inWord c = true := by
  revert c starts
  decide +kernel

theorem upper_char (upper : 65 ≤ toUpper c ∧ toUpper c ≤ 90) : startsWord c = true := by
  revert c upper
  decide +kernel

theorem digit_char (digit : isDigit c = true) : isSpace c = false ∧ startsWord c = false := by
  revert c digit
  decide +kernel

theorem space_char (blank : isSpace c = true) :
    inWord c = false ∧ isDigit c = false ∧ c ≠ point ∧ c ≠ quote ∧ c ≠ 61 := by
  revert c blank
  decide +kernel

theorem Separated.stops (separated : Separated after) {p : UInt8 → Bool}
    (never : ∀ c, isSpace c = true → p c = false) :
    after.takeWhile p = [] ∧ after.dropWhile p = after := by
  cases after with
  | nil => exact ⟨rfl, rfl⟩
  | cons c rest =>
    have no : p c = false := never c (separated c rfl)
    exact ⟨List.takeWhile_cons_of_neg (by simp [no]), List.dropWhile_cons_of_neg (by simp [no])⟩

theorem Separated.peek (separated : Separated after) : peek after ≠ 61 := by
  cases after with
  | nil => decide
  | cons c rest => exact (space_char (separated c rfl)).2.2.2.2

def Lexes (t : Lexeme) : Prop :=
  ∀ pos after, Separated after → ∃ c rest, t.spelling ++ after = c :: rest ∧
    nextToken pos c rest = .ok (some ⟨t.type, t.text, pos⟩, after)

theorem keyword_entries : ∀ entry ∈ keywords,
    entry.1 ≠ [] ∧ (∀ c ∈ entry.1, 65 ≤ c ∧ c ≤ 90) ∧ entry.2 ≠ .string := by
  simp [keywords, ascii]

theorem keyword_entry (isKeyword : keyword text = some type) :
    (text.map toUpper, type) ∈ keywords := by
  obtain ⟨before, later, split, -⟩ := List.lookup_eq_some_iff.mp isKeyword
  rw [split]
  exact List.mem_append_right _ mem_cons_self

theorem keyword_isWord (isKeyword : keyword text = some type) : IsWord text := by
  obtain ⟨nonempty, upper, -⟩ := keyword_entries _ (keyword_entry isKeyword)
  have starts : ∀ c ∈ text, startsWord c = true :=
    fun c member => upper_char (upper _ (List.mem_map_of_mem member))
  cases text with
  | nil => exact absurd rfl nonempty
  | cons c rest =>
    exact ⟨starts c mem_cons_self,
      fun d member => (word_char (starts d (mem_cons_of_mem _ member))).2⟩

theorem lexes_word (isWord : IsWord text) (named : (keyword text).getD .identifier = type)
    (notString : type ≠ .string) :
    Lexes ⟨type, text⟩ := by
  intro pos after separated
  cases text with
  | nil => exact isWord.elim
  | cons c rest =>
    obtain ⟨starts, continues⟩ := isWord
    refine ⟨c, rest ++ after, by rw [Lexeme.spelling, if_neg notString]; rfl, ?_⟩
    obtain ⟨none, all⟩ := separated.stops fun c blank => (space_char blank).1
    have taken : (rest ++ after).takeWhile inWord = rest := by
      rw [List.takeWhile_append_of_pos continues, none, List.append_nil]
    have dropped : (rest ++ after).dropWhile inWord = after := by
      rw [List.dropWhile_append_of_pos continues, all]
    simp only [nextToken, (word_char starts).1, starts, taken, dropped, named, if_true,
      Bool.false_eq_true, if_false]

theorem readNumber_spelled (separated : Separated after) (seenDot : Bool) {rest : List UInt8}
    (digits : ∀ d ∈ rest, isDigit d = true ∨ d = point)
    (points : rest.count point ≤ if seenDot then 0 else 1) :
    readNumber seenDot (rest ++ after) = (rest, after) := by
  induction rest generalizing seenDot with
  | nil =>
    cases after with
    | nil => rfl
    | cons c more =>
      obtain ⟨-, notDigit, notPoint, -⟩ := space_char (separated c rfl)
      simp [readNumber, notDigit, notPoint]
  | cons d rest ih =>
    have below : ∀ e ∈ rest, isDigit e = true ∨ e = point :=
      fun e member => digits e (mem_cons_of_mem _ member)
    rw [cons_append, readNumber]
    by_cases digit : isDigit d = true
    · have other : d ≠ point := by
        rintro rfl
        exact absurd digit (by decide)
      rw [List.count_cons_of_ne other] at points
      rw [if_pos digit, ih seenDot below points]
      rfl
    · have isPoint : d = point := (digits d mem_cons_self).resolve_left digit
      subst isPoint
      rw [List.count_cons_self] at points
      cases seenDot with
      | true =>
        rw [if_pos rfl] at points
        omega
      | false =>
        have noMore : rest.count point ≤ if true then 0 else 1 := by
          rw [if_neg Bool.false_ne_true] at points
          rw [if_pos rfl]
          omega
        rw [if_neg digit, if_pos (by decide), ih true below noMore]
        rfl

theorem lexes_number (isNumber : IsNumber text) : Lexes ⟨.number, text⟩ := by
  intro pos after separated
  cases text with
  | nil => exact isNumber.elim
  | cons c rest =>
    obtain ⟨digit, digits, points⟩ := isNumber
    refine ⟨c, rest ++ after, rfl, ?_⟩
    have read := readNumber_spelled separated false digits points
    simp only [nextToken, (digit_char digit).1, (digit_char digit).2, digit, read, if_true,
      Bool.false_eq_true, if_false]

theorem readString_double (separated : Separated after) (text : List UInt8) :
    readString (double text ++ quote :: after) = (text, after) := by
  induction text with
  | nil =>
    exact readString_end fun d first => (space_char (separated d first)).2.2.2.1
  | cons c text ih =>
    by_cases isQuote : c = quote
    · subst isQuote
      have twice : double (quote :: text) ++ quote :: after =
          quote :: quote :: (double text ++ quote :: after) := rfl
      rw [twice, readString_quotes, ih]
      rfl
    · have once : double (c :: text) ++ quote :: after =
          c :: (double text ++ quote :: after) := by
        rw [double, List.flatMap_cons, if_neg isQuote]
        rfl
      rw [once, readString_cons isQuote, ih]
      rfl

theorem lexes_string (text : List UInt8) : Lexes ⟨.string, text⟩ := by
  intro pos after separated
  have written : Lexeme.spelling ⟨.string, text⟩ ++ after =
      quote :: (double text ++ quote :: after) := by
    rw [Lexeme.spelling, if_pos rfl, cons_append, List.append_assoc]
    rfl
  refine ⟨quote, double text ++ quote :: after, written, ?_⟩
  have read := readString_double separated text
  have other : isSpace quote = false ∧ startsWord quote = false ∧ isDigit quote = false := by decide
  simp only [nextToken, other, read, if_true, Bool.false_eq_true, if_false]

theorem symbols_bytes : symbols =
    [⟨.neq, [33, 61]⟩, ⟨.lte, [60, 61]⟩, ⟨.gte, [62, 61]⟩, ⟨.comma, [44]⟩, ⟨.semicolon, [59]⟩,
      ⟨.dot, [46]⟩, ⟨.lparen, [40]⟩, ⟨.rparen, [41]⟩, ⟨.star, [42]⟩, ⟨.eq, [61]⟩, ⟨.lt, [60]⟩,
      ⟨.gt, [62]⟩] := rfl

theorem lexes_symbol {t : Lexeme} (member : t ∈ symbols) : Lexes t := by
  intro pos after separated
  have noEquals := separated.peek
  have neq : ascii "!=" = [33, 61] := rfl
  have lte : ascii "<=" = [60, 61] := rfl
  have gte : ascii ">=" = [62, 61] := rfl
  simp only [symbols_bytes, List.mem_cons, not_mem_nil, or_false] at member
  rcases member with rfl | rfl | rfl | rfl | rfl | rfl | rfl | rfl | rfl | rfl | rfl | rfl
  all_goals refine ⟨_, _, rfl, ?_⟩
  all_goals
    simp [nextToken, isSpace, startsWord, isAlpha, isDigit, quote, punctuation, peek_cons,
      noEquals, neq, lte, gte]

theorem Lexeme.Valid.lexes {t : Lexeme} (valid : t.Valid) : Lexes t := by
  cases valid with
  | keyword isKeyword =>
    have notString := (keyword_entries _ (keyword_entry isKeyword)).2.2
    exact lexes_word (keyword_isWord isKeyword) (by rw [isKeyword]; rfl) notString
  | identifier isWord other =>
    exact lexes_word isWord (by rw [other]; rfl) SqlTokenType.noConfusion
  | number isNumber => exact lexes_number isNumber
  | string text => exact lexes_string text
  | symbol member => exact lexes_symbol member

end Spelling

section Rendering

variable {size : Nat}

theorem scan_cons {c : UInt8} {rest : List UInt8} {result : Option SqlToken × List UInt8}
    (next : nextToken (size - (rest.length + 1)) c rest = .ok result) :
    scan size (c :: rest) = (scan size result.2).map (result.1.toList ++ ·) := by
  rw [scan]
  split
  · rename_i failed
    rw [next] at failed
    cases failed
  · rename_i found
    rw [next] at found
    cases found
    rfl

theorem scan_blanks {blanks : List UInt8} (blank : ∀ c ∈ blanks, isSpace c = true)
    (more : List UInt8) : scan size (blanks ++ more) = scan size more := by
  induction blanks with
  | nil => rfl
  | cons c rest ih =>
    have next : nextToken (size - ((rest ++ more).length + 1)) c (rest ++ more) =
        .ok (none, rest ++ more) := by
      rw [nextToken, if_pos (blank c mem_cons_self)]
    have onward := ih fun d member => blank d (mem_cons_of_mem _ member)
    rw [cons_append, scan_cons next, onward]
    cases scan size more with
    | error what => rfl
    | ok tokens => rfl

def written (items : List (Lexeme × List UInt8)) : List UInt8 :=
  items.flatMap fun item => item.1.spelling ++ item.2

def placed : Nat → List (Lexeme × List UInt8) → List SqlToken
  | pos, [] => [⟨.endToken, [], pos⟩]
  | pos, (t, blanks) :: more =>
    ⟨t.type, t.text, pos⟩ :: placed (pos + t.spelling.length + blanks.length) more

structure Rendering where
  lead : List UInt8
  items : List (Lexeme × List UInt8)
  valid : ∀ item ∈ items, item.1.Valid
  leadBlank : ∀ c ∈ lead, isSpace c = true
  blank : ∀ item ∈ items, ∀ c ∈ item.2, isSpace c = true
  apart : ∀ item ∈ items.dropLast, item.2 ≠ []

def Rendering.text (r : Rendering) : List UInt8 := r.lead ++ written r.items

theorem scan_written {items : List (Lexeme × List UInt8)} (valid : ∀ item ∈ items, item.1.Valid)
    (blank : ∀ item ∈ items, ∀ c ∈ item.2, isSpace c = true)
    (apart : ∀ item ∈ items.dropLast, item.2 ≠ []) {pos : Nat}
    (total : size = pos + (written items).length) :
    scan size (written items) = .ok (placed pos items) := by
  induction items generalizing pos with
  | nil =>
    show scan size [] = _
    rw [scan, placed, total]
    rfl
  | cons item more ih =>
    obtain ⟨t, blanks⟩ := item
    have isBlank : ∀ c ∈ blanks, isSpace c = true := blank (t, blanks) mem_cons_self
    have separated : Separated (blanks ++ written more) := by
      cases blanks with
      | cons d others =>
        intro c first
        cases first
        exact isBlank d mem_cons_self
      | nil =>
        cases more with
        | nil =>
          intro c first
          cases first
        | cons next others => exact absurd rfl (apart (t, []) mem_cons_self)
    have split : written ((t, blanks) :: more) = t.spelling ++ (blanks ++ written more) := by
      rw [written, List.flatMap_cons, List.append_assoc]
      rfl
    obtain ⟨c, rest, first, next⟩ := (valid (t, blanks) mem_cons_self).lexes pos _ separated
    have length : t.spelling.length + (blanks ++ written more).length = rest.length + 1 := by
      rw [← length_append]
      exact congrArg List.length first
    rw [split, length_append] at total
    have place : size - (rest.length + 1) = pos := by omega
    have onward : size = (pos + t.spelling.length + blanks.length) + (written more).length := by
      rw [length_append] at total
      omega
    have later := ih (fun item member => valid item (mem_cons_of_mem _ member))
      (fun item member => blank item (mem_cons_of_mem _ member))
      (fun item member => apart item (by
        cases more with
        | nil => cases member
        | cons next others => exact mem_cons_of_mem _ member)) onward
    rw [split, first, scan_cons (by rw [place]; exact next), scan_blanks isBlank, later]
    rfl

theorem tokenize_text (r : Rendering) : tokenize r.text = .ok (placed r.lead.length r.items) := by
  rw [tokenize, Rendering.text, scan_blanks r.leadBlank]
  exact scan_written r.valid r.blank r.apart (length_append)

end Rendering

section Refusals

/-- The characters that start a token, or are blank; a quote and an exclamation mark apart. -/
def starts (c : UInt8) : Bool :=
  isSpace c || startsWord c || isDigit c || (punctuation c).isSome

/-- No character outside the quoted strings is foreign. The flag tells that a string is open. -/
def wellSpelled : Bool → List UInt8 → Bool
  | _, [] => true
  | true, c :: rest => wellSpelled (c != quote) rest
  | false, c :: rest =>
    if c = quote then wellSpelled true rest
    else if c = 33 then peek rest == 61 && wellSpelled false rest
    else starts c && wellSpelled false rest

/-- Whether a string is open at the end: each quote opens or closes one, and a doubled one
does both. -/
def openAtEnd : Bool → List UInt8 → Bool
  | isOpen, [] => isOpen
  | isOpen, c :: rest => openAtEnd (isOpen != (c == quote)) rest

def Unclosed (input : List UInt8) : Prop := openAtEnd false input = true

/-- Outside the quoted strings there is a character that starts no token. -/
def Stray (input : List UInt8) : Prop := wellSpelled false input = false

instance (input : List UInt8) : Decidable (Unclosed input) := by
  unfold Unclosed
  infer_instance

instance (input : List UInt8) : Decidable (Stray input) := by
  unfold Stray
  infer_instance

variable {c : UInt8} {rest : List UInt8}

theorem starts_char (some : starts c = true) : c ≠ quote ∧ c ≠ 33 := by
  revert c some
  decide +kernel

theorem starts_of_inWord (word : inWord c = true) : starts c = true := by
  revert c word
  decide +kernel

theorem wellSpelled_starts (some : starts c = true) (rest : List UInt8) :
    wellSpelled false (c :: rest) = wellSpelled false rest := by
  obtain ⟨notQuote, notMark⟩ := starts_char some
  rw [wellSpelled, if_neg notQuote, if_neg notMark, some, Bool.true_and]

theorem wellSpelled_append {word : List UInt8} (all : ∀ c ∈ word, starts c = true)
    (rest : List UInt8) : wellSpelled false (word ++ rest) = wellSpelled false rest := by
  induction word with
  | nil => rfl
  | cons c word ih =>
    rw [cons_append, wellSpelled_starts (all c mem_cons_self)]
    exact ih fun d member => all d (mem_cons_of_mem _ member)

theorem starts_readNumber (seenDot : Bool) (rest : List UInt8) :
    ∀ c ∈ (readNumber seenDot rest).1, starts c = true := by
  induction rest generalizing seenDot with
  | nil => exact fun c member => (not_mem_nil member).elim
  | cons d rest ih =>
    rw [readNumber]
    split
    · rename_i digit
      refine List.forall_mem_cons.mpr ⟨?_, ih seenDot⟩
      simp [starts, digit]
    split
    · rename_i isPoint
      refine List.forall_mem_cons.mpr ⟨?_, ih true⟩
      have same : d = point := by
        simp only [Bool.and_eq_true, decide_eq_true_eq] at isPoint
        exact isPoint.1
      rw [same]
      decide
    · exact fun c member => (not_mem_nil member).elim

theorem wellSpelled_readString (rest : List UInt8) :
    wellSpelled true rest = wellSpelled false (readString rest).2 := by
  fun_induction readString rest with
  | case1 => rfl
  | case2 more ih => exact ih
  | case3 d more other => rfl
  | case4 => rfl
  | case5 c rest other ih =>
    have still : (c != quote) = true := by simpa using other
    rw [wellSpelled, still]
    exact ih

theorem wellSpelled_equals (equals : peek rest = 61) :
    wellSpelled false rest = wellSpelled false (rest.drop 1) := by
  cases rest with
  | nil => rfl
  | cons c more =>
    have same : c = 61 := equals
    rw [same]
    exact wellSpelled_starts (by decide) more

theorem wellSpelled_of_ok {pos : Nat} {result : Option SqlToken × List UInt8}
    (next : nextToken pos c rest = .ok result) :
    wellSpelled false (c :: rest) = wellSpelled false result.2 := by
  unfold nextToken at next
  split at next
  · rename_i blank
    cases next
    exact wellSpelled_starts (by simp [starts, blank]) rest
  split at next
  · rename_i letter
    cases next
    have word : ∀ d ∈ rest.takeWhile inWord, starts d = true :=
      fun d member => starts_of_inWord (List.mem_takeWhile_imp member)
    have skipped := wellSpelled_append word (rest.dropWhile inWord)
    rw [List.takeWhile_append_dropWhile] at skipped
    rw [wellSpelled_starts (by simp [starts, letter]), skipped]
  split at next
  · rename_i digit
    cases next
    have skipped := wellSpelled_append (starts_readNumber false rest) (readNumber false rest).2
    rw [readNumber_append] at skipped
    rw [wellSpelled_starts (by simp [starts, digit]), skipped]
  split at next
  · rename_i isQuote
    cases next
    rw [wellSpelled, if_pos isQuote]
    exact wellSpelled_readString rest
  rename_i notQuote
  split at next
  · rename_i neq
    cases next
    rw [wellSpelled, if_neg notQuote, if_pos neq.1, neq.2, ← wellSpelled_equals neq.2]
    rfl
  split at next
  · rename_i lte
    cases next
    rw [wellSpelled_starts (by rw [lte.1]; decide), wellSpelled_equals lte.2]
  split at next
  · rename_i gte
    cases next
    rw [wellSpelled_starts (by rw [gte.1]; decide), wellSpelled_equals gte.2]
  split at next
  · rename_i type symbol
    cases next
    exact wellSpelled_starts (by simp [starts, symbol]) rest
  · cases next

theorem foreign_of_error {pos : Nat} {what : String} (next : nextToken pos c rest = .error what) :
    wellSpelled false (c :: rest) = false := by
  unfold nextToken at next
  split at next
  · cases next
  rename_i notBlank
  split at next
  · cases next
  rename_i notLetter
  split at next
  · cases next
  rename_i notDigit
  split at next
  · cases next
  rename_i notQuote
  split at next
  · cases next
  rename_i notNeq
  split at next
  · cases next
  split at next
  · cases next
  split at next
  · cases next
  rename_i noSymbol
  rw [wellSpelled, if_neg notQuote]
  split
  · rename_i mark
    have other : (peek rest == 61) = false := by
      rw [beq_eq_false_iff_ne]
      exact fun equals => notNeq ⟨mark, equals⟩
    rw [other, Bool.false_and]
  · simp [starts, notBlank, notLetter, notDigit, noSymbol]

theorem scan_error_iff (size : Nat) (input : List UInt8) :
    (∃ what, scan size input = .error what) ↔ wellSpelled false input = false := by
  fun_induction scan size input with
  | case1 =>
    constructor
    · rintro ⟨what, failed⟩
      cases failed
    · intro foreign
      cases foreign
  | case2 c rest what next =>
    exact ⟨fun _ => foreign_of_error next, fun _ => ⟨what, rfl⟩⟩
  | case3 c rest result next ih =>
    rw [wellSpelled_of_ok next, ← ih]
    cases scan size result.2 with
    | error what => exact ⟨fun _ => ⟨what, rfl⟩, fun _ => ⟨what, rfl⟩⟩
    | ok tokens =>
      constructor
      · rintro ⟨what, failed⟩
        cases failed
      · rintro ⟨what, failed⟩
        cases failed

/-- Every list of tokens is read back from what it is written as; an input with a string that is
never closed is refused exactly when it has a foreign character outside its strings. -/
theorem tokenize_iff (r : Rendering) (input : List UInt8) :
    tokenize r.text = .ok (placed r.lead.length r.items) ∧
      ((Unclosed input → ∃ what, tokenize input = .error what) ↔
        (Unclosed input → Stray input)) :=
  ⟨tokenize_text r, imp_congr_right fun _ => scan_error_iff input.length input⟩

/-- ` sElEcT a_1 12. 'it''s'` -/
def mixed : Rendering where
  lead := [32]
  items := [(⟨.select, ascii "sElEcT"⟩, [32]), (⟨.identifier, ascii "a_1"⟩, [9, 32]),
    (⟨.number, ascii "12."⟩, [10]), (⟨.string, ascii "it's"⟩, [])]
  valid := by
    simp only [List.mem_cons, not_mem_nil, or_false]
    rintro _ (rfl | rfl | rfl | rfl)
    · exact .keyword (by decide)
    · have isWord : startsWord 97 = true ∧ ∀ d ∈ [95, 49], inWord d = true := by decide +kernel
      exact .identifier isWord (by decide)
    · have isNumber : isDigit 49 = true ∧ (∀ d ∈ [50, point], isDigit d = true ∨ d = point) ∧
          [50, point].count point ≤ 1 := by decide +kernel
      exact .number isNumber
    · exact .string _
  leadBlank := by simp [isSpace]
  blank := by simp [isSpace]
  apart := by decide

theorem tokenize_iff_mixed :
    mixed.text = ascii " sElEcT a_1\t 12.\n'it''s'" ∧
      tokenize mixed.text = .ok [⟨.select, ascii "sElEcT", 1⟩, ⟨.identifier, ascii "a_1", 8⟩,
        ⟨.number, ascii "12.", 13⟩, ⟨.string, ascii "it's", 17⟩, ⟨.endToken, [], 24⟩] :=
  ⟨by decide, (tokenize_iff mixed []).1⟩

/-- A string that is cut off is a token. -/
theorem not_refuses_unclosed :
    ¬∀ input, Unclosed input → ∃ what, tokenize input = .error what := by
  intro rule
  have foreign := (scan_error_iff 2 (ascii "'a")).mp (rule (ascii "'a") (by decide))
  revert foreign
  decide

end Refusals

end GraniteDb.Sql.Lexer
