import CenDB.Lib.Guarded
import CenDB.Lib.Utf8

/-! # The CenQL tokenizer

The tokenizer moves a position over the bytes of the text.  Its loops run over the bytes from the position on
and return how far they moved.  An index or a slice out of range is a panic, and so is a slice that is not
UTF-8. -/

namespace CenDB.Cenql

open Guarded Utf8

inductive TokenKind
  | from
  | filter
  | select
  | sort
  | asc
  | desc
  | take
  | join
  | on
  | inner
  | left
  | right
  | full
  | groupBy
  | window
  | tumbling
  | hopping
  | session
  | match
  | return
  | distinct
  | last
  | and
  | or
  | not
  | ident
  | i64
  | f64
  | str
  | duration
  | pipe
  | lBrace
  | rBrace
  | lParen
  | rParen
  | lBracket
  | rBracket
  | comma
  | colon
  | dot
  | arrow
  | backArrow
  | star
  | question
  | eqEq
  | assign
  | notEq
  | lt
  | le
  | gt
  | ge
  | plus
  | minus
  | slash
  | starOp
  | eof
  deriving DecidableEq, Repr

structure Token where
  kind : TokenKind
  text : String
  offset : ℕ
  deriving DecidableEq, Repr

structure LexError where
  message : String
  offset : ℕ
  deriving DecidableEq, Repr

/-- An error that is returned, or a panic. -/
inductive LexFailure
  | lexErr (e : LexError)
  | panic
  | outOfFuel
  deriving DecidableEq, Repr

namespace Tokenizer

/-! ### Bytes -/

/-- `b'c'` -/
def byte (c : Char) : UInt8 := UInt8.ofNat c.toNat

def isAsciiWhitespace (b : UInt8) : Bool := b = 32 || b = 9 || b = 10 || b = 12 || b = 13

def isAsciiAlphabetic (b : UInt8) : Bool := (65 ≤ b && b ≤ 90) || (97 ≤ b && b ≤ 122)

def isAsciiDigit (b : UInt8) : Bool := 48 ≤ b && b ≤ 57

def isAsciiAlphanumeric (b : UInt8) : Bool := isAsciiAlphabetic b || isAsciiDigit b

def isIdentStart (b : UInt8) : Bool := isAsciiAlphabetic b || b = byte '_'

def isIdentByte (b : UInt8) : Bool := isAsciiAlphanumeric b || b = byte '_'

/-! ### Loops -/

/-- How far white space and comments reach, inside a comment or outside. -/
def blankLength : Bool → List UInt8 → ℕ
  | _, [] => 0
  | false, b :: rest =>
    if isAsciiWhitespace b then blankLength false rest + 1
    else if b = byte '-' ∧ rest.head? = some (byte '-') then blankLength true rest + 1
    else 0
  | true, b :: rest => if b = byte '\n' then blankLength false rest + 1 else blankLength true rest + 1

theorem blankLength_cons (b : UInt8) (rest : List UInt8) : blankLength false (b :: rest) =
    if isAsciiWhitespace b then blankLength false rest + 1
    else if b = byte '-' ∧ rest.head? = some (byte '-') then blankLength true rest + 1
    else 0 := rfl

theorem blankLength_comment_cons (b : UInt8) (rest : List UInt8) : blankLength true (b :: rest) =
    if b = byte '\n' then blankLength false rest + 1 else blankLength true rest + 1 := rfl

/-- How far a number reaches, and whether it is a float: a point belongs to it in front of a digit. -/
def numberLength (isFloat : Bool) : List UInt8 → Bool × ℕ
  | [] => (isFloat, 0)
  | b :: rest =>
    if isAsciiDigit b then (numberLength isFloat rest).map id (· + 1)
    else if b = byte '.' ∧ rest.head?.any isAsciiDigit then (numberLength true rest).map id (· + 1)
    else (isFloat, 0)

/-- How many bytes there are up to the closing quote of a string, if it has one. -/
def stringLength : List UInt8 → Option ℕ
  | [] => none
  | b :: rest =>
    if b = byte '"' then some 0
    else if b = byte '\\' then
      match rest with
      | [] => none
      | _ :: rest => (stringLength rest).map (· + 2)
    else (stringLength rest).map (· + 1)

/-! ### Tokens -/

/-- `from_utf8(&self.bytes[i..j]).unwrap()` -/
def sliceText (bytes : List UInt8) (i j : ℕ) : Except LexFailure String := do
  let part ← slice .panic bytes i j
  match decode part with
  | some cs => return String.ofList cs
  | none => throw .panic

def keywords : List (String × TokenKind) :=
  [("from", .from), ("filter", .filter), ("select", .select), ("sort", .sort), ("asc", .asc), ("desc", .desc),
    ("take", .take), ("join", .join), ("on", .on), ("inner", .inner), ("left", .left), ("right", .right),
    ("full", .full), ("group_by", .groupBy), ("window", .window), ("tumbling", .tumbling), ("hopping", .hopping),
    ("session", .session), ("match", .match), ("return", .return), ("distinct", .distinct), ("last", .last),
    ("and", .and), ("or", .or), ("not", .not)]

def keyword (text : String) : TokenKind := (keywords.lookup text).getD .ident

def lexIdent (bytes : List UInt8) (start : ℕ) : Except LexFailure (Token × ℕ) := do
  let pos := start + ((bytes.drop start).takeWhile isIdentByte).length
  let text ← sliceText bytes start pos
  return (⟨keyword text, text, start⟩, pos)

/-- A duration unit, after which no letter or digit stands. -/
def isDurationSuffix : List UInt8 → Bool
  | [] => false
  | next :: rest =>
    (next = byte 'm' || next = byte 'h' || next = byte 's' || next = byte 'd') && !rest.head?.any isAsciiAlphanumeric

def lexNumber (bytes : List UInt8) (start : ℕ) : Except LexFailure (Token × ℕ) := do
  let number := numberLength false (bytes.drop start)
  let pos := start + number.2
  if isDurationSuffix (bytes.drop pos) then do
    let text ← sliceText bytes start (pos + 1)
    return (⟨.duration, text, start⟩, pos + 1)
  else do
    let text ← sliceText bytes start pos
    return (⟨if number.1 then .f64 else .i64, text, start⟩, pos)

def lexString (bytes : List UInt8) (start : ℕ) : Except LexFailure (Token × ℕ) := do
  let contentStart := start + 1
  match stringLength (bytes.drop contentStart) with
  | some n =>
    let text ← sliceText bytes contentStart (contentStart + n)
    return (⟨.str, text, start⟩, contentStart + n + 1)
  | none => throw (.lexErr ⟨"unterminated string literal", start⟩)

/-- The kind and the length of the token that a character begins, if `next` comes after it. -/
def punctuation (c : Char) (next : Option UInt8) (start : ℕ) : Except LexFailure (TokenKind × ℕ) :=
  match c with
  | '|' => .ok (.pipe, 1)
  | '\x7b' => .ok (.lBrace, 1)
  | '\x7d' => .ok (.rBrace, 1)
  | '(' => .ok (.lParen, 1)
  | ')' => .ok (.rParen, 1)
  | '[' => .ok (.lBracket, 1)
  | ']' => .ok (.rBracket, 1)
  | ',' => .ok (.comma, 1)
  | ':' => .ok (.colon, 1)
  | '.' => .ok (.dot, 1)
  | '*' => .ok (.star, 1)
  | '?' => .ok (.question, 1)
  | '+' => .ok (.plus, 1)
  | '-' => .ok (if next = some (byte '>') then (.arrow, 2) else (.minus, 1))
  | '/' => .ok (.slash, 1)
  | '<' =>
    .ok (if next = some (byte '=') then (.le, 2) else if next = some (byte '-') then (.backArrow, 2) else (.lt, 1))
  | '>' => .ok (if next = some (byte '=') then (.ge, 2) else (.gt, 1))
  | '=' => .ok (if next = some (byte '=') then (.eqEq, 2) else (.assign, 1))
  | '!' =>
    if next = some (byte '=') then .ok (.notEq, 2)
    else .error (.lexErr ⟨"expected '!=', got '!'", start⟩)
  | c => .error (.lexErr ⟨"unexpected character '" ++ c.toString ++ "'", start⟩)

/-- The next token and the position after it. -/
def nextToken (bytes : List UInt8) (pos : ℕ) : Except LexFailure (Token × ℕ) := do
  let start := pos + blankLength false (bytes.drop pos)
  if bytes.length ≤ start then return (⟨.eof, "", start⟩, start)
  else do
    let b ← index .panic bytes start
    if isIdentStart b then lexIdent bytes start
    else if isAsciiDigit b then lexNumber bytes start
    else if b = byte '"' then lexString bytes start
    else do
      let (kind, len) ← punctuation (Char.ofNat b.toNat) bytes[start + 1]? start
      let text ← sliceText bytes start (start + len)
      return (⟨kind, text, start⟩, start + len)

/-- The tokens from a position on. -/
def tokenizeFrom (bytes : List UInt8) : ℕ → ℕ → Except LexFailure (List Token)
  | 0, _ => .error .outOfFuel
  | fuel + 1, pos => do
    let (token, pos) ← nextToken bytes pos
    if token.kind = .eof then return [token]
    else do
      let tokens ← tokenizeFrom bytes fuel pos
      return token :: tokens

/-- Every token but the last one takes a byte or more. -/
def tokenize (src : String) : Except LexFailure (List Token) :=
  tokenizeFrom (encode src.toList) ((encode src.toList).length + 1) 0

end Tokenizer

end CenDB.Cenql
