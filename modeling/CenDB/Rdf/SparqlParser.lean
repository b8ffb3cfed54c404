import CenDB.Rdf.Serialize
import CenDB.Rdf.Sparql

/-! # The SPARQL parser

A tokenizer that moves over the bytes of the text, and a parser of the tokens.

Names, IRIs and numbers are slices of the text.  A slice that begins or ends inside a character is a panic
(`sliceBetween`); literals are put together from what the cursor sees, byte by byte. -/

namespace CenDB.Rdf

open Text Reader

inductive Token where
  | lBrace | rBrace | lParen | rParen | dot | semi | comma
  | select | «where» | filter | limit
  | eq | ne | lt | gt | le | ge
  | var (name : String)
  | iri (s : String)
  | literal (value : String) (tag : Option String)
  | blankNode (label : String)
  | number (n : String)
  | bareword (word : String)
  | star
deriving DecidableEq, Repr

inductive SparqlError where
  | message (text : String)
  | unexpectedChar (c : Char)
  | expectedToken (expected : Token) (got : Option Token)
  | expected (what : String) (got : Option Token)
  | unexpectedToken (t : Token)
  | badNumber (what n : String)
deriving DecidableEq, Repr

/-- An error that is returned, or a panic. -/
inductive Failure where
  | syntaxErr (e : SparqlError)
  | panic
  | outOfFuel
deriving DecidableEq, Repr

/-! ### The tokenizer -/

namespace Tokenizer

abbrev Lexer := Reader Char Failure

/-- Whether a character begins here, or the text ends. -/
def atBoundary : List Char → Bool
  | [] => true
  | c :: _ => !(128 ≤ c.toNat && c.toNat < 192)

/-- The slice of the text from a place of the cursor to a later one. -/
def sliceBetween (start : List Char) (span : List Char × List Char) : Except Failure (String × List Char) :=
  if atBoundary start && atBoundary span.2 then .ok (String.ofList (slice span.1), span.2) else .error .panic

def skipWsAndComments (rest : List Char) : List Char := skipComments false rest

def isNameChar (c : Char) : Bool := isAlphanumeric c || c = '_' || c = '-' || c = ':' || c = '.'

/-- Whether a dot in front of this ends a statement. -/
def endsStatement : List Char → Bool
  | [] => true
  | n :: _ => isWhitespace n || n = '\x7d'

/-- A name and what follows it. -/
def nameSpan : List Char → List Char × List Char
  | [] => ([], [])
  | c :: rest =>
    if isNameChar c && !(c = '.' && endsStatement rest) then (nameSpan rest).map (fun name => c :: name) id
    else ([], c :: rest)

def readName : Lexer String := fun rest => sliceBetween rest (nameSpan rest)

/-- What may stand behind the bracket of an IRI; in front of anything else the bracket is an operator. -/
def isIriStart (c : Char) : Bool :=
  isAlphanumeric c || c = '/' || c = ':' || c = '#' || c = '_' || c = '-' || c = '~' || c = '%'

/-- An IRI after its bracket. -/
def readIriRest : Lexer String := do
  let iri ← fun rest => sliceBetween rest (rest.span (· ≠ '>'))
  match ← peek with
  | some '>' => do
    bump
    return iri
  | _ => throw (.syntaxErr (.message "unterminated IRI"))

def readIri : Lexer String := do
  bump
  readIriRest

/-- The character of a numeral, if it is one. -/
def hexChar (hex : List Char) : List Char :=
  match fromStrRadix16 hex with
  | some code => if code.isValidChar then [Char.ofNat code] else []
  | none => []

/-- The rest of a literal after its quote; `skip` characters of a numeral are passed over. -/
def literalBody (quote : Char) (value : List Char) : ℕ → List Char → Except Failure (List Char × List Char)
  | _, [] => .error (.syntaxErr (.message "unterminated literal"))
  | skip + 1, _ :: rest => literalBody quote value skip rest
  | 0, c :: rest =>
    if c = quote then .ok (value, rest)
    else if c = '\\' then
      match rest with
      | [] => .error (.syntaxErr (.message "bad escape"))
      | next :: rest =>
        if next = 'u' then literalBody quote (value ++ hexChar (rest.take 4)) 4 rest
        else literalBody quote (value ++ literalEscape next) 0 rest
    else literalBody quote (value ++ [c]) 0 rest

/-- A language tag, a datatype or nothing. -/
def readTag : Lexer (Option String) := fun rest =>
  match rest with
  | '@' :: rest =>
    let lang := rest.span fun c => isAlphanumeric c || c = '-'
    .ok (some (String.ofList ('@' :: lang.1)), lang.2)
  | '^' :: '^' :: rest => (some <$> readIri) rest
  | rest => .ok (none, rest)

/-- A literal after its quote. -/
def readLiteral (quote : Char) : Lexer Token := do
  let value ← literalBody quote [] 0
  let tag ← readTag
  return .literal (String.ofList value) tag

/-- A number after its sign, and what follows it. -/
def numberSpan (seenDot seenE : Bool) : List Char → List Char × List Char
  | [] => ([], [])
  | c :: rest =>
    if c.isDigit then (numberSpan seenDot seenE rest).map (fun n => c :: n) id
    else if c = '.' && !seenDot && !seenE then
      if rest.head?.any Char.isDigit then (numberSpan true seenE rest).map (fun n => c :: n) id
      else ([], c :: rest)
    else if (c = 'e' || c = 'E') && !seenE then
      match rest with
      | [] => ([c], [])
      | sign :: rest' =>
        if sign = '+' || sign = '-' then (numberSpan seenDot true rest').map (fun n => c :: sign :: n) id
        else (numberSpan seenDot true (sign :: rest')).map (fun n => c :: n) id
    else ([], c :: rest)

def signedSpan : List Char → List Char × List Char
  | '-' :: rest => (numberSpan false false rest).map (fun n => '-' :: n) id
  | rest => numberSpan false false rest

def readNumber : Lexer String := fun rest => sliceBetween rest (signedSpan rest)

/-- The tokens of a single character. -/
def symbol : Char → Option Token
  | '\x7b' => some .lBrace
  | '\x7d' => some .rBrace
  | '(' => some .lParen
  | ')' => some .rParen
  | '.' => some .dot
  | ';' => some .semi
  | ',' => some .comma
  | '*' => some .star
  | '=' => some .eq
  | _ => none

/-- A keyword in any case, or a word. -/
def classify (word : String) : Token :=
  let upper := word.toList.map Char.toUpper
  if upper = "SELECT".toList then .select
  else if upper = "WHERE".toList then .where
  else if upper = "FILTER".toList then .filter
  else if upper = "LIMIT".toList then .limit
  else if upper = "A".toList then .iri rdfType
  else .bareword word

/-- A variable after its question mark. -/
def readVar : Lexer Token := do
  let name ← readName
  if name = "" then throw (.syntaxErr (.message "expected variable name after '?'"))
  else return .var name

/-- The operators that begin with an angle bracket, or an IRI. -/
def readLess : Lexer Token := fun rest =>
  match rest with
  | '=' :: rest => .ok (.le, rest)
  | n :: rest => if isIriStart n then (.iri <$> readIri) ('<' :: n :: rest) else .ok (.lt, n :: rest)
  | [] => .ok (.lt, [])

/-- The token that begins with the character `c`. -/
def readToken (c : Char) : Lexer Token := fun rest =>
  match symbol c with
  | some t => .ok (t, rest)
  | none =>
    if c = '?' || c = '$' then readVar rest
    else if c = '<' then readLess rest
    else if c = '>' then .ok (if rest.head? = some '=' then (.ge, rest.tail) else (.gt, rest))
    else if c = '!' then
      if rest.head? = some '=' then .ok (.ne, rest.tail)
      else .error (.syntaxErr (.message "expected '!=' after '!'"))
    else if c = '"' || c = '\'' then readLiteral c rest
    else if c = '_' && rest.head? = some ':' then (.blankNode <$> readName) rest.tail
    else if c.isDigit || (c = '-' && rest.head?.any Char.isDigit) then (.number <$> readNumber) (c :: rest)
    else if isAlphabetic c || c = ':' then (classify <$> readName) (c :: rest)
    else .error (.syntaxErr (.unexpectedChar c))

/-- The tokens up to the end.  Every token takes a character or more. -/
def tokenizeFrom : ℕ → List Char → Except Failure (List Token)
  | 0, _ => .error .outOfFuel
  | fuel + 1, rest =>
    match skipWsAndComments rest with
    | [] => .ok []
    | c :: rest => do
      let (t, rest) ← readToken c rest
      let ts ← tokenizeFrom fuel rest
      return t :: ts

def tokenize (input : List Char) : Except Failure (List Token) :=
  tokenizeFrom ((seen input).length + 1) (seen input)

end Tokenizer

/-! ### The parser -/

abbrev TokenStream := Reader Token Failure

namespace TokenStream

/-- The next token, which is taken. -/
def next : TokenStream (Option Token) := fun ts => .ok (ts.head?, ts.tail)

def syntaxErr {α : Type} (e : SparqlError) : TokenStream α := throw (.syntaxErr e)

def expect (expected : Token) : TokenStream Unit := do
  match ← next with
  | some t => if t = expected then return () else syntaxErr (.expectedToken expected (some t))
  | none => syntaxErr (.expectedToken expected none)

/-- Step over the token, if it is next. -/
def skipToken (t : Token) : TokenStream Unit := do
  if (← peek) = some t then bump

end TokenStream

open TokenStream

def parsePatternTerm : TokenStream PatternTerm := do
  match ← next with
  | some (.var name) => return .var name
  | some (.iri s) => return .term (.uri s)
  | some (.literal v tag) => return .term (.literal v tag)
  | some (.blankNode label) => return .term (.blankNode label)
  | some (.bareword w) => return .term (.uri w)
  | some t => syntaxErr (.expected "pattern term" (some t))
  | none => syntaxErr (.expected "pattern term" none)

def parseTriplePattern : TokenStream TriplePattern := do
  let subject ← parsePatternTerm
  let predicate ← parsePatternTerm
  let object ← parsePatternTerm
  return ⟨subject, predicate, object⟩

/-- The operator of a token. -/
def comparisonOp : Token → Option ComparisonOp
  | .eq => some .eq
  | .ne => some .ne
  | .lt => some .lt
  | .gt => some .gt
  | .le => some .le
  | .ge => some .ge
  | _ => none

variable (parseF64 : String → Option Float)

/-- A number with a point or an exponent is a float, any other one an integer. -/
def numberValue (n : String) : Except Failure FilterValue :=
  if n.toList.any fun c => c = '.' || c = 'e' || c = 'E' then
    match parseF64 n with
    | some x => .ok (.float x)
    | none => .error (.syntaxErr (.badNumber "number" n))
  else
    match parseI64 n with
    | some i => .ok (.integer i)
    | none => .error (.syntaxErr (.badNumber "integer" n))

def parseFilterValue : TokenStream FilterValue := do
  match ← next with
  | some (.number n) => StateT.lift (numberValue parseF64 n)
  | some (.literal s _) => return .string s
  | some (.iri s) => return .iri s
  | some t => syntaxErr (.expected "filter value" (some t))
  | none => syntaxErr (.message "expected filter value")

def parseFilterVar : TokenStream String := do
  match ← next with
  | some (.var name) => return name
  | some t => syntaxErr (.expected "variable in FILTER" (some t))
  | none => syntaxErr (.message "expected variable in FILTER")

def parseFilterOp : TokenStream ComparisonOp := do
  match ← next with
  | some t =>
    match comparisonOp t with
    | some op => return op
    | none => syntaxErr (.expected "comparison operator" (some t))
  | none => syntaxErr (.message "expected comparison operator")

def parseFilter : TokenStream Filter := do
  expect .lParen
  let var ← parseFilterVar
  let op ← parseFilterOp
  let value ← parseFilterValue parseF64
  expect .rParen
  return ⟨var, op, value⟩

/-- The names of the variables in front. -/
def leadingVars : List Token → List String × List Token
  | .var name :: rest => (leadingVars rest).map (fun names => name :: names) id
  | rest => ([], rest)

/-- The selected variables, or none and a star. -/
def parseProjection : TokenStream (List String × Bool) := do
  if (← peek) = some .star then do
    bump
    return ([], true)
  else do
    let select ← fun ts => .ok (leadingVars ts)
    if select = [] then syntaxErr (.message "SELECT must be followed by variables or '*'")
    else return (select, false)

/-- Patterns and filters up to the closing brace.  Every one takes a token or more. -/
def parseClauses : ℕ → TokenStream (List TriplePattern × List Filter)
  | 0 => throw .outOfFuel
  | fuel + 1 => do
    match ← peek with
    | none => syntaxErr (.message "unterminated WHERE clause")
    | some .rBrace => do
      bump
      return ([], [])
    | some .filter => do
      bump
      let f ← parseFilter parseF64
      skipToken .dot
      let (patterns, filters) ← parseClauses fuel
      return (patterns, f :: filters)
    | some .dot => do
      bump
      parseClauses fuel
    | some _ => do
      let pat ← parseTriplePattern
      skipToken .dot
      let (patterns, filters) ← parseClauses fuel
      return (pat :: patterns, filters)

def parseWhere : TokenStream (List TriplePattern × List Filter) := fun ts =>
  parseClauses parseF64 (ts.length + 1) ts

/-- The reading of a 64-bit count: digits after a plus sign or none, in the range. -/
def parseUsize (s : String) : Option ℕ :=
  let digits := match s.toList with
    | '+' :: digits => digits
    | digits => digits
  if digits = [] ∨ digits.any (fun c => !c.isDigit) then none
  else
    let n := Nat.ofDigitChars 10 digits 0
    if n < 2 ^ 64 then some n else none

/-- The limits up to the end, of which the last one counts. -/
def parseLimits (limit : Option ℕ) : List Token → Except Failure (Option ℕ)
  | [] => .ok limit
  | .limit :: .number n :: rest =>
    match parseUsize n with
    | some k => parseLimits (some k) rest
    | none => .error (.syntaxErr (.badNumber "LIMIT" n))
  | .limit :: t :: _ => .error (.syntaxErr (.expected "number after LIMIT" (some t)))
  | [.limit] => .error (.syntaxErr (.message "expected number after LIMIT"))
  | t :: _ => .error (.syntaxErr (.unexpectedToken t))

def parseLimit : TokenStream (Option ℕ) := fun ts => (parseLimits none ts).map fun limit => (limit, [])

def parseSelect : TokenStream Unit := do
  match ← next with
  | some .select => return ()
  | some t => syntaxErr (.expected "SELECT" (some t))
  | none => syntaxErr (.message "empty query")

def parseQuery : TokenStream SparqlQuery := do
  parseSelect
  let (select, selectAll) ← parseProjection
  skipToken .where
  expect .lBrace
  let (patterns, filters) ← parseWhere parseF64
  if patterns = [] then syntaxErr (.message "WHERE clause must contain at least one triple pattern")
  else do
    let limit ← parseLimit
    return ⟨select, selectAll, patterns, filters, limit⟩

def parseSparql (input : List Char) : Except Failure SparqlQuery := do
  let ts ← Tokenizer.tokenize input
  let (query, _) ← parseQuery parseF64 ts
  return query

end CenDB.Rdf
