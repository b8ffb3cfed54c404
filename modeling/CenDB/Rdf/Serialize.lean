import CenDB.Lib.Reader
import CenDB.Lib.Text
import CenDB.Rdf.TripleStore

/-! # N-Triples and Turtle

Two printers and two parsers.  N-Triples has a triple on every line; Turtle writes a subject once for all
its triples, and a predicate of the subject once for all its objects.

Both parsers share a cursor that moves over the bytes of the text and takes every byte for a character, so
they are readers of the characters that the cursor sees (`Text.seen`).  IRIs are cut out of the text and
come out as they are; labels, tags and literals are put together from what was seen. -/

namespace CenDB.Rdf

open Text Reader

def rdfType : String := "http://www.w3.org/1999/02/22-rdf-syntax-ns#type"

/-! ### Printing -/

def escapeChar (c : Char) : List Char :=
  if c = '"' then ['\\', '"']
  else if c = '\\' then ['\\', '\\']
  else if c = '\n' then ['\\', 'n']
  else if c = '\r' then ['\\', 'r']
  else if c = '\t' then ['\\', 't']
  else [c]

def escapeLiteral (s : List Char) : List Char := s.flatMap escapeChar

def formatIri (s : List Char) : List Char := '<' :: (s ++ ['>'])

def formatTag (tag : Option String) : List Char :=
  match tag with
  | none => []
  | some tag =>
    match tag.toList with
    | '@' :: lang => '@' :: lang
    | datatype => '^' :: '^' :: formatIri datatype

def formatTerm : RdfTerm → List Char
  | .uri s => formatIri s.toList
  | .blankNode s => '_' :: ':' :: s.toList
  | .literal value tag => '"' :: (escapeLiteral value.toList ++ '"' :: formatTag tag)

/-- A line without its line break. -/
def formatTriple (t : Triple) : List Char :=
  formatTerm t.subject ++ ' ' :: (formatTerm t.predicate ++ ' ' :: (formatTerm t.object ++ [' ', '.']))

def serializeNtriples (triples : List Triple) : List Char := triples.flatMap fun t => formatTriple t ++ ['\n']

/-- Values by their keys, in the order of insertion. -/
structure VecMap (κ ν : Type) where
  entries : List (κ × List ν)

namespace VecMap

variable {κ ν : Type} [DecidableEq κ]

def new : VecMap κ ν := ⟨[]⟩

/-- Put the value behind those of its key, or at the end. -/
def pushEntries (k : κ) (v : ν) : List (κ × List ν) → List (κ × List ν)
  | [] => [(k, [v])]
  | (k', vs) :: rest => if k' = k then (k', vs ++ [v]) :: rest else (k', vs) :: pushEntries k v rest

def push (m : VecMap κ ν) (k : κ) (v : ν) : VecMap κ ν := ⟨pushEntries k v m.entries⟩

/-- The map of some pairs. -/
def group (pairs : List (κ × ν)) : VecMap κ ν := pairs.foldl (fun m e => m.push e.1 e.2) new

end VecMap

/-- A predicate and its objects. -/
def formatObjects (entry : RdfTerm × List RdfTerm) : List Char :=
  formatTerm entry.1 ++ ' ' :: joined [' ', ',', ' '] (entry.2.map formatTerm)

/-- A subject and its predicates. -/
def formatSubject (entry : RdfTerm × List (RdfTerm × RdfTerm)) : List Char :=
  let byPred := VecMap.group entry.2
  formatTerm entry.1 ++ ((if byPred.entries = [] then [] else [' ']) ++
      joined [' ', ';', '\n', ' ', ' '] (byPred.entries.map formatObjects) ++ [' ', '.', '\n'])

def serializeTurtle (triples : List Triple) : List Char :=
  (VecMap.group (triples.map fun t => (t.subject, (t.predicate, t.object)))).entries.flatMap formatSubject

/-! ### The cursor -/

inductive SyntaxError where
  | expected (c : Char) (got : Option Char)
  | message (text : String)
  | unknownPrefix (label : List Char)
  | unexpected (c : Char)
  | atLine (line : ℕ) (e : SyntaxError)
  | outOfFuel
deriving DecidableEq, Repr

abbrev Parser := Reader Char SyntaxError

def expectChar (c : Char) : Parser Unit := fun rest =>
  match rest with
  | [] => .error (.expected c none)
  | d :: rest => if d = c then .ok ((), rest) else .error (.expected c (some d))

def skipWs : Parser Unit := skipWhile isWhitespace

/-- Skip white space and comments; a comment goes on to the end of its line. -/
def skipComments (inComment : Bool) : List Char → List Char
  | [] => []
  | c :: rest =>
    if inComment then skipComments (c != '\n') rest
    else if isWhitespace c then skipComments false rest
    else if c = '#' then skipComments true rest
    else c :: rest

def skipWsAndComments : Parser Unit := fun rest => .ok ((), skipComments false rest)

/-- Whether the keyword is next, and no name goes on behind it. -/
def peekKeyword (kw : String) (rest : List Char) : Bool :=
  kw.toList.isPrefixOf rest && match (rest.drop kw.length).head? with
    | some n => !(isAlphanumeric n || n = '_' || n = ':' || n = '-')
    | none => true

def consumeKeyword (kw : String) : Parser Unit := fun rest => .ok ((), rest.drop kw.length)

/-- The characters of an IRI and the rest; a backslash takes the next character with it. -/
def iriBody : List Char → List Char × List Char
  | [] => ([], [])
  | c :: rest =>
    if c = '>' then ([], c :: rest)
    else if c = '\\' then
      match rest with
      | [] => ([c], [])
      | d :: rest => ((iriBody rest).map (fun taken => c :: d :: taken) id)
    else (iriBody rest).map (fun taken => c :: taken) id

def parseIri : Parser String := do
  expectChar '<'
  let taken ← fun rest => .ok (iriBody rest)
  expectChar '>'
  return String.ofList (slice taken)

/-- A character that ends a local name. -/
def endsLocal (c : Char) : Bool := isWhitespace c || c = '.' || c = ';' || c = ',' || c = ')' || c = '('

def parsePnameLocal : Parser (List Char) := takeWhile fun c => !endsLocal c

/-- The prefix of a name, up to its colon. -/
def namePrefix : Parser (List Char) := fun rest =>
  let taken := rest.takeWhile fun c => c ≠ ':' && !endsLocal c
  match rest.drop taken.length with
  | c :: rest' => if c = ':' then .ok (taken, c :: rest') else .error (.message "expected ':' in prefixed name")
  | [] => .ok (taken, [])

def parsePrefixedName : Parser (List Char × List Char) := do
  let label ← namePrefix
  expectChar ':'
  let name ← parsePnameLocal
  return (label, name)

/-! ### Literals -/

/-- What a backslash and a letter stand for. -/
def literalEscape (c : Char) : List Char :=
  match c with
  | '"' => ['"']
  | '\\' => ['\\']
  | 'n' => ['\n']
  | 'r' => ['\r']
  | 't' => ['\t']
  | '\'' => ['\'']
  | other => ['\\', other]

/-- The character of a hexadecimal numeral, if there is one. -/
def escapedChar (hex : List Char) (error : SyntaxError) : Except SyntaxError (List Char) :=
  match fromStrRadix16 hex with
  | some code => .ok (if code.isValidChar then [Char.ofNat code] else [])
  | none => .error error

/-- The rest of a literal after its quote; `skip` characters of a numeral are passed over. -/
def literalBody (quote : Char) (value : List Char) : ℕ → List Char → Except SyntaxError (List Char × List Char)
  | _, [] => .error (.message "unterminated literal")
  | skip + 1, _ :: rest => literalBody quote value skip rest
  | 0, c :: rest =>
    if c = quote then .ok (value, rest)
    else if c = '\\' then
      match rest with
      | [] => .error (.message "bad escape")
      | next :: rest =>
        if next = 'u' then do
          let chars ← escapedChar (rest.take 4) (.message "bad \\u escape")
          literalBody quote (value ++ chars) 4 rest
        else if next = 'U' then do
          let chars ← escapedChar (rest.take 8) (.message "bad \\U escape")
          literalBody quote (value ++ chars) 8 rest
        else literalBody quote (value ++ literalEscape next) 0 rest
    else literalBody quote (value ++ [c]) 0 rest

/-- The quoted part of a literal. -/
def parseQuoted : Parser (List Char) := fun rest =>
  match rest with
  | [] => .error (.message "expected literal")
  | quote :: rest => literalBody quote [] 0 rest

/-- A language tag, a datatype or nothing. -/
def parseTag : Parser (Option String) := do
  match ← peek with
  | some '@' => do
    bump
    let lang ← takeWhile fun c => isAlphanumeric c || c = '-'
    return some (String.ofList ('@' :: lang))
  | some '^' => do
    bump
    expectChar '^'
    let datatype ← parseIri
    return some datatype
  | _ => return none

def parseLiteral : Parser RdfTerm := do
  let value ← parseQuoted
  let tag ← parseTag
  return .literal (String.ofList value) tag

/-! ### N-Triples -/

/-- A label after its underscore and colon. -/
def parseBlankNode : Parser RdfTerm := do
  expectChar '_'
  expectChar ':'
  let label ← parsePnameLocal
  return .blankNode (String.ofList label)

/-- A prefixed name without its prefix. -/
def parseLocalName : Parser RdfTerm := do
  let (_, name) ← parsePrefixedName
  return .uri (String.ofList name)

def parseSubject : Parser RdfTerm := do
  skipWs
  match ← peek with
  | some c =>
    if c = '<' then .uri <$> parseIri
    else if c = '_' then parseBlankNode
    else if isAlphabetic c || c = ':' then parseLocalName
    else throw (.message "expected subject")
  | none => throw (.message "expected subject")

/-- The keyword `a`: an `a` at the end or in front of white space. -/
def isA (rest : List Char) : Bool :=
  match rest with
  | 'a' :: rest => rest = [] || (slice rest).head?.any isWhitespace
  | _ => false

def parseIriOrA : Parser RdfTerm := do
  skipWs
  if isA (← get) then do
    bump
    return .uri rdfType
  else
    match ← peek with
    | some c =>
      if c = '<' then .uri <$> parseIri
      else if isAlphabetic c || c = ':' then parseLocalName
      else throw (.message "expected predicate")
    | none => throw (.message "expected predicate")

def parseObject : Parser RdfTerm := do
  skipWs
  match ← peek with
  | some c =>
    if c = '<' then .uri <$> parseIri
    else if c = '_' then parseBlankNode
    else if c = '"' || c = '\'' then parseLiteral
    else if isAlphabetic c || c = ':' then parseLocalName
    else throw (.message "expected object")
  | none => throw (.message "expected object")

def parseTriple : Parser Triple := do
  skipWs
  let subject ← parseSubject
  skipWs
  let predicate ← parseIriOrA
  skipWs
  let object ← parseObject
  skipWs
  expectChar '.'
  return ⟨subject, predicate, object⟩

def parseNtriplesLine (line : List Char) : Except SyntaxError Triple := (parseTriple (seen line)).map Prod.fst

/-- The triples of the lines from line `n` on. -/
def parseLines : ℕ → List (List Char) → Except SyntaxError (List Triple)
  | _, [] => .ok []
  | n, raw :: rest =>
    let line := trim raw
    if line = [] || line.head? = some '#' then parseLines (n + 1) rest
    else
      match parseNtriplesLine line with
      | .error e => .error (.atLine (n + 1) e)
      | .ok triple => (parseLines (n + 1) rest).map (triple :: ·)

def parseNtriples (input : List Char) : Except SyntaxError (List Triple) := parseLines 0 (lines input)

/-! ### Turtle -/

/-- IRIs by their prefixes. -/
abbrev Prefixes := Table (List Char) String

def parseTerm (prefixes : Prefixes) : Parser RdfTerm := do
  skipWs
  match ← peek with
  | some c =>
    if c = '<' then .uri <$> parseIri
    else if c = '_' then parseBlankNode
    else if c = '"' || c = '\'' then parseLiteral
    else if isAlphabetic c || c = ':' then do
      let (label, name) ← parsePrefixedName
      match prefixes.lookup label with
      | some base => return .uri (base ++ String.ofList name)
      | none => throw (.unknownPrefix label)
    else throw (.unexpected c)
  | none => throw (.message "unexpected end of input")

def parsePredicate (prefixes : Prefixes) : Parser RdfTerm := do
  skipWs
  if isA (← get) then do
    bump
    return .uri rdfType
  else parseTerm prefixes

/-- Objects separated by commas. -/
def parseObjects (prefixes : Prefixes) (subject predicate : RdfTerm) : ℕ → Parser (List Triple)
  | 0 => throw .outOfFuel
  | fuel + 1 => do
    let object ← parseTerm prefixes
    skipWs
    if (← peek) = some ',' then do
      bump
      skipWs
      let triples ← parseObjects prefixes subject predicate fuel
      return ⟨subject, predicate, object⟩ :: triples
    else return [⟨subject, predicate, object⟩]

/-- Predicates with their objects, up to the full stop. -/
def parsePredicates (prefixes : Prefixes) (subject : RdfTerm) : ℕ → Parser (List Triple)
  | 0 => throw .outOfFuel
  | fuel + 1 => do
    skipWs
    if (← peek) = some '.' then do
      bump
      return []
    else do
      let predicate ← parsePredicate prefixes
      skipWs
      let first ← parseObjects prefixes subject predicate fuel
      skipWs
      if (← peek) = some ';' then do
        bump
        skipWs
        let triples ← parsePredicates prefixes subject fuel
        return first ++ triples
      else if (← peek) = some '.' then do
        bump
        return first
      else throw (.message "expected '.' or ';' after predicate-object list")

def parseTriplesBlock (prefixes : Prefixes) (fuel : ℕ) : Parser (List Triple) := do
  skipWs
  let subject ← parseTerm prefixes
  skipWs
  parsePredicates prefixes subject fuel

/-- Step over the character, if it is next. -/
def optional (c : Char) : Parser Unit := do
  if (← peek) = some c then bump

/-- The first of the keywords that is next. -/
def takeKeyword : List String → Parser Unit
  | [] => throw (.message "expected @prefix or PREFIX")
  | kw :: kws => do
    if peekKeyword kw (← get) then consumeKeyword kw
    else takeKeyword kws

def parsePrefixDecl (prefixes : Prefixes) (isBase : Bool) : Parser Prefixes := do
  takeKeyword ["@prefix", "PREFIX", "@base", "BASE"]
  skipWs
  if isBase then do
    let _ ← parseIri
    skipWs
    optional '.'
    return prefixes
  else do
    let label ← takeWhile (· ≠ ':')
    expectChar ':'
    skipWs
    let iri ← parseIri
    skipWs
    optional '.'
    return AList.insert label iri prefixes

/-- Statements up to the end.  Every statement takes a character or more. -/
def parseStatements : ℕ → Prefixes → Parser (List Triple)
  | 0, _ => throw .outOfFuel
  | fuel + 1, prefixes => do
    skipWsAndComments
    let rest ← get
    if rest = [] then return []
    else if peekKeyword "PREFIX" rest || peekKeyword "@prefix" rest then do
      let prefixes ← parsePrefixDecl prefixes false
      parseStatements fuel prefixes
    else if peekKeyword "BASE" rest || peekKeyword "@base" rest then do
      let prefixes ← parsePrefixDecl prefixes true
      parseStatements fuel prefixes
    else do
      let first ← parseTriplesBlock prefixes (fuel + 1)
      let triples ← parseStatements fuel prefixes
      return first ++ triples

def parseTurtle (input : List Char) : Except SyntaxError (List Triple) :=
  let text := seen input
  (parseStatements (text.length + 1) ∅ text).map Prod.fst

end CenDB.Rdf
