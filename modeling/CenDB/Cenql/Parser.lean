import CenDB.Cenql.Ast
import CenDB.Cenql.Lexer
import CenDB.Lib.Numerals
import CenDB.Lib.Operators

/-! # The expression parser

The parser reads tokens from the front of a list: the state is what the position still has before it.  The
last token, which ends the input, is never passed.  There is one function for each level of precedence, from
`or` to primary expressions; the fuel bounds the nesting of the latter. -/

namespace CenDB.Cenql

open Reader

inductive ParseError
  | lex (e : LexError)
  | unexpected (expected : String) (got : TokenKind) (offset : ℕ)
  | unexpectedEof
  | other (message : String)
  deriving DecidableEq, Repr

/-- An error that is returned, or a panic. -/
inductive ParseFailure
  | parseErr (e : ParseError)
  | panic
  | outOfFuel
  deriving DecidableEq, Repr

abbrev TokenStream := Reader Token ParseFailure

/-! ### Helpers -/

def peekKind : TokenStream (Option TokenKind) := fun ts => .ok (ts.head?.map Token.kind, ts)

/-- The last token stays where it is. -/
def advance : TokenStream Token
  | [] => .error .panic
  | [t] => .ok (t, [t])
  | t :: t' :: ts => .ok (t, t' :: ts)

def unexpectedKind {α : Type} (got : TokenKind) (expected : String) : TokenStream α
  | t :: _ => .error (.parseErr (.unexpected expected got t.offset))
  | [] => .error (.parseErr .unexpectedEof)

def expect (kind : TokenKind) : TokenStream Unit := do
  match ← peekKind with
  | some k =>
    if k = kind then do
      let _ ← advance
      return ()
    else unexpectedKind k "specific token"
  | none => throw (.parseErr .unexpectedEof)

def expectIdent : TokenStream String := do
  match ← peekKind with
  | some .ident => do
    let t ← advance
    return t.text
  | some k => unexpectedKind k "identifier"
  | none => throw (.parseErr .unexpectedEof)

/-- Step over an operator of a table. -/
def operator {ω : Type} (table : TokenKind → Option ω) : TokenStream (Option ω) := do
  match (← peekKind).bind table with
  | some op => do
    let _ ← advance
    return some op
  | none => return none

/-! ### Levels -/

def orOp : TokenKind → Option BinaryOp
  | .or => some .or
  | _ => none

def andOp : TokenKind → Option BinaryOp
  | .and => some .and
  | _ => none

def comparisonOp : TokenKind → Option BinaryOp
  | .eqEq => some .eq
  | .notEq => some .ne
  | .lt => some .lt
  | .le => some .le
  | .gt => some .gt
  | .ge => some .ge
  | _ => none

def additiveOp : TokenKind → Option BinaryOp
  | .plus => some .add
  | .minus => some .sub
  | _ => none

def multiplicativeOp : TokenKind → Option BinaryOp
  | .star => some .mul
  | .slash => some .div
  | _ => none

/-- Operands of the next level, and operators of the table between them. -/
def parseLevel (table : TokenKind → Option BinaryOp) (operand : TokenStream Expr) : TokenStream Expr :=
  leftAssoc operand (operator table) Expr.binary .outOfFuel

section levels

variable (parsePrimary : TokenStream Expr)

def parseMultiplicative : TokenStream Expr := parseLevel multiplicativeOp parsePrimary

def parseAdditive : TokenStream Expr := parseLevel additiveOp (parseMultiplicative parsePrimary)

/-- Comparisons do not chain. -/
def parseComparison : TokenStream Expr := do
  let lhs ← parseAdditive parsePrimary
  match ← operator comparisonOp with
  | some op => do
    let rhs ← parseAdditive parsePrimary
    return .binary op lhs rhs
  | none => return lhs

def parseAnd : TokenStream Expr := parseLevel andOp (parseComparison parsePrimary)

def parseOr : TokenStream Expr := parseLevel orOp (parseAnd parsePrimary)

end levels

/-! ### Primary expressions -/

def parseI64 (text : String) : Option Int64 := (Numerals.parseSigned 64 text.toList).map Int64.ofInt

def comma : TokenKind → Option Unit
  | .comma => some ()
  | _ => none

def dot : TokenKind → Option Unit
  | .dot => some ()
  | _ => none

/-- The arguments of a call, up to the closing parenthesis. -/
def parseArgs (parseExpr : TokenStream Expr) : TokenStream (List Expr) := do
  if (← peekKind) = some .rParen then return []
  else
    leftAssoc ((fun e => [e]) <$> parseExpr) (operator comma) (fun _ args more => args ++ more) .outOfFuel

/-- The rest of a dotted path after its first name. -/
def parsePath (name : String) : TokenStream String :=
  chain expectIdent (operator dot) (fun _ full next => full ++ "." ++ next) .outOfFuel name

variable (parseF64 : String → Option UInt64)

def parsePrimary : ℕ → TokenStream Expr
  | 0 => throw .outOfFuel
  | fuel + 1 => do
    match ← peekKind with
    | some .i64 => do
      let t ← advance
      match parseI64 t.text with
      | some v => return .i64 v
      | none => throw (.parseErr (.other ("invalid i64: " ++ t.text)))
    | some .f64 => do
      let t ← advance
      match parseF64 t.text with
      | some v => return .f64 v
      | none => throw (.parseErr (.other ("invalid f64: " ++ t.text)))
    | some .str => do
      let t ← advance
      return .str t.text
    | some .ident => do
      let t ← advance
      if (← peekKind) = some .lParen then do
        let _ ← advance
        let args ← parseArgs (parseOr (parsePrimary fuel))
        expect .rParen
        return .call t.text args
      else Expr.column <$> parsePath t.text
    | some .lParen => do
      let _ ← advance
      let e ← parseOr (parsePrimary fuel)
      expect .rParen
      return e
    | some k => unexpectedKind k "expression"
    | none => throw (.parseErr .unexpectedEof)

/-- Every level of nesting takes a token or more. -/
def parseExpr : TokenStream Expr := fun ts => parseOr (parsePrimary parseF64 ts.length) ts

/-- The tokens of a text. -/
def Parser.new (src : String) : Except ParseFailure (List Token) :=
  match Tokenizer.tokenize src with
  | .ok tokens => .ok tokens
  | .error (.lexErr e) => .error (.parseErr (.lex e))
  | .error .panic => .error .panic
  | .error .outOfFuel => .error .outOfFuel

end CenDB.Cenql
