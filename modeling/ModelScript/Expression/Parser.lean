import ModelScript.Expression.Construct
import ModelScript.Expression.Interpolation
import ModelScript.Reading
import ModelScript.Scope

/-!
# Reading expressions

Reads a list of tokens as exactly one expression.  The leading construct takes its tokens; an
operator after it makes the construct the left operand and everything behind the operator the right
one, and otherwise nothing but line breaks may follow.

Each function takes the reader for the expressions inside as a parameter.  `Expr.read` ties the
knot: at depth zero the text is too deep, and each level reads its inner expressions one level
lower.  A reader is given the line of its first token and returns the line it has come to, which
counts the line breaks that its construct has walked over; elements of lists are read on lines of
their own.
-/

namespace ModelScript

/-- Reads the tokens that begin in a line, and gives the line reached. -/
abbrev ExprReader := Nat → List Token → Reading (Expr × Nat)

namespace Expr

/-! ## Operators -/

/-- An operator between its operands, and the line breaks in front of it. -/
structure Split where
  left : List Token
  operator : String
  right : List Token
  newlines : Nat

/-- The operator that continues the construct of the first `length` tokens.  An operator without
anything behind it continues nothing. -/
def split? (length : Nat) (tokens : List Token) : Option Split :=
  match Token.trimStart (tokens.drop length) with
  | .operator operator :: r :: rest =>
    some {
      left := Token.trimEnd (tokens.take length)
      operator
      right := r :: rest
      newlines := Token.newlines (tokens.take length)
        + Token.leadingNewlines (tokens.drop length) }
  | _ => none

/-- The operation whose left operand is the first `length` tokens, if an operator follows them.
The right operand is read on the operator's line. -/
def operation? (read : ExprReader) (length line : Nat) (tokens : List Token) :
    Reading (Option (Expr × Nat)) :=
  match split? length tokens with
  | none => return none
  | some s => do
    let (left, reached) ← read line s.left
    let (right, last) ← read (max reached (line + s.newlines)) s.right
    return some (.operation left s.operator right, last)

/-- Stops at the first token other than a line break behind the first `length` tokens. -/
def requireEnd (file : String) (length line : Nat) (tokens : List Token) : Reading Unit :=
  match Token.trimStart (tokens.drop length) with
  | [] => return ()
  | t :: _ =>
    .fault file (line + Token.newlines (tokens.take length)
      + Token.leadingNewlines (tokens.drop length)) (.leftover t)

/-- Reads what follows a construct of `length` tokens: an operation, or nothing and then the
construct itself by `alone`. -/
def orOperation (file : String) (read : ExprReader) (length line : Nat) (tokens : List Token)
    (alone : Reading (Expr × Nat)) : Reading (Expr × Nat) := do
  match ← operation? read length line tokens with
  | some result => return result
  | none =>
    requireEnd file length line tokens
    alone

/-! ## Brackets -/

/-- The places of the first bracket of a shape and of its close. -/
def bracketed (file : String) (b : Bracket) (line : Nat) (tokens : List Token) :
    Reading (Nat × Nat) :=
  match Scope.range? (.mark (.opening b)) (.mark (.closing b)) tokens 0 with
  | some range => return range
  | none =>
    let before := (Scope.firstOf? [.mark (.opening b)] tokens 0).getD 0
    .fault file (line + Token.newlines (tokens.take before)) (.unmatched b)

/-- Reads the segments between commas, each on the line it begins in. -/
def elements (read : ExprReader) : Nat → List (List Token) → Reading (List Expr)
  | _, [] => return []
  | line, segment :: rest => do
    let (e, _) ← read line segment
    let es ← elements read (line + Token.newlines segment) rest
    return e :: es

/-- Reads the one element of a list.  One that cannot be read is left out with a warning. -/
def onlyElement (read : ExprReader) (line : Nat) (tokens : List Token) : Reading (List Expr) :=
  let x := read line tokens
  match x.outcome with
  | .ok (e, _) => ⟨x.events, .ok [e]⟩
  | .error (.fault f) => ⟨x.events ++ [.dropped f], .ok []⟩
  | .error stop => ⟨x.events, .error stop⟩

/-- Reads the list in the first scope of the given kinds.  Commas inside parentheses or square
brackets separate nothing. -/
def readList (file : String) (read : ExprReader) (opening closing : Kind) (line : Nat)
    (tokens : List Token) : Reading (List Expr) :=
  match Scope.firstOf? [opening] tokens 0 with
  | none =>
    match opening with
    | .mark m => .fault file line (.noOpening m)
    | k => .fail (.noList k)
  | some first =>
    match Scope.range? opening closing tokens 0 with
    | none =>
      match opening with
      | .mark (.opening .round) =>
        .fault file (line + Token.newlines (tokens.take first)) (.unmatched .round)
      | .mark (.opening .square) =>
        .fault file (line + Token.newlines (tokens.take first)) (.unmatched .square)
      | k => .fail (.noList k)
    | some (start, stop) =>
      let inner := (tokens.take stop).drop (start + 1)
      let line := line + Token.newlines (tokens.take (start + 1))
      if inner.isEmpty then return []
      else
        match Scope.separatorsFrom Scope.listScopes (.mark .comma) 0 0 inner with
        | [] => onlyElement read line inner
        | commas => elements read line (Scope.cut inner 0 commas)

/-! ## Strings -/

/-- The literal piece of a text from `start` up to `stop`, if it is not empty. -/
def piece (text : List Char) (start stop : Nat) : List Expr :=
  if start < stop then [.atom .string (String.ofList ((text.take stop).drop start))] else []

/-- Reads the interpolations of a text, and the literal pieces between them from `start` on. -/
def parts (file : String) (read : ExprReader) (line : Nat) (text : List Char) :
    Nat → List Interpolation → Reading (List Expr)
  | start, [] => return piece text start text.length
  | start, i :: rest => do
    if i.closing - i.opening < 2 then Reading.fault file line .emptyInterpolation
    else
      let tokens ← Reading.tokens file line ((text.take i.closing).drop (i.opening + 1))
      let (e, _) ← read line tokens
      let es ← parts file read line text (i.closing + 1) rest
      return piece text start i.marker ++ e :: es

def readString (file : String) (read : ExprReader) (line : Nat) (raw : String) : Reading Expr :=
  match Interpolation.ranges raw.toList with
  | [] => return .atom .string raw
  | ranges => .templated <$> parts file read line raw.toList 0 ranges

/-! ## Constructs -/

def readGrouped (file : String) (read : ExprReader) (line : Nat) (tokens : List Token) :
    Reading (Expr × Nat) := do
  let (start, stop) ← bracketed file .round line tokens
  let inner := (tokens.take stop).drop (start + 1)
  if (Token.significant? inner).isNone then Reading.fault file line .emptyParentheses
  else
    orOperation file read (stop + 1) line tokens do
      let (e, reached) ← read line inner
      return (.grouped e, reached)

/-- Reads a prefix operator and everything behind it. -/
def readPrefixed (file : String) (read : ExprReader) (operator : String) (line : Nat)
    (tokens : List Token) : Reading (Expr × Nat) :=
  match tokens with
  | _ :: t :: rest => do
    let (e, reached) ← read line (t :: rest)
    return (.prefixed operator e, reached)
  | _ => .fault file line (.noExpression tokens.head?)

/-- Reads a construct that holds a list in brackets of a shape. -/
def readListing (file : String) (read : ExprReader) (b : Bracket) (build : List Expr → Expr)
    (line : Nat) (tokens : List Token) : Reading (Expr × Nat) := do
  let (_, stop) ← bracketed file b line tokens
  orOperation file read (stop + 1) line tokens do
    let es ← readList file read (.mark (.opening b)) (.mark (.closing b)) line tokens
    return (build es, line)

/-- Reads an element of a named list. -/
def readAccess (file : String) (read : ExprReader) (name : String) (line : Nat)
    (tokens : List Token) : Reading (Expr × Nat) := do
  let (start, stop) ← bracketed file .square line tokens
  orOperation file read (stop + 1) line tokens do
    let inner := (tokens.take stop).drop (start + 1)
    let first := line + Token.newlines (tokens.take (start + 1))
    let index := Token.trimEnd (Token.trimStart inner)
    if index.isEmpty then Reading.fault file first .emptyIndex
    else
      let (e, reached) ← read (first + Token.leadingNewlines inner) index
      return (.access name e, max line reached)

/-- Reads a literal or a name. -/
def readAtom (file : String) (read : ExprReader) (kind : Atom) (text : String) (line : Nat)
    (tokens : List Token) : Reading (Expr × Nat) := do
  match ← operation? read 1 line tokens with
  | some result => return result
  | none =>
    match tokens with
    | _ :: t :: _ => Reading.fault file line (.leftover t)
    | _ =>
      match kind with
      | .string => return (← readString file read line text, line)
      | _ => return (.atom kind text, line)

/-- Reads an expression, its inner expressions by `read`. -/
def readStep (file : String) (read : ExprReader) : ExprReader := fun line tokens =>
  let first := line + Token.leadingNewlines tokens
  let body := Token.trimEnd (Token.trimStart tokens)
  match Construct.of? body with
  | none => .fault file first (.noExpression body.head?)
  | some .parentheses => readGrouped file read first body
  | some (.prefixed op) => readPrefixed file read op first body
  | some .list => readListing file read .square .list first body
  | some (.call name) => readListing file read .round (.call name) first body
  | some (.access name) => readAccess file read name first body
  | some (.atom kind text) => readAtom file read kind text first body

/-- Reads an expression that is nested less than `depth` levels deep. -/
def read (file : String) : Nat → ExprReader
  | 0 => fun _ _ => .fail .tooDeep
  | depth + 1 => readStep file (read file depth)

end Expr

end ModelScript
