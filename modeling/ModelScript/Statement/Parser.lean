import ModelScript.Expression.Parser
import ModelScript.Statement.Basic
import ModelScript.Statement.Unread

/-!
# Reading statements

Reads the statements of a file from its tokens.  A value is cut out of the tokens and read as an
expression; a body is cut out between its braces and read to its end before the rest goes on.

The functions take the readers for what stands inside as a parameter, and `Inner.atDepth` ties the
knot level by level: at depth zero everything is too deep.
-/

namespace ModelScript

/-- Reads something from the front of the unread tokens. -/
abbrev Reader (α : Type) := Unread → Reading (α × Unread)

/-- Reads all unread tokens, and gives the line reached. -/
abbrev WholeReader (α : Type) := Unread → Reading (α × Nat)

/-- The readers for what stands inside a statement of a file. -/
structure Inner where
  file : String
  expression : ExprReader
  type : Reader TypeRef
  statement : Reader Statement

namespace Inner

variable (r : Inner)

/-! ## Values, types and scopes -/

def value : Reader Expr := fun u => do
  let length := Unread.valueLength 0 none u.tokens
  if length = 0 then u.fault r.file (.noExpression u.tokens.head?)
  else
    let (e, _) ← r.expression u.line (u.tokens.take length)
    return (e, u.skip length)

def readType : Reader TypeRef := fun u => do
  let (name, u) ← u.identifier r.file
  match u.accept? (.keyword .of) with
  | none => return (.plain name, u)
  | some (_, u) =>
    let (element, u) ← r.type u
    return (.of name element, u)

/-- Reads a type after a keyword, if the keyword is there. -/
def typeAfter (k : Keyword) : Reader (Option TypeRef) := fun u =>
  match u.accept? (.keyword k) with
  | none => return (none, u)
  | some (_, u) => do
    let (type, u) ← r.type u
    return (some type, u)

/-- Reads a scope that opens right here, all that it holds by `body`. -/
def within {α : Type} (b : Bracket) (body : WholeReader α) : Reader α := fun u => do
  let (_, rest) ← u.require r.file (.mark (.opening b))
  match Scope.close? (.mark (.opening b)) (.mark (.closing b)) 1 rest.tokens with
  | none => u.fault r.file (.unmatched b)
  | some length =>
    let (a, line) ← body ⟨rest.tokens.take length, rest.line⟩
    return (a, ⟨rest.tokens.drop (length + 1), line⟩)

/-- Reads items, each on its own line, up to the end of the tokens.  An item takes a token at
least, so there are not more of them than `fuel` if that is the number of tokens. -/
def lines {α : Type} (item : Reader α) : Nat → WholeReader (List α)
  | fuel, u => do
    let u := u.skipNewlines
    match fuel, u.tokens with
    | _, [] | 0, _ => return ([], u.line)
    | fuel + 1, _ =>
      let (a, u) ← item u
      u.requireEnd r.file
      let (as, line) ← lines item fuel u
      return (a :: as, line)

theorem lines_of_blank {α : Type} (item : Reader α) (fuel : Nat) {u : Unread}
    (h : u.skipNewlines.tokens = []) :
    r.lines item fuel u = pure ([], u.skipNewlines.line) := by
  unfold lines
  dsimp only
  rw [h]

theorem lines_of_not_blank {α : Type} (item : Reader α) (fuel : Nat) {u : Unread}
    (h : u.skipNewlines.tokens ≠ []) :
    r.lines item (fuel + 1) u = do
      let (a, v) ← item u.skipNewlines
      v.requireEnd r.file
      let (as, line) ← r.lines item fuel v
      return (a :: as, line) := by
  obtain ⟨t, ts, ht⟩ := List.exists_cons_of_ne_nil h
  conv => lhs; unfold lines
  dsimp only
  rw [ht]

def statements : WholeReader (List Statement) := fun u => r.lines r.statement u.tokens.length u

def block : Reader (List Statement) := fun u => r.within .curly r.statements u.skipNewlines

/-! ## Models -/

def parameter : Reader Parameter := fun u => do
  let (name, u) ← u.identifier r.file
  let u ← u.word r.file .as'
  let (type, u) ← r.type u
  return (⟨name, type⟩, u)

/-- Reads parameters between commas up to the end of the tokens; a last comma may follow them.
There are not more parameters than tokens, whose number is the fuel. -/
def parametersFrom : Nat → WholeReader (List Parameter)
  | fuel, u => do
    let u := u.skipNewlines
    match fuel, u.tokens with
    | _, [] | 0, _ => return ([], u.line)
    | fuel + 1, _ =>
      let (p, u) ← r.parameter u
      let u := u.skipNewlines
      if u.tokens.isEmpty then return ([p], u.line)
      else
        let (_, u) ← u.require r.file (.mark .comma)
        let (ps, line) ← parametersFrom fuel u
        return (p :: ps, line)

theorem parametersFrom_of_blank (fuel : Nat) {u : Unread} (h : u.skipNewlines.tokens = []) :
    r.parametersFrom fuel u = pure ([], u.skipNewlines.line) := by
  unfold parametersFrom
  dsimp only
  rw [h]

theorem parametersFrom_of_not_blank (fuel : Nat) {u : Unread} (h : u.skipNewlines.tokens ≠ []) :
    r.parametersFrom (fuel + 1) u = do
      let (p, v) ← r.parameter u.skipNewlines
      if v.skipNewlines.tokens.isEmpty then return ([p], v.skipNewlines.line)
      else
        let (_, w) ← v.skipNewlines.require r.file (.mark .comma)
        let (ps, line) ← r.parametersFrom fuel w
        return (p :: ps, line) := by
  obtain ⟨t, ts, ht⟩ := List.exists_cons_of_ne_nil h
  conv => lhs; unfold parametersFrom
  dsimp only
  rw [ht]

def parameters : WholeReader (List Parameter) := fun u => r.parametersFrom u.tokens.length u

/-- Takes a keyword if it is there, and says whether it was. -/
def modifier (k : Keyword) (u : Unread) : Bool × Unread :=
  match u.accept? (.keyword k) with
  | none => (false, u)
  | some (_, u) => (true, u)

/-- Reads the value after a keyword, if the keyword is there. -/
def valueAfter (k : Keyword) : Reader (Option Expr) := fun u =>
  match u.accept? (.keyword k) with
  | none => return (none, u)
  | some (_, u) => do
    let (e, u) ← r.value u
    return (some e, u)

def member : Reader Member := fun u => do
  let (isPrivate, u) := modifier .private' u
  let (isStatic, u) := modifier .static u
  let (name, u) ← u.identifier r.file
  match u.accept? (.keyword .as') with
  | some (_, u) =>
    let (type, u) ← r.type u
    let (initial, u) ← r.valueAfter .default u
    return (.property name type ⟨isPrivate, isStatic⟩ initial, u)
  | none =>
    let (returns, u) ← r.typeAfter .return' u
    let u ← u.word r.file .from'
    let (parameters, u) ← r.within .round r.parameters u
    let (body, u) ← r.block u
    return (.function name parameters body returns ⟨isPrivate, isStatic⟩, u)

def members : WholeReader (List Member) := fun u => r.lines r.member u.tokens.length u

def model : Reader Statement := fun u => do
  let u ← u.word r.file .describe
  let (name, u) ← u.identifier r.file
  let (members, u) ← r.within .curly r.members u.skipNewlines
  return (.model name members, u)

/-! ## Variables and control flow -/

def declaration : Reader Statement := fun u => do
  let u ← u.word r.file .let'
  let (name, u) ← u.identifier r.file
  let (type, u) ← r.typeAfter .as' u
  let u ← u.word r.file .be
  let (value, u) ← r.value u
  return (.declaration name value type, u)

/-- Reads an index, which takes all tokens. -/
def index : WholeReader Expr := fun u => do
  let u := u.skipNewlines
  if u.tokens.isEmpty then u.fault r.file .emptyIndex
  else
    let (e, _) ← r.expression u.line u.tokens
    return (e, (u.skip u.tokens.length).line)

/-- Reads an index in brackets, if an opening bracket is there. -/
def indexIfAny : Reader (Option Expr) := fun u =>
  if u.startsWith (.mark (.opening .square)) then do
    let (e, u) ← r.within .square r.index u
    return (some e, u)
  else return (none, u)

def change : Reader Statement := fun u => do
  let u ← u.word r.file .make
  let (name, u) ← u.identifier r.file
  let (index, u) ← r.indexIfAny u
  let u ← u.word r.file .be
  let (value, u) ← r.value u
  return (.change name value index, u)

/-- Reads what follows the body of a conditional: nothing, another conditional, or a body.  The
line breaks in front of the keyword count only if the keyword is there. -/
def otherwise : Reader (Option (List Statement)) := fun u =>
  match u.skipNewlines.accept? (.keyword .else') with
  | none => return (none, u)
  | some (_, u) =>
    if u.startsWith (.keyword .if') then do
      let (s, u) ← r.statement u
      return (some [s], u)
    else do
      let (body, u) ← r.block u
      return (some body, u)

def conditional : Reader Statement := fun u => do
  let u ← u.word r.file .if'
  let (condition, u) ← r.value u
  let (body, u) ← r.block u
  let (otherwise, u) ← r.otherwise u
  return (.conditional condition body otherwise, u)

def loop : Reader Statement := fun u => do
  let u ← u.word r.file .while'
  let (condition, u) ← r.value u
  let (body, u) ← r.block u
  return (.loop condition body, u)

/-- Reads the end of a function, with or without a value. -/
def result : Reader Statement := fun u => do
  let u ← u.word r.file .return'
  match u.tokens with
  | [] | .newline :: _ => return (.result none, u)
  | _ =>
    let (value, u) ← r.value u
    return (.result (some value), u)

/-- Reads a statement, which its first token tells; any other token begins a bare expression. -/
def readStatement : Reader Statement := fun u =>
  match u.tokens with
  | .keyword .describe :: _ => r.model u
  | .keyword .let' :: _ => r.declaration u
  | .keyword .make :: _ => r.change u
  | .keyword .if' :: _ => r.conditional u
  | .keyword .while' :: _ => r.loop u
  | .keyword .return' :: _ => r.result u
  | _ => do
    let (value, u) ← r.value u
    return (.bare value, u)

/-! ## Levels -/

/-- The readers for text that is nested less than `depth` levels deep. -/
def atDepth (file : String) : Nat → Inner
  | 0 => {
    file
    expression := fun _ _ => .fail .tooDeep
    type := fun _ => .fail .tooDeep
    statement := fun _ => .fail .tooDeep }
  | depth + 1 =>
    let r := Inner.atDepth file depth
    {
      file
      expression := Expr.readStep file r.expression
      type := r.readType
      statement := r.readStatement }

/-- The readers of statements read values by the reader of expressions. -/
theorem atDepth_expression (file : String) (depth : Nat) :
    (Inner.atDepth file depth).expression = Expr.read file depth := by
  induction depth with
  | zero => rfl
  | succ depth ih =>
    show Expr.readStep file (Inner.atDepth file depth).expression = _
    rw [ih]
    rfl

end Inner

/-- Reads all tokens of a file as statements that are nested less than `depth` levels deep, noting
their number. -/
def parseWithin (depth : Nat) (file : String) : WholeReader (List Statement) := fun u => do
  let (body, line) ← (Inner.atDepth file depth).statements u
  Logged.note (.parsed file body.length)
  return (body, line)

/-- Reads all tokens of a file as statements. -/
def parse [DepthLimits] (file : String) : WholeReader (List Statement) :=
  parseWithin depthLimit file

end ModelScript
