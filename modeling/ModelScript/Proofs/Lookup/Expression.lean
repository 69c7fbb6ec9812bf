import ModelScript.Proofs.Expression.Step
import ModelScript.Proofs.Lookup.Construct
import ModelScript.Proofs.Lookup.Interpolation
import ModelScript.Proofs.Lookup.Lexer
import ModelScript.Proofs.Lookup.Scope

/-!
# Expressions by look-ups

The reader of expressions over indices into the token list: the first token is asked for its text
once the construct is known, operands and elements are slices between positions that were searched
for, and the errors of brackets are looked up by the bracket.  Every reader here does what its
counterpart in `Expr` does (`mirrors_parseExpression`), so no look-up of theirs misses.
-/

namespace ModelScript

/-- Reads the tokens that begin in a line by look-ups, and gives the line reached. -/
abbrev ExprLooker := Nat → List Token → Looking (Expr × Nat)

namespace Lookup

open Looking (item entry text item_eq entry_eq text_eq bind_eq_of of_pure of_bind of_map of_fault)
open Token (Trimmed)

/-! ## Tables -/

/-- The brackets that expressions stand in, by the tokens that open them. -/
def bracketKinds : List (Kind × Bracket) :=
  [(.mark (.opening .round), .round), (.mark (.opening .square), .square)]

/-- The punctuation marks by the kinds of their tokens. -/
def markKinds : List (Kind × Mark) := Mark.all.map fun m => (.mark m, m)

/-- What the text of an atom stands for, by the kind of the atom.  Strings are read in their own
way. -/
def leaves : List (Atom × (String → Expr)) :=
  [(.identifier, .atom .identifier), (.integer, .atom .integer), (.float, .atom .float),
    (.boolean, .atom .boolean)]

theorem entry_bracketKinds {b : Bracket} (hb : b ≠ .curly) :
    entry bracketKinds (.mark (.opening b)) = pure b := by
  cases b with
  | round => rfl
  | square => rfl
  | curly => exact absurd rfl hb

theorem entry_markKinds (m : Mark) : entry markKinds (.mark m) = pure m := by
  cases m with
  | opening b => cases b <;> rfl
  | closing b => cases b <;> rfl
  | _ => rfl

/-! ## Operators -/

/-- The operation whose left operand ends in front of an index, if an operator follows it there that
is not the last token. -/
def parseOperator (look : ExprLooker) (index line : Nat) (tokens : List Token) :
    Looking (Option (Expr × Nat)) := do
  if tokens.length ≤ index then return none
  match ← indexOfFirstNot .newline tokens index with
  | none => return none
  | some k =>
    if k = tokens.length - 1 then return none
    if (← item tokens k).kind ≠ .operator then return none
    let (left, reached) ← look line (← trimTrailing (tokens.take index))
    let (right, last) ← look (max reached (line + Token.newlines (tokens.take k)))
      (tokens.drop (k + 1))
    let operator ← text (← item tokens k)
    return some (.operation left operator right, last)

/-- An operation after a construct, or else what the construct is alone. -/
def orOperator (look : ExprLooker) (index line : Nat) (tokens : List Token)
    (alone : Looking (Expr × Nat)) : Looking (Expr × Nat) := do
  match ← parseOperator look index line tokens with
  | some operation => return operation
  | none => alone

/-- Stops at the first token from an index on that is no line break. -/
def requireConsumed (file : String) (stop line : Nat) (tokens : List Token) : Looking Unit := do
  match ← indexOfFirstNot .newline tokens stop with
  | none => return ()
  | some leftover =>
    let t ← item tokens leftover
    Looking.fault file (line + Token.newlines (tokens.take leftover)) (.leftover t)

/-! ## Brackets -/

/-- The places of the first bracket and of its close. -/
def scopeOrRaise (file : String) (opening closing : Kind) (line : Nat) (tokens : List Token) :
    Looking (Nat × Nat) := do
  match ← rangeOfScope opening closing tokens 0 with
  | some range => return range
  | none =>
    let before := (← indexOfFirst [opening] tokens 0).getD 0
    let b ← entry bracketKinds opening
    Looking.fault file (line + Token.newlines (tokens.take before)) (.unmatched b)

/-- Reads the tokens between one index and the next. -/
def elements (look : ExprLooker) (line : Nat) (tokens : List Token) :
    List (Nat × Nat) → Looking (List Expr)
  | [] => return []
  | (lower, upper) :: rest => do
    let (e, _) ← look (line + Token.newlines (tokens.take (lower + 1)))
      ((tokens.take upper).drop (lower + 1))
    let es ← elements look line tokens rest
    return e :: es

/-- Reads the one element of a list.  One that is wrong is left out with a warning. -/
def onlyElement (look : ExprLooker) (line : Nat) (tokens : List Token) : Looking (List Expr) :=
  let x := look line tokens
  match x.outcome with
  | .ok (e, _) => ⟨x.events, .ok [e]⟩
  | .error (.stop (.fault f)) => ⟨x.events ++ [.dropped f], .ok []⟩
  | .error halt => ⟨x.events, .error halt⟩

/-- Reads the list in the first scope. -/
def parseExpressionList (file : String) (look : ExprLooker) (opening closing : Kind) (line : Nat)
    (tokens : List Token) : Looking (List Expr) := do
  match ← indexOfFirst [opening] tokens 0 with
  | none =>
    let m ← entry markKinds opening
    Looking.fault file line (.noOpening m)
  | some first =>
    match ← rangeOfScope opening closing tokens 0 with
    | none =>
      let b ← entry bracketKinds opening
      Looking.fault file (line + Token.newlines (tokens.take first)) (.unmatched b)
    | some (start, stop) =>
      if stop - start < 2 then return []
      let commas ← indicesOutsideOf Scope.listScopes (.mark .comma) tokens (start + 1) stop
      if commas.isEmpty then
        onlyElement look (line + Token.newlines (tokens.take (start + 1)))
          ((tokens.take stop).drop (start + 1))
      else
        let bounds := start :: commas ++ [stop]
        elements look line tokens (bounds.zip bounds.tail)

/-! ## Strings -/

/-- Reads the interpolations of a text, and the literal pieces between them from `start` on. -/
def parts (file : String) (look : ExprLooker) (line : Nat) (raw : List Char) :
    Nat → List Interpolation → Looking (List Expr)
  | start, [] => return Expr.piece raw start raw.length
  | start, i :: rest => do
    if i.closing - i.opening < 2 then Looking.fault file line .emptyInterpolation
    else
      let tokens ← tokenize file line ((raw.take i.closing).drop (i.opening + 1))
      let (e, _) ← look line tokens
      let es ← parts file look line raw (i.closing + 1) rest
      return Expr.piece raw start i.marker ++ e :: es

def parseStringLiteral (file : String) (look : ExprLooker) (line : Nat) (raw : String) :
    Looking Expr := do
  match ← interpolations raw.toList with
  | [] => return .atom .string raw
  | ranges => .templated <$> parts file look line raw.toList 0 ranges

/-! ## Constructs -/

def parsePrefix (file : String) (look : ExprLooker) (line : Nat) (tokens : List Token) :
    Looking (Expr × Nat) := do
  let operator ← text (← item tokens 0)
  if tokens.length < 2 then
    Looking.fault file line (.noExpression (some (← item tokens 0)))
  else
    let (e, reached) ← look line (tokens.drop 1)
    return (.prefixed operator e, reached)

def parseParentheses (file : String) (look : ExprLooker) (line : Nat) (tokens : List Token) :
    Looking (Expr × Nat) := do
  let (start, stop) ← scopeOrRaise file (.mark (.opening .round)) (.mark (.closing .round)) line
    tokens
  let inner := (tokens.take stop).drop (start + 1)
  if (← indexOfFirstNot .newline inner 0).isNone then Looking.fault file line .emptyParentheses
  else
    orOperator look (stop + 1) line tokens do
      requireConsumed file (stop + 1) line tokens
      let (e, reached) ← look line inner
      return (.grouped e, reached)

def parseListing (file : String) (look : ExprLooker) (b : Bracket) (build : List Expr → Expr)
    (line : Nat) (tokens : List Token) : Looking (Expr × Nat) := do
  let (_, stop) ← scopeOrRaise file (.mark (.opening b)) (.mark (.closing b)) line tokens
  orOperator look (stop + 1) line tokens do
    requireConsumed file (stop + 1) line tokens
    let es ← parseExpressionList file look (.mark (.opening b)) (.mark (.closing b)) line tokens
    return (build es, line)

/-- Reads a call, whose name is the text of the first token. -/
def parseFunctionCall (file : String) (look : ExprLooker) (line : Nat) (tokens : List Token) :
    Looking (Expr × Nat) := do
  let name ← text (← item tokens 0)
  parseListing file look .round (.call name) line tokens

/-- Reads an element of a named list.  Without a name, which would be missed only after the
operator, there is none. -/
def parseListAccess (file : String) (look : ExprLooker) (line : Nat) (tokens : List Token) :
    Looking (Expr × Nat) := do
  let (start, stop) ← scopeOrRaise file (.mark (.opening .square)) (.mark (.closing .square)) line
    tokens
  orOperator look (stop + 1) line tokens do
    match (← item tokens 0).payload? with
    | none => .fail (.miss .name)
    | some name =>
      requireConsumed file (stop + 1) line tokens
      let first := line + Token.newlines (tokens.take (start + 1))
      let (leading, inner) ← trimLeading ((tokens.take stop).drop (start + 1))
      let inner ← trimTrailing inner
      if inner.isEmpty then Looking.fault file first .emptyIndex
      else
        let (e, reached) ← look (first + leading) inner
        return (.access name e, max line reached)

/-- Reads a literal or a name. -/
def parseLeaf (file : String) (look : ExprLooker) (kind : Atom) (line : Nat)
    (tokens : List Token) : Looking (Expr × Nat) :=
  orOperator look 1 line tokens do
    if tokens.length ≠ 1 then Looking.fault file line (.leftover (← item tokens 1))
    else
      let value ← text (← item tokens 0)
      match kind with
      | .string => return (← parseStringLiteral file look line value, line)
      | kind => return ((← entry leaves kind) value, line)

/-- Reads tokens that begin with a known construct. -/
def parseLead (file : String) (look : ExprLooker) (line : Nat) (tokens : List Token) :
    Lead → Looking (Expr × Nat)
  | .parentheses => parseParentheses file look line tokens
  | .prefixed => parsePrefix file look line tokens
  | .list => parseListing file look .square .list line tokens
  | .call => parseFunctionCall file look line tokens
  | .access => parseListAccess file look line tokens
  | .atom kind => parseLeaf file look kind line tokens

/-- Reads an expression, its inner expressions by `look`. -/
def parseStep (file : String) (look : ExprLooker) : ExprLooker := fun line tokens => do
  let (leading, tokens) ← trimLeading tokens
  let tokens ← trimTrailing tokens
  match ← classify tokens with
  | some lead => parseLead file look (line + leading) tokens lead
  | none =>
    if tokens.isEmpty then Looking.fault file (line + leading) (.noExpression none)
    else Looking.fault file (line + leading) (.noExpression (some (← item tokens 0)))

/-- Reads an expression that is nested less than `depth` levels deep. -/
def parseExpression (file : String) : Nat → ExprLooker
  | 0 => fun _ _ => .fail (.stop .tooDeep)
  | depth + 1 => parseStep file (parseExpression file depth)

/-! ## The same readings -/

/-- The reader by look-ups does what the other one does. -/
def Mirrors (look : ExprLooker) (read : ExprReader) : Prop :=
  ∀ line tokens, look line tokens = Looking.of (read line tokens)

variable {file : String} {look : ExprLooker} {read : ExprReader} {line : Nat}

theorem parseOperator_eq (h : Mirrors look read) (index line : Nat) (tokens : List Token) :
    parseOperator look index line tokens = Looking.of (Expr.operation? read index line tokens) := by
  unfold parseOperator Expr.operation? Expr.split?
  cases htrim : Token.trimStart (tokens.drop index) with
  | nil =>
    dsimp only
    split
    · rfl
    · rw [indexOfFirstNot_eq, firstNot?_newline, if_pos htrim]
      rfl
  | cons t rest =>
    have hlt : ¬ tokens.length ≤ index := by
      intro hle
      rw [List.drop_eq_nil_of_le hle] at htrim
      cases htrim
    have hdrop := drop_add_leadingNewlines tokens index
    rw [htrim] at hdrop
    have hlen := congrArg List.length hdrop
    rw [List.length_drop, List.length_cons] at hlen
    have hafter : tokens.drop (index + Token.leadingNewlines (tokens.drop index) + 1) = rest := by
      rw [← List.drop_drop, hdrop]
      rfl
    rw [if_neg hlt, indexOfFirstNot_eq, firstNot?_newline, if_neg (by simp [htrim]), pure_bind]
    dsimp only
    cases rest with
    | nil =>
      rw [List.length_nil] at hlen
      rw [if_pos (by omega)]
      cases t <;> rfl
    | cons r rest =>
      rw [List.length_cons] at hlen
      rw [if_neg (by omega), item_of_trimStart htrim, pure_bind, hafter, trimTrailing_eq]
      cases t with
      | operator operator =>
        rw [if_neg (by simp [Token.kind]), pure_bind]
        dsimp only
        refine bind_eq_of (h _ _) ?_
        rintro - ⟨left, reached⟩ -
        rw [newlines_take_add]
        refine bind_eq_of (h _ _) ?_
        rintro - ⟨right, last⟩ -
        rfl
      | _ => rfl

theorem requireConsumed_eq (file : String) (stop line : Nat) (tokens : List Token) :
    requireConsumed file stop line tokens = Looking.of (Expr.requireEnd file stop line tokens) := by
  unfold requireConsumed Expr.requireEnd
  rw [indexOfFirstNot_eq, firstNot?_newline, pure_bind]
  cases htrim : Token.trimStart (tokens.drop stop) with
  | nil => rfl
  | cons t rest =>
    rw [if_neg (by simp)]
    dsimp only
    rw [item_of_trimStart htrim, pure_bind, newlines_take_add, Nat.add_assoc]
    rfl

theorem orOperator_eq (h : Mirrors look read) {index line : Nat} {tokens : List Token}
    {found : Looking (Expr × Nat)} {alone : Reading (Expr × Nat)}
    (hx : found = Looking.of (do
      Expr.requireEnd file index line tokens
      alone)) :
    orOperator look index line tokens found
      = Looking.of (Expr.orOperation file read index line tokens alone) := by
  refine bind_eq_of (parseOperator_eq h index line tokens) ?_
  rintro - r -
  cases r with
  | some operation => rfl
  | none => exact hx

/-! ## The same lists -/

theorem scopeOrRaise_eq (file : String) {b : Bracket} (hb : b ≠ .curly) (line : Nat)
    (tokens : List Token) :
    scopeOrRaise file (.mark (.opening b)) (.mark (.closing b)) line tokens
      = Looking.of (Expr.bracketed file b line tokens) := by
  unfold scopeOrRaise Expr.bracketed
  rw [rangeOfScope_eq, pure_bind]
  cases Scope.range? (.mark (.opening b)) (.mark (.closing b)) tokens 0 with
  | some range => rfl
  | none =>
    dsimp only
    rw [indexOfFirst_eq, pure_bind, entry_bracketKinds hb, pure_bind]
    rfl

theorem onlyElement_eq (h : Mirrors look read) (line : Nat) (tokens : List Token) :
    onlyElement look line tokens = Looking.of (Expr.onlyElement read line tokens) := by
  unfold onlyElement Expr.onlyElement
  rw [h]
  obtain ⟨events, outcome⟩ := read line tokens
  cases outcome with
  | ok p => rfl
  | error stop =>
    cases stop with
    | fault f => rfl
    | tooDeep => rfl
    | noList k => rfl

theorem slice_eq {tokens before current after : List Token} {lower : Nat}
    (h : tokens = before ++ current ++ after) (hlower : lower + 1 = before.length) :
    tokens.take (lower + 1) = before ∧
      (tokens.take (before.length + current.length)).drop (lower + 1) = current := by
  rw [h, hlower]
  rw [List.append_assoc, List.take_left, ← List.append_assoc, List.take_left' (by simp)]
  exact ⟨rfl, List.drop_left⟩

theorem modifyHead_nil_append (runs : List (List Token)) : runs.modifyHead ([] ++ ·) = runs := by
  cases runs <;> rfl

/-- The tokens between the commas that are found are read, each run in the line where it begins.
The tokens are split at the last comma found, and where the search has come to. -/
theorem elements_eq (h : Mirrors look read) {tokens before current ts after : List Token}
    {lower stop : Nat} (line : Nat) (depth : Int)
    (htokens : tokens = before ++ current ++ ts ++ after)
    (hstop : stop = before.length + current.length + ts.length)
    (hlower : lower + 1 = before.length) :
    elements look line tokens
        ((lower :: Scope.separatorsFrom Scope.listScopes (.mark .comma) depth
            (before.length + current.length) ts ++ [stop]).zip
          (Scope.separatorsFrom Scope.listScopes (.mark .comma) depth
            (before.length + current.length) ts ++ [stop]))
      = Looking.of (Expr.elements read (line + Token.newlines before)
          ((Scope.segments depth ts).modifyHead (current ++ ·))) := by
  induction ts generalizing before current lower depth with
  | nil =>
    have hend : stop = before.length + current.length := hstop
    rw [List.append_nil] at htokens
    obtain ⟨htake, hslice⟩ := slice_eq htokens hlower
    simp only [Scope.separatorsFrom, Scope.segments, List.modifyHead_cons, List.append_nil]
    rw [hend]
    show (do
      let (e, _) ← look (line + Token.newlines (tokens.take (lower + 1)))
        ((tokens.take (before.length + current.length)).drop (lower + 1))
      let es ← (pure [] : Looking (List Expr))
      return e :: es) = _
    rw [htake, hslice]
    refine bind_eq_of (h _ _) ?_
    rintro - ⟨e, reached⟩ -
    rfl
  | cons t rest ih =>
    -- A token that is no separator goes to the current run.
    have hgo (d : Int) := @ih before (current ++ [t]) lower d
      (by rw [htokens]; simp) (by rw [hstop]; simp; omega) hlower
    have hlen : before.length + (current ++ [t]).length = before.length + current.length + 1 := by
      rw [List.length_append, List.length_singleton, Nat.add_assoc]
    have hrun (ss : List (List Token)) : ss.modifyHead (current ++ [t] ++ ·)
        = (ss.modifyHead (t :: ·)).modifyHead (current ++ ·) := by
      cases ss <;> simp
    simp only [hlen, hrun] at hgo
    unfold Scope.separatorsFrom Scope.segments
    split
    · exact hgo _
    · split
      · exact hgo _
      · split
        · next hsep =>
          have hcomma : t = .mark .comma :=
            (Token.kind_eq_mark_iff t _).1 (of_decide_eq_true (Bool.and_eq_true_iff.1 hsep).1)
          obtain ⟨htake, hslice⟩ := slice_eq (htokens.trans (List.append_assoc _ _ _)) hlower
          have hnext := @ih (before ++ current ++ [t]) [] (before.length + current.length) depth
            (by rw [htokens]; simp) (by rw [hstop]; simp; omega) (by simp [Nat.add_assoc])
          have hindex : (before ++ current ++ [t]).length + ([] : List Token).length
              = before.length + current.length + 1 := by simp [Nat.add_assoc]
          have hline : Token.newlines (before ++ current ++ [t])
              = Token.newlines before + Token.newlines current := by
            rw [Token.newlines_append, Token.newlines_append, hcomma]
            rfl
          rw [hindex, modifyHead_nil_append, hline, ← Nat.add_assoc] at hnext
          show (do
            let (e, _) ← look (line + Token.newlines (tokens.take (lower + 1)))
              ((tokens.take (before.length + current.length)).drop (lower + 1))
            let es ← elements look line tokens _
            return e :: es) = _
          rw [htake, hslice, List.modifyHead_cons, List.append_nil]
          refine bind_eq_of (h _ _) ?_
          rintro - ⟨e, reached⟩ -
          refine bind_eq_of hnext ?_
          rintro - es -
          rfl
        · exact hgo _

theorem parseExpressionList_eq (h : Mirrors look read) (b : Bracket) (line : Nat)
    (tokens : List Token) :
    parseExpressionList file look (.mark (.opening b)) (.mark (.closing b)) line tokens
      = Looking.of
        (Expr.readList file read (.mark (.opening b)) (.mark (.closing b)) line tokens) := by
  unfold parseExpressionList
  rw [indexOfFirst_eq, pure_bind]
  cases hrange : Scope.range? (.mark (.opening b)) (.mark (.closing b)) tokens 0 with
  | none =>
    unfold Expr.readList
    cases Scope.firstOf? [.mark (.opening b)] tokens 0 with
    | none =>
      dsimp only
      rw [entry_markKinds]
      rfl
    | some first =>
      dsimp only
      rw [rangeOfScope_eq, pure_bind, hrange]
      cases b with
      | round => rfl
      | square => rfl
      | curly => rfl
  | some range =>
    obtain ⟨i, j⟩ := range
    have hfound := hrange
    obtain ⟨before, inner, tail, rfl, hb, hc, rfl, rfl⟩ :=
      (Scope.range?_eq_some_iff b _ _ _).1 hrange
    have hfirst := Scope.firstOf?_append_cons (.mark (.opening b)) before
      (inner ++ .closing b :: tail) (.opening b)
      (fun a ha => mt (Token.kind_eq_mark_iff a _).1 (hb a ha)) rfl
    rw [← Token.enclose_append, ← List.append_assoc] at hfirst
    rw [Expr.readList_eq hb hc tail, hfirst]
    dsimp only
    rw [rangeOfScope_eq, pure_bind, hfound]
    dsimp only
    have htokens : before ++ Token.enclose b inner ++ tail
        = before ++ [.opening b] ++ inner ++ .closing b :: tail := by simp [Token.enclose]
    have htokens' : before ++ Token.enclose b inner ++ tail
        = before ++ [.opening b] ++ [] ++ inner ++ .closing b :: tail := by
      rw [htokens, List.append_nil]
    have hlower : before.length + 1 = (before ++ [Token.opening b]).length := by simp
    obtain ⟨htake, hslice⟩ := slice_eq htokens hlower
    rw [← hlower] at hslice
    by_cases hi : inner = []
    · subst hi
      rw [if_pos rfl, if_pos (by simp)]
      rfl
    · have hpos : inner.length ≠ 0 := mt List.eq_nil_of_length_eq_zero hi
      have hstop : before.length + 1 + inner.length
          = (before ++ [Token.opening b]).length + ([] : List Token).length + inner.length := by
        rw [← hlower]
        rfl
      have hcommas := elements_eq h line 0 htokens' hstop hlower
      have hsegments := congrArg List.length
        (Scope.cut_separatorsFrom (before ++ [.opening b]) [] inner 0)
      rw [modifyHead_nil_append, Scope.length_cut, ← hlower] at hsegments
      rw [modifyHead_nil_append, ← hlower] at hcommas
      rw [if_neg hi, if_neg (by omega),
        indicesOutsideOf_eq _ _ _ _ (by simp [Token.enclose]; omega), pure_bind, hslice, htake]
      dsimp only [List.length_nil, Nat.add_zero] at hsegments hcommas
      generalize Scope.separatorsFrom Scope.listScopes (.mark .comma) 0 (before.length + 1) inner
        = commas at hsegments hcommas ⊢
      cases commas with
      | nil =>
        obtain ⟨segment, hsegment⟩ := List.length_eq_one_iff.1 hsegments.symm
        rw [hsegment]
        exact onlyElement_eq h _ _
      | cons i is =>
        rw [if_neg (by simp)]
        refine hcommas.trans ?_
        split
        · next segment hsegment =>
          rw [hsegment] at hsegments
          simp at hsegments
        · rfl

/-! ## The same strings -/

theorem parts_eq (h : Mirrors look read) (line : Nat) (raw : List Char) (start : Nat)
    (ranges : List Interpolation) :
    parts file look line raw start ranges
      = Looking.of (Expr.parts file read line raw start ranges) := by
  induction ranges generalizing start with
  | nil => rfl
  | cons i rest ih =>
    unfold parts Expr.parts
    split
    · rfl
    · refine bind_eq_of (tokenize_eq _ _ _) ?_
      rintro - tokens -
      refine bind_eq_of (h _ _) ?_
      rintro - ⟨e, reached⟩ -
      refine bind_eq_of (ih _) ?_
      rintro - es -
      rfl

theorem parseStringLiteral_eq (h : Mirrors look read) (line : Nat) (raw : String) :
    parseStringLiteral file look line raw = Looking.of (Expr.readString file read line raw) := by
  unfold parseStringLiteral Expr.readString
  rw [interpolations_eq, pure_bind]
  cases Interpolation.ranges raw.toList with
  | nil => rfl
  | cons i rest =>
    dsimp only
    rw [of_map, parts_eq h]

/-! ## The same constructs -/

theorem parseParentheses_eq (h : Mirrors look read) (line : Nat) (tokens : List Token) :
    parseParentheses file look line tokens
      = Looking.of (Expr.readGrouped file read line tokens) := by
  unfold parseParentheses Expr.readGrouped
  refine bind_eq_of (scopeOrRaise_eq file (by simp) line tokens) ?_
  rintro - ⟨start, stop⟩ -
  dsimp only
  rw [indexOfFirstNot_eq, firstNot?_newline, pure_bind, List.drop_zero]
  have hblank : (if Token.trimStart ((tokens.take stop).drop (start + 1)) = [] then none
      else some (0 + Token.leadingNewlines ((tokens.take stop).drop (start + 1)))).isNone
        = (Token.significant? ((tokens.take stop).drop (start + 1))).isNone := by
    rw [← Token.head?_trimStart]
    cases Token.trimStart ((tokens.take stop).drop (start + 1)) with
    | nil => rfl
    | cons t rest => rfl
  rw [hblank]
  split
  · rfl
  · refine orOperator_eq h (bind_eq_of (requireConsumed_eq _ _ _ _) ?_)
    rintro - - -
    refine bind_eq_of (h _ _) ?_
    rintro - ⟨e, reached⟩ -
    rfl

theorem parseListing_eq (h : Mirrors look read) {b : Bracket} (hb : b ≠ .curly)
    (build : List Expr → Expr) (line : Nat) (tokens : List Token) :
    parseListing file look b build line tokens
      = Looking.of (Expr.readListing file read b build line tokens) := by
  unfold parseListing Expr.readListing
  refine bind_eq_of (scopeOrRaise_eq file hb line tokens) ?_
  rintro - ⟨start, stop⟩ -
  refine orOperator_eq h (bind_eq_of (requireConsumed_eq _ _ _ _) ?_)
  rintro - - -
  refine bind_eq_of (parseExpressionList_eq h b line tokens) ?_
  rintro - es -
  rfl

/-- The first token of an access is a name, so the name is not missed. -/
theorem parseListAccess_eq (h : Mirrors look read) (name : String) (line : Nat)
    (rest : List Token) :
    parseListAccess file look line (.ident name :: rest)
      = Looking.of (Expr.readAccess file read name line (.ident name :: rest)) := by
  unfold parseListAccess Expr.readAccess
  refine bind_eq_of (scopeOrRaise_eq file (by simp) line _) ?_
  rintro - ⟨start, stop⟩ -
  refine orOperator_eq h ?_
  rw [item_eq (a := .ident name) rfl, pure_bind]
  refine bind_eq_of (requireConsumed_eq _ _ _ _) ?_
  rintro - - -
  rw [trimLeading_eq, pure_bind]
  dsimp only
  rw [trimTrailing_eq, pure_bind]
  split
  · rfl
  · refine bind_eq_of (h _ _) ?_
    rintro - ⟨e, reached⟩ -
    rfl

-- A bracket that is read as an access all the same has no name in front of it.
example : (parseListAccess file look line [.opening .square, .closing .square]).outcome
    = .error (.miss .name) := rfl

theorem parseFunctionCall_eq (h : Mirrors look read) (name : String) (line : Nat)
    (rest : List Token) :
    parseFunctionCall file look line (.ident name :: rest)
      = Looking.of (Expr.readListing file read .round (.call name) line (.ident name :: rest)) :=
  parseListing_eq h (by simp) _ line _

/-- A token that an expression can begin with as a prefix has a text. -/
theorem payload?_of_prefixOf? {t : Token} {op : String} (h : Construct.prefixOf? [t] = some op) :
    t.payload? = some op := by
  cases t with
  | prefixOperator s => exact h
  | operator s =>
    simp only [Construct.prefixOf?, Option.ite_none_right_eq_some] at h
    exact h.2
  | _ => cases h

theorem parsePrefix_eq (h : Mirrors look read) {t : Token} {op : String} (rest : List Token)
    (ht : Construct.prefixOf? [t] = some op) (line : Nat) :
    parsePrefix file look line (t :: rest)
      = Looking.of (Expr.readPrefixed file read op line (t :: rest)) := by
  unfold parsePrefix
  rw [item_eq (a := t) rfl, pure_bind, text_eq (payload?_of_prefixOf? ht), pure_bind]
  cases rest with
  | nil => rfl
  | cons t' rest =>
    rw [if_neg (by simp)]
    refine bind_eq_of (h _ _) ?_
    rintro - ⟨e, reached⟩ -
    rfl

theorem payload?_of_atom? {t : Token} {kind : Atom} {text : String}
    (h : t.atom? = some (kind, text)) : t.payload? = some text := by
  cases t <;> cases h <;> rfl

theorem parseLeaf_eq (h : Mirrors look read) {t : Token} {kind : Atom} {text : String}
    (rest : List Token) (ht : t.atom? = some (kind, text)) (line : Nat) :
    parseLeaf file look kind line (t :: rest)
      = Looking.of (Expr.readAtom file read kind text line (t :: rest)) := by
  unfold parseLeaf Expr.readAtom
  refine bind_eq_of (parseOperator_eq h 1 line _) ?_
  rintro - r -
  cases r with
  | some operation => rfl
  | none =>
    dsimp only
    cases rest with
    | cons t' rest => rfl
    | nil =>
      rw [if_neg (by simp), item_eq (a := t) rfl, pure_bind, text_eq (payload?_of_atom? ht),
        pure_bind]
      cases kind with
      | string =>
        refine bind_eq_of (parseStringLiteral_eq h line text) ?_
        rintro - e -
        rfl
      | _ => rfl

/-- What the first tokens of a construct are, they are asked for. -/
theorem parseLead_eq (h : Mirrors look read) (line : Nat) {tokens : List Token} {c : Construct}
    (hc : Construct.Leads tokens c) :
    parseLead file look line tokens (leadOf c)
      = Looking.of (Expr.readConstruct file read line tokens c) := by
  cases hc with
  | parentheses rest => exact parseParentheses_eq h line _
  | prefixed rest ht => exact parsePrefix_eq h rest ht line
  | list rest => exact parseListing_eq h (by simp) _ line _
  | call name rest hb => exact parseFunctionCall_eq h name line _
  | access name rest hb => exact parseListAccess_eq h name line _
  | atom rest ht => exact parseLeaf_eq h rest ht line

/-! ## Levels -/

theorem mirrors_parseStep (h : Mirrors look read) :
    Mirrors (parseStep file look) (Expr.readStep file read) := by
  intro line tokens
  obtain ⟨-, -, -, -, -, ht⟩ := Token.exists_eq_trim tokens
  rw [Expr.readStep_trim]
  unfold parseStep
  have htrim : trimTrailing (Token.trimStart tokens) = pure (Token.trim tokens) := trimTrailing_eq _
  rw [trimLeading_eq, pure_bind]
  dsimp only
  rw [htrim, pure_bind, classify_eq ht, pure_bind]
  cases hc : Construct.of? (Token.trim tokens) with
  | some c =>
    rw [Expr.readStep_of_trimmed ht hc]
    exact parseLead_eq h _ (Construct.leads_of_of? ht hc)
  | none =>
    unfold Expr.readStep
    dsimp only
    rw [ht.trimStart_eq, ht.trimEnd_eq, ht.leadingNewlines_eq, Nat.add_zero, hc]
    cases Token.trim tokens with
    | nil => rfl
    | cons t rest => rfl

/-- At every level, the reader by look-ups does what the other one does. -/
theorem mirrors_parseExpression (file : String) (depth : Nat) :
    Mirrors (parseExpression file depth) (Expr.read file depth) := by
  induction depth with
  | zero => exact fun _ _ => rfl
  | succ depth ih => exact mirrors_parseStep ih

end Lookup

end ModelScript
