import ModelScript.Context.Projection

/-!
# Trees read back from their contexts

A context keeps the whole tree.  `Node.ofContext?` reads a tree back from a context value: a record
is read by the kind that it names, and its fields are looked up by their names, so neither their
order nor the separator of the bodies matters.  `Value.Same` says that two values have the same
fields at every depth, in whatever order.

    v.Same (n.context separators) → Node.ofContext? v = some n     (Node.context_recovered)

So no two trees have the same context.
-/

namespace ModelScript

/-! ## Values up to the order of fields -/

namespace Value

mutual

/-- Values that differ at most in the order of the fields of their records. -/
inductive Same : Value → Value → Prop
  | text (s : String) : Same (text s) (text s)
  | list {vs ws : List Value} (h : SameItems vs ws) : Same (list vs) (list ws)
  | record {fs gs : List (String × Value)}
    (h : ∀ name, SameField (field? name fs) (field? name gs)) : Same (record fs) (record gs)

/-- Items that are the same one by one. -/
inductive SameItems : List Value → List Value → Prop
  | nil : SameItems [] []
  | cons {v w : Value} {vs ws : List Value} (h : Same v w) (hs : SameItems vs ws) :
    SameItems (v :: vs) (w :: ws)

/-- A field that is absent in both records, or has the same value in both. -/
inductive SameField : Option Value → Option Value → Prop
  | none : SameField none none
  | some {v w : Value} (h : Same v w) : SameField (some v) (some w)

end

end Value

/-! ## Reading a context -/

/-- What a context value stands for. -/
inductive Part where
  | text (text : String)
  | list (items : List Part)
  | node (node : Node)

namespace Part

/-- The text that a part is. -/
def text? : Part → Option String
  | text s => some s
  | _ => none

def expr? : Part → Option Expr
  | node (.expression e) => some e
  | _ => none

def statement? : Part → Option Statement
  | node (.statement s) => some s
  | _ => none

def type? : Part → Option TypeRef
  | node (.statement (.type t)) => some t
  | _ => none

def parameter? : Part → Option Parameter
  | node (.statement (.parameter p)) => some p
  | _ => none

def body? : Part → Option (List Statement)
  | node (.statement (.block body)) => some body
  | _ => none

def member? : Part → Option Member
  | node (.statement (.member m)) => some m
  | _ => none

/-- The items of a part that is a list, each read by `read`. -/
def items? {α : Type} (read : Part → Option α) : Part → Option (List α)
  | list items => items.mapM read
  | _ => none

/-- The modifiers whose names are the items of a part. -/
def modifiers? (p : Part) : Option Modifiers := do
  let names ← p.items? text?
  return ⟨names.contains "private", names.contains "static"⟩

/-- A part that may be absent. -/
def optional? {α : Type} (read : Part → Option α) : Option Part → Option (Option α)
  | none => some none
  | some p => some <$> read p

/-- The type of a name and the type of its elements, if it has one. -/
def typeRef (name : String) : Option TypeRef → TypeRef
  | none => .plain name
  | some element => .of name element

variable (field : String → Option Part)

/-- The expression of a kind with the given fields. -/
def exprOf? : String → Option Expr
  | "integerLiteral" => do return .atom .integer (← (← field "value").text?)
  | "floatLiteral" => do return .atom .float (← (← field "value").text?)
  | "stringLiteral" => do return .atom .string (← (← field "value").text?)
  | "booleanLiteral" => do return .atom .boolean (← (← field "value").text?)
  | "identifier" => do return .atom .identifier (← (← field "value").text?)
  | "templatedString" => do return .templated (← (← field "expressions").items? expr?)
  | "listLiteral" => do return .list (← (← field "expressions").items? expr?)
  | "listAccess" => do
    return .access (← (← field "identifier").text?) (← (← field "expression").expr?)
  | "functionCall" => do
    return .call (← (← field "name").text?) (← (← field "expressions").items? expr?)
  | "prefix" => do
    return .prefixed (← (← field "prefix").text?) (← (← field "expression").expr?)
  | "parentheses" => do return .grouped (← (← field "expression").expr?)
  | "operation" => do
    return .operation (← (← field "leftExpression").expr?) (← (← field "operator").text?)
      (← (← field "rightExpression").expr?)
  | _ => none

def statementOf? : String → Option Statement
  | "codeBlock" => do return .block (← (← field "statements").items? statement?)
  | "typeReference" => do
    return .type (typeRef (← (← field "name").text?) (← optional? type? (field "elementType")))
  | "parameter" => do
    return .parameter ⟨← (← field "name").text?, ← (← field "paramType").type?⟩
  | "property" => do
    return .member (.property (← (← field "name").text?) (← (← field "propertyType").type?)
      (← (← field "modifiers").modifiers?) (← optional? expr? (field "defaultValue")))
  | "functionDeclaration" => do
    return .member (.function (← (← field "name").text?)
      (← (← field "params").items? parameter?) (← (← field "codeBlock").body?)
      (← optional? type? (field "returnType")) (← (← field "modifiers").modifiers?))
  | "modelDescription" => do
    return .model (← (← field "name").text?) (← (← field "members").items? member?)
  | "variableDeclaration" => do
    return .declaration (← (← field "identifier").text?) (← (← field "expression").expr?)
      (← optional? type? (field "varType"))
  | "mutation" => do
    return .change (← (← field "identifier").text?) (← (← field "expression").expr?)
      (← optional? expr? (field "index"))
  | "conditional" => do
    return .conditional (← (← field "condition").expr?) (← (← field "codeBlock").body?)
      (← optional? body? (field "elseBlock"))
  | "loop" => do
    return .loop (← (← field "condition").expr?) (← (← field "codeBlock").body?)
  | "return" => do return .result (← optional? expr? (field "expression"))
  | "expressionStatement" => do return .bare (← (← field "expression").expr?)
  | _ => none

/-- The node with the given fields, one of which names its kind. -/
def nodeOf? : Option Node :=
  match field "type", field "expressionType" with
  | some (text kind), _ => .statement <$> statementOf? field kind
  | _, some (text kind) => .expression <$> exprOf? field kind
  | _, _ => none

end Part

namespace Value

mutual

def part? : Value → Option Part
  | text s => some (.text s)
  | list items => .list <$> parts? items
  | record fields => .node <$> Part.nodeOf? (fieldPart? fields)

def parts? : List Value → Option (List Part)
  | [] => some []
  | v :: rest => do return (← v.part?) :: (← parts? rest)

/-- Reads the field of a given name. -/
def fieldPart? : List (String × Value) → String → Option Part
  | [], _ => none
  | (key, v) :: rest, name => if key = name then v.part? else fieldPart? rest name

end

end Value

/-- Reads a tree from its context. -/
def Node.ofContext? (v : Value) : Option Node :=
  match v.part? with
  | some (.node n) => some n
  | _ => none

/-! ## Parts of trees -/

namespace Part

attribute [simp] text? exprOf? statementOf? typeRef Value.part? Value.fieldPart?

/-- The part that an expression is. -/
def ofExpr (e : Expr) : Part := node (.expression e)

def ofStatement (s : Statement) : Part := node (.statement s)

def ofType (t : TypeRef) : Part := ofStatement (.type t)

def ofParameter (p : Parameter) : Part := ofStatement (.parameter p)

def ofBody (body : List Statement) : Part := ofStatement (.block body)

def ofMember (m : Member) : Part := ofStatement (.member m)

@[simp]
theorem ofStatement_type (t : TypeRef) : ofStatement (.type t) = ofType t := rfl

@[simp]
theorem ofStatement_parameter (p : Parameter) : ofStatement (.parameter p) = ofParameter p := rfl

@[simp]
theorem ofStatement_block (body : List Statement) : ofStatement (.block body) = ofBody body := rfl

@[simp]
theorem ofStatement_member (m : Member) : ofStatement (.member m) = ofMember m := rfl

@[simp]
theorem expr?_ofExpr (e : Expr) : (ofExpr e).expr? = some e := rfl

@[simp]
theorem statement?_ofStatement (s : Statement) : (ofStatement s).statement? = some s := rfl

@[simp]
theorem type?_ofType (t : TypeRef) : (ofType t).type? = some t := rfl

@[simp]
theorem parameter?_ofParameter (p : Parameter) : (ofParameter p).parameter? = some p := rfl

@[simp]
theorem body?_ofBody (body : List Statement) : (ofBody body).body? = some body := rfl

@[simp]
theorem member?_ofMember (m : Member) : (ofMember m).member? = some m := rfl

@[simp]
theorem optional?_none {α : Type} (read : Part → Option α) : optional? read none = some none := rfl

@[simp]
theorem optional?_some {α : Type} (read : Part → Option α) (p : Part) :
    optional? read (some p) = some <$> read p := rfl

variable {α : Type} {read : Part → Option α} {part : α → Part}

/-- A part that may be absent is read back if it is where it is present. -/
theorem optional?_map (h : ∀ a, read (part a) = some a) (a : Option α) :
    optional? read (a.map part) = some a := by
  cases a with
  | none => rfl
  | some a => simp [h]

theorem items?_map (h : ∀ a, read (part a) = some a) (as : List α) :
    (list (as.map part)).items? read = some as := by
  unfold items?
  induction as with
  | nil => rfl
  | cons a as ih => simp [h, ih]

theorem fieldPart?_optionalField {context : α → Value}
    (h : ∀ a, (context a).part? = some (part a)) (name : String) (a : Option α) :
    Value.fieldPart? (optionalField name context a) name = a.map part := by
  cases a with
  | none => rfl
  | some a => simp [optionalField, h]

end Part

open ModelScript.Part (items?_map optional?_map fieldPart?_optionalField)

/-! ## Expressions -/

/-- A record without a type is read by the kind of its expression. -/
theorem Expr.part?_node {kind : String} {fields : List (String × Value)}
    (h : Value.fieldPart? fields "type" = none) :
    (Expr.node kind fields).part? = Part.ofExpr
      <$> Part.exprOf? (Value.fieldPart? (("expressionType", .text kind) :: fields)) kind := by
  -- a statement is looked for first, and the fields of an expression hold no such kind
  have htype : Value.fieldPart? (("expressionType", .text kind) :: fields) "type" = none := by
    rw [Value.fieldPart?, if_neg (by decide), h]
  have hkind : Value.fieldPart? (("expressionType", .text kind) :: fields) "expressionType"
      = some (.text kind) := rfl
  unfold Expr.node Value.part? Part.nodeOf?
  rw [htype, hkind]
  exact Option.map_map _ _ _

mutual

theorem Expr.part?_context : (e : Expr) → e.context.part? = some (.ofExpr e)
  | .atom kind text => by cases kind <;> rfl
  | .templated parts => by
    rw [Expr.context, Expr.part?_node rfl]
    simp [Expr.parts?_contexts parts, items?_map Part.expr?_ofExpr]
  | .list elements => by
    rw [Expr.context, Expr.part?_node rfl]
    simp [Expr.parts?_contexts elements, items?_map Part.expr?_ofExpr]
  | .access name index => by
    rw [Expr.context, Expr.part?_node rfl]
    simp [Expr.part?_context index]
  | .call name arguments => by
    rw [Expr.context, Expr.part?_node rfl]
    simp [Expr.parts?_contexts arguments, items?_map Part.expr?_ofExpr]
  | .prefixed operator operand => by
    rw [Expr.context, Expr.part?_node rfl]
    simp [Expr.part?_context operand]
  | .grouped inner => by
    rw [Expr.context, Expr.part?_node rfl]
    simp [Expr.part?_context inner]
  | .operation left operator right => by
    rw [Expr.context, Expr.part?_node rfl]
    simp [Expr.part?_context left, Expr.part?_context right]

theorem Expr.parts?_contexts : (es : List Expr) →
    Value.parts? (Expr.contexts es) = some (es.map .ofExpr)
  | [] => rfl
  | e :: rest => by
    rw [Expr.contexts, Value.parts?, Expr.part?_context e, Expr.parts?_contexts rest]
    rfl

end

/-! ## Statements -/

/-- A record with a type is read by the kind of its statement. -/
theorem Statement.part?_node (kind : String) (fields : List (String × Value)) :
    (Statement.node kind fields).part? = Part.ofStatement
      <$> Part.statementOf? (Value.fieldPart? (("type", .text kind) :: fields)) kind := by
  have hkind : Value.fieldPart? (("type", .text kind) :: fields) "type" = some (.text kind) := rfl
  unfold Statement.node Value.part? Part.nodeOf?
  rw [hkind]
  exact Option.map_map _ _ _

theorem TypeRef.part?_context (t : TypeRef) : t.context.part? = some (.ofType t) := by
  induction t with
  | plain name =>
    rw [TypeRef.context, Statement.part?_node]
    simp
  | of name element ih =>
    rw [TypeRef.context, Statement.part?_node]
    simp [ih]

theorem Parameter.part?_context (p : Parameter) : p.context.part? = some (.ofParameter p) := by
  rw [Parameter.context, Statement.part?_node]
  simp [TypeRef.part?_context]

theorem Parameter.parts?_contexts (ps : List Parameter) :
    Value.parts? (ps.map Parameter.context) = some (ps.map .ofParameter) := by
  induction ps with
  | nil => rfl
  | cons p rest ih =>
    rw [List.map_cons, Value.parts?, Parameter.part?_context, ih]
    rfl

/-- Both modifiers are read back from the names of those that are set. -/
theorem Modifiers.exists_part? (m : Modifiers) :
    ∃ p, m.context.part? = some p ∧ p.modifiers? = some m := by
  obtain ⟨isPrivate, isStatic⟩ := m
  cases isPrivate <;> cases isStatic <;> exact ⟨_, rfl, rfl⟩

variable {separator : String}

mutual

/-- A statement is read back from its context, whatever separates the statements of bodies. -/
theorem Statement.part?_context : (s : Statement) →
    (s.context separator).part? = some (.ofStatement s)
  | .block body => by rw [Statement.context, Statement.part?_body body, Part.ofStatement_block]
  | .model name members => by
    rw [Statement.context, Statement.part?_node]
    simp [Member.parts?_contexts members, items?_map Part.member?_ofMember]
  | .member m => by rw [Statement.context, Member.part?_context m, Part.ofStatement_member]
  | .parameter p => by
    rw [Statement.context, Parameter.part?_context, Part.ofStatement_parameter]
  | .type t => by rw [Statement.context, TypeRef.part?_context, Part.ofStatement_type]
  | .declaration name value type => by
    have htype := fieldPart?_optionalField TypeRef.part?_context "varType" type
    rw [Statement.context, Statement.part?_node]
    simp [Expr.part?_context, htype, optional?_map Part.type?_ofType]
  | .change name value index => by
    have hindex := fieldPart?_optionalField Expr.part?_context "index" index
    rw [Statement.context, Statement.part?_node]
    simp [Expr.part?_context, hindex, optional?_map Part.expr?_ofExpr]
  | .conditional condition body none => by
    rw [Statement.context, Statement.part?_node]
    simp [Expr.part?_context, Statement.part?_body body]
  | .conditional condition body (some otherwise) => by
    rw [Statement.context, Statement.part?_node]
    simp [Expr.part?_context, Statement.part?_body body, Statement.part?_body otherwise]
  | .loop condition body => by
    rw [Statement.context, Statement.part?_node]
    simp [Expr.part?_context, Statement.part?_body body]
  | .result value => by
    have hvalue := fieldPart?_optionalField Expr.part?_context "expression" value
    rw [Statement.context, Statement.part?_node]
    simp [hvalue, optional?_map Part.expr?_ofExpr]
  | .bare value => by
    rw [Statement.context, Statement.part?_node]
    simp [Expr.part?_context]

theorem Statement.part?_body (body : List Statement) :
    (bodyContext separator body).part? = some (.ofBody body) := by
  rw [bodyContext, Statement.part?_node]
  simp [Statement.parts?_contexts body, items?_map Part.statement?_ofStatement]

theorem Statement.parts?_contexts : (body : List Statement) →
    Value.parts? (statementContexts separator body) = some (body.map .ofStatement)
  | [] => by rw [statementContexts, Value.parts?, List.map_nil]
  | s :: rest => by
    rw [statementContexts, Value.parts?, Statement.part?_context s, Statement.parts?_contexts rest]
    rfl

theorem Member.part?_context : (m : Member) →
    (m.context separator).part? = some (.ofMember m)
  | .property name type modifiers initial => by
    obtain ⟨p, hp, hm⟩ := Modifiers.exists_part? modifiers
    have hinitial := fieldPart?_optionalField Expr.part?_context "defaultValue" initial
    rw [Member.context, Statement.part?_node]
    simp [TypeRef.part?_context, hp, hm, hinitial, optional?_map Part.expr?_ofExpr]
  | .function name parameters body returns modifiers => by
    obtain ⟨p, hp, hm⟩ := Modifiers.exists_part? modifiers
    have hreturns := fieldPart?_optionalField TypeRef.part?_context "returnType" returns
    rw [Member.context, Statement.part?_node]
    simp [Parameter.parts?_contexts, items?_map Part.parameter?_ofParameter,
      Statement.part?_body body, hp, hm, hreturns, optional?_map Part.type?_ofType]

theorem Member.parts?_contexts : (ms : List Member) →
    Value.parts? (memberContexts separator ms) = some (ms.map .ofMember)
  | [] => by rw [memberContexts, Value.parts?, List.map_nil]
  | m :: rest => by
    rw [memberContexts, Value.parts?, Member.part?_context m, Member.parts?_contexts rest]
    rfl

end

/-! ## The order of fields -/

namespace Value

theorem fieldPart?_eq (fields : List (String × Value)) (name : String) :
    fieldPart? fields name = (field? name fields).bind part? := by
  induction fields with
  | nil => rfl
  | cons f rest ih =>
    obtain ⟨key, v⟩ := f
    rw [fieldPart?, field?, ih]
    split <;> rfl

mutual

theorem Same.refl : (v : Value) → v.Same v
  | .text s => .text s
  | .list items => .list (SameItems.refl items)
  | .record fields => .record (SameField.refl fields)

theorem SameItems.refl : (vs : List Value) → SameItems vs vs
  | [] => .nil
  | v :: rest => .cons (Same.refl v) (SameItems.refl rest)

theorem SameField.refl : (fields : List (String × Value)) → (name : String) →
    SameField (field? name fields) (field? name fields)
  | [], _ => .none
  | (key, v) :: rest, name => by
    rw [field?]
    split
    · exact .some (Same.refl v)
    · exact SameField.refl rest name

end

/-- Among distinct names, the order of the fields does not matter. -/
theorem field?_perm {fs gs : List (String × Value)} (h : fs.Perm gs)
    (hnodup : (fs.map Prod.fst).Nodup) (name : String) : field? name fs = field? name gs := by
  induction h with
  | nil => rfl
  | cons f _ ih =>
    rw [field?, field?, ih (List.nodup_cons.mp hnodup).2]
  | swap f g rest =>
    have hne : g.1 ≠ f.1 := fun h => (List.nodup_cons.mp hnodup).1 (by simp [h])
    simp only [field?]
    split <;> split <;> simp_all
  | trans h₁ _ ih₁ ih₂ =>
    rw [ih₁ hnodup, ih₂ ((h₁.map Prod.fst).nodup_iff.mp hnodup)]

theorem Same.of_perm {fs gs : List (String × Value)} (h : fs.Perm gs)
    (hnodup : (fs.map Prod.fst).Nodup) : Same (.record fs) (.record gs) :=
  .record fun name => field?_perm h hnodup name ▸ SameField.refl fs name

mutual

/-- Reading does not ask for the order of fields. -/
theorem Same.part?_eq : {v w : Value} → v.Same w → v.part? = w.part?
  | .text _, _, .text _ => rfl
  | .list _, .list _, .list h => by rw [part?, part?, SameItems.parts?_eq h]
  | .record fs, .record gs, .record h => by
    have hfields : fieldPart? fs = fieldPart? gs := by
      funext name
      rw [fieldPart?_eq, fieldPart?_eq, SameField.bind_part?_eq (h name)]
    rw [part?, part?, hfields]

theorem SameItems.parts?_eq {vs ws : List Value} : SameItems vs ws → parts? vs = parts? ws
  | .nil => rfl
  | .cons h hs => by rw [parts?, parts?, Same.part?_eq h, SameItems.parts?_eq hs]

theorem SameField.bind_part?_eq {a b : Option Value} : SameField a b → a.bind part? = b.bind part?
  | .none => rfl
  | .some h => Same.part?_eq h

end

end Value

/-! ## Nodes -/

theorem Node.ofContext?_context (separators : Separators) (n : Node) :
    Node.ofContext? (n.context separators) = some n := by
  unfold Node.ofContext? Node.context
  cases n with
  | expression e =>
    dsimp only
    rw [Expr.part?_context]
    rfl
  | statement s =>
    dsimp only
    rw [Statement.part?_context]
    rfl

/-- No two trees have the same context: each node is read back from its context, however the fields
of its records are ordered. -/
theorem Node.context_recovered (separators : Separators) :
    Function.Injective (Node.context separators)
      ∧ ∀ (n : Node) (v : Value), v.Same (n.context separators) → Node.ofContext? v = some n := by
  have recovered (n : Node) (v : Value) (h : v.Same (n.context separators)) :
      Node.ofContext? v = some n := by
    rw [Node.ofContext?, h.part?_eq]
    exact Node.ofContext?_context separators n
  refine ⟨fun m n h => ?_, recovered⟩
  have hm := recovered m _ (Value.Same.refl _)
  rw [h, recovered n _ (Value.Same.refl _)] at hm
  exact (Option.some.inj hm).symm

/-- A return whose value stands before its kind. -/
theorem Node.context_recovered_result :
    Node.ofContext? (.record [
        ("expression", .record [("expressionType", .text "identifier"), ("value", .text "x")]),
        ("type", .text "return")])
      = some (.statement (.result (some (.atom .identifier "x")))) := by
  refine (Node.context_recovered [("block", "\n")]).2 _ _ ?_
  rw [Node.context, Statement.context]
  exact .of_perm (List.Perm.swap _ _ _) (by decide)

end ModelScript
