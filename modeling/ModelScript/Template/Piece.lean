import ModelScript.Template.Render

/-!
# Templates with slots

A small language of templates.  A slot shows a field of the record that is rendered: as text,
rendered by its own template, or as a list whose items are joined.  A section is there only if a
field is present, and another may stand in its place.

Fields are looked up and rendered in the order of the template, so the first thing that goes wrong
is the one that is reported, and a part that no slot asks for is never rendered.
-/

namespace ModelScript

/-! ## Pieces -/

/-- What stands between the items of a list: a fixed text or the text of a field. -/
inductive Joiner where
  | fixed (text : String)
  | field (name : String)
  deriving DecidableEq, Repr

/-- What a slot shows of a field. -/
inductive Slot where
  | text (name : String)
  | rendered (name : String)
  | joined (name : String) (eachRendered : Bool) (joiner : Joiner)
  deriving DecidableEq, Repr

inductive Piece where
  | literal (c : Char)
  | slot (slot : Slot)
  | section (name : String) (present absent : List Piece)
  deriving Repr

/-- What can go wrong with a template. -/
inductive TemplateError where
  /-- There is no template file of this name in a directory. -/
  | missing (name : String) (directory : String)
  /-- A name of a template leads out of its directory. -/
  | outside (name : String)
  /-- A field is used that the record does not have. -/
  | undefined (field : String)
  | malformed
  deriving DecidableEq, Repr

def TemplateError.message : TemplateError → String
  | missing name directory =>
    s!"{Text.quoted name} not found in search path: {Text.quoted directory}"
  | outside name => name
  | undefined field => s!"'{field}' is undefined"
  | malformed => "malformed template"

/-! ## Values as text -/

namespace Value

mutual

/-- How a value is displayed inside a list or a record. -/
def displayed : Value → String
  | text s => Text.quoted s
  | list items => "[" ++ ", ".intercalate (displayedItems items) ++ "]"
  | record fields => "\x7b" ++ ", ".intercalate (displayedFields fields) ++ "\x7d"

def displayedItems : List Value → List String
  | [] => []
  | v :: rest => v.displayed :: displayedItems rest

def displayedFields : List (String × Value) → List String
  | [] => []
  | (key, v) :: rest => (Text.quoted key ++ ": " ++ v.displayed) :: displayedFields rest

end

/-- A value as text: a text is itself, anything else is displayed. -/
def asText : Value → String
  | text s => s
  | v => v.displayed

/-- What a value is made of: the items of a list, the characters of a text, and the names of the
fields of a record. -/
def items : Value → List Value
  | text s => s.toList.map fun c => text (String.singleton c)
  | list items => items
  | record fields => fields.map fun f => text f.1

end Value

/-! ## Filling in -/

namespace Piece

abbrev Fills := Renders TemplateError Empty

variable (render : Value → Fills String) (fields : List (String × Value))

/-- A field, which has to be there. -/
def find (name : String) : Fills Value :=
  match Value.field? name fields with
  | some v => .ok v
  | none => .error (.template (.undefined name))

def joinerText : Joiner → Fills String
  | .fixed text => .ok text
  | .field name => Value.asText <$> find fields name

/-- Fills in a slot.  The joiner of a list is looked up before the list. -/
def fillSlot : Slot → Fills String
  | .text name => Value.asText <$> find fields name
  | .rendered name => do render (← find fields name)
  | .joined name eachRendered joiner => do
    let between ← joinerText fields joiner
    let v ← find fields name
    let items ← if eachRendered then v.items.mapM render else .ok (v.items.map Value.asText)
    return between.intercalate items

mutual

def fillPiece : Piece → Fills String
  | .literal c => .ok (String.singleton c)
  | .slot s => fillSlot render fields s
  | .section name present absent =>
    if (Value.field? name fields).isSome then fill present else fill absent

/-- Fills in the pieces of a template, in order. -/
def fill : List Piece → Fills String
  | [] => .ok ""
  | p :: rest => do return (← fillPiece p) ++ (← fill rest)

end

end Piece

end ModelScript
