/-!
# Context values

What templates work on: texts, lists, and records whose fields keep their order.
-/

namespace ModelScript

/-- A context value. -/
inductive Value where
  | text (text : String)
  | list (items : List Value)
  | record (fields : List (String × Value))
  deriving Repr

namespace Value

/-- The value of the first field of a given name. -/
def field? (name : String) : List (String × Value) → Option Value
  | [] => none
  | (key, value) :: rest => if key = name then some value else field? name rest

end Value

end ModelScript
