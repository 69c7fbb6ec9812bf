/-!
# Line breaks

Text that is read from a file has each carriage return, together with a line feed right after it,
replaced by one line feed.
-/

namespace ModelScript.Text

/-- Every `\r\n` and every other `\r` becomes `\n`. -/
def unifyLineBreaks : List Char → List Char
  | [] => []
  | '\r' :: '\n' :: rest => '\n' :: unifyLineBreaks rest
  | '\r' :: rest => '\n' :: unifyLineBreaks rest
  | c :: rest => c :: unifyLineBreaks rest

end ModelScript.Text
