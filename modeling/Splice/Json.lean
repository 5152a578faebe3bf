namespace Splice

-- A JSON document. Strings and numbers are kept as they are written: a string as what stands
-- between its quotes, escapes and all, and a number as its literal.
inductive Json
  | null
  | bool (b : Bool)
  | number (literal : List Char)
  | string (body : List Char)
  | array (items : List Json)
  | object (members : List (List Char × Json))

end Splice
