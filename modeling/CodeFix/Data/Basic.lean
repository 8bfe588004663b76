/-!
# Data

One type for the values that configuration files hold and that commands answer. Records keep their
fields in the order in which they were written.

The JSON text of a value has every item and field on its own line, two blanks of indentation for
each level, and nothing between the brackets of an empty list or record.
-/

namespace CodeFix

/-- A structured value. -/
inductive Data where
  | null
  | bool (b : Bool)
  | int (i : Int)
  | text (s : String)
  | list (items : List Data)
  | record (fields : List (String × Data))
  /-- A value of a sort that no setting has, such as a fraction or a date. -/
  | other
deriving Inhabited

namespace Data

def texts (ss : List String) : Data := list (ss.map text)

def nat (n : Nat) : Data := int n

/-! ## Reading -/

def asBool? : Data → Option Bool
  | bool b => some b
  | _ => none

def asText? : Data → Option String
  | text s => some s
  | _ => none

/-- The texts of a list of texts. -/
def asTexts? : Data → Option (List String)
  | list items => items.mapM asText?
  | _ => none

/-- The natural number below a bound, if it is one. -/
def asNatBelow? (bound : Nat) : Data → Option Nat
  | int i => if 0 ≤ i ∧ i < bound then some i.toNat else none
  | _ => none

/-- Null or the value that a reader finds. -/
def asOptional? {α : Type} (read : Data → Option α) : Data → Option (Option α)
  | null => some none
  | d => (read d).map some

/-- The first field with a name. -/
def field? : List (String × Data) → String → Option Data
  | [], _ => none
  | (k, v) :: rest, name => if k = name then some v else field? rest name

/-! ## Order of fields -/

mutual

/-- The value with the fields of every record in the order of their names. -/
def sorted : Data → Data
  | list items => list (sortedAll items)
  | record fields => record ((sortedFields fields).mergeSort fun a b ↦ decide (a.1 ≤ b.1))
  | d => d

def sortedAll : List Data → List Data
  | [] => []
  | d :: ds => d.sorted :: sortedAll ds

/-- The fields with sorted values. -/
def sortedFields : List (String × Data) → List (String × Data)
  | [] => []
  | (k, d) :: rest => (k, d.sorted) :: sortedFields rest

end

/-! ## JSON text -/

/-- A character between the quotes of a JSON string: quote, backslash and controls are escaped. -/
def jsonChar (c : Char) : List Char :=
  if c = '"' then ['\\', '"']
  else if c = '\\' then ['\\', '\\']
  else if c = '\n' then ['\\', 'n']
  else if c = '\r' then ['\\', 'r']
  else if c = '\t' then ['\\', 't']
  else if c = '\x08' then ['\\', 'b']
  else if c = '\x0c' then ['\\', 'f']
  else if c.val < 0x20 then
    ['\\', 'u', '0', '0'] ++ Nat.toDigits 16 (c.val.toNat / 16) ++
      Nat.toDigits 16 (c.val.toNat % 16)
  else [c]

def jsonString (s : String) : String :=
  String.ofList ('"' :: s.toList.flatMap jsonChar ++ ['"'])

/-- Items between brackets, each on a line of its own, at a level of indentation. -/
def jsonBlock (left right : String) (level : Nat) (items : List String) : String :=
  let indent (n : Nat) := "\n" ++ String.ofList (List.replicate (2 * n) ' ')
  if items.isEmpty then left ++ right
  else
    left ++ indent (level + 1) ++ String.intercalate ("," ++ indent (level + 1)) items ++
      indent level ++ right

mutual

/-- The JSON text of a value, at a level of indentation. -/
def jsonAt (level : Nat) : Data → String
  | null | other => "null"
  | bool b => if b then "true" else "false"
  | int i => if i < 0 then "-" ++ toString i.natAbs else toString i.natAbs
  | text s => jsonString s
  | list items => jsonBlock "[" "]" level (jsonItems (level + 1) items)
  | record fields => jsonBlock "\x7b" "\x7d" level (jsonFields (level + 1) fields)

def jsonItems (level : Nat) : List Data → List String
  | [] => []
  | d :: ds => jsonAt level d :: jsonItems level ds

def jsonFields (level : Nat) : List (String × Data) → List String
  | [] => []
  | (k, d) :: rest => (jsonString k ++ ": " ++ jsonAt level d) :: jsonFields level rest

end

/-- The JSON text of a value, with the fields of records in the order of their names. -/
def json (d : Data) : String := jsonAt 0 d.sorted

end Data

end CodeFix
