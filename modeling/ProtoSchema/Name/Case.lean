/-
The names that are derived from the name of a field.

Field names are written with underscores between their words.  Two derived spellings
drop the underscores and start each following word with a capital letter; they differ
only in the first word.  One recursion serves both, with a flag that says whether the
next letter starts a word that is capitalised.
-/

namespace ProtoSchema

/-- A name without underscores; `capital` says whether the next character is capitalised. -/
def joinWords (capital : Bool) : List Char → List Char
  | [] => []
  | c :: cs =>
    if c = '_' then joinWords true cs
    else (if capital then c.toUpper else c) :: joinWords false cs

/-- The name of a field in JSON, `fooBar` for `foo_bar`. -/
def jsonName (name : String) : String := String.ofList (joinWords false name.toList)

/-- A name in the style of types, `FooBar` for `foo_bar`. -/
def pascalCase (name : String) : String := String.ofList (joinWords true name.toList)

/-- The name of the message that holds the entries of a map field. -/
def mapEntryName (field : String) : String := pascalCase field ++ "Entry"

end ProtoSchema
