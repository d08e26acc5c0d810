/-
The words that the grammar gives a meaning.

No word is reserved: the scanner knows identifiers only, and a production asks whether
the identifier before it is a keyword.  So every word below is also a legal name.
-/

namespace ProtoSchema

/-- A word that starts or structures a statement. -/
inductive Keyword where
  | kwSyntax | kwImport | kwWeak | kwPublic | kwPackage | kwOption | kwOptional | kwRequired
  | kwRepeated | kwOneof | kwMap | kwReserved | kwExtensions | kwExtend | kwTo | kwMax | kwEnum
  | kwMessage | kwService | kwRpc | kwStream | kwReturns
deriving DecidableEq, Repr

namespace Keyword

/-- The spelling of a keyword. -/
def text : Keyword → String
  | kwSyntax => "syntax"
  | kwImport => "import"
  | kwWeak => "weak"
  | kwPublic => "public"
  | kwPackage => "package"
  | kwOption => "option"
  | kwOptional => "optional"
  | kwRequired => "required"
  | kwRepeated => "repeated"
  | kwOneof => "oneof"
  | kwMap => "map"
  | kwReserved => "reserved"
  | kwExtensions => "extensions"
  | kwExtend => "extend"
  | kwTo => "to"
  | kwMax => "max"
  | kwEnum => "enum"
  | kwMessage => "message"
  | kwService => "service"
  | kwRpc => "rpc"
  | kwStream => "stream"
  | kwReturns => "returns"

def all : List Keyword :=
  [kwSyntax, kwImport, kwWeak, kwPublic, kwPackage, kwOption, kwOptional, kwRequired, kwRepeated,
   kwOneof, kwMap, kwReserved, kwExtensions, kwExtend, kwTo, kwMax, kwEnum, kwMessage, kwService,
   kwRpc, kwStream, kwReturns]

/-- The keyword that a word spells, if it spells one. -/
def ofText? (word : String) : Option Keyword := all.find? (·.text = word)

theorem ofText?_text (k : Keyword) : ofText? k.text = some k := by cases k <;> decide

theorem text_of_ofText? {word : String} {k : Keyword} (h : ofText? word = some k) :
    k.text = word := by
  simpa using List.find?_some h

end Keyword

end ProtoSchema
