/-
Assembling services and whole files.
-/
import ProtoSchema.Assembly.Message

namespace ProtoSchema

open Checked

namespace Context

def method (ctx : Context) (scope : FullName) (m : Method) : Checked MethodDescriptor := do
  let input ← ctx.messageType scope m.input
  let output ← ctx.messageType scope m.output
  let options ← optionsOf (settings m.options)
  pure ⟨m.name.text, input, output, options, m.clientStreaming.isSome, m.serverStreaming.isSome⟩

/-- A service.  The types of its methods are looked for in the scope around it. -/
def service (ctx : Context) (scope : FullName) (s : Service) : Checked ServiceDescriptor := do
  let methods ← each (ctx.method scope) s.methods
  let options ← optionsOf (settings s.options)
  pure ⟨s.name.text, methods, options⟩

end Context

namespace File

/-- What checking the declarations of a file needs to know about it. -/
def context (file : File) (symbols : SymbolTable) : Context :=
  ⟨file.dialect, symbols, !file.imports.isEmpty⟩

/-- The places of the imports of some kind among all imports. -/
def importPlaces (file : File) (kind : ImportKind) : List Nat :=
  file.imports.zipIdx.filterMap fun (i, place) =>
    if i.kind.any (·.1 = kind) then some place else none

/-- The descriptor of a file with a name, given what the file declares. -/
def describe (file : File) (name : String) (symbols : SymbolTable) : Checked FileDescriptor := do
  let ctx := file.context symbols
  let scope := Package.scope file.package
  let messages ← each (ctx.message scope) file.messages
  let enums ← each ctx.enum file.enums
  let extensions ← each (ctx.extensions scope) file.extendBlocks
  let services ← each (ctx.service scope) file.services
  let options ← optionsOf (Context.settings file.options)
  pure {
    name
    package := file.package.map fun p => Package.scope (some p)
    dependencies := file.imports.map Import.path
    publicDependencies := file.importPlaces .publicImport
    weakDependencies := file.importPlaces .weakImport
    messages
    enums
    services
    extensions := extensions.flatten
    options
    dialect := file.dialect }

end File

end ProtoSchema
