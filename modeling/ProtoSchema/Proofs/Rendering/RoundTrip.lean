/-
What is printed is parsed back.

The statements of a printed file are parsed one by one, and each lands in the list of its
kind.  The statement about the dialect comes first, so it has its effect, and no other
statement is one; there is at most one package.  So nothing is remarked on, and the lists
of the file are those that were printed.

`parseFile_render` puts the parts together.  The text of a legal file scans to lexemes that
spell its pieces, the grammar derives from those a tree that is the same but for places,
and the parser accepts exactly what the grammar derives.
-/
import ProtoSchema.Proofs.Grammar.Acceptance
import ProtoSchema.Proofs.Rendering.Members

namespace ProtoSchema

/-! ### Statements -/

namespace Statement

def pieces : Statement → List Piece
  | dialect choice _ => choice.toList.flatMap Dialect.pieces
  | package p => p.pieces
  | dependency i => i.pieces
  | option o => o.pieces
  | message m => m.pieces
  | enum e => e.pieces
  | extend e => e.pieces
  | service s => s.pieces

def bare : Statement → Statement
  | dialect choice _ => .dialect choice default
  | package p => .package p.bare
  | dependency i => .dependency i.bare
  | option o => .option o.bare
  | message m => .message m.bare
  | enum e => .enum e.bare
  | extend e => .extend e.bare
  | service s => .service s.bare

def package? : Statement → Option Package
  | package p => some p
  | _ => none

def dependency? : Statement → Option Import
  | dependency i => some i
  | _ => none

def option? : Statement → Option OptionStatement
  | option o => some o
  | _ => none

def message? : Statement → Option Message
  | message m => some m
  | _ => none

def enum? : Statement → Option Enum
  | enum e => some e
  | _ => none

def extend? : Statement → Option Extend
  | extend e => some e
  | _ => none

def service? : Statement → Option Service
  | service s => some s
  | _ => none

def isDialect : Statement → Bool
  | dialect .. => true
  | _ => false

end Statement

namespace Prints

theorem dialectStatement (d : Dialect) :
    Prints Rule.dialectStatement d.pieces fun a => a.bare = .dialect (some d) default := by
  refine cons (keyword .kwSyntax) fun _ _ => cons (mark .equals) fun _ _ =>
    cons (stringLiteral (Utf8.encode d.text.toList)) fun s hs => ?_
  have hd : Dialect.ofBytes? s.bytes = some d := by
    rw [hs]
    cases d <;> decide
  rw [hd]
  exact (mark .semicolon).last fun _ _ => rfl

theorem packageStatement {p : Package} (h : p.isLegal = true) :
    Prints Rule.packageStatement p.pieces fun a => a.bare = p.bare :=
  cons (keyword .kwPackage) fun _ _ => (dottedName h).bind fun _ hn =>
    (mark .semicolon).last fun _ _ => congrArg (Package.mk · default) hn

theorem importKind (k : ImportKind) :
    Prints Rule.importKind [Piece.keyword k.keyword] fun a => a.1 = k := by
  cases k with
  | weakImport => exact left ((keyword .kwWeak).last fun _ _ => rfl)
  | publicImport => exact right ((keyword .kwPublic).last fun _ _ => rfl)

theorem importStatement {i : Import} (h : i.isLegal = true) :
    Prints Rule.importStatement i.pieces fun a => a.bare = i.bare := by
  obtain ⟨kind?, path, pathSpan, span⟩ := i
  have hkind : Prints (Rule.optional Rule.importKind)
      (kind?.toList.map fun k => Piece.keyword k.1.keyword)
      fun a => bareWord a = bareWord kind? := by
    cases kind? with
    | none =>
        refine optional_none.imp ?_
        rintro _ rfl
        rfl
    | some k =>
        refine (optional_some (importKind k.1)).imp ?_
        rintro _ ⟨a, rfl, ha⟩
        exact congrArg (fun k => some (k, default)) ha
  refine cons (keyword .kwImport) fun _ _ => hkind.bind fun kind hk =>
    cons (textLiteral path) fun text ht => ?_
  have hpath : isImportPath text.text.toList = true := by
    rw [ht]
    exact h
  rw [hpath]
  refine (mark .semicolon).last fun _ _ => ?_
  show Import.mk (bareWord kind) text.text default default = _
  rw [hk, ht]
  rfl

theorem statement {f : File} (h : f.isLegal = true) :
    ∀ st ∈ f.statements, Prints Rule.statement st.pieces fun a => a.bare = st.bare := by
  unfold File.isLegal at h
  simp only [Bool.and_eq_true, List.all_eq_true] at h
  obtain ⟨⟨⟨⟨⟨⟨hp, hi⟩, ho⟩, hm⟩, he⟩, hx⟩, hs⟩ := h
  unfold File.statements
  simp only [List.mem_append, List.mem_map]
  rintro st ((((((⟨p, hmem, rfl⟩ | ⟨i, hmem, rfl⟩) | ⟨o, hmem, rfl⟩) | ⟨m, hmem, rfl⟩) |
    ⟨e, hmem, rfl⟩) | ⟨e, hmem, rfl⟩) | ⟨s, hmem, rfl⟩)
  · have hlegal : p.isLegal = true := by
      rw [Option.mem_toList.mp hmem] at hp
      exact hp
    exact switch_keyword (.tail _ (.head _)) ((packageStatement hlegal).map fun _ ha =>
      congrArg Statement.package ha)
  · exact switch_keyword (.tail _ (.tail _ (.head _))) ((importStatement (hi i hmem)).map
      fun _ ha => congrArg Statement.dependency ha)
  · exact switch_keyword (.tail _ (.tail _ (.tail _ (.head _)))) ((optionStatement (ho o hmem)).map
      fun _ ha => congrArg Statement.option ha)
  · have hmessage := message (hm m hmem)
    obtain ⟨name, items, options, reserved, extensions, span⟩ := m
    exact switch_keyword (.tail _ (.tail _ (.tail _ (.tail _ (.head _))))) (hmessage.map
      fun _ ha => congrArg Statement.message ha)
  · exact switch_keyword (.tail _ (.tail _ (.tail _ (.tail _ (.tail _ (.head _))))))
      ((enum (he e hmem)).map fun _ ha => congrArg Statement.enum ha)
  · exact switch_keyword (.tail _ (.tail _ (.tail _ (.tail _ (.tail _ (.tail _ (.head _)))))))
      ((extend (hx e hmem)).map fun _ ha => congrArg Statement.extend ha)
  · exact switch_keyword
      (.tail _ (.tail _ (.tail _ (.tail _ (.tail _ (.tail _ (.tail _ (.head _))))))))
      ((service (hs s hmem)).map fun _ ha => congrArg Statement.service ha)

end Prints

/-! ### Statements in their places -/

/-- A file with further statements, none of them about the dialect, each in the list of its kind. -/
def File.extendBy (f : File) (sts : List Statement) : File :=
  { f with
    package := (f.package.toList ++ sts.filterMap Statement.package?).head?
    imports := f.imports ++ sts.filterMap Statement.dependency?
    options := f.options ++ sts.filterMap Statement.option?
    messages := f.messages ++ sts.filterMap Statement.message?
    enums := f.enums ++ sts.filterMap Statement.enum?
    extendBlocks := f.extendBlocks ++ sts.filterMap Statement.extend?
    services := f.services ++ sts.filterMap Statement.service? }

theorem File.extendBy_nil (f : File) : f.extendBy [] = f := by
  obtain ⟨dialect, span, package, imports, options, messages, enums, extendBlocks, services⟩ := f
  cases package <;> simp [extendBy]

/-- One statement that is not about the dialect, where no second package comes. -/
theorem File.place_extendBy {f : File} {st : Statement} {sts : List Statement}
    (hst : st.isDialect = false)
    (hp : (f.package.toList ++ (st :: sts).filterMap Statement.package?).length ≤ 1) :
    (f.place false st).2 = [] ∧ (f.place false st).1.extendBy sts = f.extendBy (st :: sts) ∧
      ((f.place false st).1.package.toList ++ sts.filterMap Statement.package?).length ≤ 1 := by
  cases st with
  | dialect choice span => cases hst
  | package p =>
      obtain ⟨dialect, span, package, imports, options, messages, enums, extendBlocks, services⟩ := f
      cases package with
      | none => exact ⟨rfl, rfl, hp⟩
      | some q => exact absurd hp (by simp [Statement.package?])
  | dependency i =>
      exact ⟨rfl, congrArg (fun is => { f.extendBy sts with imports := is })
        (List.append_assoc f.imports [i] _), hp⟩
  | option o =>
      exact ⟨rfl, congrArg (fun os => { f.extendBy sts with options := os })
        (List.append_assoc f.options [o] _), hp⟩
  | message m =>
      exact ⟨rfl, congrArg (fun ms => { f.extendBy sts with messages := ms })
        (List.append_assoc f.messages [m] _), hp⟩
  | enum e =>
      exact ⟨rfl, congrArg (fun es => { f.extendBy sts with enums := es })
        (List.append_assoc f.enums [e] _), hp⟩
  | extend e =>
      exact ⟨rfl, congrArg (fun es => { f.extendBy sts with extendBlocks := es })
        (List.append_assoc f.extendBlocks [e] _), hp⟩
  | service s =>
      exact ⟨rfl, congrArg (fun ss => { f.extendBy sts with services := ss })
        (List.append_assoc f.services [s] _), hp⟩

/-- One instance and the others, where there is nothing to remark. -/
theorem many_cons {α : Type} {R : Rule α} {source : List Char} {ls rest : List Lexeme} {a : α}
    {as : List α} (h : Rule.Many R source ls (a :: as) [] rest) :
    ∃ mid, R source ls a [] mid ∧ Rule.Many R source mid as [] rest := by
  generalize hds : ([] : List Diagnostic) = ds at h
  cases h with
  | cons first others =>
      obtain ⟨rfl, rfl⟩ := List.append_eq_nil_iff.mp hds.symm
      exact ⟨_, first, others⟩

/-- Statements that follow each other up to the end make up the rest of a file. -/
theorem statements_of_many {source : List Char} (sts : List Statement) :
    ∀ (f : File) (ls : List Lexeme), Rule.Many Rule.statement source ls sts [] [] →
      (∀ st ∈ sts, st.isDialect = false) →
      (f.package.toList ++ sts.filterMap Statement.package?).length ≤ 1 →
      Rule.Statements source ⟨f, false⟩ ls ⟨f.extendBy sts, false⟩ [] := by
  induction sts with
  | nil =>
      intro f ls h _ _
      cases h
      rw [File.extendBy_nil]
      exact .nil _
  | cons st sts ih =>
      intro f ls h hd hp
      obtain ⟨mid, hst, hsts⟩ := many_cons h
      obtain ⟨hdialect, hd⟩ := List.forall_mem_cons.mp hd
      obtain ⟨hremarks, hextend, hp⟩ := File.place_extendBy hdialect hp
      have others := ih _ mid hsts hd hp
      have hall : Rule.Statements source ⟨f, false⟩ ls
          ⟨(f.place false st).1.extendBy sts, false⟩ ([] ++ (f.place false st).2 ++ []) :=
        .statement hst others
      rw [hremarks, hextend] at hall
      exact hall

/-! ### Files -/

theorem File.pieces_eq (f : File) :
    f.pieces = f.dialect.pieces ++ f.statements.flatMap Statement.pieces := by
  simp only [pieces, statements, List.flatMap_append, List.flatMap_map, List.append_assoc]
  rfl

theorem File.gather_statements (f : File) :
    f.statements.filterMap Statement.package? = f.package.toList ∧
      f.statements.filterMap Statement.dependency? = f.imports ∧
      f.statements.filterMap Statement.option? = f.options ∧
      f.statements.filterMap Statement.message? = f.messages ∧
      f.statements.filterMap Statement.enum? = f.enums ∧
      f.statements.filterMap Statement.extend? = f.extendBlocks ∧
      f.statements.filterMap Statement.service? = f.services := by
  simp [statements, Function.comp_def, Statement.package?, Statement.dependency?,
    Statement.option?, Statement.message?, Statement.enum?, Statement.extend?, Statement.service?]

/-- Statements that are those of a file but for places make up a file that is the same but for them. -/
theorem File.bare_extendBy {f : File} {sts : List Statement} {span : Span}
    (h : sts.map Statement.bare = f.statements.map Statement.bare) :
    (File.extendBy { File.empty with dialectSpan := some span, dialect := f.dialect } sts).bare =
      f.bare := by
  have hpackage := gather_eq Package.bare Statement.package? (fun st => by cases st <;> rfl) h
  have himports := gather_eq Import.bare Statement.dependency? (fun st => by cases st <;> rfl) h
  have hoptions := gather_eq OptionStatement.bare Statement.option? (fun st => by cases st <;> rfl) h
  have hmessages := gather_eq Message.bare Statement.message? (fun st => by cases st <;> rfl) h
  have henums := gather_eq Enum.bare Statement.enum? (fun st => by cases st <;> rfl) h
  have hextends := gather_eq Extend.bare Statement.extend? (fun st => by cases st <;> rfl) h
  have hservices := gather_eq Service.bare Statement.service? (fun st => by cases st <;> rfl) h
  obtain ⟨gp, gi, go, gm, ge, gx, gs⟩ := f.gather_statements
  rw [gp] at hpackage
  rw [gi] at himports
  rw [go] at hoptions
  rw [gm] at hmessages
  rw [ge] at henums
  rw [gx] at hextends
  rw [gs] at hservices
  have hhead : (sts.filterMap Statement.package?).head?.map Package.bare =
      f.package.map Package.bare := by
    rw [← List.head?_map, hpackage, List.head?_map]
    cases f.package <;> rfl
  show File.mk f.dialect none ((sts.filterMap Statement.package?).head?.map Package.bare)
    ((sts.filterMap Statement.dependency?).map Import.bare)
    ((sts.filterMap Statement.option?).map OptionStatement.bare)
    ((sts.filterMap Statement.message?).map Message.bare)
    ((sts.filterMap Statement.enum?).map Enum.bare)
    ((sts.filterMap Statement.extend?).map Extend.bare)
    ((sts.filterMap Statement.service?).map Service.bare) = _
  rw [hhead, himports, hoptions, hmessages, henums, hextends, hservices]
  rfl

/-- Nothing but the places of a statement is lost without them. -/
theorem Statement.isDialect_bare (st : Statement) : st.bare.isDialect = st.isDialect := by
  cases st <;> rfl

theorem File.isDialect_statements (f : File) : ∀ st ∈ f.statements, st.isDialect = false := by
  unfold statements
  simp only [List.mem_append, List.mem_map]
  rintro st ((((((⟨x, -, rfl⟩ | ⟨x, -, rfl⟩) | ⟨x, -, rfl⟩) | ⟨x, -, rfl⟩) | ⟨x, -, rfl⟩) |
    ⟨x, -, rfl⟩) | ⟨x, -, rfl⟩) <;> rfl

theorem File.scan_render (f : File) : scan f.render = scanFrom 0 0 f.render := rfl

/--
**What is printed is parsed back.**  The text of a legal file parses without a diagnostic,
to a tree that is the same but for places.
-/
theorem parseFile_render (f : File) (h : f.isLegal = true) :
    ∃ f', parseFile f.render = .tree f' [] ∧ f'.bare = f.bare := by
  have hdialect : Prints Rule.statement f.dialect.pieces
      fun st => st.bare = .dialect (some f.dialect) default :=
    Prints.switch_keyword (.head _) (Prints.dialectStatement f.dialect)
  have hsts := Prints.many f.statements (Prints.statement h)
  have hreadable : ∀ p ∈ f.pieces, p.isReadable = true := by
    rw [f.pieces_eq]
    exact List.forall_mem_append.mpr ⟨hdialect.readable, hsts.readable⟩
  have hspells : Spells f.render (scan f.render) f.pieces := by
    rw [File.scan_render]
    exact spells_render f.pieces [] hreadable
  have hclean := hspells.clean
  -- The lexemes are those of the statement about the dialect, then those of the others.
  rw [f.pieces_eq, ← List.append_nil (f.statements.flatMap _)] at hspells
  obtain ⟨st, mid, hst, hb, hspells⟩ := hdialect.derives _ _ _ hspells
  obtain ⟨sts, rest, hmany, hbs, hspells⟩ := hsts.derives _ _ _ hspells
  obtain rfl : rest = [] := by
    cases hspells
    rfl
  obtain ⟨span, rfl⟩ : ∃ span, st = .dialect (some f.dialect) span := by
    cases st with
    | dialect choice span => exact ⟨span, congrArg (Statement.dialect · span) (by cases hb; rfl)⟩
    | _ => cases hb
  have hdialects : ∀ st ∈ sts, st.isDialect = false := by
    intro st hmem
    obtain ⟨x, hx, heq⟩ := List.mem_map.mp (hbs ▸ List.mem_map_of_mem hmem)
    rw [← st.isDialect_bare, ← heq, x.isDialect_bare]
    exact f.isDialect_statements x hx
  have hpackages : (sts.filterMap Statement.package?).length ≤ 1 := by
    have hgather := congrArg List.length (gather_eq Package.bare Statement.package? (fun st => by cases st <;> rfl) hbs)
    rw [List.length_map, List.length_map, f.gather_statements.1] at hgather
    rw [hgather]
    cases f.package <;> simp
  have hrest := statements_of_many sts { File.empty with dialectSpan := some span, dialect := f.dialect }
    mid hmany hdialects hpackages
  have hall : Rule.Statements f.render ⟨.empty, true⟩ (scan f.render) _ [] := .statement hst hrest
  exact ⟨_, ((parseFile_eq_tree_iff hclean _ []).mpr ⟨_, hall, rfl⟩).1, File.bare_extendBy hbs⟩

/-- A name as it is written, at no place in particular. -/
def Ident.named (text : String) : Ident := ⟨text, default⟩

/-- A file with an import, an option in braces, a map, a reserved name and a nested message. -/
def libraryFile : File :=
  { File.empty with
    dialect := .proto3
    package := some ⟨⟨.named "library", [.named "v1"]⟩, default⟩
    imports := [⟨some (.publicImport, default), "google/type/date.proto", default, default⟩]
    options := [⟨⟨.extension ⟨some default, ⟨.named "library", [.named "shelf"]⟩⟩ default, [],
      .aggregate "rows: [1, 2] label \x7b text: \"a\\n\" \x7d" default⟩, default⟩]
    messages := [⟨.named "message",
      [.field ⟨none, .map (.scalar .string) default (.named ⟨none, ⟨.named "Book", []⟩⟩) default
          default, .named "books", ⟨false, 1, default⟩, none, default⟩,
       .field ⟨some (.repeated, default), .plain (.named ⟨none, ⟨.named "option", []⟩⟩) default,
          .named "optional", ⟨false, 18446744073709551615, default⟩,
          some ⟨[⟨.ident (.named "default"), [],
            .ident true (.named "inf") default⟩], default⟩, default⟩,
       .message ⟨.named "Book", [], [], [⟨.names [.named "isbn, \u00e9dition"], default⟩], [],
          default⟩],
      [], [⟨.ranges [⟨⟨true, 0, default⟩, .max default⟩], default⟩], [], default⟩] }

/-- The file with keywords for names is legal, so its text parses back to it. -/
theorem parseFile_render_library : libraryFile.isLegal = true ∧
    ∃ f', parseFile libraryFile.render = .tree f' [] ∧ f'.bare = libraryFile.bare :=
  ⟨by decide +kernel, parseFile_render libraryFile (by decide +kernel)⟩

end ProtoSchema
