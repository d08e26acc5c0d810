/-
The names in a tree are words.

A name in a tree is taken from a token, and the token that a name is taken from is always a
word: the scanner gives it the characters of a word and no others.  So every name that a
declaration gives, and every name that it refers to a type by, has the form of a word, at
any depth of the tree.  Only the names that matter for references to types are considered.
-/
import ProtoSchema.Proofs.Parsing.Fieldwise
import ProtoSchema.Proofs.Rendering.Legal

namespace ProtoSchema

/-! ### Words in the source -/

/-- A lexeme that is, if it is a word, one of the right form. -/
def Lexeme.Proper (l : Lexeme) : Prop := ∀ word s, l = .token (.ident word) s → isWord word = true

theorem Item.readNumeral_ne_ident (offset : Nat) (cs : List Char) (word : String) :
    (readNumeral offset cs).reading ≠ .token (.ident word) := by
  unfold readNumeral
  dsimp only
  split <;> simp

theorem Item.readSlash_ne_ident (offset : Nat) (cs : List Char) (word : String) :
    (readSlash offset cs).reading ≠ .token (.ident word) := by
  unfold readSlash
  split
  · simp
  · split <;> simp
  · simp

/-- What the scanner reads as a word has the form of one. -/
theorem Item.isWord_of_read {offset : Nat} {c : Char} {cs : List Char} {word : String}
    (h : (read offset c cs).reading = .token (.ident word)) : isWord word = true := by
  unfold read at h
  split at h
  · simp at h
  split at h
  · rename_i hstart
    simp only [Reading.token.injEq, Token.ident.injEq] at h
    rw [← h, isWord, String.toList_ofList]
    have hall : (cs.takeWhile isWordPart).all isWordPart = true := List.all_takeWhile
    simp [hstart, hall]
  split at h
  · exact absurd h (readNumeral_ne_ident _ _ _)
  split at h
  · simp at h
  split at h
  · exact absurd h (readSlash_ne_ident _ _ _)
  split at h <;> simp at h

theorem Item.proper_of_mem_lexemes {offset : Nat} {c : Char} {cs : List Char} {l : Lexeme}
    (h : l ∈ (read offset c cs).lexemes offset c cs) : l.Proper := by
  intro word s hl
  rw [hl] at h
  rcases List.mem_append.mp h with h | h
  · simp at h
  · split at h
    · rename_i t ht
      obtain ⟨rfl, -⟩ := Lexeme.token.inj (List.mem_singleton.mp h)
      exact isWord_of_read ht
    · simp at h
    · simp at h

theorem proper_of_mem_scanFrom (cs : List Char) :
    ∀ (skip offset : Nat) (l : Lexeme), l ∈ scanFrom skip offset cs → l.Proper := by
  induction cs with
  | nil =>
      intro skip offset l hl
      simp [scanFrom] at hl
  | cons c cs ih =>
      intro skip offset l hl
      cases skip with
      | succ skip => exact ih skip _ l hl
      | zero =>
          rcases List.mem_append.mp hl with hl | hl
          · exact Item.proper_of_mem_lexemes hl
          · exact ih _ _ l hl

theorem proper_of_mem_scan {source : List Char} {l : Lexeme} (h : l ∈ scan source) :
    l.Proper := by
  unfold scan at h
  split at h
  · exact proper_of_mem_scanFrom _ _ _ l h
  · exact proper_of_mem_scanFrom _ _ _ l h

/-! ### Words in a tree -/

/-- The name of a type is made of words, unless the type is built in. -/
def TypeUse.HasWords : TypeUse → Prop
  | .scalar _ => True
  | .named n => n.isLegal = true

/-- The same of all types that a field names; the type of keys is never looked up. -/
def FieldKind.HasWords : FieldKind → Prop
  | .plain type _ => type.HasWords
  | .map _ _ value _ _ => value.HasWords

structure Field.HasWords (f : Field) : Prop where
  name : f.name.isLegal = true
  kind : f.kind.HasWords

def Oneof.HasWords (o : Oneof) : Prop := ∀ f ∈ o.fields, f.HasWords

structure Extend.HasWords (e : Extend) : Prop where
  extendee : e.extendee.isLegal = true
  fields : ∀ f ∈ e.fields, f.HasWords

def Enum.HasWords (e : Enum) : Prop := e.name.isLegal = true

structure Method.HasWords (m : Method) : Prop where
  input : m.input.isLegal = true
  output : m.output.isLegal = true

def Service.HasWords (s : Service) : Prop := ∀ m ∈ s.methods, m.HasWords

mutual

def Message.HasWords : Message → Prop
  | ⟨name, items, _, _, _, _⟩ => name.isLegal = true ∧ MessageItem.HaveWords items

def MessageItem.HaveWords : List MessageItem → Prop
  | [] => True
  | i :: is => MessageItem.HasWords i ∧ MessageItem.HaveWords is

def MessageItem.HasWords : MessageItem → Prop
  | .field f => f.HasWords
  | .oneof o => o.HasWords
  | .message m => Message.HasWords m
  | .enum e => e.HasWords
  | .extend e => e.HasWords

end

theorem MessageItem.haveWords_iff (items : List MessageItem) :
    HaveWords items ↔ ∀ i ∈ items, i.HasWords := by
  induction items with
  | nil => simp [HaveWords]
  | cons i is ih => simp [HaveWords, ih]

def Statement.HasWords : Statement → Prop
  | .dialect .. | .dependency _ | .option _ => True
  | .package p => p.name.isLegal = true
  | .message m => m.HasWords
  | .enum e => e.HasWords
  | .extend e => e.HasWords
  | .service s => s.HasWords

structure File.HasWords (f : File) : Prop where
  package : ∀ p ∈ f.package, p.name.isLegal = true
  messages : ∀ m ∈ f.messages, m.HasWords
  enums : ∀ e ∈ f.enums, e.HasWords
  extendBlocks : ∀ e ∈ f.extendBlocks, e.HasWords
  services : ∀ s ∈ f.services, s.HasWords

/-! ### Productions -/

/-- A parser that makes values that satisfy `P` of proper lexemes. -/
abbrev Parser.Names {α : Type} (P : α → Prop) (p : Parser α) : Prop := Yields Lexeme.Proper P p

namespace Parser.Yields

theorem ident : Names (fun n => n.isLegal = true) ident := by
  refine require fun t s a ht ha => ?_
  split at ha
  · obtain rfl := Option.some.inj ha
    exact ht _ _ rfl
  · cases ha

theorem dottedName (stop : Terminator) : Names (fun n => n.isLegal = true) (dottedName stop) := by
  unfold Parser.dottedName
  refine bind ident fun first hfirst => ?_
  refine bind (P := fun rest => ∀ n ∈ rest, n.isLegal = true) (many ?_) fun rest hrest => pure ?_
  · refine after (.acceptMark? (by decide) (by decide)) fun dot => ?_
    split
    · exact yield ident
    · refine after .peek fun t? => ?_
      split
      · split
        · exact Yields.stop
        · exact unexpected _
      · exact unexpected _
  · unfold DottedName.isLegal DottedName.parts
    rw [List.all_cons, hfirst, Bool.true_and, List.all_eq_true]
    exact hrest

theorem typeName (stop : Terminator) : Names (fun n => n.isLegal = true) (typeName stop) := by
  unfold Parser.typeName
  refine after .peek fun t? => ?_
  split
  · refine after (.expectMark (by decide) (by decide)) fun dot => ?_
    exact bind (dottedName stop) fun name hname => pure hname
  · exact bind (dottedName stop) fun name hname => pure hname
  · exact unexpected _

/-! ### Fields -/

theorem typeUse (stop : Terminator) : Names (fun u => u.1.HasWords) (typeUse stop) := by
  unfold Parser.typeUse
  refine after (.accept? (fun _ => rfl) (fun _ => rfl)) fun found => ?_
  split
  · exact pure trivial
  · exact bind (typeName stop) fun name hname => pure hname

theorem fieldKind : Names FieldKind.HasWords fieldKind := by
  unfold Parser.fieldKind
  refine after (.acceptKeyword? _) fun start => ?_
  split
  · refine after (.expectMark (by decide) (by decide)) fun _ => ?_
    refine after (.typeUse _) fun key => ?_
    refine after (.expectMark (by decide) (by decide)) fun _ => ?_
    refine bind (typeUse _) fun value hvalue => ?_
    exact after (.expectMark (by decide) (by decide)) fun stop => pure hvalue
  · exact bind (typeUse _) fun type htype => pure htype

theorem field : Names Field.HasWords field := by
  unfold Parser.field
  refine after .label? fun label => ?_
  refine bind fieldKind fun kind hkind => ?_
  refine bind ident fun name hname => ?_
  refine after (.expectMark (by decide) (by decide)) fun _ => ?_
  refine after .integer fun number => ?_
  refine after .optionList? fun options => ?_
  exact after (.expectMark (by decide) (by decide)) fun stop => pure ⟨hname, hkind⟩

/-! ### Members -/

theorem oneof : Names Oneof.HasWords oneof := oneof_of field

theorem extend : Names Extend.HasWords extend :=
  mono (extend_of typeName field) fun _ he => ⟨he.1, he.2⟩

theorem enum : Names Enum.HasWords enum := by
  unfold Parser.enum
  refine after (.expectKeyword _) fun start => ?_
  refine bind ident fun name hname => ?_
  exact after (.body .enum .enumMember) fun found => pure hname

/-! ### Services -/

theorem methodType : Names (fun t => t.2.isLegal = true) methodType := by
  unfold Parser.methodType
  refine after (.expectMark (by decide) (by decide)) fun _ => ?_
  refine after (.acceptKeyword? _) fun streaming => ?_
  refine bind (typeName _) fun type htype => ?_
  exact after (.expectMark (by decide) (by decide)) fun _ => pure htype

theorem method : Names Method.HasWords method := by
  unfold Parser.method
  refine after (.expectKeyword _) fun start => ?_
  refine after .ident fun name => ?_
  refine bind methodType fun input hinput => ?_
  refine after (.expectKeyword _) fun _ => ?_
  refine bind methodType fun output houtput => ?_
  refine after .peek fun t? => ?_
  split
  · refine after (.expectMark (by decide) (by decide)) fun s => ?_
    exact pure ⟨hinput, houtput⟩
  · exact after (.body .method .methodMember) fun found => pure ⟨hinput, houtput⟩
  · exact bind (P := fun _ => False) (unexpected _) fun _ h => h.elim

theorem serviceMember :
    Names (fun m => ∀ x, m.method? = some x → x.HasWords) serviceMember := by
  unfold Parser.serviceMember
  refine after .peekKeyword fun k? => ?_
  split
  · exact map _ (mono (of_orderly .optionStatement) fun o _ x hx => by cases hx)
  · refine map _ (mono method fun m hm x hx => ?_)
    obtain rfl := Option.some.inj hx
    exact hm
  · exact unexpected _

theorem service : Names Service.HasWords service := by
  unfold Parser.service
  refine after (.expectKeyword _) fun start => ?_
  refine after .ident fun name => ?_
  refine bind (body serviceMember) fun found hfound => pure ?_
  intro m hm
  obtain ⟨x, hx, hget⟩ := List.mem_filterMap.mp hm
  exact hfound x hx m hget

/-! ### Messages -/

theorem messageMember {nested : Parser Message} (hn : Names Message.HasWords nested) :
    Names (fun m => ∀ i, m.item? = some i → i.HasWords) (messageMember nested) := by
  refine messageMember_of ?_ ?_ ?_ ?_ ?_
  · exact mono hn fun m hm => by rwa [MessageItem.HasWords]
  · exact mono enum fun e he => by rwa [MessageItem.HasWords]
  · exact mono oneof fun o ho => by rwa [MessageItem.HasWords]
  · exact mono extend fun e he => by rwa [MessageItem.HasWords]
  · exact mono field fun f hf => by rwa [MessageItem.HasWords]

theorem messageWithin (budget : List Lexeme) : Names Message.HasWords (messageWithin budget) := by
  induction budget with
  | nil => exact halt .exhausted (by decide)
  | cons l budget ih =>
      unfold Parser.messageWithin
      refine after (.expectKeyword _) fun start => ?_
      refine bind ident fun name hname => ?_
      refine bind (body (messageMember ih)) fun found hfound => pure ?_
      refine ⟨hname, (MessageItem.haveWords_iff _).mpr fun i hi => ?_⟩
      obtain ⟨m, hm, hget⟩ := List.mem_filterMap.mp hi
      exact hfound m hm i hget

theorem message : Names Message.HasWords message :=
  fun env r hr => messageWithin r.lexemes env r hr

/-! ### Statements -/

theorem packageStatement : Names (fun p => p.name.isLegal = true) packageStatement := by
  unfold Parser.packageStatement
  refine after (.expectKeyword _) fun start => ?_
  refine bind (dottedName _) fun name hname => ?_
  exact after (.expectMark (by decide) (by decide)) fun stop => pure hname

theorem statement : Names Statement.HasWords statement :=
  statement_of (fun _ _ => trivial) packageStatement (fun _ => trivial) (fun _ => trivial) message
    enum extend service

end Parser.Yields

/-! ### Files -/

theorem File.HasWords.place {file : File} {st : Statement} (hf : file.HasWords)
    (hst : st.HasWords) (first : Bool) : (file.place first st).1.HasWords := by
  obtain ⟨hpackage, hmessages, henums, hextends, hservices⟩ := hf
  cases st with
  | dialect choice span =>
      simp only [File.place]
      split
      · exact ⟨hpackage, hmessages, henums, hextends, hservices⟩
      · split
        · exact ⟨hpackage, hmessages, henums, hextends, hservices⟩
        · exact ⟨hpackage, hmessages, henums, hextends, hservices⟩
  | package p =>
      simp only [File.place]
      split
      · exact ⟨hpackage, hmessages, henums, hextends, hservices⟩
      · refine ⟨fun q hq => ?_, hmessages, henums, hextends, hservices⟩
        obtain rfl := Option.some.inj hq
        exact hst
  | dependency i => exact ⟨hpackage, hmessages, henums, hextends, hservices⟩
  | option o => exact ⟨hpackage, hmessages, henums, hextends, hservices⟩
  | message m => exact ⟨hpackage, forall_mem_snoc hmessages hst, henums, hextends, hservices⟩
  | enum e => exact ⟨hpackage, hmessages, forall_mem_snoc henums hst, hextends, hservices⟩
  | extend e => exact ⟨hpackage, hmessages, henums, forall_mem_snoc hextends hst, hservices⟩
  | service s => exact ⟨hpackage, hmessages, henums, hextends, forall_mem_snoc hservices hst⟩

theorem File.HasWords.empty : File.empty.HasWords where
  package p hp := by cases hp
  messages m hm := absurd hm List.not_mem_nil
  enums e he := absurd he List.not_mem_nil
  extendBlocks e he := absurd he List.not_mem_nil
  services s hs := absurd hs List.not_mem_nil

theorem Parser.Yields.file : Names File.HasWords Parser.file :=
  file_of statement File.HasWords.empty fun _ _ first hf hst => hf.place hst first

/-- **The names in the tree of a source are words.** -/
theorem hasWords_of_parseFile {source : List Char} {file : File} {ds : List Diagnostic}
    (h : parseFile source = .tree file ds) : file.HasWords :=
  Parser.Yields.file.of_parseFile (fun _ hl => proper_of_mem_scan hl) h

/-! ### Values of options -/

/-- A value that is a word by its form is one by its characters. -/
def OptionValue.HasWord (v : OptionValue) : Prop :=
  ∀ negative name span, v = .ident negative name span → name.isLegal = true

/-- The same of the values of all options of a field. -/
def Field.HasOptionWords (f : Field) : Prop :=
  ∀ o ∈ OptionList.settingsOf f.options, o.value.HasWord

/-- A block in braces is a value of that form. -/
theorem Parser.aggregate_done {env : Surroundings} {r r' : Remainder} {v : OptionValue}
    (h : aggregate env r = .done v r') : ∃ text span, v = .aggregate text span := by
  unfold aggregate at h
  rw [bind_run] at h
  split at h
  · rw [bind_run] at h
    split at h
    · rw [bind_run] at h
      split at h
      · obtain ⟨rfl, -⟩ := Outcome.done.inj h
        exact ⟨_, _, rfl⟩
      · cases h
    · cases h
  · cases h

namespace Parser.Yields

theorem signedValue (minus : Option Span) : Names OptionValue.HasWord (signedValue minus) := by
  unfold Parser.signedValue
  refine bind (P := OptionValue.HasWord) (require fun t s v ht hv => ?_) fun v hv => ?_
  · split at hv
    · obtain rfl := Option.some.inj hv
      exact nofun
    · obtain rfl := Option.some.inj hv
      exact nofun
    · obtain rfl := Option.some.inj hv
      rintro _ _ _ ⟨⟩
      exact ht _ _ rfl
    · cases hv
  · dsimp only
    split
    · split
      · exact pure hv
      · exact after (.report rfl) fun _ => pure hv
    · exact pure hv

theorem optionValue : Names OptionValue.HasWord optionValue := by
  unfold Parser.optionValue
  refine after .peek fun t? => ?_
  cases t? with
  | none => exact unexpected _
  | some t =>
      cases t with
      | ident word =>
          refine bind ident fun name hname => pure ?_
          rintro _ _ _ ⟨⟩
          exact hname
      | string bytes => exact after .stringLiteral fun s => pure nofun
      | mark p =>
          cases p with
          | plus => exact after (.acceptMark? (by decide) (by decide)) fun _ => signedValue none
          | minus =>
              exact after (.expectMark (by decide) (by decide)) fun minus =>
                signedValue (some minus)
          | leftBrace =>
              refine of_done .aggregate fun env r v r' h => ?_
              obtain ⟨text, span, rfl⟩ := aggregate_done h
              exact nofun
          | _ => exact unexpected _
      | _ => exact signedValue none

theorem optionSetting : Names (fun o => o.value.HasWord) optionSetting := by
  unfold Parser.optionSetting
  refine after .optionNamePart fun first => ?_
  refine bind (P := fun rest => ∀ part ∈ rest, True) (many ?_) fun rest _ => ?_
  · refine after (.acceptMark? (by decide) (by decide)) fun dot => ?_
    split
    · exact yield (of_orderly .optionNamePart)
    · refine after (.acceptMark? (by decide) (by decide)) fun equals => ?_
      split
      · exact Yields.stop
      · exact unexpected _
  · exact bind optionValue fun value hvalue => pure hvalue

theorem optionList : Names (fun list => ∀ o ∈ list.settings, o.value.HasWord) optionList := by
  unfold Parser.optionList
  refine after (.expectMark (by decide) (by decide)) fun opening => ?_
  refine bind optionSetting fun first hfirst => ?_
  refine bind (P := fun rest => ∀ o ∈ rest, o.value.HasWord) (many ?_) fun rest hrest => ?_
  · refine after (.acceptMark? (by decide) (by decide)) fun comma => ?_
    split
    · exact yield optionSetting
    · refine after .peek fun t? => ?_
      split
      · exact Yields.stop
      · exact unexpected _
  · refine after (.expectMark (by decide) (by decide)) fun closing => pure ?_
    exact List.forall_mem_cons.mpr ⟨hfirst, hrest⟩

theorem optionList? :
    Names (fun list => ∀ o ∈ OptionList.settingsOf list, o.value.HasWord) optionList? := by
  unfold Parser.optionList?
  refine after .peek fun t? => ?_
  split
  · exact bind optionList fun list hlist => pure hlist
  · exact pure fun o ho => absurd ho List.not_mem_nil

theorem hasOptionWords_field : Names Field.HasOptionWords Parser.field := by
  unfold Parser.field
  refine after .label? fun label => ?_
  refine after .fieldKind fun kind => ?_
  refine after .ident fun name => ?_
  refine after (.expectMark (by decide) (by decide)) fun _ => ?_
  refine after .integer fun number => ?_
  refine bind optionList? fun options hoptions => ?_
  exact after (.expectMark (by decide) (by decide)) fun stop => pure hoptions

end Parser.Yields

/-- The options of every field have words as values, wherever they have the form of words. -/
theorem everyField_of_parseFile {source : List Char} {file : File} {ds : List Diagnostic}
    (h : parseFile source = .tree file ds) : file.EveryField Field.HasOptionWords :=
  (Parser.Yields.everyField Parser.Yields.hasOptionWords_field).of_parseFile
    (fun _ hl => proper_of_mem_scan hl) h

end ProtoSchema
