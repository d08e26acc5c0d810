/-
Names that are declared again.

The table of names keeps the declaration that the walk over a file comes by first, and the walk
goes through the statements of a file kind by kind.  Within one statement it goes through the source
in order; so what is declared again there stands behind what it repeats.  The same holds of two
statements unless the one that stands first is of a later kind (`File.Crosses`).  Then the name is
reported the wrong way around: what the report calls the first declaration stands behind the other
one.

A package never plays a part in this.  What it declares is above all that is declared in it, so it
shares no name with that.

All other repetitions are found by walks that go through the source in order, so this is the only
way in which a report can point backwards.
-/
import ProtoSchema.Proofs.Assembly.Clashes
import ProtoSchema.Proofs.Linking.DerivedNames
import ProtoSchema.Proofs.Positions.Repetitions
import ProtoSchema.Proofs.Positions.Reports

namespace ProtoSchema

variable {source : List Char} {outer : Span}

/-! ### Within a statement -/

/-- If two declarations claim one name, the first ends where the second starts, or before. -/
def Declared.InOrder (d e : Declared) : Prop := d.name = e.name → d.span.Before e.span

namespace Declared.InOrder

section

variable {α : Type} [Node α] {xs : List α} {declares : α → List Declared}

/-- What nodes declare is in order if they stand one behind the other. -/
theorem line (h : xs.Pairwise Precedes)
    (hin : ∀ x ∈ xs, DeclaredIn source (Node.span x) (declares x))
    (hown : ∀ x ∈ xs, (declares x).Pairwise InOrder) :
    (xs.flatMap declares).Pairwise InOrder := by
  refine List.pairwise_flatMap.mpr ⟨hown, h.imp_of_mem fun {x y} hx hy hxy d hd e he _ => ?_⟩
  exact hxy.related _ _ (hin x hx d hd) (hin y hy e he)

/-- So it is together with the declaration that heads them. -/
theorem headed {head : Ident} {d : Declared} (hd : d.span = head.span) (h : InLine head xs)
    (hin : ∀ x ∈ xs, DeclaredIn source (Node.span x) (declares x))
    (hown : ∀ x ∈ xs, (declares x).Pairwise InOrder) :
    (d :: xs.flatMap declares).Pairwise InOrder := by
  refine List.pairwise_cons.mpr ⟨fun e he _ => ?_, line h.line hin hown⟩
  obtain ⟨x, hx, he⟩ := List.mem_flatMap.mp he
  have hbefore : head.span.stop ≤ (Node.span x).start := h.headed x hx
  rw [Span.Before, hd]
  exact Nat.le_trans hbefore (hin x hx e he).after

end

section

/-! Each node declares one name. -/

variable {α : Type} [Node α] {xs : List α} {declare : α → Declared}
  (hin : ∀ x ∈ xs, (declare x).span.Within source (Node.span x))

include hin

theorem line_map (h : xs.Pairwise Precedes) : (xs.map declare).Pairwise InOrder := by
  rw [List.map_eq_flatMap]
  exact line h (fun x hx => List.forall_mem_singleton.mpr (hin x hx))
    fun _ _ => List.pairwise_singleton _ _

theorem headed_map {head : Ident} {d : Declared} (hd : d.span = head.span) (h : InLine head xs) :
    (d :: xs.map declare).Pairwise InOrder := by
  rw [List.map_eq_flatMap]
  exact headed hd h (fun x hx => List.forall_mem_singleton.mpr (hin x hx))
    fun _ _ => List.pairwise_singleton _ _

end

variable (scope : FullName)

theorem field (f : Field) : (f.declared scope).Pairwise InOrder := by
  unfold Field.declared
  refine List.pairwise_cons.mpr ⟨fun e he hname => ?_, ?_⟩
  · split at he
    · obtain rfl := List.mem_singleton.mp he
      have hsame := List.head_eq_of_cons_eq (congrArg FullName.chain hname)
      exact absurd hsame.symm (mapEntryName_ne _)
    · cases he
  · split
    · exact List.pairwise_singleton _ _
    · exact .nil

theorem oneof {o : Oneof} (ho : Lies source outer o) (h : o.Sequential) :
    (o.declared scope).Pairwise InOrder :=
  headed rfl h.fields (fun f hf => DeclaredIn.field scope (ho.nested.fields f hf))
    fun f _ => field scope f

theorem enum {e : Enum} (he : Lies source outer e) (h : e.Sequential) :
    (e.declared scope).Pairwise InOrder :=
  headed_map (fun v hv => (he.nested.values v hv).nested.name.within) rfl h.values

theorem extend {e : Extend} (he : Lies source outer e) (h : e.Sequential) :
    (e.declared scope).Pairwise InOrder :=
  line_map (fun f hf => (he.nested.fields f hf).nested.name.within) h.fields

theorem service {s : Service} (hs : Lies source outer s) (h : s.Sequential) :
    (s.declared scope).Pairwise InOrder :=
  headed_map (fun m hm => (hs.nested.methods m hm).nested.name.within) rfl h.methods

theorem item {i : MessageItem} (h : i.Sequential) : ∀ {outer : Span} (scope : FullName),
    Lies source outer i → (i.declared scope).Pairwise InOrder := by
  induction h with
  | field _ => exact fun scope _ => field scope _
  | oneof h => exact fun scope hi => oneof scope hi.of_oneof h
  | enum h => exact fun scope hi => enum scope hi.of_enum h
  | extend h => exact fun scope hi => extend scope hi.of_extend h
  | @message m _ hitems _ _ ih =>
      intro outer scope hi
      obtain ⟨-, hlies, -⟩ := hi.of_message.parts_of_message
      rw [MessageItem.declared, Message.declared_eq, MessageItem.declaredAll_eq]
      exact headed rfl hitems (fun i hi => DeclaredIn.item _ _ i (hlies i hi))
        fun i hi => ih i hi _ (hlies i hi)

theorem package (p : Package) : p.declared.Pairwise InOrder := by
  refine (pairwise_packagesFrom _ _ _).imp_of_mem fun {d e} _ he hopens hname => ?_
  obtain ⟨_, -, -, rfl⟩ := mem_packagesFrom.mp he
  exact absurd hname (hopens rfl)

theorem statement {st : Statement} (hst : Lies source outer st) (h : st.Sequential) :
    (st.declared scope).Pairwise InOrder := by
  cases st with
  | package p => exact package p
  | message m =>
      have hm : Lies source outer (MessageItem.message m) := ⟨hst.within, hst.nested⟩
      exact item h scope hm
  | enum e =>
      have he : Lies source outer e := ⟨hst.within, hst.nested⟩
      exact enum scope he h
  | extend e =>
      have he : Lies source outer e := ⟨hst.within, hst.nested⟩
      exact extend scope he h
  | service s =>
      have hs : Lies source outer s := ⟨hst.within, hst.nested⟩
      exact service scope hs h
  | _ => exact .nil

end Declared.InOrder

/-! ### Packages -/

namespace File

variable {file : File} {scope : FullName} {d e : Declared}

theorem Holds.length_le {i : MessageItem} (h : file.Holds scope i) :
    (Package.scope file.package).chain.length ≤ scope.chain.length := by
  induction h with
  | within _ _ ih => exact Nat.le_succ_of_le ih
  | _ => exact Nat.le_refl _

/-- Besides packages, a file declares names in its scope or below. -/
theorem Claims.length_lt (h : file.Claims d) :
    (Package.scope file.package).chain.length < d.name.chain.length := by
  have hfield : ∀ {scope f}, file.HoldsField scope f →
      (Package.scope file.package).chain.length ≤ scope.chain.length := by
    intro scope f hf
    cases hf with
    | field h => exact h.length_le
    | oneof h _ => exact h.length_le
  obtain ⟨hregisters, hkind⟩ := h
  generalize d.name = n at hregisters
  generalize d.kind = k at hregisters hkind
  generalize d.span = s at hregisters
  cases hregisters with
  | package => exact absurd rfl hkind
  | message h | enum h | enumValue h _ | oneof h | extension h _ =>
      exact Nat.lt_succ_of_le h.length_le
  | field h | mapEntry h _ => exact Nat.lt_succ_of_le (hfield h)
  | service _ => exact Nat.lt_succ_self _
  | method _ _ => exact Nat.lt_succ_of_lt (Nat.lt_succ_self _)

/-- A package is not above itself. -/
theorem length_le_of_package {p : Package} (hp : file.package = some p) (hd : d ∈ p.declared) :
    d.name.chain.length ≤ (Package.scope file.package).chain.length := by
  obtain ⟨names, -, hnames, rfl⟩ := mem_packagesFrom.mp hd
  rw [hp]
  simp only [Package.scope, FullName.chain_descend, List.length_append, List.length_reverse]
  exact Nat.add_le_add_right hnames.length_le _

/-! ### Between statements -/

end File

/-- Statements with a body declare something in the scope of the file. -/
def Statement.HasBody : Statement → Prop
  | .message _ | .enum _ | .extend _ | .service _ => True
  | _ => False

/-- Only packages and statements with a body declare something. -/
theorem Statement.hasBody_or_of_declared {st : Statement} {scope : FullName} {d : Declared}
    (hd : d ∈ st.declared scope) : st.HasBody ∨ ∃ p, st = .package p := by
  cases st with
  | package p => exact .inr ⟨p, rfl⟩
  | dialect _ _ | dependency _ | option _ => cases hd
  | message _ | enum _ | extend _ | service _ => exact .inl trivial

theorem Statement.rank_package_lt {st : Statement} (h : st.HasBody) (p : Package) :
    (Statement.package p).rank < st.rank := by
  cases st <;> first | exact h.elim | simp [rank]

theorem File.claims_statement {file : File} {st : Statement} {d : Declared}
    (hst : st ∈ file.statements) (hbody : st.HasBody)
    (hd : d ∈ st.declared (Package.scope file.package)) : file.Claims d := by
  cases st with
  | message m =>
      have hm : m ∈ file.messages := by simpa [statements] using hst
      have hheld : file.Holds (Package.scope file.package) (.message m) := .message hm
      obtain ⟨_, _, hi, hd⟩ := hheld.exists_own hd
      exact hi.claims_own hd
  | enum e =>
      have he : e ∈ file.enums := by simpa [statements] using hst
      exact Holds.claims_enum (.enum he) hd
  | extend e =>
      have he : e ∈ file.extendBlocks := by simpa [statements] using hst
      exact Holds.claims_extend (.extend he) hd
  | service s =>
      have hs : s ∈ file.services := by simpa [statements] using hst
      exact claims_service hs hd
  | _ => exact hbody.elim

/--
The first place is in a statement that the walk over a file comes by before that of the second
place, although it stands behind it.
-/
def File.Crosses (source : List Char) (file : File) (first second : Span) : Prop :=
  ∃ s ∈ file.statements, ∃ t ∈ file.statements, s.HasBody ∧ t.HasBody ∧ s.rank < t.rank ∧
    t.span.stop ≤ s.span.start ∧ first.Within source s.span ∧ second.Within source t.span

theorem File.Crosses.backwards {file : File} {first second : Span}
    (h : file.Crosses source first second) : second.stop ≤ first.start := by
  obtain ⟨s, -, t, -, -, -, -, hts, hfirst, hsecond⟩ := h
  exact Nat.le_trans hsecond.before (Nat.le_trans hts hfirst.after)

/-- Of two declarations of one name, the walk comes by the first one first, or their places cross. -/
theorem File.Upto.pairwise_declared {file : File} {lo : Nat} (hf : file.Upto source lo) :
    file.declared.Pairwise fun d e => d.name = e.name →
      d.span.Before e.span ∨ file.Crosses source d.span e.span := by
  rw [File.declared_eq_flatMap]
  refine List.pairwise_flatMap.mpr ⟨fun st hst => ?_, ?_⟩
  · have horder := Declared.InOrder.statement (Package.scope file.package)
      (hf.liesIn.statement hst) (hf.sequential st hst)
    exact horder.imp fun h hname => .inl (h hname)
  · refine hf.filed.imp_of_mem fun {s t} hs ht hfiled d hd e he hname => ?_
    have hdin := DeclaredIn.statement _ (hf.liesIn.statement hs) d hd
    have hein := DeclaredIn.statement _ (hf.liesIn.statement ht) e he
    rcases hfiled with hbefore | ⟨hrank, hbehind⟩
    · exact .inl (hbefore.related _ _ hdin hein)
    · have htbody : t.HasBody := by
        rcases Statement.hasBody_or_of_declared he with hbody | ⟨p, rfl⟩
        · exact hbody
        · rcases Statement.hasBody_or_of_declared hd with hbody | ⟨q, rfl⟩
          · exact absurd hrank (Nat.lt_asymm (Statement.rank_package_lt hbody p))
          · exact absurd hrank (Nat.lt_irrefl _)
      have hsbody : s.HasBody := by
        rcases Statement.hasBody_or_of_declared hd with hbody | ⟨p, rfl⟩
        · exact hbody
        · have hp : file.package = some p := by simpa [File.statements] using hs
          have hle := File.length_le_of_package hp hd
          rw [hname] at hle
          exact absurd (File.claims_statement ht htbody he).length_lt (Nat.not_lt_of_le hle)
      exact .inr ⟨s, hs, t, ht, hsbody, htbody, hrank, hbehind, hdin, hein⟩

/-- A name that is declared again is declared behind its first declaration, or places cross. -/
theorem SymbolTable.crosses_ofFile {file : File} {lo : Nat} (hf : file.Upto source lo)
    {d : Diagnostic} (hd : d ∈ (ofFile file).2) {first second : Span}
    (h : d.repetition? = some (first, second)) :
    first.Before second ∨
      (∃ n, d = .duplicateName n first second) ∧ file.Crosses source first second := by
  rw [(tracks_ofFile file).2] at hd
  obtain ⟨before, e, after, earlier, heq, hfirst, rfl⟩ := mem_repetitions.mp hd
  obtain ⟨rfl, rfl⟩ := Prod.mk.inj (Option.some.inj h)
  have hmem : earlier ∈ before := List.mem_of_find?_eq_some hfirst
  have hname : earlier.name = e.name := by simpa using List.find?_some hfirst
  have hpairwise := hf.pairwise_declared
  rw [heq] at hpairwise
  have hpair := (List.pairwise_append.mp hpairwise).2.2 earlier hmem e (.head _) hname
  exact hpair.imp id fun hcrosses => ⟨⟨_, rfl⟩, hcrosses⟩

/-! ### Reports -/

/-- What is reported of characters as a repetition points forwards, unless places cross. -/
theorem crosses_of_readChars {name : String} {report : Report}
    (h : reportOf? (readChars name source) = some report) {d : Diagnostic}
    (hd : d ∈ report.diagnostics) {first second : Span}
    (hrepeats : d.repetition? = some (first, second)) :
    first.Before second ∨ (∃ n, d = .duplicateName n first second) ∧
      ∃ file ds, parseFile source = .tree file ds ∧ file.Crosses source first second := by
  have hparsing : ∀ d ∈ (parseFile source).diagnostics, d.Forward := forward_of_parseFile
  cases tells_of_readChars h with
  | unclosed hparse =>
      rw [hparse] at hparsing
      exact .inl (hparsing d hd first second hrepeats)
  | @tree file ds hparse =>
      rw [hparse] at hparsing
      obtain ⟨hi, hfile⟩ := upto_of_parseFile hparse
      rw [(Diagnostic.sortByStart_perm _).mem_iff, List.mem_append, List.mem_append] at hd
      rcases hd with (hd | hd) | hd
      · exact .inl (hparsing d hd first second hrepeats)
      · rcases SymbolTable.crosses_ofFile hfile hd hrepeats with hbefore | ⟨hname, hcrosses⟩
        · exact .inl hbefore
        · exact .inr ⟨hname, file, ds, hparse, hcrosses⟩
      · exact .inl (forward_describe hfile name _ d hd first second hrepeats)

/--
**Repetitions point forwards, except between statements of two kinds.**  A diagnostic about a
repetition stands at its second place, which lies behind the first one.  There is only one other
way: the diagnostic is about a name, and its places are in two statements, of which the walk over
the file comes by the later one first because it is of an earlier kind.  Then the places stand the
other way around.
-/
theorem repetition_of_readText {name source : String} {report : Report}
    (h : reportOf? (readText name source) = some report) {d : Diagnostic}
    (hd : d ∈ report.diagnostics) {first second : Span}
    (hrepeats : d.repetition? = some (first, second)) :
    d.span = second ∧ (first.stop ≤ second.start ∨
      second.stop ≤ first.start ∧ (∃ n, d = .duplicateName n first second) ∧
        ∃ file ds, parseFile source.toList = .tree file ds ∧
          file.Crosses source.toList first second) := by
  refine ⟨Diagnostic.span_of_repetition hrepeats, ?_⟩
  unfold readText at h
  split at h
  · cases h
  rcases crosses_of_readChars h hd hrepeats with hbefore | ⟨hname, file, ds, hparse, hcrosses⟩
  · exact .inl hbefore
  · exact .inr ⟨hcrosses.backwards, hname, file, ds, hparse, hcrosses⟩

/-- An enum that has the name of a message before it. -/
def againText : String := "message A \x7b\x7d enum A \x7b X = 0; \x7d"

theorem repetition_of_readText_again :
    ∃ schema d first second, readText "again.proto" againText = .ok schema ∧
      d ∈ schema.report.diagnostics ∧ d.repetition? = some (first, second) ∧
        first = ⟨8, 9⟩ ∧ second = ⟨18, 19⟩ ∧ d.span = second ∧ first.stop ≤ second.start := by
  have hread : ((readText "again.proto" againText).toOption.any fun s =>
      s.report.diagnostics.any fun d => d.repetition? = some (⟨8, 9⟩, ⟨18, 19⟩)) = true := by
    decide +kernel
  obtain ⟨schema, heq, htest⟩ := exists_of_any_readText hread
  obtain ⟨d, hd, hplaces⟩ := List.any_eq_true.mp htest
  have hrepeats : d.repetition? = some (⟨8, 9⟩, ⟨18, 19⟩) := of_decide_eq_true hplaces
  have hreport : reportOf? (readText "again.proto" againText) = some schema.report := by
    rw [heq]
    rfl
  obtain ⟨hspan, hplace⟩ := repetition_of_readText hreport hd hrepeats
  -- The two places do not cross: the message stands in front of the enum.
  have hbefore := hplace.resolve_right fun hcrosses => absurd hcrosses.1 (by decide)
  exact ⟨schema, d, _, _, heq, hd, hrepeats, rfl, rfl, hspan, hbefore⟩

/-- A message that has the name of an enum before it. -/
def crossedText : String := "enum A \x7b X = 0; \x7d message A \x7b\x7d"

theorem exists_backward_repetition :
    ∃ schema d first second, readText "test.proto" crossedText = .ok schema ∧
      d ∈ schema.report.diagnostics ∧ d.repetition? = some (first, second) ∧
        first = ⟨26, 27⟩ ∧ second = ⟨5, 6⟩ ∧ ¬first.stop ≤ second.start := by
  have hread : ((readText "test.proto" crossedText).toOption.any fun s =>
      s.report.diagnostics.any fun d => d.repetition? = some (⟨26, 27⟩, ⟨5, 6⟩)) = true := by
    decide +kernel
  obtain ⟨schema, heq, htest⟩ := exists_of_any_readText hread
  obtain ⟨d, hd, hplaces⟩ := List.any_eq_true.mp htest
  exact ⟨schema, d, _, _, heq, hd, of_decide_eq_true hplaces, rfl, rfl, by decide⟩

end ProtoSchema
