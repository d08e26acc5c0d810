/-
The parser accepts exactly its grammar.

Within a file a statement that does not parse is skipped, and the parse goes on.  So a parse
always has a result, and what tells the sources of the grammar from others is that nothing
was complained about.  On a source without lexical errors this is an equivalence, and the
tree and the remarks are those of the derivation.
-/
import ProtoSchema.Proofs.Grammar.Declarations
import ProtoSchema.Proofs.Parsing.Statements

namespace ProtoSchema

namespace Parser

open Rule (Opens)

namespace Means

variable {F : Follow}

/-! ### Statements -/

theorem dialectStatement : Means F dialectStatement Rule.dialectStatement := by
  refine (expectKeyword _).seq fun start => ?_
  refine (expectMark _).seq fun _ => ?_
  refine stringLiteral.bind (fun value => ?_) fun value => ?_
  · dsimp only
    split
    · exact (report rfl).seq fun _ => (expectMark _).seq fun stop => pure _
    · exact (expectMark _).seq fun stop => pure _
  · have hsemi : lacking quoted? (some (.mark .semicolon)) := lacking_some fun s => rfl
    dsimp only
    split
    · exact .bind (.remark _) fun _ => .first (.mark hsemi)
    · exact .first (.mark hsemi)

theorem packageStatement : Means F packageStatement Rule.packageStatement := by
  refine (expectKeyword _).seq fun start => ?_
  refine (dottedName rfl).bind (fun name => ?_) fun name => .first (.mark rfl)
  exact (expectMark _).seq fun stop => pure _

theorem importKind? : Means (among Token.isString) importKind? (Rule.optional Rule.importKind) := by
  have h : Means (among Token.isString) Parser.importKind? (Rule.switch
      [(.kwWeak, do
        let s ← Rule.keyword .kwWeak
        Pure.pure (some (.weakImport, s))),
       (.kwPublic, do
        let s ← Rule.keyword .kwPublic
        Pure.pure (some (.publicImport, s)))] (Pure.pure none)) := by
    refine switch (fun k R h => ?_) fun k? hk => ?_
    · obtain ⟨rfl, rfl⟩ | ⟨rfl, rfl⟩ : (k = .kwWeak ∧ R = _) ∨ (k = .kwPublic ∧ R = _) := by
        simpa using h
      · exact (expectKeyword _).seq fun s => pure _
      · exact (expectKeyword _).seq fun s => pure _
    · split
      · exact absurd (by simp) (hk .kwWeak rfl)
      · exact absurd (by simp) (hk .kwPublic rfl)
      · -- Without a word for the kind a string must come next, which is no word.
        refine peek fun t? => ?_
        split
        · exact .always (pure _)
        · rename_i hstring
          refine .never (unexpected _) (.pure _ fun u? hu heq => ?_)
          subst heq
          cases u? with
          | none => cases hu
          | some t =>
              cases t with
              | string b => exact hstring b rfl
              | _ => cases hu
  refine h.recast (fun source ls a ds rest hR => ?_) fun source ls a ds rest hR hF => ?_
  · rcases hR with ⟨k, R, hmem, -, hR⟩ | ⟨-, hR⟩
    · obtain ⟨rfl, rfl⟩ | ⟨rfl, rfl⟩ : (k = .kwWeak ∧ R = _) ∨ (k = .kwPublic ∧ R = _) := by
        simpa using hmem
      · obtain ⟨s, ds₁, mid, ds₂, hkey, ⟨rfl, rfl, rfl⟩, rfl⟩ := hR
        exact Or.inl ⟨_, ds₁, _, [], Or.inl ⟨s, ds₁, _, [], hkey, ⟨rfl, rfl, rfl⟩,
          (List.append_nil _).symm⟩, ⟨rfl, rfl, rfl⟩, rfl⟩
      · obtain ⟨s, ds₁, mid, ds₂, hkey, ⟨rfl, rfl, rfl⟩, rfl⟩ := hR
        exact Or.inl ⟨_, ds₁, _, [], Or.inr ⟨s, ds₁, _, [], hkey, ⟨rfl, rfl, rfl⟩,
          (List.append_nil _).symm⟩, ⟨rfl, rfl, rfl⟩, rfl⟩
    · exact Or.inr hR
  · rcases hR with ⟨_, _, _, _, hR | hR, ⟨rfl, rfl, rfl⟩, rfl⟩ | ⟨rfl, rfl, rfl⟩
    · obtain ⟨s, ds₁, mid, ds₂, hkey, ⟨rfl, rfl, rfl⟩, rfl⟩ := hR
      exact Or.inl ⟨.kwWeak, _, List.mem_cons_self, Rule.nextKeyword?_of_keyword hkey,
        ⟨s, ds₁, _, [], hkey, ⟨rfl, rfl, rfl⟩, by rw [List.append_nil]⟩⟩
    · obtain ⟨s, ds₁, mid, ds₂, hkey, ⟨rfl, rfl, rfl⟩, rfl⟩ := hR
      exact Or.inl ⟨.kwPublic, _, List.mem_cons_of_mem _ List.mem_cons_self, Rule.nextKeyword?_of_keyword hkey,
        ⟨s, ds₁, _, [], hkey, ⟨rfl, rfl, rfl⟩, by rw [List.append_nil]⟩⟩
    · refine Or.inr ⟨fun k hk => ?_, rfl, rfl, rfl⟩
      unfold nextKeyword? at hk
      split at hk
      · rename_i w heq
        rw [heq] at hF
        cases hF
      · cases hk

theorem importStatement : Means F importStatement Rule.importStatement := by
  refine (expectKeyword _).seq fun start => ?_
  refine importKind?.bind (fun kind => ?_) fun kind => .first .textLiteral
  refine textLiteral.bind (fun path => ?_) fun path => ?_
  · dsimp only
    split
    · exact (report rfl).seq fun _ => (expectMark _).seq fun stop => pure _
    · exact (expectMark _).seq fun stop => pure _
  · have hsemi : lacking quoted? (some (.mark .semicolon)) := lacking_some fun s => rfl
    dsimp only
    split
    · exact .bind (.remark _) fun _ => .first (.mark hsemi)
    · exact .first (.mark hsemi)

theorem statement : Means F statement Rule.statement := by
  refine switch (fun k R h => ?_) fun k? hk => ?_
  · simp only [List.mem_cons, Prod.mk.injEq, List.not_mem_nil, or_false] at h
    rcases h with ⟨rfl, rfl⟩ | ⟨rfl, rfl⟩ | ⟨rfl, rfl⟩ | ⟨rfl, rfl⟩ | ⟨rfl, rfl⟩ | ⟨rfl, rfl⟩ |
      ⟨rfl, rfl⟩ | ⟨rfl, rfl⟩
    · exact dialectStatement
    · exact packageStatement.map _
    · exact importStatement.map _
    · exact optionStatement.map _
    · exact message.map _
    · exact enum.map _
    · exact extend.map _
    · exact service.map _
  · split
    · exact absurd (by simp) (hk .kwSyntax rfl)
    · exact absurd (by simp) (hk .kwPackage rfl)
    · exact absurd (by simp) (hk .kwImport rfl)
    · exact absurd (by simp) (hk .kwOption rfl)
    · exact absurd (by simp) (hk .kwMessage rfl)
    · exact absurd (by simp) (hk .kwEnum rfl)
    · exact absurd (by simp) (hk .kwExtend rfl)
    · exact absurd (by simp) (hk .kwService rfl)
    · exact unexpected _

end Means

/-! ### Files -/

/-- Outside of bodies a statement that does not parse is always complained about. -/
theorem exists_fault_of_mismatch {env : Surroundings} {r r' : Remainder} {n : Nat}
    (hb : env.inBody = false) (ho : Ordered (α := Statement) n true env r (.halted .mismatch r')) :
    ∃ new, r'.log = new ++ r.log ∧ ∃ d ∈ new, d.isFault = true := by
  cases ho with
  | @unexpected mid e t s ls reads token =>
      obtain ⟨seg, new, -, hlog, -⟩ := reads
      exact ⟨.unexpectedToken e t s :: new, by rw [hlog]; rfl, _, List.mem_cons_self, rfl⟩
  | silent inBody reads ends =>
      rw [hb] at inBody
      cases inBody
  | @eof _ mid e s inBody reads ends =>
      obtain ⟨seg, new, -, hlog, -⟩ := reads
      exact ⟨.unexpectedEof e s :: new, by rw [hlog]; rfl, _, List.mem_cons_self, rfl⟩

/-- What one turn of the loop over statements derives, if nothing is complained about. -/
inductive Turned (source : List Char) (draft : Draft) (ls : List Lexeme) :
    Option Draft → List Diagnostic → List Lexeme → Prop
  | none {ds : List Diagnostic} {rest : List Lexeme} (ends : ls = []) (quiet : ds = []) :
      Turned source draft ls none ds rest
  | semicolon {s : Span} {tail : List Lexeme} (head : ls = .token (.mark .semicolon) s :: tail) :
      Turned source draft ls (some draft) [] tail
  | statement {st : Statement} {ds : List Diagnostic} {mid : List Lexeme}
      (first : Rule.statement source ls st ds mid) :
      Turned source draft ls (some ⟨(draft.file.place draft.first st).1, false⟩)
        (ds ++ (draft.file.place draft.first st).2) mid

theorem sound_nextStatement {env : Surroundings} {draft : Draft} {ls : List Lexeme}
    {log : List Diagnostic} {d? : Option Draft} {r : Remainder} (hb : env.inBody = false)
    (hc : Clean ls) (h : nextStatement draft env ⟨ls, log⟩ = .done d? r) :
    ∃ ds, r.log = ds.reverse ++ log ∧ r.lexemes <:+ ls ∧
      ((∀ d ∈ ds, d.isFault = false) → Turned env.source draft ls d? ds r.lexemes) := by
  cases ls with
  | nil =>
      rw [nextStatement_nil rfl] at h
      cases h
      exact ⟨[], rfl, List.suffix_refl _, fun _ => .none rfl rfl⟩
  | cons l ls =>
      obtain ⟨t, s, rfl⟩ := hc l List.mem_cons_self
      by_cases hs : t = .mark .semicolon
      · subst hs
        rw [nextStatement_semicolon rfl] at h
        cases h
        exact ⟨[], rfl, List.suffix_cons _ _, fun _ => .semicolon rfl⟩
      by_cases hr : t = .mark .rightBrace
      · subst hr
        rw [nextStatement_rightBrace rfl] at h
        cases h
        refine ⟨[.unexpectedToken .statement (.mark .rightBrace) s], rfl, List.suffix_cons _ _,
          fun hds => ?_⟩
        cases hds _ (List.mem_singleton_self _)
      rw [nextStatement_statement rfl hs hr, hc.settle] at h
      have hord := Orderly.statement (n := 0) env ⟨.token t s :: ls, log⟩
      cases hrun : statement env ⟨.token t s :: ls, log⟩ with
      | done st r' =>
          rw [hrun] at h
          cases h
          obtain ⟨ds, hlog, hsuf, hst⟩ :=
            (Means.statement (F := anything)).sound env _ log st r' hc hrun
          refine ⟨ds ++ (draft.file.place draft.first st).2, ?_, hsuf, fun hds => ?_⟩
          · rw [hlog, List.reverse_append, List.append_assoc]
          · exact .statement (hst fun d hd => hds d (List.mem_append_left _ hd))
      | halted reason r' =>
          rw [hrun] at h hord
          cases reason with
          | mismatch =>
              cases h
              obtain ⟨ds, hlog, hsuf, -⟩ := sound_skip hord
              refine ⟨ds, hlog, hsuf, fun hds => ?_⟩
              -- A mismatch is always reported as a fault, so it contradicts the absence of faults.
              obtain ⟨new, hnew, d, hd, hfault⟩ := exists_fault_of_mismatch hb hord
              obtain ⟨ys, ⟨seg, new', -, hlog', -⟩, -⟩ :=
                reads_skipStatement r'.lexemes 0 r'.log [] rfl
              have hsame : ds.reverse ++ log = (new' ++ new) ++ log := by
                rw [← hlog, hlog']
                simp only [hnew, List.append_assoc]
              have hmem : d ∈ ds := by
                rw [← List.mem_reverse, List.append_cancel_right hsame]
                exact List.mem_append_right _ hd
              rw [hds d hmem] at hfault
              cases hfault
          | unclosed => cases h
          | exhausted => cases h

theorem sound_evolve (budget : List Lexeme) :
    ∀ {env : Surroundings} {draft : Draft} {ls : List Lexeme} {log : List Diagnostic}
      {last : Draft} {r : Remainder}, env.inBody = false → Clean ls →
      evolve nextStatement budget draft env ⟨ls, log⟩ = .done last r →
      ∃ ds, r.log = ds.reverse ++ log ∧
        ((∀ d ∈ ds, d.isFault = false) → Rule.Statements env.source draft ls last ds) := by
  -- On the budget, with the draft general, since each statement changes it.
  induction budget with
  | nil =>
      intro env draft ls log last r hb hc h
      rw [evolve, bind_run] at h
      cases hrun : nextStatement draft env ⟨ls, log⟩ with
      | halted reason r' =>
          rw [hrun] at h
          cases h
      | done d? r' =>
          rw [hrun] at h
          obtain ⟨ds, hlog, -, hturned⟩ := sound_nextStatement hb hc hrun
          cases d? with
          | some d => cases h
          | none =>
              cases h
              refine ⟨ds, hlog, fun hds => ?_⟩
              cases hturned hds with
              | none ends quiet =>
                  rw [ends, quiet]
                  exact .nil _
  | cons l budget ih =>
      intro env draft ls log last r hb hc h
      rw [evolve, bind_run] at h
      cases hrun : nextStatement draft env ⟨ls, log⟩ with
      | halted reason r' =>
          rw [hrun] at h
          cases h
      | done d? r' =>
          rw [hrun] at h
          obtain ⟨ds₁, hlog, hsuf, hturned⟩ := sound_nextStatement hb hc hrun
          cases d? with
          | none =>
              cases h
              refine ⟨ds₁, hlog, fun hds => ?_⟩
              cases hturned hds with
              | none ends quiet =>
                  rw [ends, quiet]
                  exact .nil _
          | some d =>
              obtain ⟨ds₂, hlog', hrest⟩ := ih hb (hc.of_suffix hsuf) h
              refine ⟨ds₁ ++ ds₂, ?_, fun hds => ?_⟩
              · rw [hlog', hlog, List.reverse_append, List.append_assoc]
              · have hothers := hrest fun d hd => hds d (List.mem_append_right _ hd)
                cases hturned fun d hd => hds d (List.mem_append_left _ hd) with
                | semicolon head =>
                    rw [head]
                    exact .semicolon hothers
                | statement first => exact .statement first hothers

theorem isFault_place (file : File) (first : Bool) (st : Statement) :
    ∀ d ∈ (file.place first st).2, d.isFault = false := by
  intro d hd
  have hcat := file.category_place first st d hd
  cases hfault : d.isFault with
  | false => rfl
  | true =>
      have hgram : d.category = .grammatical := by
        cases d with
        | unexpectedToken e t s => rfl
        | unexpectedEof e s => rfl
        | unterminatedBody kind s => rfl
        | _ => cases hfault
      rw [hcat] at hgram
      cases hgram

theorem passes_semicolon (env : Surroundings) (draft : Draft) (s : Span) (ls : List Lexeme)
    (log : List Diagnostic) : Passes env draft (.token (.mark .semicolon) s :: ls) log draft ls log :=
  .step (nextStatement_semicolon rfl) (Nat.lt_succ_self _)

/-- A statement is placed, and what is wrong with its place comes behind the remarks on it. -/
theorem passes_statement (env : Surroundings) {draft : Draft} {st : Statement}
    {ls mid : List Lexeme} {ds : List Diagnostic} (h : Rule.statement env.source ls st ds mid)
    (hc : Clean ls) :
    mid <:+ ls ∧ (∀ d ∈ ds ++ (draft.file.place draft.first st).2, d.isFault = false) ∧
      ∀ log, Passes env draft ls log ⟨(draft.file.place draft.first st).1, false⟩ mid
        ((ds ++ (draft.file.place draft.first st).2).reverse ++ log) := by
  have hmeans := (Means.statement (F := anything)).complete env ls
  obtain ⟨hsuf, hds, -⟩ := hmeans [] st ds mid hc h trivial
  refine ⟨hsuf, List.forall_mem_append.mpr ⟨hds, isFault_place _ _ _⟩, fun log => ?_⟩
  obtain ⟨-, -, hrun⟩ := hmeans log st ds mid hc h trivial
  have hopens : Opens startsMember anything Rule.statement := .statement
  obtain ⟨t, ht, hs, hr⟩ := hopens _ _ _ _ _ h trivial
  obtain ⟨s, tail, rfl⟩ := exists_of_nextToken? ht
  have hord := Orderly.statement (n := 0) env ⟨.token t s :: tail, log⟩
  rw [hrun] at hord
  have hlt : mid.length < (Lexeme.token t s :: tail).length := by
    cases hord with
    | done reads shorter => exact shorter rfl
  refine .step ?_ hlt
  rw [nextStatement_statement rfl hs hr, hc.settle, hrun, List.reverse_append, List.append_assoc]

theorem complete_passes (env : Surroundings) {draft last : Draft} {ls : List Lexeme}
    {ds : List Diagnostic} (h : Rule.Statements env.source draft ls last ds) (hc : Clean ls) :
    (∀ d ∈ ds, d.isFault = false) ∧
      ∀ log, Passes env draft ls log last [] (ds.reverse ++ log) := by
  induction h with
  | nil draft => exact ⟨by simp, .refl draft []⟩
  | @semicolon draft last s ls ds others ih =>
      obtain ⟨hds, hpasses⟩ := ih (hc.of_suffix (List.suffix_cons _ _))
      exact ⟨hds, fun log => (passes_semicolon env draft s ls log).trans (hpasses log)⟩
  | @statement draft last st ls mid ds₁ ds₂ first others ih =>
      obtain ⟨hsuf, hds₁, hfirst⟩ := passes_statement env first hc
      obtain ⟨hds₂, hpasses⟩ := ih (hc.of_suffix hsuf)
      refine ⟨List.forall_mem_append.mpr ⟨hds₁, hds₂⟩, fun log => ?_⟩
      rw [List.reverse_append, List.append_assoc]
      exact (hfirst log).trans (hpasses _)

end Parser

/-- A tree and remarks without a complaint are what the grammar derives. -/
theorem parseFile_eq_tree_iff {source : List Char} (hc : Clean (scan source)) (file : File)
    (ds : List Diagnostic) :
    (parseFile source = .tree file ds ∧ ∀ d ∈ ds, d.isFault = false) ↔
      Rule.file source (scan source) file ds := by
  constructor
  · rintro ⟨hparse, hds⟩
    unfold parseFile Parser.file at hparse
    rw [Parser.bind_run] at hparse
    cases hrun : Parser.iterate Parser.nextStatement ⟨.empty, true⟩ ⟨source, false⟩
        ⟨scan source, []⟩ with
    | halted reason r =>
        rw [hrun] at hparse
        cases hparse
    | done draft r =>
        rw [hrun] at hparse
        obtain ⟨ds', hlog, hst⟩ := Parser.sound_evolve (scan source) rfl hc hrun
        rw [List.append_nil] at hlog
        cases hparse
        rw [hlog, List.reverse_reverse] at hds ⊢
        exact ⟨draft, hst hds, rfl⟩
  · rintro ⟨draft, hst, rfl⟩
    obtain ⟨hds, hpasses⟩ := Parser.complete_passes ⟨source, false⟩ hst hc
    refine ⟨?_, hds⟩
    rw [parseFile, Parser.file, Parser.bind_done (hpasses []).toEnd]
    show ParseResult.tree draft.file (ds.reverse ++ []).reverse = _
    rw [List.append_nil, List.reverse_reverse]

/--
**The parser accepts exactly its grammar.**  On a source that consists of tokens, the parse
gives a tree without a complaint if and only if the grammar derives the tokens.  The tree and
the remarks are then those of the derivation.
-/
theorem accepts_iff_derives (source : List Char) (hc : Clean (scan source)) :
    ((∃ file ds, parseFile source = .tree file ds ∧ ∀ d ∈ ds, d.isFault = false) ↔
      ∃ file ds, Rule.file source (scan source) file ds) ∧
    ∀ file ds, Rule.file source (scan source) file ds → parseFile source = .tree file ds := by
  refine ⟨⟨?_, ?_⟩, fun file ds h => ((parseFile_eq_tree_iff hc file ds).mpr h).1⟩
  · rintro ⟨file, ds, h⟩
    exact ⟨file, ds, (parseFile_eq_tree_iff hc file ds).mp h⟩
  · rintro ⟨file, ds, h⟩
    exact ⟨file, ds, (parseFile_eq_tree_iff hc file ds).mpr h⟩

/-- A keyword in the place of a name is a name. -/
theorem accepts_message :
    Clean (scan "message option { int32 map = 1; }".toList) ∧
    ∃ file ds, Rule.file "message option { int32 map = 1; }".toList
      (scan "message option { int32 map = 1; }".toList) file ds := by
  have hc : Clean (scan "message option { int32 map = 1; }".toList) := by decide +kernel
  refine ⟨hc, (accepts_iff_derives _ hc).1.mp ?_⟩
  have hparse : ((parseFile "message option { int32 map = 1; }".toList).casesOn
      (fun _ ds => ds.isEmpty) (fun _ => false) : Bool) = true := by decide +kernel
  cases heq : parseFile "message option { int32 map = 1; }".toList with
  | tree file ds =>
      rw [heq] at hparse
      obtain rfl : ds = [] := List.isEmpty_iff.mp hparse
      exact ⟨file, [], rfl, by simp⟩
  | unclosed ds =>
      rw [heq] at hparse
      cases hparse

end ProtoSchema
