/-
An error in a file changes nothing around it.

The loop over statements carries a draft of the file from turn to turn, where the loop over
the members of a body only gathers what it is given.  So it matters here what a statement
does to the draft.  That depends on what the draft holds and on whether a dialect was stated,
but not on places: to place a statement and to forget where everything stands comes to the
same in either order (`File.sketch_place`).  Two drafts with the same sketch stay so.

An error has one effect on the draft.  The statement behind it is not the first any more, and
only a statement of the dialect asks for that.
-/
import ProtoSchema.Proofs.Recovery.Bodies

namespace ProtoSchema

open ProtoSchema.Parser

/-! ### Sketches of a file -/

/-- A file without its places.  What is left of the place of a dialect is that it has one. -/
def File.sketch (f : File) : File :=
  { f.bare with dialectSpan := f.dialectSpan.map fun _ => default }

theorem File.bare_of_sketch {f f' : File} (h : f'.sketch = f.sketch) :
    f'.bare = f.bare ∧ f'.dialectSpan.isSome = f.dialectSpan.isSome := by
  have hspan : f'.dialectSpan.map (fun _ => (default : Span)) = f.dialectSpan.map fun _ => default :=
    congrArg File.dialectSpan h
  have hbare : { f'.sketch with dialectSpan := none } = { f.sketch with dialectSpan := none } := by
    rw [h]
  refine ⟨hbare, ?_⟩
  rw [← Option.isSome_map, hspan, Option.isSome_map]

/-- A statement is placed in a sketch as it is in the file. -/
theorem File.sketch_place (f : File) (first : Bool) (st : Statement) :
    (f.place first st).1.sketch = (f.sketch.place first st.bare).1 ∧
      (f.place first st).2.map Diagnostic.message =
        (f.sketch.place first st.bare).2.map Diagnostic.message := by
  cases st with
  | dialect choice span =>
      obtain ⟨dialect, chosen, package, imports, options, messages, enums, extendBlocks, services⟩ := f
      cases chosen with
      | some earlier => exact ⟨rfl, rfl⟩
      | none =>
          cases first with
          | true => exact ⟨rfl, rfl⟩
          | false => exact ⟨rfl, rfl⟩
  | package p =>
      obtain ⟨dialect, chosen, package, imports, options, messages, enums, extendBlocks, services⟩ := f
      cases package with
      | some earlier => exact ⟨rfl, rfl⟩
      | none => exact ⟨rfl, rfl⟩
  | dependency i =>
      exact ⟨congrArg (fun is => { f.sketch with imports := is }) List.map_append, rfl⟩
  | option o =>
      exact ⟨congrArg (fun os => { f.sketch with options := os }) List.map_append, rfl⟩
  | message m =>
      exact ⟨congrArg (fun ms => { f.sketch with messages := ms }) List.map_append, rfl⟩
  | enum e =>
      exact ⟨congrArg (fun es => { f.sketch with enums := es }) List.map_append, rfl⟩
  | extend e =>
      exact ⟨congrArg (fun es => { f.sketch with extendBlocks := es }) List.map_append, rfl⟩
  | service s =>
      exact ⟨congrArg (fun ss => { f.sketch with services := ss }) List.map_append, rfl⟩

/-- Only a statement of the dialect asks whether it is the first. -/
theorem File.place_first (f : File) {st : Statement} (h : st.isDialect = false)
    (first first' : Bool) : f.place first' st = f.place first st := by
  cases st with
  | dialect choice span => cases h
  | _ => rfl

/-! ### Statements and what they do to a draft -/

/-- A statement together with what is remarked on it. -/
def Rule.withRemarks {α : Type} (R : Rule α) : Rule (α × List Diagnostic) :=
  fun source ls a ds rest => R source ls a.1 ds rest ∧ a.2 = ds

/-- A statement without its places, and what the remarks say. -/
def Statement.gist (p : Statement × List Diagnostic) : Statement × List String :=
  (p.1.bare, p.2.map Diagnostic.message)

theorem Statement.isDialect_of_gist {p q : Statement × List Diagnostic} (h : gist q = gist p) :
    q.1.isDialect = p.1.isDialect := by
  have hbare : q.1.bare = p.1.bare := congrArg Prod.fst h
  rw [← Statement.isDialect_bare, hbare, Statement.isDialect_bare]

theorem Rule.Retells.withRemarks {α γ : Type} {closed : Bool} {b : α → γ} {R R' : Rule α}
    (h : Retells closed b R R') :
    Retells closed (fun p => (b p.1, p.2.map Diagnostic.message)) R.withRemarks R'.withRemarks := by
  rintro source source' ls ⟨a, ds⟩ _ rest ⟨hR, rfl⟩
  obtain ⟨front, hfront, hne, hretells⟩ := h source source' ls a ds rest hR
  refine ⟨front, hfront, hne, fun front' rest' hretold hrest => ?_⟩
  obtain ⟨a', ds', hR', hb, hm⟩ := hretells front' rest' hretold hrest
  exact ⟨(a', ds'), ds', ⟨hR', rfl⟩, Prod.ext hb hm, hm⟩

theorem Rule.Members.withRemarks {α : Type} {R : Rule α} {source : List Char}
    {ls rest : List Lexeme} {as : List α} {ds : List Diagnostic}
    (h : Members R source ls as ds rest) :
    ∃ ps, ps.map Prod.fst = as ∧ Members R.withRemarks source ls ps ds rest := by
  induction h with
  | nil ls => exact ⟨[], rfl, .nil ls⟩
  | semicolon others ih =>
      obtain ⟨ps, hps, h⟩ := ih
      exact ⟨ps, hps, .semicolon h⟩
  | @member ls mid rest a as ds₁ ds₂ first others ih =>
      obtain ⟨ps, rfl, h⟩ := ih
      exact ⟨(a, ds₁) :: ps, rfl, .member ⟨first, rfl⟩ h⟩

namespace Parser

namespace Draft

/-- A draft with one more statement, and what there is to report. -/
def enter (draft : Draft) (p : Statement × List Diagnostic) : Draft × List Diagnostic :=
  (⟨(draft.file.place draft.first p.1).1, false⟩, p.2 ++ (draft.file.place draft.first p.1).2)

/-- A draft with more statements, and what there is to report. -/
def enterAll (draft : Draft) : List (Statement × List Diagnostic) → Draft × List Diagnostic
  | [] => (draft, [])
  | p :: ps =>
    (((draft.enter p).1.enterAll ps).1, (draft.enter p).2 ++ ((draft.enter p).1.enterAll ps).2)

/-- Before the first statement. -/
def start : Draft := ⟨.empty, true⟩

/-- After an error. -/
def resumed (draft : Draft) : Draft := { draft with first := false }

variable {draft draft' : Draft} {p p' : Statement × List Diagnostic}

theorem enterAll_append (ps qs : List (Statement × List Diagnostic)) :
    ∀ draft : Draft, draft.enterAll (ps ++ qs) =
      (((draft.enterAll ps).1.enterAll qs).1,
        (draft.enterAll ps).2 ++ ((draft.enterAll ps).1.enterAll qs).2) := by
  induction ps with
  | nil => exact fun draft => rfl
  | cons p ps ih =>
      intro draft
      rw [List.cons_append, enterAll, ih, enterAll, List.append_assoc]

theorem enter_alike (hsketch : draft'.file.sketch = draft.file.sketch)
    (hp : Statement.gist p' = Statement.gist p)
    (hfirst : draft'.first = draft.first ∨ p.1.isDialect = false) :
    (draft'.enter p').1.file.sketch = (draft.enter p).1.file.sketch ∧
      Rule.SameMessages (draft.enter p).2 (draft'.enter p').2 := by
  obtain ⟨hst, hds⟩ := Prod.mk.inj hp
  have hplace : draft'.file.sketch.place draft'.first p'.1.bare =
      draft.file.sketch.place draft.first p.1.bare := by
    rw [hsketch, hst]
    rcases hfirst with hfirst | hdialect
    · rw [hfirst]
    · exact File.place_first _ (by rw [Statement.isDialect_bare, hdialect]) _ _
  obtain ⟨hfile, hremarks⟩ := draft.file.sketch_place draft.first p.1
  obtain ⟨hfile', hremarks'⟩ := draft'.file.sketch_place draft'.first p'.1
  constructor
  · show (draft'.file.place draft'.first p'.1).1.sketch = (draft.file.place draft.first p.1).1.sketch
    rw [hfile, hfile', hplace]
  · refine Rule.SameMessages.append hds ?_
    rw [Rule.SameMessages, hremarks, hremarks', hplace]

theorem enterAll_alike {ps : List (Statement × List Diagnostic)} :
    ∀ {ps' : List (Statement × List Diagnostic)} (draft draft' : Draft),
      draft'.file.sketch = draft.file.sketch → ps'.map Statement.gist = ps.map Statement.gist →
      (draft'.first = draft.first ∨ ∀ p ∈ ps, p.1.isDialect = false) →
      (draft'.enterAll ps').1.file.sketch = (draft.enterAll ps).1.file.sketch ∧
        Rule.SameMessages (draft.enterAll ps).2 (draft'.enterAll ps').2 := by
  induction ps with
  | nil =>
      intro ps' draft draft' hsketch hps hfirst
      obtain rfl := List.map_eq_nil_iff.mp hps
      exact ⟨hsketch, .refl []⟩
  | cons p ps ih =>
      intro ps' draft draft' hsketch hps hfirst
      obtain ⟨p', ps', rfl, hp, hps⟩ := List.map_eq_cons_iff.mp hps
      obtain ⟨hone, hremarks⟩ := enter_alike hsketch hp
        (hfirst.imp_right fun h => h p List.mem_cons_self)
      obtain ⟨hall, hothers⟩ := ih _ _ hone hps (.inl rfl)
      exact ⟨hall, hremarks.append hothers⟩

end Draft

/-! ### Runs of the loop over statements -/

/-- Statements enter the draft one by one. -/
theorem passes_members (env : Surroundings) {ls rest : List Lexeme}
    {ps : List (Statement × List Diagnostic)} {ds : List Diagnostic}
    (h : Rule.Members Rule.statement.withRemarks env.source ls ps ds rest) :
    ∀ draft : Draft, Clean ls → (∀ d ∈ (draft.enterAll ps).2, d.isFault = false) ∧
      ∀ log, Passes env draft ls log (draft.enterAll ps).1 rest
        ((draft.enterAll ps).2.reverse ++ log) := by
  induction h with
  | nil ls => exact fun draft _ => ⟨fun d hd => absurd hd List.not_mem_nil, .refl draft ls⟩
  | @semicolon ls rest s ps ds others ih =>
      intro draft hc
      obtain ⟨hds, hpasses⟩ := ih draft (hc.of_suffix (List.suffix_cons _ _))
      exact ⟨hds, fun log => (passes_semicolon env draft s ls log).trans (hpasses log)⟩
  | @member ls mid rest p ps ds₁ ds₂ first others ih =>
      intro draft hc
      obtain ⟨hst, rfl⟩ := first
      obtain ⟨hsuf, hds₁, hfirst⟩ := passes_statement env hst hc
      obtain ⟨hds₂, hpasses⟩ := ih (draft.enter p).1 (hc.of_suffix hsuf)
      refine ⟨List.forall_mem_append.mpr ⟨hds₁, hds₂⟩, fun log => ?_⟩
      rw [Draft.enterAll, List.reverse_append, List.append_assoc]
      exact (hfirst log).trans (hpasses _)

/-- An error leaves the file as it is. -/
theorem passes_error (env : Surroundings) (w : Stretch) (hne : w.tokens ≠ []) (hc : Clean w.behind)
    (hnot : w.stop = .semicolon →
      ∀ st ds, ¬ Rule.statement env.source (w.tokens ++ [w.last]) st ds [])
    (draft : Draft) (log : List Diagnostic) :
    ∃ cs, Complaint w.tokens w.last cs ∧
      Passes env draft w.all log draft.resumed w.left (cs.reverse ++ log) := by
  obtain ⟨r, cs, hrun, hat, hlog, hcs⟩ :=
    (declares_statement w.all.length).complains hc (Nat.le_refl _) hnot log
  refine ⟨cs, hcs, .step ?_ (w.length_left_lt hne)⟩
  obtain ⟨t, s, xs, hall, hs, hr⟩ := w.exists_first hne
  have hset : Remainder.settle ⟨w.all, log⟩ = ⟨w.all, log⟩ := (w.clean_all hc).settle log
  have hhead : (Remainder.settle ⟨w.all, log⟩).lexemes = .token t s :: xs := by
    rw [hset, hall]
  rw [nextStatement_statement hhead hs hr, hset, hrun]
  dsimp only
  rw [hat.skipStatement, hlog]
  rfl

/-- A run to the end of the source gives the tree. -/
theorem parseFile_of_passes {source : List Char} {last : Draft} {ds : List Diagnostic}
    (h : Passes ⟨source, false⟩ .start (scan source) [] last [] (ds.reverse ++ [])) :
    parseFile source = .tree last.file ds := by
  rw [parseFile, Parser.file, ← Draft.start, bind_done h.toEnd]
  show ParseResult.tree last.file (ds.reverse ++ []).reverse = _
  rw [List.append_nil, List.reverse_reverse]

variable {source : List Char} {ls : List Lexeme} {ps qs : List (Statement × List Diagnostic)}
  {ds es : List Diagnostic}

/-- A file with statements only. -/
theorem parseFile_members
    (h : Rule.Members Rule.statement.withRemarks source (scan source) ps ds [])
    (hc : Clean (scan source)) :
    parseFile source = .tree (Draft.start.enterAll ps).1.file (Draft.start.enterAll ps).2 :=
  parseFile_of_passes ((passes_members ⟨source, false⟩ h .start hc).2 [])

/-- A file with an error between statements. -/
theorem parseFile_error {w : Stretch}
    (h : Rule.Members Rule.statement.withRemarks source (ls ++ w.all) ps ds w.all)
    (h' : Rule.Members Rule.statement.withRemarks source w.left qs es [])
    (hall : scan source = ls ++ w.all) (hc : Clean (scan source)) (hne : w.tokens ≠ [])
    (hnot : w.stop = .semicolon → ∀ st ds, ¬ Rule.statement source (w.tokens ++ [w.last]) st ds []) :
    (∀ d ∈ (Draft.start.enterAll ps).2 ++ ((Draft.start.enterAll ps).1.resumed.enterAll qs).2,
      d.isFault = false) ∧
    ∃ cs, Complaint w.tokens w.last cs ∧
      parseFile source = .tree ((Draft.start.enterAll ps).1.resumed.enterAll qs).1.file
        ((Draft.start.enterAll ps).2 ++ cs ++
          ((Draft.start.enterAll ps).1.resumed.enterAll qs).2) := by
  have hclean : Clean w.all := hc.of_suffix (hall ▸ List.suffix_append _ _)
  have hbehind : Clean w.behind :=
    hclean.of_suffix ((List.suffix_cons _ _).trans (List.suffix_append _ _))
  obtain ⟨hds, hbefore⟩ := passes_members ⟨source, false⟩ h .start (hall ▸ hc)
  obtain ⟨cs, hcs, herror⟩ := passes_error ⟨source, false⟩ w hne hbehind hnot
    (Draft.start.enterAll ps).1 ((Draft.start.enterAll ps).2.reverse ++ [])
  obtain ⟨hes, hafter⟩ := passes_members ⟨source, false⟩ h' (Draft.start.enterAll ps).1.resumed
    (hclean.of_suffix w.left_suffix)
  refine ⟨List.forall_mem_append.mpr ⟨hds, hes⟩, cs, hcs, parseFile_of_passes ?_⟩
  have hturns := ((hbefore []).trans herror).trans (hafter _)
  rw [hall, List.reverse_append, List.reverse_append, List.append_assoc, List.append_assoc]
  exact hturns

end Parser

/-! ### Files with an error -/

theorem Rule.Recurs.withRemarks {α : Type} {R : Rule α} {source source' : List Char}
    {ls ls' : List Lexeme} {as : List α} (h : R.Recurs source source' ls ls' as) :
    ∃ ps, ps.map Prod.fst = as ∧ R.withRemarks.Recurs source source' ls ls' ps := by
  obtain ⟨⟨ds, hds⟩, hretold⟩ := h
  obtain ⟨ps, hps, hmembers⟩ := hds.withRemarks
  exact ⟨ps, hps, ⟨ds, hmembers⟩, hretold⟩

/--
An error between the statements of a file.  A second file has the statements alone, and none of
those behind the error is about the dialect.  Both have the same tree but for places.
-/
def FilesIsolate : Prop :=
  ∀ (source source' : List Char) (before before' wrong after after' : List Lexeme) (stop : Span)
    (ms ns : List Statement),
    scan source = before ++ (wrong ++ .token (.mark .semicolon) stop :: after) →
    scan source' = before' ++ after' →
    Rule.statement.Recurs source source' before before' ms →
    Rule.statement.Recurs source source' after after' ns →
    (∀ st ∈ ns, st.isDialect = false) →
    Stray wrong →
    (∀ st ds, ¬ Rule.statement source (wrong ++ [.token (.mark .semicolon) stop]) st ds []) →
    ∃ file file' ds ds',
      parseFile source = .tree file ds ∧ parseFile source' = .tree file' ds' ∧
      file.bare = file'.bare ∧ file.dialectSpan.isSome = file'.dialectSpan.isSome ∧
      OneMore wrong (.token (.mark .semicolon) stop) ds ds'

/-- **An error between statements changes nothing about the tree.** -/
theorem filesIsolate : FilesIsolate := by
  intro source source' before before' wrong after after' stop ms ns hscan hscan' hbefore hafter
    hdialect hwrong hnot
  have hretells := (declares_statement 0).retells.withRemarks
  let w : Stretch := ⟨wrong, hwrong.plain, .semicolon, .inl rfl, stop, after⟩
  obtain ⟨ps, -, hps⟩ := hbefore.withRemarks
  obtain ⟨qs, rfl, hqs⟩ := hafter.withRemarks
  obtain ⟨ps₁, ps₂, _, _, h₁, h₂, hb₁, hb₂, -⟩ := hps.derives hretells w.all after'
  obtain ⟨qs₁, qs₂, _, _, h₁', h₂', hb₁', hb₂', -⟩ := hqs.derives hretells [] []
  rw [List.append_nil] at h₁' h₂'
  have hclean : Clean (scan source) := by
    rw [hscan]
    exact hbefore.retold.clean.1.append (w.clean_all hafter.retold.clean.1)
  obtain ⟨hds, cs, hcs, hrun⟩ := parseFile_error h₁ h₁' hscan hclean hwrong.some fun _ => hnot
  have hmembers := h₂.trans h₂'
  rw [← hscan'] at hmembers
  have hrun' := parseFile_members hmembers
    (hscan' ▸ hbefore.retold.clean.2.append hafter.retold.clean.2)
  rw [Draft.enterAll_append] at hrun'
  -- Both drafts have the same sketch up to the error, and go on with the same statements.
  have hothers : ∀ q ∈ qs₁, q.1.isDialect = false := by
    intro q hq
    have hmem : Statement.gist q ∈ qs.map Statement.gist := by
      rw [← show qs₁.map Statement.gist = qs.map Statement.gist from hb₁']
      exact List.mem_map_of_mem hq
    obtain ⟨p, hp, hgist⟩ := List.mem_map.mp hmem
    rw [← Statement.isDialect_of_gist hgist]
    exact hdialect p.1 (List.mem_map_of_mem hp)
  obtain ⟨hsketch, hm⟩ := Draft.enterAll_alike .start .start rfl (hb₂.trans hb₁.symm) (.inl rfl)
  obtain ⟨hsketch', hm'⟩ := Draft.enterAll_alike (Draft.start.enterAll ps₁).1.resumed
    (Draft.start.enterAll ps₂).1 hsketch (hb₂'.trans hb₁'.symm) (.inr hothers)
  obtain ⟨hbare, hchosen⟩ := File.bare_of_sketch hsketch'
  exact ⟨_, _, _, _, hrun, hrun', hbare.symm, hchosen.symm, _, cs, _, _, _, rfl, rfl, hm, hm', hds,
    hcs⟩

/-! ### Bodies and files -/

/--
**Errors stay isolated.**  Tokens that make no member of a body, or no statement of a file, are
complained about once, at one of them or at what ends them.  The members around them, the end of
the body and the rest of the file are what they are without the error.
-/
theorem errors_stay_isolated :
    (∀ k : BodyKind, k.IsolatesBetween ∧ k.IsolatesLast) ∧ FilesIsolate :=
  ⟨fun k => ⟨k.isolatesBetween, k.isolatesLast⟩, filesIsolate⟩

/-- A place for bodies in a text that is one. -/
def Site.ofText (text : String) : Site :=
  ⟨⟨text.toList, false⟩, [], scan text.toList, ⟨0, 1⟩, ⟨text.length - 1, text.length⟩, []⟩

/-- Some lexemes of a text, from one of them on. -/
def lexemesOf (text : String) (start count : Nat) : List Lexeme :=
  ((scan text.toList).drop start).take count

/-- A field without a number. -/
def numberless : String := "{ int32 a = 1; int32 x = ; int32 y = 2; }"

def withoutNumberless : String := "{ int32 a = 1; int32 y = 2; }"

/-- A field without its semicolon. -/
def unended : String := "{ int32 a = 1; int32 x = 1 }"

def withoutUnended : String := "{ int32 a = 1; }"

/-- A word between statements. -/
def strayWord : String := "package a; foo; enum E {}"

def withoutStrayWord : String := "package a; enum E {}"

theorem errors_stay_isolated_fields :
    (∃ as as' ds ds',
      (Site.ofText numberless).parse .message (lexemesOf numberless 1 14) =
        (Site.ofText numberless).closed as ds ∧
      (Site.ofText withoutNumberless).parse .message (lexemesOf withoutNumberless 1 10) =
        (Site.ofText withoutNumberless).closed as' ds' ∧
      as.map MessageMember.bare = as'.map MessageMember.bare ∧
      OneMore (lexemesOf numberless 6 3) (.token (.mark .semicolon) ⟨25, 26⟩) ds ds') ∧
    (∃ as as' ds ds',
      (Site.ofText unended).parse .message (lexemesOf unended 1 9) =
        (Site.ofText unended).closed as ds ∧
      (Site.ofText withoutUnended).parse .message (lexemesOf withoutUnended 1 5) =
        (Site.ofText withoutUnended).closed as' ds' ∧
      as.map MessageMember.bare = as'.map MessageMember.bare ∧
      OneMore (lexemesOf unended 6 4) (.token (.mark .rightBrace) ⟨27, 28⟩) ds ds') ∧
    ∃ file file' ds ds',
      parseFile strayWord.toList = .tree file ds ∧
      parseFile withoutStrayWord.toList = .tree file' ds' ∧
      file.bare = file'.bare ∧ file.dialectSpan.isSome = file'.dialectSpan.isSome ∧
      OneMore (lexemesOf strayWord 3 1) (.token (.mark .semicolon) ⟨14, 15⟩) ds ds' := by
  refine ⟨?_, ?_, ?_⟩
  · -- A field without a number is discarded with its semicolon.
    have hk := BodyKind.declares (scan numberless.toList) .message
    have hbefore : Retold numberless.toList withoutNumberless.toList (lexemesOf numberless 1 5)
        (lexemesOf withoutNumberless 1 5) := by decide +kernel
    have hafter : Retold numberless.toList withoutNumberless.toList (lexemesOf numberless 10 5)
        (lexemesOf withoutNumberless 6 5) := by decide +kernel
    have hls : lexemesOf numberless 1 14 = lexemesOf numberless 1 5 ++ (lexemesOf numberless 6 3 ++
        .token (.mark .semicolon) ⟨25, 26⟩ :: lexemesOf numberless 10 5) := by decide +kernel
    have hls' : lexemesOf withoutNumberless 1 10 =
        lexemesOf withoutNumberless 1 5 ++ lexemesOf withoutNumberless 6 5 := by decide +kernel
    obtain ⟨m, _, hm, -⟩ := hk.exists_recurs hbefore (by decide +kernel) (by decide +kernel)
    obtain ⟨n, _, hn, -⟩ := hk.exists_recurs hafter (by decide +kernel) (by decide +kernel)
    obtain ⟨as, as', ds, ds', hrun, hrun', hb, hb', hmore⟩ :=
      (errors_stay_isolated.1 .message).1 (.ofText numberless) (.ofText withoutNumberless)
        _ _ (lexemesOf numberless 6 3) _ _ ⟨25, 26⟩ _ _ hm hn ⟨by decide +kernel, by decide +kernel⟩
        (hk.not_derives (by decide +kernel) (by decide +kernel) (by decide +kernel))
        ⟨by decide +kernel, by decide +kernel⟩ ⟨by decide +kernel, by decide +kernel⟩
    rw [hls, hls']
    exact ⟨as, as', ds, ds', hrun, hrun', hb.trans hb'.symm, hmore⟩
  · -- A field without a semicolon is discarded up to the closing brace, which is left.
    have hk := BodyKind.declares (scan unended.toList) .message
    have hbefore : Retold unended.toList withoutUnended.toList (lexemesOf unended 1 5)
        (lexemesOf withoutUnended 1 5) := by decide +kernel
    have hls : lexemesOf unended 1 9 = lexemesOf unended 1 5 ++ lexemesOf unended 6 4 := by
      decide +kernel
    obtain ⟨m, _, hm, -⟩ := hk.exists_recurs hbefore (by decide +kernel) (by decide +kernel)
    obtain ⟨as, as', ds, ds', hrun, hrun', hb, hb', hmore⟩ :=
      (errors_stay_isolated.1 .message).2 (.ofText unended) (.ofText withoutUnended) _ _
        (lexemesOf unended 6 4) _ hm ⟨by decide +kernel, by decide +kernel⟩
        ⟨by decide +kernel, by decide +kernel⟩ ⟨by decide +kernel, by decide +kernel⟩
    rw [hls]
    exact ⟨as, as', ds, ds', hrun, hrun', hb.trans hb'.symm, hmore⟩
  · -- A stray word is discarded with the semicolon behind it.
    have hk := declares_statement 10
    have hbefore : Retold strayWord.toList withoutStrayWord.toList (lexemesOf strayWord 0 3)
        (lexemesOf withoutStrayWord 0 3) := by decide +kernel
    have hafter : Retold strayWord.toList withoutStrayWord.toList (lexemesOf strayWord 5 4)
        (lexemesOf withoutStrayWord 3 4) := by decide +kernel
    have hkind : ((statement ⟨strayWord.toList, false⟩ ⟨lexemesOf strayWord 5 4, []⟩).casesOn
        (fun st _ => st.isDialect) (fun _ _ => false) : Bool) = false := by decide +kernel
    obtain ⟨m, _, hm, -⟩ := hk.exists_recurs hbefore (by decide +kernel) (by decide +kernel)
    obtain ⟨n, _, hn, hrun⟩ := hk.exists_recurs hafter (by decide +kernel) (by decide +kernel)
    rw [hrun] at hkind
    obtain ⟨file, file', ds, ds', hparse, hparse', hb, hd, hmore⟩ :=
      errors_stay_isolated.2 strayWord.toList withoutStrayWord.toList _ _ (lexemesOf strayWord 3 1)
        _ _ ⟨14, 15⟩ _ _ (by decide +kernel) (by decide +kernel) hm hn
        (List.forall_mem_singleton.mpr hkind) ⟨by decide +kernel, by decide +kernel⟩
        (hk.not_derives (by decide +kernel) (by decide +kernel) (by decide +kernel))
    exact ⟨file, file', ds, ds', hparse, hparse', hb, hd, hmore⟩

end ProtoSchema
