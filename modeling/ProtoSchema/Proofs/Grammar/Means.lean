/-
What a parser means.

A parser means a rule if the two agree on every source without lexical errors: what the
parser takes without complaint the rule derives, with the same value and remarks, and what
the rule derives the parser takes.  The second half needs to know what comes behind.  A
parser looks one token ahead, and a name or a list that could go on does go on, so
`Means F p R` asks the parser for it only where the next token is in the follow set `F`.

Follow sets are discharged where two parts meet.  `Opens F G R` says that a part which `R`
derives starts with a token in `F`, provided a token in `G` comes behind; so a part that
must be followed by `F` may stand in front of it.
-/
import ProtoSchema.Proofs.Grammar.Rule
import ProtoSchema.Proofs.Parsing.Orderly

namespace ProtoSchema

/-- Whether a diagnostic says that the tokens are outside the grammar. -/
def Diagnostic.isFault : Diagnostic → Bool
  | unexpectedToken .. | unexpectedEof .. | unterminatedBody .. => true
  | _ => false

/-- Lexemes that are tokens only, without notes and illegal characters. -/
def Clean (ls : List Lexeme) : Prop := ∀ l ∈ ls, ∃ t s, l = .token t s

/-- Whether a lexeme is a token. -/
def Lexeme.isToken : Lexeme → Bool
  | token .. => true
  | _ => false

section Clean

variable {ls mid : List Lexeme}

theorem clean_iff : Clean ls ↔ ∀ l ∈ ls, l.isToken = true := by
  refine forall_congr' fun l => imp_congr_right fun _ => ⟨?_, fun h => ?_⟩
  · rintro ⟨t, s, rfl⟩
    rfl
  · cases l with
    | token t s => exact ⟨t, s, rfl⟩
    | illegal c s => cases h
    | note d => cases h

instance : Decidable (Clean ls) := decidable_of_iff _ clean_iff.symm

theorem Clean.of_suffix (h : Clean ls) (hs : mid <:+ ls) : Clean mid :=
  fun l hl => h l (hs.subset hl)

theorem Clean.append (h : Clean ls) (h' : Clean mid) : Clean (ls ++ mid) :=
  List.forall_mem_append.mpr ⟨h, h'⟩

theorem Clean.token (h : Clean ls) (t : Token) (s : Span) : Clean (.token t s :: ls) :=
  List.forall_mem_cons.mpr ⟨⟨t, s, rfl⟩, h⟩

/-- Nothing has to be moved out of the way. -/
theorem Clean.settle (h : Clean ls) (log : List Diagnostic) :
    Remainder.settle ⟨ls, log⟩ = ⟨ls, log⟩ := by
  cases ls with
  | nil => rfl
  | cons l ls =>
      obtain ⟨t, s, rfl⟩ := h l List.mem_cons_self
      rfl

theorem Clean.next? (h : Clean ls) (log : List Diagnostic) :
    Remainder.next? ⟨ls, log⟩ = nextToken? ls := by
  rw [Remainder.next?, h.settle]
  cases ls with
  | nil => rfl
  | cons l ls =>
      obtain ⟨t, s, rfl⟩ := h l List.mem_cons_self
      rfl

theorem Clean.keyword? (h : Clean ls) (log : List Diagnostic) :
    Remainder.keyword? ⟨ls, log⟩ = nextKeyword? ls := by
  rw [Remainder.keyword?, h.next?]
  rfl

end Clean

/-! ### Follow sets -/

/-- The tokens, or the end of the source, that may come next. -/
abbrev Follow : Type := Option Token → Prop

/-- Whatever comes next. -/
def anything : Follow := fun _ => True

/-- No token of a certain form. -/
def lacking {α : Type} (form : Token → Span → Option α) : Follow := fun t? =>
  ∀ t s, t? = some t → form t s = none

/-- A token of a certain class. -/
def among (P : Token → Bool) : Follow := fun t? => t?.any P = true

theorem lacking_some {α : Type} {form : Token → Span → Option α} {t : Token}
    (h : ∀ s, form t s = none) : lacking form (some t) := by
  rintro t' s ht
  cases ht
  exact h s

namespace Rule

variable {α β : Type} {F G H : Follow}

/-- What the rule derives starts in `F`, provided that something in `G` comes behind. -/
def Opens (F G : Follow) (R : Rule α) : Prop :=
  ∀ source ls a ds rest, R source ls a ds rest → G (nextToken? rest) → F (nextToken? ls)

namespace Opens

theorem anything (R : Rule α) : Opens anything G R := fun _ _ _ _ _ _ _ => trivial

theorem pure (a : α) (hFG : ∀ t?, G t? → F t?) : Opens F G (Pure.pure a : Rule α) := by
  rintro source ls b ds rest ⟨-, -, rfl⟩ hG
  exact hFG _ hG

theorem bind {R : Rule α} {S : α → Rule β} (hR : Opens F H R) (hS : ∀ a, Opens H G (S a)) :
    Opens F G (R >>= S) := by
  rintro source ls b ds rest ⟨a, ds₁, mid, ds₂, hr, hs, -⟩ hG
  exact hR _ _ _ _ _ hr (hS a _ _ _ _ _ hs hG)

theorem remark (d : Diagnostic) : Opens F F (remark d) := by
  rintro source ls b ds rest ⟨-, rfl⟩ hF
  exact hF

/-- Where a part starts regardless of what comes behind, a sequence starts there. -/
theorem first {R : Rule α} {S : α → Rule β} (hR : Opens F ProtoSchema.anything R) :
    Opens F G (R >>= S) :=
  hR.bind fun a => anything (S a)

theorem map {R : Rule α} (f : α → β) (hR : Opens F G R) : Opens F G (f <$> R) :=
  hR.bind fun a => pure (f a) fun _ h => h

theorem orElse {R S : Rule α} (hR : Opens F G R) (hS : Opens F G S) : Opens F G (R <|> S) := by
  rintro source ls a ds rest (hr | hs) hG
  · exact hR _ _ _ _ _ hr hG
  · exact hS _ _ _ _ _ hs hG

theorem optional {R : Rule α} {S : Option α → Rule β} (hR : Opens F ProtoSchema.anything R)
    (hS : Opens F G (S none)) : Opens F G (optional R >>= S) := by
  rintro source ls b ds rest ⟨o, ds₁, mid, ds₂, ho | ⟨rfl, -, rfl⟩, hs, -⟩ hG
  · exact (hR.map some) _ _ _ _ _ ho trivial
  · exact hS _ _ _ _ _ hs hG

theorem token {form : Token → Span → Option α} (h : ∀ t s a, form t s = some a → F (some t)) :
    Opens F G (token form) := by
  rintro source ls a ds rest ⟨t, s, rfl, hf, -⟩ -
  exact h t s a hf

/-- With a token that is taken wherever it stands, or with what comes without it. -/
theorem token? {form : Token → Span → Option α} {S : Option α → Rule β}
    (h : ∀ t s a, form t s = some a → F (some t)) (hS : Opens F G (S none)) :
    Opens F G (token? form >>= S) := by
  rintro source ls b ds rest ⟨o, ds₁, mid, ds₂, ho | ⟨_, _, _, _, ⟨-, -, rfl⟩, ⟨rfl, -, rfl⟩, -⟩, hs, -⟩ hG
  · exact (map some (token (G := ProtoSchema.anything) h)) _ _ _ _ _ ho trivial
  · exact hS _ _ _ _ _ hs hG

theorem mark {p : Punctuation} (h : F (some (.mark p))) : Opens F G (mark p) := by
  refine token fun t s a ht => ?_
  split at ht
  · rename_i heq
    rw [heq]
    exact h
  · cases ht

theorem keyword {k : Keyword} (h : F (some (.ident k.text))) : Opens F G (keyword k) := by
  refine token fun t s a ht => ?_
  split at ht
  · rename_i heq
    rw [heq]
    exact h
  · cases ht

theorem mono {R : Rule α} (hR : Opens F G R) (h : ∀ t?, F t? → H t?) : Opens H G R :=
  fun source ls a ds rest hr hG => h _ (hR source ls a ds rest hr hG)

/-- A rule that starts in a class does not start elsewhere. -/
theorem excludes {R : Rule α} {P : Token → Bool} {t? : Option Token} (hR : Opens (among P) G R)
    (ht : t?.any P = false) : Opens (· ≠ t?) G R := by
  refine hR.mono fun u? hu heq => ?_
  rw [heq, among, ht] at hu
  cases hu

/-- A rule that starts in a class starts with no token of a form outside it. -/
theorem lacks {R : Rule α} {P : Token → Bool} {form : Token → Span → Option β}
    (hR : Opens (among P) G R) (h : ∀ t s, P t = true → form t s = none) :
    Opens (lacking form) G R := by
  refine hR.mono fun u? hu t s heq => ?_
  rw [heq] at hu
  exact h t s hu

/-- With a word that decides, or with what comes without one. -/
theorem switch {table : List (Keyword × Rule α)} {other : Rule α}
    (hF : ∀ word, F (some (.ident word))) (hother : Opens F G other) :
    Opens F G (switch table other) := by
  rintro source ls a ds rest (⟨k, R, -, hk, -⟩ | ⟨-, hr⟩) hG
  · unfold nextKeyword? at hk
    split at hk
    · rename_i word heq
      rw [heq]
      exact hF word
    · cases hk
  · exact hother _ _ _ _ _ hr hG

end Opens

end Rule

namespace Parser

open Rule (Opens)

variable {α β : Type} {F G H : Follow}

/-- What a parser takes without complaint a rule derives. -/
def Sound (p : Parser α) (R : Rule α) : Prop :=
  ∀ env ls log a r, Clean ls → p env ⟨ls, log⟩ = .done a r →
    ∃ ds, r.log = ds.reverse ++ log ∧ r.lexemes <:+ ls ∧
      ((∀ d ∈ ds, d.isFault = false) → R env.source ls a ds r.lexemes)

/-- What a rule derives a parser takes, if something in `F` comes behind. -/
def Complete (F : Follow) (p : Parser α) (R : Rule α) : Prop :=
  ∀ env ls log a ds rest, Clean ls → R env.source ls a ds rest →
    F (nextToken? rest) → rest <:+ ls ∧ (∀ d ∈ ds, d.isFault = false) ∧
      p env ⟨ls, log⟩ = .done a ⟨rest, ds.reverse ++ log⟩

/-- A parser does what a rule says, if something in `F` comes behind. -/
structure Means (F : Follow) (p : Parser α) (R : Rule α) : Prop where
  sound : Sound p R
  complete : Complete F p R

theorem unexpected_ne_done (e : Expectation) (env : Surroundings) (r r' : Remainder) (a : α) :
    (unexpected e : Parser α) env r ≠ .done a r' := by
  intro hrun
  unfold unexpected at hrun
  dsimp only at hrun
  split at hrun
  · cases hrun
  · split at hrun <;> cases hrun

/-! ### Sequences -/

theorem Sound.bind {p : Parser α} {f : α → Parser β} {R : Rule α} {S : α → Rule β}
    (hp : Sound p R) (hf : ∀ a, Sound (f a) (S a)) : Sound (p >>= f) (R >>= S) := by
  intro env ls log b r hc h
  rw [bind_run] at h
  cases hrun : p env ⟨ls, log⟩ with
  | halted reason mid =>
      rw [hrun] at h
      cases h
  | done a mid =>
      rw [hrun] at h
      obtain ⟨ds₁, hlog, hsuf, hR⟩ := hp env ls log a mid hc hrun
      obtain ⟨ds₂, hlog', hsuf', hR'⟩ :=
        hf a env mid.lexemes mid.log b r (hc.of_suffix hsuf) h
      refine ⟨ds₁ ++ ds₂, ?_, hsuf'.trans hsuf, fun hds => ?_⟩
      · rw [hlog', hlog, List.reverse_append, List.append_assoc]
      · exact ⟨a, ds₁, mid.lexemes, ds₂, hR fun d hd => hds d (List.mem_append_left _ hd),
          hR' fun d hd => hds d (List.mem_append_right _ hd), rfl⟩

namespace Means

theorem pure (a : α) : Means F (Pure.pure a) (Pure.pure a) where
  sound := by
    intro env ls log b r _ h
    cases h
    exact ⟨[], rfl, List.suffix_refl ls, fun _ => ⟨rfl, rfl, rfl⟩⟩
  complete := by
    rintro env ls log b ds rest _ ⟨rfl, rfl, rfl⟩ _
    exact ⟨List.suffix_refl _, by simp, rfl⟩

theorem bind {p : Parser α} {f : α → Parser β} {R : Rule α} {S : α → Rule β}
    (hp : Means F p R) (hf : ∀ a, Means G (f a) (S a)) (hS : ∀ a, Opens F G (S a)) :
    Means G (p >>= f) (R >>= S) where
  sound := hp.sound.bind fun a => (hf a).sound
  complete := by
    rintro env ls log b ds rest hc ⟨a, ds₁, mid, ds₂, hr, hs, rfl⟩ hG
    have hF := hS a _ _ _ _ _ hs hG
    obtain ⟨hsuf, hds, hrun⟩ := hp.complete env ls log a ds₁ mid hc hr hF
    obtain ⟨hsuf', hds', hrun'⟩ :=
      (hf a).complete env mid (ds₁.reverse ++ log) b ds₂ rest (hc.of_suffix hsuf) hs hG
    refine ⟨hsuf'.trans hsuf, fun d hd => ?_, ?_⟩
    · rcases List.mem_append.mp hd with hd | hd
      · exact hds d hd
      · exact hds' d hd
    · rw [bind_done hrun, hrun', List.reverse_append, List.append_assoc]

/-- A part that may stand before anything. -/
theorem seq {p : Parser α} {f : α → Parser β} {R : Rule α} {S : α → Rule β}
    (hp : Means anything p R) (hf : ∀ a, Means G (f a) (S a)) : Means G (p >>= f) (R >>= S) :=
  hp.bind hf fun a => .anything (S a)

theorem map {p : Parser α} {R : Rule α} (f : α → β) (hp : Means F p R) :
    Means F (f <$> p) (f <$> R) :=
  hp.bind (fun a => pure (f a)) fun a => .pure (f a) fun _ h => h

/-- A parser means whatever its rule amounts to where the follow set is respected. -/
theorem recast {p : Parser α} {R S : Rule α} (hp : Means F p R)
    (hRS : ∀ source ls a ds rest, R source ls a ds rest → S source ls a ds rest)
    (hSR : ∀ source ls a ds rest, S source ls a ds rest → F (nextToken? rest) →
      R source ls a ds rest) : Means F p S where
  sound := by
    intro env ls log a r hc hrun
    obtain ⟨ds, hlog, hsuf, hR⟩ := hp.sound env ls log a r hc hrun
    exact ⟨ds, hlog, hsuf, fun hds => hRS _ _ _ _ _ (hR hds)⟩
  complete := by
    intro env ls log a ds rest hc hs hF
    exact hp.complete env ls log a ds rest hc (hSR _ _ _ _ _ hs hF) hF

theorem congr {p : Parser α} {R S : Rule α} (hp : Means F p R)
    (h : ∀ source ls a ds rest, R source ls a ds rest ↔ S source ls a ds rest) : Means F p S :=
  hp.recast (fun _ _ _ _ _ => (h _ _ _ _ _).mp) fun _ _ _ _ _ hs _ => (h _ _ _ _ _).mpr hs

/-! ### Single steps -/

theorem halt (h : Halt) : Means F (halt h : Parser α) Rule.fail where
  sound := by
    intro env ls log a r _ hrun
    cases hrun
  complete := by
    rintro env ls log a ds rest _ ⟨⟩

theorem unexpected (e : Expectation) : Means F (unexpected e : Parser α) Rule.fail where
  sound := fun _ _ _ _ _ _ hrun => absurd hrun (unexpected_ne_done e _ _ _ _)
  complete := by
    rintro env ls log a ds rest _ ⟨⟩

theorem report {d : Diagnostic} (hd : d.isFault = false) :
    Means F (report d) (Rule.remark d) where
  sound := by
    intro env ls log a r _ hrun
    cases hrun
    exact ⟨[d], rfl, List.suffix_refl ls, fun _ => ⟨rfl, rfl⟩⟩
  complete := by
    rintro env ls log a ds rest _ ⟨rfl, rfl⟩ _
    refine ⟨List.suffix_refl rest, fun d' hd' => ?_, rfl⟩
    obtain rfl := List.mem_singleton.mp hd'
    exact hd

theorem accept? (form : Token → Span → Option α) :
    Means F (accept? form) (Rule.token? form) where
  sound := by
    intro env ls log a r hc hrun
    cases ls with
    | nil =>
        cases hrun
        exact ⟨[], rfl, List.suffix_refl [], fun _ => Or.inr
          ⟨(), [], [], [], ⟨by simp, rfl, rfl⟩, ⟨rfl, rfl, rfl⟩, rfl⟩⟩
    | cons l ls =>
        obtain ⟨t, s, rfl⟩ := hc l List.mem_cons_self
        cases hf : form t s with
        | none =>
            rw [accept?_run_none env rfl hf] at hrun
            cases hrun
            refine ⟨[], rfl, List.suffix_refl _, fun _ => Or.inr
              ⟨(), [], _, [], ⟨?_, rfl, rfl⟩, ⟨rfl, rfl, rfl⟩, rfl⟩⟩
            rintro t' s' heq
            cases heq
            exact hf
        | some b =>
            rw [accept?_run_some env rfl hf] at hrun
            cases hrun
            exact ⟨[], rfl, List.suffix_cons _ _, fun _ => Or.inl
              ⟨b, [], ls, [], ⟨t, s, rfl, hf, rfl⟩, ⟨rfl, rfl, rfl⟩, rfl⟩⟩
  complete := by
    rintro env ls log a ds rest hc (⟨b, _, _, _, ⟨t, s, rfl, hf, rfl⟩, ⟨rfl, rfl, rfl⟩, rfl⟩ |
      ⟨_, _, _, _, ⟨hlacks, rfl, rfl⟩, ⟨rfl, rfl, rfl⟩, rfl⟩) _
    · exact ⟨List.suffix_cons _ _, by simp, accept?_run_some env rfl hf⟩
    · refine ⟨List.suffix_refl _, by simp, ?_⟩
      cases rest with
      | nil => rfl
      | cons l ls =>
          obtain ⟨t, s, rfl⟩ := hc l List.mem_cons_self
          exact accept?_run_none env rfl (hlacks t s rfl)

theorem require (e : Expectation) (form : Token → Span → Option α) :
    Means F (require e form) (Rule.token form) := by
  have h : Means F (Parser.require e form)
      (Rule.token? form >>= fun found => found.elim Rule.fail Pure.pure) := by
    refine (accept? form).seq fun found => ?_
    cases found with
    | some a => exact pure a
    | none => exact unexpected e
  refine h.congr fun source ls a ds rest => ⟨?_, fun hR => ?_⟩
  · rintro ⟨o, _, _, _, ⟨b, _, _, _, htoken, ⟨rfl, rfl, rfl⟩, rfl⟩ |
      ⟨_, _, _, _, _, ⟨rfl, rfl, rfl⟩, rfl⟩, hrest, rfl⟩
    · obtain ⟨rfl, rfl, rfl⟩ := hrest
      simpa using htoken
    · cases hrest
  · refine ⟨some a, ds, rest, [], Or.inl ⟨a, ds, rest, [], hR, ⟨rfl, rfl, rfl⟩, ?_⟩,
      ⟨rfl, rfl, rfl⟩, ?_⟩
    · rw [List.append_nil]
    · rw [List.append_nil]

theorem expectMark (p : Punctuation) : Means F (expectMark p) (Rule.mark p) := by
  rw [expectMark_eq]
  exact require _ _

theorem expectKeyword (k : Keyword) : Means F (expectKeyword k) (Rule.keyword k) := by
  rw [expectKeyword_eq]
  exact require _ _

end Means

end Parser

end ProtoSchema
