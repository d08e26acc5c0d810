/-
Choices.

A parser chooses by the next token, and a rule does not choose at all: it derives what any
of its alternatives derives.  The two agree where the alternatives open differently, so that
the next token excludes all but one of them.
-/
import ProtoSchema.Proofs.Grammar.Means

namespace ProtoSchema

namespace Rule

variable {α β : Type} {R : Rule α} {S : Option α → Rule β} {source : List Char}
  {ls rest : List Lexeme} {b : β} {ds : List Diagnostic}

/-- A part that may be missing gives two ways to go on. -/
theorem optional_bind_iff :
    (optional R >>= S) source ls b ds rest ↔
      ((R >>= fun a => S (some a)) <|> S none) source ls b ds rest := by
  constructor
  · rintro ⟨o, ds₁, mid, ds₂, ⟨a, ds₃, mid', ds₄, hr, ⟨rfl, rfl, rfl⟩, rfl⟩ | ⟨rfl, rfl, rfl⟩, hs, rfl⟩
    · exact Or.inl ⟨a, ds₃, mid, ds₂, hr, hs, by rw [List.append_nil]⟩
    · exact Or.inr hs
  · rintro (⟨a, ds₁, mid, ds₂, hr, hs, rfl⟩ | hs)
    · exact ⟨some a, ds₁, mid, ds₂,
        Or.inl ⟨a, ds₁, mid, [], hr, ⟨rfl, rfl, rfl⟩, (List.append_nil _).symm⟩, hs, rfl⟩
    · exact ⟨none, [], ls, ds, Or.inr ⟨rfl, rfl, rfl⟩, hs, rfl⟩

/-- What follows one of two rules follows each of them. -/
theorem orElse_bind_iff {α : Type} {A B : Rule α} {K : α → Rule β} :
    ((A <|> B) >>= K) source ls b ds rest ↔
      ((A >>= K) <|> (B >>= K)) source ls b ds rest := by
  constructor
  · rintro ⟨a, ds₁, mid, ds₂, h | h, hk, rfl⟩
    · exact Or.inl ⟨a, ds₁, mid, ds₂, h, hk, rfl⟩
    · exact Or.inr ⟨a, ds₁, mid, ds₂, h, hk, rfl⟩
  · rintro (⟨a, ds₁, mid, ds₂, h, hk, rfl⟩ | ⟨a, ds₁, mid, ds₂, h, hk, rfl⟩)
    · exact ⟨a, ds₁, mid, ds₂, Or.inl h, hk, rfl⟩
    · exact ⟨a, ds₁, mid, ds₂, Or.inr h, hk, rfl⟩

/-- A token that is taken wherever it stands gives two ways to go on, of which one is open. -/
theorem token?_bind_iff {form : Token → Span → Option α} :
    (token? form >>= S) source ls b ds rest ↔
      (token form >>= fun a => S (some a)) source ls b ds rest ∨
      (∀ t s, ls.head? = some (.token t s) → form t s = none) ∧ S none source ls b ds rest := by
  constructor
  · rintro ⟨o, ds₁, mid, ds₂, ⟨a, ds₃, mid', ds₄, hr, ⟨rfl, rfl, rfl⟩, rfl⟩ |
      ⟨_, _, _, _, ⟨hlacks, rfl, rfl⟩, ⟨rfl, rfl, rfl⟩, rfl⟩, hs, rfl⟩
    · exact Or.inl ⟨a, ds₃, mid, ds₂, hr, hs, by rw [List.append_nil]⟩
    · exact Or.inr ⟨hlacks, hs⟩
  · rintro (⟨a, ds₁, mid, ds₂, hr, hs, rfl⟩ | ⟨hlacks, hs⟩)
    · exact ⟨some a, ds₁, mid, ds₂,
        Or.inl ⟨a, ds₁, mid, [], hr, ⟨rfl, rfl, rfl⟩, (List.append_nil _).symm⟩, hs, rfl⟩
    · exact ⟨none, [], ls, ds,
        Or.inr ⟨(), [], ls, [], ⟨hlacks, rfl, rfl⟩, ⟨rfl, rfl, rfl⟩, rfl⟩, hs, rfl⟩

end Rule

theorem nextToken?_of_head? {ls : List Lexeme} {t : Token} {s : Span}
    (h : ls.head? = some (.token t s)) : nextToken? ls = some t := by
  cases ls with
  | nil => cases h
  | cons l ls =>
      obtain rfl : l = .token t s := by simpa using h
      rfl

theorem exists_of_nextToken? {ls : List Lexeme} {t : Token} (h : nextToken? ls = some t) :
    ∃ s tail, ls = .token t s :: tail := by
  cases ls with
  | nil => cases h
  | cons l ls =>
      cases l with
      | token t' s =>
          cases h
          exact ⟨s, ls, rfl⟩
      | illegal c s => cases h
      | note d => cases h

namespace Parser.Means

open Rule (Opens)

variable {α β : Type} {F G : Follow}

/-! ### By a token -/

/-- A token that may be missing, if what comes without it cannot be mistaken for it. -/
theorem acceptElse {form : Token → Span → Option α} {f : Option α → Parser β} {S : α → Rule β}
    {T : Rule β} (hsome : ∀ a, Means G (f (some a)) (S a)) (hnone : Means G (f none) T)
    (hT : Opens (lacking form) G T) :
    Means G (Parser.accept? form >>= f) ((Rule.token form >>= S) <|> T) := by
  have h : Means G (Parser.accept? form >>= f)
      (Rule.token? form >>= fun found => found.elim T S) := by
    refine (accept? form).seq fun found => ?_
    cases found with
    | some a => exact hsome a
    | none => exact hnone
  refine h.recast (fun source ls a ds rest hR => ?_) fun source ls a ds rest hR hG => ?_
  · rcases Rule.token?_bind_iff.mp hR with hR | ⟨-, hR⟩
    · exact Or.inl hR
    · exact Or.inr hR
  · rcases hR with hR | hR
    · exact Rule.token?_bind_iff.mpr (Or.inl hR)
    · refine Rule.token?_bind_iff.mpr (Or.inr ⟨fun t s hhead => ?_, hR⟩)
      exact hT _ _ _ _ _ hR hG t s (nextToken?_of_head? hhead)

/-- A token that must be there. -/
theorem acceptOrFail {form : Token → Span → Option α} {f : Option α → Parser β}
    {S : α → Rule β} (hsome : ∀ a, Means G (f (some a)) (S a))
    (hnone : Means G (f none) Rule.fail) :
    Means G (Parser.accept? form >>= f) (Rule.token form >>= S) := by
  refine (acceptElse hsome hnone ?_).congr fun source ls a ds rest => ⟨?_, Or.inl⟩
  · rintro source ls a ds rest ⟨⟩
  · rintro (h | h)
    · exact h
    · cases h

theorem optionalToken {form : Token → Span → Option α} {f : Option α → Parser β}
    {S : Option α → Rule β} (hf : ∀ o, Means G (f o) (S o))
    (hS : Opens (lacking form) G (S none)) :
    Means G (Parser.accept? form >>= f) (Rule.optional (Rule.token form) >>= S) :=
  (acceptElse (fun a => hf (some a)) (hf none) hS).congr fun _ _ _ _ _ =>
    Rule.optional_bind_iff.symm

/-- A parser does what a rule says where a certain token comes next. -/
def Branch (G : Follow) (t? : Option Token) (p : Parser α) (R : Rule α) : Prop :=
  ∃ S, Means G p S ∧ ∀ source ls a ds rest, nextToken? ls = t? →
    (S source ls a ds rest → R source ls a ds rest) ∧
    (R source ls a ds rest → G (nextToken? rest) → S source ls a ds rest)

/-- What the next token decides. -/
theorem peek {f : Option Token → Parser α} {R : Rule α} (h : ∀ t?, Branch G t? (f t?) R) :
    Means G (peek >>= f) R where
  sound := by
    intro env ls log a r hc hrun
    rw [bind_done (peek_run env _), hc.settle, hc.next?] at hrun
    obtain ⟨S, hS, hSR⟩ := h (nextToken? ls)
    obtain ⟨ds, hlog, hsuf, hR⟩ := hS.sound env ls log a r hc hrun
    exact ⟨ds, hlog, hsuf, fun hds => (hSR _ _ _ _ _ rfl).1 (hR hds)⟩
  complete := by
    intro env ls log a ds rest hc hR hG
    obtain ⟨S, hS, hSR⟩ := h (nextToken? ls)
    rw [bind_done (peek_run env _), hc.settle, hc.next?]
    exact hS.complete env ls log a ds rest hc ((hSR _ _ _ _ _ rfl).2 hR hG) hG

namespace Branch

variable {p : Parser α} {R S : Rule α} {t? : Option Token}

/-- The parser does what the rule says with any token. -/
theorem always (hp : Means G p R) : Branch G t? p R :=
  ⟨R, hp, fun _ _ _ _ _ _ => ⟨id, fun h _ => h⟩⟩

/-- The rule derives nothing from the token. -/
theorem never (hp : Means G p Rule.fail) (hR : Opens (· ≠ t?) G R) : Branch G t? p R :=
  ⟨Rule.fail, hp, fun _ _ _ _ _ ht => ⟨False.elim, fun h hG => hR _ _ _ _ _ h hG ht⟩⟩

/-- The token excludes the second alternative. -/
theorem left (hp : Branch G t? p R) (hS : Opens (· ≠ t?) G S) : Branch G t? p (R <|> S) := by
  obtain ⟨T, hT, h⟩ := hp
  refine ⟨T, hT, fun source ls a ds rest ht => ⟨fun hr => Or.inl ((h _ _ _ _ _ ht).1 hr), ?_⟩⟩
  rintro (hr | hr) hG
  · exact (h _ _ _ _ _ ht).2 hr hG
  · exact absurd ht (hS _ _ _ _ _ hr hG)

/-- The token excludes the first alternative. -/
theorem right (hR : Opens (· ≠ t?) G R) (hp : Branch G t? p S) : Branch G t? p (R <|> S) := by
  obtain ⟨T, hT, h⟩ := hp
  refine ⟨T, hT, fun source ls a ds rest ht => ⟨fun hr => Or.inr ((h _ _ _ _ _ ht).1 hr), ?_⟩⟩
  rintro (hr | hr) hG
  · exact absurd ht (hR _ _ _ _ _ hr hG)
  · exact (h _ _ _ _ _ ht).2 hr hG

/-- A token that is there is taken. -/
theorem accept {form : Token → Span → Option β} {f : Option β → Parser α} {S : β → Rule α}
    {T : Rule α} {t : Token} (hsome : ∀ b, Means G (f (some b)) (S b))
    (hnone : Means G (f none) T) (ht : ∀ s, (form t s).isSome = true) :
    Branch G (some t) (Parser.accept? form >>= f) (Rule.token form >>= S) := by
  have h : Means G (Parser.accept? form >>= f)
      (Rule.token? form >>= fun found => found.elim T S) := by
    refine (accept? form).seq fun found => ?_
    cases found with
    | some a => exact hsome a
    | none => exact hnone
  refine ⟨_, h, fun source ls a ds rest hls => ⟨fun hr => ?_, fun hr _ => ?_⟩⟩
  · rcases Rule.token?_bind_iff.mp hr with hr | ⟨hlacks, -⟩
    · exact hr
    · obtain ⟨s, tail, rfl⟩ := exists_of_nextToken? hls
      have hs := ht s
      rw [hlacks t s rfl] at hs
      cases hs
  · exact Rule.token?_bind_iff.mpr (Or.inl hr)

end Branch

/-! ### By a keyword -/

/-- What the next word decides. -/
theorem switch {f : Option Keyword → Parser α} {table : List (Keyword × Rule α)} {other : Rule α}
    (hcase : ∀ k R, (k, R) ∈ table → Means G (f (some k)) R)
    (hother : ∀ k?, (∀ k, k? = some k → k ∉ table.map Prod.fst) → Means G (f k?) other) :
    Means G (peekKeyword >>= f) (Rule.switch table other) where
  sound := by
    intro env ls log a r hc hrun
    rw [bind_done (peekKeyword_run env _), hc.settle, hc.keyword?] at hrun
    by_cases hk : ∃ k R, (k, R) ∈ table ∧ nextKeyword? ls = some k
    · obtain ⟨k, R, hmem, hk⟩ := hk
      rw [hk] at hrun
      obtain ⟨ds, hlog, hsuf, hR⟩ := (hcase k R hmem).sound env ls log a r hc hrun
      exact ⟨ds, hlog, hsuf, fun hds => Or.inl ⟨k, R, hmem, hk, hR hds⟩⟩
    · have hnone : ∀ k, nextKeyword? ls = some k → k ∉ table.map Prod.fst := by
        intro k hnext hmem
        obtain ⟨⟨k', R⟩, hR, rfl⟩ := List.mem_map.mp hmem
        exact hk ⟨k', R, hR, hnext⟩
      obtain ⟨ds, hlog, hsuf, hR⟩ := (hother _ hnone).sound env ls log a r hc hrun
      exact ⟨ds, hlog, hsuf, fun hds => Or.inr ⟨hnone, hR hds⟩⟩
  complete := by
    rintro env ls log a ds rest hc (⟨k, R, hmem, hk, hR⟩ | ⟨hnone, hR⟩) hG
    · rw [bind_done (peekKeyword_run env _), hc.settle, hc.keyword?, hk]
      exact (hcase k R hmem).complete env ls log a ds rest hc hR hG
    · rw [bind_done (peekKeyword_run env _), hc.settle, hc.keyword?]
      exact (hother _ hnone).complete env ls log a ds rest hc hR hG

end Parser.Means

end ProtoSchema
