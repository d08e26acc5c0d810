/-
The same tokens at another place.

When something is taken out of a text, what stands behind it moves.  Its tokens stay what they
are and so does the text of a block, but every place changes, and with the places the spans in
the nodes that are built.  Two stretches of lexemes retell each other if they hold the same
tokens and every block between braces has the same text.

What a rule derives from one of them it derives from the other, with a value that is the
same but for places and remarks that say the same.  Nor does it matter what stands behind the
stretch: rules look one token ahead, and a rule that ends with a token does not even do that.
`Retells` says both.  It is about two rules, because what follows in a production may be built
with places from before.
-/
import ProtoSchema.Proofs.Grammar.Choice

namespace ProtoSchema

/-! ### Two texts -/

/-- A token with its place in one text and its place in another. -/
structure Echo where
  token : Token
  here : Span
  there : Span

namespace Echo

def original (e : Echo) : Lexeme := .token e.token e.here

def copy (e : Echo) : Lexeme := .token e.token e.there

/-- What stands between two tokens, if it may be the text of a block, is the same in both texts. -/
def AgreesWith (source source' : List Char) (a b : Echo) : Prop :=
  a.token = .mark .leftBrace → b.token = .mark .rightBrace →
    Text.slice source ⟨a.here.stop, b.here.start⟩ = Text.slice source' ⟨a.there.stop, b.there.start⟩

instance (source source' : List Char) (a b : Echo) : Decidable (AgreesWith source source' a b) :=
  inferInstanceAs (Decidable (_ → _ → _ = _))

end Echo

/-- Two stretches of tokens, each in its text, that are the same but for places. -/
def Retold (source source' : List Char) (ls ls' : List Lexeme) : Prop :=
  ∃ es : List Echo, ls = es.map Echo.original ∧ ls' = es.map Echo.copy ∧
    es.Pairwise (Echo.AgreesWith source source')

namespace Retold

variable {source source' : List Char} {ls ls₁ ls₂ ls' rest rest' : List Lexeme}

/-- Tokens that stand at the same places in two texts, with the same between them. -/
theorem here (h : Clean ls)
    (htext : ∀ t s t' s', .token t s ∈ ls → .token t' s' ∈ ls →
      Text.slice source ⟨s.stop, s'.start⟩ = Text.slice source' ⟨s.stop, s'.start⟩) :
    Retold source source' ls ls := by
  have hes : ∃ es : List Echo, ls = es.map Echo.original ∧ ls = es.map Echo.copy ∧
      ∀ e ∈ es, e.here = e.there := by
    clear htext
    induction ls with
    | nil => exact ⟨[], rfl, rfl, fun _ he => absurd he List.not_mem_nil⟩
    | cons l ls ih =>
        obtain ⟨t, s, rfl⟩ := h l List.mem_cons_self
        obtain ⟨es, hhere, hthere, hsame⟩ := ih (h.of_suffix (List.suffix_cons _ _))
        refine ⟨⟨t, s, s⟩ :: es, congrArg (_ :: ·) hhere, congrArg (_ :: ·) hthere, ?_⟩
        rintro e (_ | ⟨_, he⟩)
        · rfl
        · exact hsame e he
  obtain ⟨es, hhere, hthere, hsame⟩ := hes
  refine ⟨es, hhere, hthere, List.pairwise_of_forall_mem_list fun a ha b hb _ _ => ?_⟩
  have hmem (e : Echo) (he : e ∈ es) : .token e.token e.here ∈ ls := by
    rw [hhere]
    exact List.mem_map_of_mem he
  rw [← hsame a ha, ← hsame b hb]
  exact htext _ _ _ _ (hmem a ha) (hmem b hb)

/-- Tokens are the same as themselves. -/
theorem refl (source : List Char) (h : Clean ls) : Retold source source ls ls :=
  here h fun _ _ _ _ _ _ => rfl

theorem append_inv (h : Retold source source' (ls₁ ++ ls₂) ls') :
    ∃ ls₁' ls₂', ls' = ls₁' ++ ls₂' ∧ Retold source source' ls₁ ls₁' ∧
      Retold source source' ls₂ ls₂' := by
  obtain ⟨es, hhere, rfl, hagree⟩ := h
  obtain ⟨es₁, es₂, rfl, rfl, rfl⟩ := List.map_eq_append_iff.mp hhere.symm
  obtain ⟨h₁, h₂, -⟩ := List.pairwise_append.mp hagree
  exact ⟨es₁.map Echo.copy, es₂.map Echo.copy, List.map_append, ⟨es₁, rfl, rfl, h₁⟩,
    ⟨es₂, rfl, rfl, h₂⟩⟩

theorem nil_inv (h : Retold source source' [] ls') : ls' = [] := by
  obtain ⟨es, hhere, rfl, -⟩ := h
  rw [List.map_eq_nil_iff.mp hhere.symm]
  rfl

theorem cons_inv {l : Lexeme} (h : Retold source source' (l :: ls) ls') :
    ∃ t s s' tail, l = .token t s ∧ ls' = .token t s' :: tail ∧
      Retold source source' ls tail := by
  obtain ⟨es, hhere, rfl, hagree⟩ := h
  obtain ⟨e, es, rfl, rfl, rfl⟩ := List.map_eq_cons_iff.mp hhere.symm
  exact ⟨e.token, e.here, e.there, es.map Echo.copy, rfl, rfl, es, rfl, rfl, hagree.of_cons⟩

theorem clean (h : Retold source source' ls ls') : Clean ls ∧ Clean ls' := by
  obtain ⟨es, rfl, rfl, -⟩ := h
  constructor
  · intro l hl
    obtain ⟨e, -, rfl⟩ := List.mem_map.mp hl
    exact ⟨_, _, rfl⟩
  · intro l hl
    obtain ⟨e, -, rfl⟩ := List.mem_map.mp hl
    exact ⟨_, _, rfl⟩

/-- The token that comes next is the same. -/
theorem nextToken?_append (h : Retold source source' ls ls')
    (hrest : ls = [] → nextToken? rest' = nextToken? rest) :
    nextToken? (ls' ++ rest') = nextToken? (ls ++ rest) := by
  cases ls with
  | nil =>
      rw [h.nil_inv]
      exact hrest rfl
  | cons l ls =>
      obtain ⟨t, s, s', tail, rfl, rfl, -⟩ := h.cons_inv
      rfl

/-- Two lists of tokens side by side. -/
def echoes : List Lexeme → List Lexeme → List Echo
  | .token t s :: ls, .token _ s' :: ls' => ⟨t, s, s'⟩ :: echoes ls ls'
  | _, _ => []

theorem echoes_map (es : List Echo) : echoes (es.map Echo.original) (es.map Echo.copy) = es := by
  induction es with
  | nil => rfl
  | cons e es ih => exact congrArg (e :: ·) ih

theorem retold_iff : Retold source source' ls ls' ↔
    ls = (echoes ls ls').map Echo.original ∧ ls' = (echoes ls ls').map Echo.copy ∧
      (echoes ls ls').Pairwise (Echo.AgreesWith source source') := by
  constructor
  · rintro ⟨es, rfl, rfl, hagree⟩
    rw [echoes_map]
    exact ⟨rfl, rfl, hagree⟩
  · exact fun h => ⟨_, h⟩

instance : Decidable (Retold source source' ls ls') := decidable_of_iff _ retold_iff.symm

end Retold

/-! ### Rules -/

namespace Rule

variable {α β γ δ : Type} {closed closed' : Bool} {b : α → γ} {c : β → δ}

/-- Diagnostics that say the same, maybe about different places. -/
def SameMessages (ds ds' : List Diagnostic) : Prop :=
  ds'.map Diagnostic.message = ds.map Diagnostic.message

theorem SameMessages.refl (ds : List Diagnostic) : SameMessages ds ds := rfl

theorem SameMessages.append {ds₁ ds₁' ds₂ ds₂' : List Diagnostic} (h₁ : SameMessages ds₁ ds₁')
    (h₂ : SameMessages ds₂ ds₂') : SameMessages (ds₁ ++ ds₂) (ds₁' ++ ds₂') := by
  unfold SameMessages at *
  rw [List.map_append, List.map_append, h₁, h₂]

/--
What `R` derives from a stretch, `R'` derives from any stretch that retells it, with a value
that looks the same to `b`.  A closed rule takes something, and its derivations end with a token.
-/
def Retells (closed : Bool) (b : α → γ) (R R' : Rule α) : Prop :=
  ∀ source source' ls a ds rest, R source ls a ds rest →
    ∃ front, ls = front ++ rest ∧ (closed = true → front ≠ []) ∧
      ∀ front' rest', Retold source source' front front' →
        (closed = false → nextToken? rest' = nextToken? rest) →
        ∃ a' ds', R' source' (front' ++ rest') a' ds' rest' ∧ b a' = b a ∧ SameMessages ds ds'

namespace Retells

/-! ### Sequences and alternatives -/

theorem pure {a a' : α} (h : b a' = b a) : Retells false b (Pure.pure a) (Pure.pure a') := by
  rintro source source' ls _ _ _ ⟨rfl, rfl, rfl⟩
  refine ⟨[], rfl, nofun, fun front' rest' hretold _ => ?_⟩
  rw [hretold.nil_inv]
  exact ⟨a', [], ⟨rfl, rfl, rfl⟩, h, .refl []⟩

theorem fail {R' : Rule α} : Retells closed b Rule.fail R' := by
  rintro source source' ls a ds rest ⟨⟩

theorem bind {R R' : Rule α} {S S' : α → Rule β} (hR : Retells closed b R R')
    (hS : ∀ a a', b a' = b a → Retells closed' c (S a) (S' a')) :
    Retells closed' c (R >>= S) (R' >>= S') := by
  rintro source source' ls x ds rest ⟨a, ds₁, mid, ds₂, hr, hs, rfl⟩
  obtain ⟨front₁, rfl, -, h₁⟩ := hR source source' _ _ _ _ hr
  obtain ⟨front₂, rfl, hne, -⟩ := hS a a rfl source source' _ _ _ _ hs
  refine ⟨front₁ ++ front₂, (List.append_assoc _ _ _).symm, fun hc => ?_,
    fun front' rest' hretold hrest => ?_⟩
  · exact List.append_ne_nil_of_right_ne_nil _ (hne hc)
  · obtain ⟨front₁', front₂', rfl, hretold₁, hretold₂⟩ := hretold.append_inv
    have hnext : nextToken? (front₂' ++ rest') = nextToken? (front₂ ++ rest) := by
      refine hretold₂.nextToken?_append fun hnil => hrest ?_
      cases closed' with
      | false => rfl
      | true => exact absurd hnil (hne rfl)
    obtain ⟨a', ds₁', hr', hb, hds₁⟩ := h₁ front₁' _ hretold₁ fun _ => hnext
    obtain ⟨front, hfront, -, h₂⟩ := hS a a' hb source source' _ _ _ _ hs
    obtain rfl := List.append_cancel_right hfront
    obtain ⟨x', ds₂', hs', hc, hds₂⟩ := h₂ front₂' rest' hretold₂ hrest
    rw [List.append_assoc]
    exact ⟨x', ds₁' ++ ds₂', ⟨a', ds₁', _, ds₂', hr', hs', rfl⟩, hc, hds₁.append hds₂⟩

/-- What is made of the last part of a production. -/
theorem last {R R' : Rule α} {g g' : α → β} (hR : Retells closed b R R')
    (hg : ∀ a a', b a' = b a → c (g' a') = c (g a)) :
    Retells closed c (R >>= fun a => Pure.pure (g a)) (R' >>= fun a => Pure.pure (g' a)) := by
  rintro source source' ls x ds rest ⟨a, ds₁, mid, ds₂, hr, ⟨rfl, rfl, rfl⟩, rfl⟩
  obtain ⟨front, rfl, hne, h⟩ := hR source source' _ _ _ _ hr
  refine ⟨front, rfl, hne, fun front' rest' hretold hrest => ?_⟩
  obtain ⟨a', ds', hr', hb, hds⟩ := h front' rest' hretold hrest
  exact ⟨g' a', ds' ++ [], ⟨a', ds', rest', [], hr', ⟨rfl, rfl, rfl⟩, rfl⟩, hg a a' hb,
    hds.append (.refl [])⟩

theorem map {R R' : Rule α} {g : α → β} (hR : Retells closed b R R')
    (hg : ∀ a a', b a' = b a → c (g a') = c (g a)) : Retells closed c (g <$> R) (g <$> R') :=
  hR.last hg

/-- A rule whose end does not matter. -/
theorem opened {R R' : Rule α} (hR : Retells closed b R R') : Retells false b R R' := by
  rintro source source' ls a ds rest hr
  obtain ⟨front, rfl, -, h⟩ := hR source source' _ _ _ _ hr
  exact ⟨front, rfl, nofun, fun front' rest' hretold hrest => h front' rest' hretold fun _ => hrest rfl⟩

theorem orElse {R R' S S' : Rule α} (hR : Retells closed b R R') (hS : Retells closed b S S') :
    Retells closed b (R <|> S) (R' <|> S') := by
  rintro source source' ls a ds rest (hr | hs)
  · obtain ⟨front, rfl, hne, h⟩ := hR source source' _ _ _ _ hr
    refine ⟨front, rfl, hne, fun front' rest' hretold hrest => ?_⟩
    obtain ⟨a', ds', hr', hb, hds⟩ := h front' rest' hretold hrest
    exact ⟨a', ds', Or.inl hr', hb, hds⟩
  · obtain ⟨front, rfl, hne, h⟩ := hS source source' _ _ _ _ hs
    refine ⟨front, rfl, hne, fun front' rest' hretold hrest => ?_⟩
    obtain ⟨a', ds', hs', hb, hds⟩ := h front' rest' hretold hrest
    exact ⟨a', ds', Or.inr hs', hb, hds⟩

theorem optional {R R' : Rule α} (hR : Retells closed b R R') :
    Retells false (Option.map b) (optional R) (optional R') := by
  refine orElse (hR.opened.map fun a a' h => ?_) (pure rfl)
  exact congrArg some h

/-! ### Tokens -/

theorem token {form form' : Token → Span → Option α}
    (h : ∀ t s s', (form' t s').map b = (form t s).map b) :
    Retells true b (token form) (token form') := by
  rintro source source' _ a _ rest ⟨t, s, rfl, hf, rfl⟩
  refine ⟨[.token t s], rfl, nofun, fun front' rest' hretold _ => ?_⟩
  obtain ⟨_, _, s', tail, heq, rfl, htail⟩ := hretold.cons_inv
  cases heq
  rw [htail.nil_inv]
  have hmap := h t s s'
  rw [hf] at hmap
  obtain ⟨a', hf', hb⟩ := Option.map_eq_some_iff.mp hmap
  exact ⟨a', [], ⟨t, s', rfl, hf', rfl⟩, hb, .refl []⟩

/-- A mark, whatever its place. -/
theorem mark (p : Punctuation) : Retells true (fun _ => (default : Span)) (mark p) (mark p) := by
  refine token fun t s s' => ?_
  split <;> rfl

theorem keyword (k : Keyword) :
    Retells true (fun _ => (default : Span)) (keyword k) (keyword k) := by
  refine token fun t s s' => ?_
  split <;> rfl

theorem lacks {form form' : Token → Span → Option α}
    (h : ∀ t s s', form t s = none → form' t s' = none) :
    Retells false (fun _ => ()) (lacks form) (lacks form') := by
  rintro source source' ls _ _ _ ⟨hlacks, rfl, rfl⟩
  refine ⟨[], rfl, nofun, fun front' rest' hretold hrest => ?_⟩
  rw [hretold.nil_inv]
  refine ⟨(), [], ⟨fun t s hhead => ?_, rfl, rfl⟩, rfl, .refl []⟩
  have hnext := nextToken?_of_head? hhead
  rw [List.nil_append, hrest rfl] at hnext
  obtain ⟨s', tail, rfl⟩ := exists_of_nextToken? hnext
  exact h t s' s (hlacks t s' rfl)

theorem token? {form form' : Token → Span → Option α}
    (h : ∀ t s s', (form' t s').map b = (form t s).map b) :
    Retells false (Option.map b) (token? form) (token? form') := by
  refine orElse ((token h).opened.map fun a a' ha => congrArg some ha) ?_
  refine (lacks fun t s s' hnone => ?_).last fun _ _ _ => rfl
  have hmap := h t s s'
  rw [hnone] at hmap
  exact Option.map_eq_none_iff.mp hmap

theorem switch {table : List (Keyword × Rule α)} {other : Rule α}
    (htable : ∀ k R, (k, R) ∈ table → Retells closed b R R) (hother : Retells closed b other other) :
    Retells closed b (switch table other) (switch table other) := by
  have hword {source source' : List Char} {front front' rest rest' : List Lexeme}
      (hretold : Retold source source' front front') (hne : closed = true → front ≠ [])
      (hrest : closed = false → nextToken? rest' = nextToken? rest) :
      nextKeyword? (front' ++ rest') = nextKeyword? (front ++ rest) := by
    unfold nextKeyword?
    rw [hretold.nextToken?_append fun hnil => hrest ?_]
    cases closed with
    | false => rfl
    | true => exact absurd hnil (hne rfl)
  rintro source source' ls a ds rest (⟨k, R, hmem, hk, hr⟩ | ⟨hnone, hr⟩)
  · obtain ⟨front, rfl, hne, h⟩ := htable k R hmem source source' _ _ _ _ hr
    refine ⟨front, rfl, hne, fun front' rest' hretold hrest => ?_⟩
    obtain ⟨a', ds', hr', hb, hds⟩ := h front' rest' hretold hrest
    exact ⟨a', ds', Or.inl ⟨k, R, hmem, (hword hretold hne hrest).trans hk, hr'⟩, hb, hds⟩
  · obtain ⟨front, rfl, hne, h⟩ := hother source source' _ _ _ _ hr
    refine ⟨front, rfl, hne, fun front' rest' hretold hrest => ?_⟩
    obtain ⟨a', ds', hr', hb, hds⟩ := h front' rest' hretold hrest
    refine ⟨a', ds', Or.inr ⟨fun k hk => hnone k ?_, hr'⟩, hb, hds⟩
    rw [← hword hretold hne hrest]
    exact hk

theorem remark {d d' : Diagnostic} (h : d'.message = d.message) :
    Retells false (fun _ => ()) (remark d) (remark d') := by
  rintro source source' ls _ _ _ ⟨rfl, rfl⟩
  refine ⟨[], rfl, nofun, fun front' rest' hretold _ => ?_⟩
  rw [hretold.nil_inv]
  exact ⟨(), [d'], ⟨rfl, rfl⟩, rfl, congrArg (· :: []) h⟩

/-! ### Repetitions -/

theorem many {R R' : Rule α} (hR : Retells closed b R R') :
    Retells false (List.map b) (many R) (many R') := by
  intro source source' ls as ds rest h
  induction h with
  | nil ls =>
      refine ⟨[], rfl, nofun, fun front' rest' hretold _ => ?_⟩
      rw [hretold.nil_inv]
      exact ⟨[], [], .nil _, rfl, .refl []⟩
  | cons first others ih =>
      obtain ⟨front₁, rfl, -, h₁⟩ := hR source source' _ _ _ _ first
      obtain ⟨front₂, rfl, -, h₂⟩ := ih
      refine ⟨front₁ ++ front₂, (List.append_assoc _ _ _).symm, nofun,
        fun front' rest' hretold hrest => ?_⟩
      obtain ⟨front₁', front₂', rfl, hretold₁, hretold₂⟩ := hretold.append_inv
      have hnext := hretold₂.nextToken?_append fun _ => hrest rfl
      obtain ⟨a', ds₁', hr', hb, hds₁⟩ := h₁ front₁' _ hretold₁ fun _ => hnext
      obtain ⟨as', ds₂', hs', hbs, hds₂⟩ := h₂ front₂' rest' hretold₂ hrest
      rw [List.append_assoc]
      exact ⟨a' :: as', ds₁' ++ ds₂', .cons hr' hs', by rw [List.map_cons, hb, hbs, List.map_cons],
        hds₁.append hds₂⟩

theorem separated {R R' : Rule α} (hR : Retells closed b R R') :
    Retells false (List.map b) (separated R) (separated R') := by
  refine hR.bind fun first first' hfirst => ?_
  refine (many ((mark .comma).bind fun _ _ _ => hR)).last fun others others' hothers => ?_
  rw [List.map_cons, List.map_cons, hfirst, hothers]

/-- Members stay what they are, whatever stands behind them. -/
theorem members {M M' : Rule α} (hM : Retells true b M M') {source : List Char}
    (source' : List Char) {ls rest : List Lexeme} {as : List α} {ds : List Diagnostic}
    (h : Members M source ls as ds rest) :
    ∃ front, ls = front ++ rest ∧ ∀ front' rest', Retold source source' front front' →
      ∃ as' ds', Members M' source' (front' ++ rest') as' ds' rest' ∧
        as'.map b = as.map b ∧ SameMessages ds ds' := by
  induction h with
  | nil ls =>
      refine ⟨[], rfl, fun front' rest' hretold => ?_⟩
      rw [hretold.nil_inv]
      exact ⟨[], [], .nil _, rfl, .refl []⟩
  | semicolon others ih =>
      obtain ⟨front, rfl, h⟩ := ih
      refine ⟨_ :: front, rfl, fun front' rest' hretold => ?_⟩
      obtain ⟨_, _, s', tail, heq, rfl, htail⟩ := hretold.cons_inv
      cases heq
      obtain ⟨as', ds', hs', hb, hds⟩ := h tail rest' htail
      exact ⟨as', ds', .semicolon hs', hb, hds⟩
  | member first others ih =>
      obtain ⟨front₁, rfl, -, h₁⟩ := hM source source' _ _ _ _ first
      obtain ⟨front₂, rfl, h₂⟩ := ih
      refine ⟨front₁ ++ front₂, (List.append_assoc _ _ _).symm, fun front' rest' hretold => ?_⟩
      obtain ⟨front₁', front₂', rfl, hretold₁, hretold₂⟩ := hretold.append_inv
      obtain ⟨a', ds₁', hr', hb, hds₁⟩ := h₁ front₁' (front₂' ++ rest') hretold₁ nofun
      obtain ⟨as', ds₂', hs', hbs, hds₂⟩ := h₂ front₂' rest' hretold₂
      rw [List.append_assoc]
      exact ⟨a' :: as', ds₁' ++ ds₂', .member hr' hs',
        by rw [List.map_cons, hb, hbs, List.map_cons], hds₁.append hds₂⟩

theorem body {M M' : Rule α} (hM : Retells true b M M') :
    Retells true (fun found => found.1.map b) (body M) (body M') := by
  have hmembers : Retells false (List.map b) (fun source => Members M source)
      (fun source => Members M' source) := by
    intro source source' ls as ds rest h
    obtain ⟨front, rfl, hfront⟩ := members hM source' h
    exact ⟨front, rfl, nofun, fun front' rest' hretold _ => hfront front' rest' hretold⟩
  refine (mark .leftBrace).bind fun _ _ _ => ?_
  exact hmembers.bind fun as as' has => (mark .rightBrace).last fun _ _ _ => has

/-! ### Blocks -/

theorem balanced (source source' : List Char) {ls rest : List Lexeme} (h : Balanced ls rest) :
    ∃ front, ls = front ++ rest ∧ ∀ front' rest', Retold source source' front front' →
      Balanced (front' ++ rest') rest' := by
  induction h with
  | nil ls =>
      refine ⟨[], rfl, fun front' rest' hretold => ?_⟩
      rw [hretold.nil_inv]
      exact .nil _
  | plain hl hr others ih =>
      obtain ⟨front, rfl, h⟩ := ih
      refine ⟨_ :: front, rfl, fun front' rest' hretold => ?_⟩
      obtain ⟨_, _, s', tail, heq, rfl, htail⟩ := hretold.cons_inv
      cases heq
      exact .plain hl hr (h tail rest' htail)
  | @block s s' ls mid rest inner others ih ih' =>
      obtain ⟨front₁, rfl, h₁⟩ := ih
      obtain ⟨front₂, rfl, h₂⟩ := ih'
      refine ⟨.token (.mark .leftBrace) s :: front₁ ++ .token (.mark .rightBrace) s' :: front₂,
        by rw [List.append_assoc, List.cons_append, List.cons_append],
        fun front' rest' hretold => ?_⟩
      obtain ⟨opened, closed, rfl, hopened, hclosed⟩ := hretold.append_inv
      obtain ⟨_, _, s₁, tail, heq, rfl, htail⟩ := hopened.cons_inv
      cases heq
      obtain ⟨_, _, s₂, tail', heq, rfl, htail'⟩ := hclosed.cons_inv
      cases heq
      simp only [List.append_assoc, List.cons_append]
      exact .block (h₁ tail _ htail) (h₂ tail' rest' htail')

end Retells

end Rule

end ProtoSchema
