/-
Repetitions.

A loop of a parser has a budget of turns, and a repetition of a rule has none.  What a loop
yields was derived by as many instances of the rule.  In the other direction every
instance takes a token, so a loop that starts with a turn for each lexeme has enough of
them.
-/
import ProtoSchema.Proofs.Grammar.Choice
import ProtoSchema.Proofs.Parsing.Body

namespace ProtoSchema.Parser

open Rule (Opens)

variable {α β γ : Type} {F G : Follow}

/-! ### Loops -/

/-- What the turns of a loop derive, one after the other. -/
inductive Loop (T : Rule (Turn α)) (source : List Char) :
    List Lexeme → List α → List Diagnostic → List Lexeme → Prop
  | stop {ls rest : List Lexeme} {ds : List Diagnostic} (last : T source ls .stop ds rest) :
      Loop T source ls [] ds rest
  | skip {ls mid rest : List Lexeme} {as : List α} {ds₁ ds₂ : List Diagnostic}
      (first : T source ls .skip ds₁ mid) (others : Loop T source mid as ds₂ rest) :
      Loop T source ls as (ds₁ ++ ds₂) rest
  | yield {ls mid rest : List Lexeme} {a : α} {as : List α} {ds₁ ds₂ : List Diagnostic}
      (first : T source ls (.yield a) ds₁ mid) (others : Loop T source mid as ds₂ rest) :
      Loop T source ls (a :: as) (ds₁ ++ ds₂) rest

theorem sound_collect {turn : Parser (Turn α)} {T : Rule (Turn α)} (ht : Sound turn T)
    (budget : List Lexeme) : Sound (collect turn budget) (fun source => Loop T source) := by
  -- A loop whose budget is spent is done only if it stops, so nothing is asked of the budget.
  induction budget with
  | nil =>
      intro env ls log as r hc hrun
      rw [collect, bind_run] at hrun
      cases hturn : turn env ⟨ls, log⟩ with
      | halted reason mid =>
          rw [hturn] at hrun
          cases hrun
      | done t mid =>
          rw [hturn] at hrun
          obtain ⟨ds, hlog, hsuf, hT⟩ := ht env ls log t mid hc hturn
          cases t with
          | stop =>
              cases hrun
              exact ⟨ds, hlog, hsuf, fun hds => .stop (hT hds)⟩
          | skip => cases hrun
          | yield a => cases hrun
  | cons l budget ih =>
      intro env ls log as r hc hrun
      rw [collect, bind_run] at hrun
      cases hturn : turn env ⟨ls, log⟩ with
      | halted reason mid =>
          rw [hturn] at hrun
          cases hrun
      | done t mid =>
          rw [hturn] at hrun
          obtain ⟨ds₁, hlog, hsuf, hT⟩ := ht env ls log t mid hc hturn
          have hcm := hc.of_suffix hsuf
          cases t with
          | stop =>
              cases hrun
              exact ⟨ds₁, hlog, hsuf, fun hds => .stop (hT hds)⟩
          | skip =>
              obtain ⟨ds₂, hlog', hsuf', hL⟩ := ih env mid.lexemes mid.log as r hcm hrun
              refine ⟨ds₁ ++ ds₂, ?_, hsuf'.trans hsuf, fun hds => ?_⟩
              · rw [hlog', hlog, List.reverse_append, List.append_assoc]
              · exact .skip (hT fun d hd => hds d (List.mem_append_left _ hd))
                  (hL fun d hd => hds d (List.mem_append_right _ hd))
          | yield a =>
              have hrun : (collect turn budget >>= fun as => pure (a :: as)) env mid = .done as r :=
                hrun
              rw [bind_run] at hrun
              cases hrest : collect turn budget env mid with
              | halted reason r' =>
                  rw [hrest] at hrun
                  cases hrun
              | done as' r' =>
                  rw [hrest] at hrun
                  cases hrun
                  obtain ⟨ds₂, hlog', hsuf', hL⟩ :=
                    ih env mid.lexemes mid.log as' r hcm hrest
                  refine ⟨ds₁ ++ ds₂, ?_, hsuf'.trans hsuf, fun hds => ?_⟩
                  · rw [hlog', hlog, List.reverse_append, List.append_assoc]
                  · exact .yield (hT fun d hd => hds d (List.mem_append_left _ hd))
                      (hL fun d hd => hds d (List.mem_append_right _ hd))

/-! ### How a loop runs -/

section Runs

variable {turn : Parser (Turn α)} {env : Surroundings} {r r₁ r₂ : Remainder} {a : α} {as : List α}
  {budget : List Lexeme}

theorem collect_stop (h : turn env r = .done .stop r₁) : collect turn budget env r = .done [] r₁ := by
  cases budget <;> rw [collect, bind_done h] <;> rfl

theorem collect_skip {l : Lexeme} (h : turn env r = .done .skip r₁) :
    collect turn (l :: budget) env r = collect turn budget env r₁ := by
  rw [collect, bind_done h]

theorem collect_yield {l : Lexeme} (h : turn env r = .done (.yield a) r₁)
    (hrest : collect turn budget env r₁ = .done as r₂) :
    collect turn (l :: budget) env r = .done (a :: as) r₂ := by
  rw [collect, bind_done h]
  exact bind_done hrest

end Runs

/-! ### Items behind a token -/

section Items

variable {form : Token → Span → Option β} {item : β → Parser α} {I : β → Rule α}
  {next : Option β → Parser (Turn α)}

/-- What follows an item is another one, or what follows all of them. -/
theorem follow_many {source : List Char} {ls mid : List Lexeme} {as : List α}
    {ds : List Diagnostic} (hF : ∀ t s b, form t s = some b → F (some t))
    (h : Rule.Many (Rule.token form >>= I) source ls as ds mid) (hmid : F (nextToken? mid)) :
    F (nextToken? ls) := by
  cases h with
  | nil => exact hmid
  | cons first others =>
      obtain ⟨b, _, _, _, ⟨t, s, rfl, hf, -⟩, -, -⟩ := first
      exact hF t s b hf

/-- Where no item is announced, the loop stops with what ends it. -/
theorem complete_last {Z : Rule γ} (hnone : Means G (next none) (Z >>= fun _ => Pure.pure .stop))
    (hlack : Opens (lacking form) G Z) (budget : List Lexeme) {env : Surroundings}
    {ls rest : List Lexeme} {z : γ} {ds : List Diagnostic} (log : List Diagnostic) (hc : Clean ls)
    (hZ : Z env.source ls z ds rest) (hrest : G (nextToken? rest)) :
    rest <:+ ls ∧ (∀ d ∈ ds, d.isFault = false) ∧
      collect (Parser.accept? form >>= next) budget env ⟨ls, log⟩ =
        .done [] ⟨rest, ds.reverse ++ log⟩ := by
  have hZ' : (Z >>= fun _ => (Pure.pure .stop : Rule (Turn α))) env.source ls .stop ds rest :=
    ⟨z, ds, rest, [], hZ, ⟨rfl, rfl, rfl⟩, (List.append_nil _).symm⟩
  obtain ⟨hsuf, hds, hstop⟩ := hnone.complete env ls log .stop ds rest hc hZ' hrest
  refine ⟨hsuf, hds, collect_stop ?_⟩
  cases ls with
  | nil => exact (bind_done (accept?_run_nil form env rfl)).trans hstop
  | cons l ls =>
      obtain ⟨t, s, rfl⟩ := hc l List.mem_cons_self
      have hf : form t s = none := hlack _ _ _ _ _ hZ hrest t s rfl
      exact (bind_done (accept?_run_none env rfl hf)).trans hstop

theorem complete_items {Z : Rule γ} (hi : ∀ b, Means F (item b) (I b))
    (hsome : ∀ b, next (some b) = item b >>= fun a => Pure.pure (.yield a))
    (hnone : Means G (next none) (Z >>= fun _ => Pure.pure .stop)) (hZF : Opens F G Z)
    (hF : ∀ t s b, form t s = some b → F (some t)) (hlack : Opens (lacking form) G Z)
    (budget : List Lexeme) :
    ∀ env ls log as ds₁ mid z ds₂ rest, ls.length ≤ budget.length → Clean ls →
      Rule.Many (Rule.token form >>= I) env.source ls as ds₁ mid → Z env.source mid z ds₂ rest →
      G (nextToken? rest) →
      rest <:+ ls ∧ (∀ d ∈ ds₁ ++ ds₂, d.isFault = false) ∧
        collect (Parser.accept? form >>= next) budget env ⟨ls, log⟩ =
          .done as ⟨rest, (ds₁ ++ ds₂).reverse ++ log⟩ := by
  -- The budget decreases with the items; where it is spent nothing is left to read.
  induction budget with
  | nil =>
      intro env ls log as ds₁ mid z ds₂ rest hlen hc h hZ hrest
      obtain rfl : ls = [] := List.length_eq_zero_iff.mp (Nat.le_zero.mp hlen)
      cases h with
      | nil => exact complete_last hnone hlack [] log hc hZ hrest
      | cons first others =>
          obtain ⟨b, _, _, _, ⟨t, s, hls, -⟩, -⟩ := first
          cases hls
  | cons l budget ih =>
      intro env ls log as ds₁ mid z ds₂ rest hlen hc h hZ hrest
      cases h with
      | nil => exact complete_last hnone hlack (l :: budget) log hc hZ hrest
      | @cons _ mid' _ a as ds₃ ds₄ first others =>
          obtain ⟨b, _, tail, _, ⟨t, s, rfl, hf, rfl⟩, hI, rfl⟩ := first
          have hsuffix : tail <:+ .token t s :: tail := List.suffix_cons _ _
          have hfollow := follow_many hF others (hZF _ _ _ _ _ hZ hrest)
          obtain ⟨hsuf, hds, hitem⟩ :=
            (hi b).complete env tail log a _ mid' (hc.of_suffix hsuffix) hI hfollow
          have hle := hsuf.length_le
          rw [List.length_cons, List.length_cons] at hlen
          obtain ⟨hsuf', hds', hcollect⟩ := ih env mid' (ds₃.reverse ++ log) as ds₄ mid z ds₂ rest
            (by omega) (hc.of_suffix (hsuf.trans hsuffix)) others hZ hrest
          have hyield : (Parser.accept? form >>= next) env ⟨.token t s :: tail, log⟩ =
              .done (.yield a) ⟨mid', ds₃.reverse ++ log⟩ := by
            rw [bind_done (accept?_run_some env rfl hf), hsome]
            exact bind_done hitem
          refine ⟨(hsuf'.trans hsuf).trans hsuffix, fun d hd => ?_, ?_⟩
          · rw [List.append_assoc] at hd
            rcases List.mem_append.mp hd with hd | hd
            · exact hds d hd
            · exact hds' d hd
          · rw [collect_yield hyield hcollect]
            simp only [List.reverse_append, List.append_assoc]

/-- The turns of such a loop: items behind a token, and at last what ends the loop. -/
def itemsRule (form : Token → Span → Option β) (I : β → Rule α) (Z : Rule γ) :
    Rule (Turn α) := do
  match ← Rule.token? form with
  | some b => do
    let a ← I b
    pure (.yield a)
  | none => do
    let _ ← Z
    pure .stop

theorem many_of_loop {Z : Rule γ} {source : List Char} {ls rest : List Lexeme} {as : List α}
    {ds : List Diagnostic} (h : Loop (itemsRule form I Z) source ls as ds rest) :
    ∃ ds₁ mid z ds₂, Rule.Many (Rule.token form >>= I) source ls as ds₁ mid ∧
      Z source mid z ds₂ rest ∧ ds = ds₁ ++ ds₂ := by
  induction h with
  | @stop ls rest ds last =>
      rcases Rule.token?_bind_iff.mp last with
        ⟨b, _, _, _, -, ⟨a, _, _, _, -, ⟨hne, -⟩, -⟩, -⟩ | ⟨-, hstop⟩
      · cases hne
      · obtain ⟨z, ds₁, _, _, hZ, ⟨-, rfl, rfl⟩, rfl⟩ := hstop
        exact ⟨[], ls, z, ds₁, .nil ls, hZ, by rw [List.append_nil, List.nil_append]⟩
  | skip first others ih =>
      rcases Rule.token?_bind_iff.mp first with
        ⟨b, _, _, _, -, ⟨a, _, _, _, -, ⟨hne, -⟩, -⟩, -⟩ | ⟨-, _, _, _, _, -, ⟨hne, -⟩, -⟩
      · cases hne
      · cases hne
  | yield first others ih =>
      rcases Rule.token?_bind_iff.mp first with
        ⟨b, ds₁, mid, ds₂, htoken, ⟨a, ds₃, _, _, hI, ⟨heq, rfl, rfl⟩, rfl⟩, rfl⟩ |
        ⟨-, _, _, _, _, -, ⟨hne, -⟩, -⟩
      · cases heq
        obtain ⟨ds₄, mid', z, ds₅, hmany, hZ, rfl⟩ := ih
        refine ⟨_, mid', z, ds₅, .cons ⟨b, ds₁, mid, ds₃, htoken, hI, rfl⟩ hmany, hZ, ?_⟩
        simp only [List.append_nil, List.append_assoc]
      · cases hne

/-- A loop over items, each behind a token that announces it, and what its last turn takes. -/
theorem Means.itemsThen {Z : Rule γ} (hi : ∀ b, Means F (item b) (I b))
    (hsome : ∀ b, next (some b) = item b >>= fun a => Pure.pure (.yield a))
    (hnone : Means G (next none) (Z >>= fun _ => Pure.pure .stop)) (hZF : Opens F G Z)
    (hF : ∀ t s b, form t s = some b → F (some t)) (hlack : Opens (lacking form) G Z) :
    Means G (many (Parser.accept? form >>= next)) (do
      let as ← Rule.many (Rule.token form >>= I)
      let _ ← Z
      Pure.pure as) where
  sound := by
    have hturn : Sound (Parser.accept? form >>= next) (itemsRule form I Z) := by
      refine (Means.accept? (F := G) form).sound.bind fun found => ?_
      cases found with
      | none => exact hnone.sound
      | some b =>
          rw [hsome]
          exact (hi b).sound.bind fun a => (Means.pure (F := G) _).sound
    intro env ls log as r hc hrun
    obtain ⟨ds, hlog, hsuf, hL⟩ := sound_collect hturn ls env ls log as r hc hrun
    refine ⟨ds, hlog, hsuf, fun hds => ?_⟩
    obtain ⟨ds₁, mid, z, ds₂, hmany, hZ, hsum⟩ := many_of_loop (hL hds)
    exact ⟨as, ds₁, mid, ds₂, hmany,
      ⟨z, ds₂, r.lexemes, [], hZ, ⟨rfl, rfl, rfl⟩, (List.append_nil _).symm⟩, hsum⟩
  complete := by
    rintro env ls log as ds rest hc ⟨as', ds₁, mid, _, hmany, ⟨z, ds₂, _, _, hZ, ⟨rfl, rfl, rfl⟩, rfl⟩, rfl⟩
      hrest
    rw [List.append_nil]
    exact complete_items hi hsome hnone hZF hF hlack ls env ls log as ds₁ mid z ds₂ rest
      (Nat.le_refl _) hc hmany hZ hrest

/-- A loop over items that takes nothing with its last turn. -/
theorem Means.items (hi : ∀ b, Means F (item b) (I b))
    (hsome : ∀ b, next (some b) = item b >>= fun a => Pure.pure (.yield a))
    (hnone : Means G (next none) (Pure.pure .stop)) (hG : ∀ t?, G t? → F t?)
    (hF : ∀ t s b, form t s = some b → F (some t)) (hlack : ∀ t?, G t? → lacking form t?) :
    Means G (many (Parser.accept? form >>= next)) (Rule.many (Rule.token form >>= I)) := by
  have hstop : Means G (next none) ((Pure.pure () : Rule Unit) >>= fun _ => Pure.pure .stop) := by
    rw [pure_bind]
    exact hnone
  have h := Means.itemsThen hi hsome hstop (.pure () hG) hF (.pure () hlack)
  simpa only [pure_bind, bind_pure] using h

end Items

end ProtoSchema.Parser
