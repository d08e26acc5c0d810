/-
A loop over members that does not find the end of its body.

The members before the cut are read as before.  The member that the cut goes through is either
stuck, and then the loop comes to the end of the source and reports its own body, or it has a
body that is open, and then the loop over the members of that body has reported one and halted,
and every loop around it halts as well.  The induction is on the tokens before the cut: the loop
within a member has fewer of them in front of it.
-/
import ProtoSchema.Proofs.Recovery.Bodies
import ProtoSchema.Proofs.Truncation.Open

namespace ProtoSchema

open ProtoSchema.Parser

/-- A run that ends with the report of a body that is not closed. -/
def Fatal {α : Type} (log : List Diagnostic) (kind : BodyKind) (opening : Span) (o : Outcome α) :
    Prop :=
  ∃ new, Incidental new ∧ o = .halted .unclosed ⟨[], .unterminatedBody kind opening :: (new ++ log)⟩

theorem Fatal.of_eq {α β : Type} {log : List Diagnostic} {kind : BodyKind} {opening : Span}
    {o : Outcome α} {o' : Outcome β} (h : Fatal log kind opening o)
    (heq : ∀ r, o = .halted .unclosed r → o' = .halted .unclosed r) :
    Fatal log kind opening o' := by
  obtain ⟨new, hnew, ho⟩ := h
  exact ⟨new, hnew, heq _ ho⟩

theorem Fatal.prepend {α : Type} {log new : List Diagnostic} {kind : BodyKind} {opening : Span}
    {o : Outcome α} (h : Fatal (new ++ log) kind opening o) (hnew : Incidental new) :
    Fatal log kind opening o := by
  obtain ⟨new', hnew', rfl⟩ := h
  exact ⟨new' ++ new, hnew'.append hnew, by rw [List.append_assoc]⟩

/-! ### The turns of a loop that is cut -/

section Turns

variable {α : Type} {kind : BodyKind} {opening : Span} {member : Parser α} {env : Surroundings}
  {log : List Diagnostic} {ls : List Lexeme}

theorem fatal_collect_nil (member : Parser α) (budget : List Lexeme) :
    Fatal log kind opening (collect (bodyTurn kind opening member) budget env ⟨[], log⟩) :=
  ⟨[], .nil, collect_halted (bodyTurn_nil rfl) budget⟩

theorem bodyTurn_token {t : Token} {s : Span} (ht : t ≠ .mark .rightBrace)
    (ht' : t ≠ .mark .semicolon) :
    bodyTurn kind opening member env ⟨.token t s :: ls, log⟩ =
      match member env ⟨.token t s :: ls, log⟩ with
      | .done m r' => .done (.yield m) r'
      | .halted .mismatch r' => .done .skip (skipStatement 0 r'.log r'.lexemes)
      | .halted reason r' => .halted reason r' := bodyTurn_member rfl ht ht'

/-- A loop that has a member halted by a body that is not closed is halted. -/
theorem collect_unclosed {t : Token} {s : Span} {r : Remainder} (budget : List Lexeme)
    (ht : t ≠ .mark .rightBrace) (ht' : t ≠ .mark .semicolon)
    (h : member env ⟨.token t s :: ls, log⟩ = .halted .unclosed r) :
    collect (bodyTurn kind opening member) budget env ⟨.token t s :: ls, log⟩ =
      .halted .unclosed r := by
  refine collect_halted ?_ budget
  rw [bodyTurn_token ht ht', h]

/-- A loop goes on behind a member, and is halted where it is halted then. -/
theorem collect_unclosed_behind {t : Token} {s : Span} {l : Lexeme} {turns : List Lexeme} {m : α}
    {r r' : Remainder} (ht : t ≠ .mark .rightBrace) (ht' : t ≠ .mark .semicolon)
    (h : member env ⟨.token t s :: ls, log⟩ = .done m r)
    (hrest : collect (bodyTurn kind opening member) turns env r = .halted .unclosed r') :
    collect (bodyTurn kind opening member) (l :: turns) env ⟨.token t s :: ls, log⟩ =
      .halted .unclosed r' := by
  have hturn : bodyTurn kind opening member env ⟨.token t s :: ls, log⟩ = .done (.yield m) r := by
    rw [bodyTurn_token ht ht', h]
  rw [collect, bind_done hturn]
  exact bind_halted hrest

/-- A loop that has a member stuck comes to the end of the source. -/
theorem fatal_collect_stuck {t : Token} {s : Span} {budget : List Lexeme}
    (ht : t ≠ .mark .rightBrace) (ht' : t ≠ .mark .semicolon)
    (hlen : (Lexeme.token t s :: ls).length ≤ budget.length)
    (h : Stuck log (member env ⟨.token t s :: ls, log⟩)) :
    Fatal log kind opening
      (collect (bodyTurn kind opening member) budget env ⟨.token t s :: ls, log⟩) := by
  cases budget with
  | nil => cases hlen
  | cons l budget =>
      cases hrun : member env ⟨.token t s :: ls, log⟩ with
      | done m r =>
          rw [hrun] at h
          cases h with
          | @done _ new quiet =>
              have hend : Fatal (new ++ log) kind opening
                  (collect (bodyTurn kind opening member) budget env ⟨[], new ++ log⟩) :=
                fatal_collect_nil member budget
              exact (hend.of_eq fun r hr => collect_unclosed_behind ht ht' hrun hr).prepend quiet
      | halted reason r =>
          rw [hrun] at h
          cases h with
          | @mismatch new quiet =>
              have hturn : bodyTurn kind opening member env ⟨.token t s :: ls, log⟩ =
                  .done .skip ⟨[], new ++ log⟩ := by
                rw [bodyTurn_token ht ht', hrun]
                rfl
              rw [collect_skip hturn]
              exact (fatal_collect_nil member budget).prepend quiet

end Turns

/-! ### Declarations at a cut -/

variable {w : Cut} {offset : Nat} {before front rest : List Lexeme} {log : List Diagnostic}

theorem Cut.Keeps.retold (h : w.Keeps front) : Retold w.source w.pre front front :=
  .here h.clean fun _ s _ s' hs hs' =>
    h.text s (mem_spans_of_token hs) s' (mem_spans_of_token hs')

/-- A declaration starts with no semicolon and no closing brace. -/
theorem Parser.Declares.exists_first {α γ : Type} {n : Nat} {b : α → γ} {p : Parser α} {R : Rule α}
    (h : Declares n b p R) {source : List Char} {l : Lexeme} {ls rest : List Lexeme} {a : α}
    {ds : List Diagnostic} (hR : R source (l :: ls) a ds rest) :
    ∃ t s, l = .token t s ∧ t ≠ .mark .rightBrace ∧ t ≠ .mark .semicolon := by
  obtain ⟨t, ht, hsemi, hright⟩ := h.opens _ _ _ _ _ hR trivial
  obtain ⟨s, tail, hls⟩ := exists_of_nextToken? ht
  exact ⟨t, s, (List.cons.inj hls).1, hright, hsemi⟩

/-- A declaration before the cut is read where the rest is missing, too. -/
theorem Parser.Declares.exists_before {α γ : Type} {n : Nat} {b : α → γ} {p : Parser α} {R : Rule α}
    (h : Declares n b p R) (hw : w.Keeps front) (hrest : rest <:+ front) (hlen : front.length ≤ n)
    {a : α} (hR : R w.source (front ++ w.back) a [] (rest ++ w.back)) (inBody : Bool)
    (log : List Diagnostic) : ∃ a', p ⟨w.pre, inBody⟩ ⟨front, log⟩ = .done a' ⟨rest, log⟩ := by
  obtain ⟨taken, htaken, -, hretold⟩ := h.retells w.source w.pre _ a [] _ hR
  rw [← List.append_assoc] at htaken
  obtain rfl := List.append_cancel_right htaken
  have hkept : w.Keeps taken := hw.of_sublist (List.sublist_append_left taken rest)
  obtain ⟨a', ds', hR', -, hds⟩ := hretold taken rest hkept.retold nofun
  obtain rfl : ds' = [] := List.map_eq_nil_iff.mp hds
  exact ⟨a', (h.complete ⟨w.pre, inBody⟩ _ log a' [] rest hw.clean hlen hR').2⟩

/--
A loop over members that is cut among the tokens `inner`.  The members lie behind the cut in part,
and what is reported is the innermost body among them that is open, or that of the loop.
-/
def Unfinished (w : Cut) (offset : Nat) (inner : List Lexeme) : Prop :=
  ∀ (k : BodyKind) before ms opening closing rest log budget,
    w.Parts offset (before ++ inner) →
    Rule.Members k.rule w.source (inner ++ w.back) ms []
      (.token (.mark .rightBrace) closing :: rest) →
    .token (.mark .rightBrace) closing :: rest <:+ w.back → inner.length ≤ budget.length →
    ∃ kind s, Reported w.source offset (ms.flatMap k.bodies) k opening kind s ∧
      Fatal log kind s (many (bodyTurn k opening (k.member budget)) ⟨w.pre, true⟩ ⟨inner, log⟩)

/-- If the cut goes through a declaration, none of its bodies is open or the innermost is reported. -/
theorem Parser.Leads.fatal {α : Type} {n : Nat} {bodies : α → List BodyNode} {p p' : Parser α}
    (h : Leads n bodies p p') {s : Span} {a : α} {inBody : Bool}
    (hw : w.Parts offset (before ++ front)) (hlen : front.length ≤ n)
    (hparted : Parted w offset front rest s (bodies a))
    (hrun : p ⟨w.source, inBody⟩ ⟨front ++ w.back, log⟩ = .done a ⟨rest, log⟩)
    (hloop : ∀ xs : List Lexeme, xs.length < front.length → Unfinished w offset xs) :
    (NoneOpen w.source offset (bodies a) ∧
      (bodies a = [] ∨ ∀ l ∈ front, l.isOpening = false)) ∨
    ∃ b opening, Innermost w.source offset (bodies a) b opening ∧
      Fatal log b.kind opening (p' ⟨w.pre, inBody⟩ ⟨front, log⟩) := by
  obtain ⟨bs, hbodies⟩ : ∃ bs, bodies a = bs := ⟨_, rfl⟩
  rw [hbodies] at hparted ⊢
  cases hparted with
  | outside none unopened => exact .inl ⟨none, unopened⟩
  | @inside k header inner ms members opening closing tokens entered derived behind isOpen within =>
      subst tokens
      rw [List.length_append, List.length_cons] at hlen
      obtain ⟨budget, hbudget, hunclosed⟩ := h.unclosed w inBody header opening inner log a rest _ _
        entered (by omega) hrun hbodies
      have hw' : w.Parts offset
          ((before ++ (header ++ [.token (.mark .leftBrace) opening])) ++ inner) := by
        simpa using hw
      obtain ⟨kind, s', hreported, hfatal⟩ := hloop inner (by
          rw [List.length_append, List.length_cons]
          omega) k _ ms opening closing rest log budget hw' derived behind hbudget
      obtain ⟨b, hinnermost, rfl⟩ := hreported.exists_innermost isOpen within
      exact .inr ⟨b, s', hinnermost, hfatal.of_eq hunclosed⟩

/-- What becomes of a member that the cut goes through. -/
inductive Broken {α : Type} (w : Cut) (offset : Nat) (bodies : List BodyNode)
    (log : List Diagnostic) (o : Outcome α) : Prop
  | stuck (none : NoneOpen w.source offset bodies) (stuck : Stuck log o)
  | fatal {b : BodyNode} {opening : Span}
      (innermost : Innermost w.source offset bodies b opening)
      (fatal : Fatal log b.kind opening o)

/-- A member is broken, given what becomes of the loops within it. -/
theorem broken_member {k : BodyKind} {m : k.Member} {budget : List Lexeme}
    (hw : w.Parts offset (before ++ front)) (hne : front ≠ [])
    (hlen : front.length ≤ budget.length) (hrest : rest <:+ w.back)
    (hlt : rest.length < w.back.length)
    (hR : k.rule w.source (front ++ w.back) m [] rest)
    (hloop : ∀ xs : List Lexeme, xs.length < front.length → Unfinished w offset xs) :
    Broken w offset (k.bodies m) log (k.member budget ⟨w.pre, true⟩ ⟨front, log⟩) := by
  obtain ⟨l, front, rfl⟩ := List.exists_cons_of_ne_nil hne
  cases budget with
  | nil => cases hlen
  | cons l' budget =>
      have hkeeps := hw.keeps_right
      have hrun := (((k.declares (l :: front ++ w.back)).complete ⟨w.source, true⟩ _ log m [] rest
        hkeeps.all (Nat.le_refl _) hR).2 : _ = Outcome.done m ⟨rest, log⟩)
      have hbreaks := Breaks.member l l' (front ++ w.back) budget k
      have hparted := parted k.spans_rule k.shapes_rule hw hR hrest hlt
      rcases hbreaks.leads.fatal hw hlen hparted hrun hloop with
        ⟨hnone, hplain⟩ | ⟨b, opening, hinnermost, hfatal⟩
      · exact .stuck hnone (hbreaks.stuck w _ log m rest hkeeps hrun hrest hplain)
      · exact .fatal hinnermost hfatal

/-! ### The loop -/

section Loop

variable {k : BodyKind} {opening : Span} {budget : List Lexeme}

/-- A loop that starts at the cut. -/
theorem exists_reported_nil {ms : List k.Member} {ls tail : List Lexeme}
    (hw : w.Parts offset (before ++ [])) (hls : ls = [] ++ w.back)
    (h : Rule.Members k.rule w.source ls ms [] tail) (turns : List Lexeme) :
    ∃ kind s, Reported w.source offset (ms.flatMap k.bodies) k opening kind s ∧
      Fatal log kind s
        (collect (bodyTurn k opening (k.member budget)) turns ⟨w.pre, true⟩ ⟨[], log⟩) :=
  ⟨k, opening, .own (noneOpen_at_cut k.spans_rule k.shapes_rule hw hls h), fatal_collect_nil _ _⟩

/-- What a rule leaves is some of the tokens before the cut and all behind it, or less. -/
theorem cut_cases {mid back : List Lexeme} (hmid : mid <:+ front ++ back) :
    (∃ kept, mid = kept ++ back ∧ kept <:+ front) ∨ mid <:+ back ∧ mid.length < back.length := by
  by_cases hlt : mid.length < back.length
  · exact .inr ⟨List.suffix_of_suffix_length_le hmid (List.suffix_append _ _) (by omega), hlt⟩
  · obtain ⟨kept, rfl⟩ := List.suffix_of_suffix_length_le (List.suffix_append front back) hmid
      (by omega)
    obtain ⟨taken, htaken⟩ := hmid
    rw [← List.append_assoc] at htaken
    exact .inl ⟨kept, rfl, taken, List.append_cancel_right htaken⟩

/-- The induction is on the members; those before the cut are read, and the next one ends it. -/
theorem exists_reported {ms : List k.Member} {ds : List Diagnostic} {ls tail : List Lexeme}
    (h : Rule.Members k.rule w.source ls ms ds tail) :
    ∀ before inner log (turns : List Lexeme), ds = [] → tail <:+ w.back →
      ls = inner ++ w.back → inner.length ≤ budget.length → inner.length ≤ turns.length →
      w.Parts offset (before ++ inner) →
      (∀ xs : List Lexeme, xs.length < inner.length → Unfinished w offset xs) →
      ∃ kind s, Reported w.source offset (ms.flatMap k.bodies) k opening kind s ∧
        Fatal log kind s
          (collect (bodyTurn k opening (k.member budget)) turns ⟨w.pre, true⟩ ⟨inner, log⟩) := by
  induction h with
  | nil ls =>
      intro before inner log turns _ htail hls _ _ hw _
      have hle := htail.length_le
      rw [hls, List.length_append] at hle
      obtain rfl : inner = [] := List.eq_nil_of_length_eq_zero (by omega)
      exact exists_reported_nil hw hls (.nil ls) turns
  | @semicolon ls tail s ms ds others ih =>
      intro before inner log turns hds htail hls hbudget hturns hw hloop
      subst hds
      cases inner with
      | nil => exact exists_reported_nil hw hls (.semicolon others) turns
      | cons l inner =>
          obtain ⟨rfl, hls'⟩ := List.cons.inj hls
          rw [List.length_cons] at hbudget hturns hloop
          obtain ⟨l, turns, rfl⟩ := List.exists_cons_of_length_pos (by omega : 0 < turns.length)
          rw [List.length_cons] at hturns
          rw [collect_skip (bodyTurn_semicolon rfl)]
          have hw' : w.Parts offset ((before ++ [.token (.mark .semicolon) s]) ++ inner) := by
            simpa using hw
          exact ih _ inner log turns rfl htail hls' (by omega) (by omega) hw' fun xs hlt =>
            hloop xs (by omega)
  | @member ls mid tail m ms ds₁ ds₂ first others ih =>
      intro before inner log turns hds htail hls hbudget hturns hw hloop
      obtain ⟨rfl, rfl⟩ := List.append_eq_nil_iff.mp hds
      cases inner with
      | nil => exact exists_reported_nil hw hls (.member first others) turns
      | cons l inner =>
          subst hls
          rw [List.flatMap_cons]
          obtain ⟨t, s, rfl, hright, hsemi⟩ := (k.declares budget).exists_first first
          obtain ⟨hsuf, hshort⟩ := (k.declares budget).exists_front first
          rcases cut_cases hsuf with ⟨kept, rfl, hkept⟩ | ⟨hback, hlt⟩
          · -- This member ends before the cut and is read as in the whole source.
            have hnone := noneOpen_of_before k.spans_rule k.shapes_rule hw hkept first
            obtain ⟨m', hrun⟩ :=
              (k.declares budget).exists_before hw.keeps_right hkept hbudget first true log
            obtain ⟨taken, htaken⟩ := hkept
            rw [List.length_append, List.length_append] at hshort
            obtain ⟨l, turns, rfl⟩ := List.exists_cons_of_length_pos (by omega : 0 < turns.length)
            have hturns : (Lexeme.token t s :: inner).length ≤ turns.length + 1 := hturns
            have hw' : w.Parts offset ((before ++ taken) ++ kept) := by
              rwa [List.append_assoc, htaken]
            obtain ⟨kind, s', hreported, hfatal⟩ := ih _ kept log turns rfl htail rfl (by omega)
              (by omega) hw' fun xs hxs => hloop xs (by omega)
            exact ⟨kind, s', hreported.append_left hnone,
              hfatal.of_eq fun r hr => collect_unclosed_behind hright hsemi hrun hr⟩
          · -- The cut goes through this member: a body of it is open, or the one around it is.
            have hbehind := noneOpen_of_members k.spans_rule k.shapes_rule hw hback others
            cases broken_member hw nofun hbudget hback hlt first hloop with
            | stuck none stuck =>
                exact ⟨k, opening, .own (none.append hbehind),
                  fatal_collect_stuck hright hsemi hturns stuck⟩
            | fatal innermost fatal =>
                exact ⟨_, _, .inner (innermost.append_right hbehind),
                  fatal.of_eq fun r hr => collect_unclosed turns hright hsemi hr⟩

end Loop

/-- Every loop that is cut is unfinished. -/
theorem unfinished (w : Cut) (offset : Nat) (inner : List Lexeme) : Unfinished w offset inner := by
  induction hn : inner.length using Nat.strongRecOn generalizing inner with
  | ind n ih =>
      subst hn
      intro k before ms opening closing rest log budget hw hmembers htail hbudget
      exact exists_reported hmembers before inner log inner rfl htail rfl hbudget (Nat.le_refl _) hw
        fun xs hlt => ih xs.length hlt xs rfl

end ProtoSchema
