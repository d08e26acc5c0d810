/-
What is set, used or chosen again stands behind where it was before.

A diagnostic about a repetition names two places, and it is about the second one.  A walk keeps
what it met with its place, and compares what it meets with that; so the first place lies before
the second one whenever the walk goes through the source in order (`Forward`).  The loop over the
statements of a file does so, and so does each walk over the options or the fields of a declaration,
since the tree keeps those in sequence.
-/
import ProtoSchema.Proofs.Parsing.Places
import ProtoSchema.Proofs.Positions.Checks
import ProtoSchema.Proofs.Positions.Sequence

namespace ProtoSchema

namespace Diagnostic

/-- If a diagnostic is about a repetition, its first place lies before the second one. -/
def Forward (d : Diagnostic) : Prop :=
  ∀ first second, d.repetition? = some (first, second) → first.stop ≤ second.start

end Diagnostic

variable {source : List Char} {lo : Nat}

/-! ### Statements -/

/-- A choice of a dialect and a package are compared with those that were read before. -/
theorem File.Upto.forward_place {file : File} {st : Statement} (hf : file.Upto source lo)
    (hst : lo ≤ st.span.start) (first : Bool) :
    ∀ d ∈ (file.place first st).2, d.Forward := by
  intro d hd
  cases st with
  | dialect choice span =>
      unfold File.place at hd
      dsimp only at hd
      split at hd
      · rename_i earlier hearlier
        obtain rfl := List.mem_singleton.mp hd
        intro a b hab
        cases hab
        exact Nat.le_trans (hf.dialectSpan earlier hearlier) hst
      · split at hd
        · cases hd
        · obtain rfl := List.mem_singleton.mp hd
          intro a b hab
          cases hab
  | package p =>
      unfold File.place at hd
      dsimp only at hd
      split at hd
      · rename_i earlier hearlier
        obtain rfl := List.mem_singleton.mp hd
        intro a b hab
        cases hab
        have hmem : Statement.package earlier ∈ file.statements := by
          simp [statements, hearlier]
        exact Nat.le_trans (hf.read _ hmem) hst
      · cases hd
  | _ => cases hd

namespace Parser

open Remainder

variable {draft : Draft} {ls rest : List Lexeme} {log : List Diagnostic}

theorem PlacelessAhead.of_placed {r : Remainder} (hr : r.Placed source lo) :
    PlacelessAhead r.lexemes := fun d hd => PlacelessAhead.scan source d (hr.lexemes _ hd)

/-- A part of a file stands behind what was read before. -/
theorem forward_pass {p : FilePart} {inBody : Bool} (hd : draft.file.Upto source lo)
    (hr : Placed source lo ⟨ls, log⟩) (hat : p.At ⟨source, inBody⟩ ls rest) :
    ∀ d ∈ (draft.pass p).2, d.Forward := by
  unfold Draft.pass
  cases hst : p.statement? with
  | none => exact fun d hd => (List.not_mem_nil hd).elim
  | some st =>
      obtain ⟨log', hrun⟩ := (hat.statement hst).done Oblivious.hereditary.statement log
      have htraced := Traces.statement lo inBody ⟨ls, log⟩ hr
      rw [hrun] at htraced
      obtain ⟨hi, -, hlies, -⟩ := htraced
      exact hd.forward_place hlies.within.after draft.first

/-- All that a log tells about the places of statements is about later ones. -/
def ForwardPlaces (log : List Diagnostic) : Prop := ∀ d ∈ placesAmong log.reverse, d.Forward

section

variable {r : Remainder} (hr : r.Placed source lo) (hd : draft.file.Upto source lo)
  (hlog : ForwardPlaces r.log)

include hr hd hlog

theorem forward_nextStatement :
    ForwardPlaces (nextStatement draft ⟨source, false⟩ r).rest.log := by
  have hover : TurnOver ⟨source, false⟩ draft r.lexemes r.log
      (nextStatement draft ⟨source, false⟩ r) :=
    turnOver_nextStatement rfl (.of_placed hr) draft r.log
  unfold ForwardPlaces at hlog ⊢
  generalize nextStatement draft ⟨source, false⟩ r = o at hover
  cases hover with
  | part hat hplaces =>
      rw [Outcome.rest, hplaces]
      exact List.forall_mem_append.mpr ⟨hlog, forward_pass hd hr hat⟩
  | stop _ hplaces | semicolon _ hplaces | halted hplaces =>
      rw [Outcome.rest, hplaces]
      exact hlog

end

theorem forward_evolve (budget : List Lexeme) : ∀ {lo : Nat} {draft : Draft} {r : Remainder},
    r.Placed source lo → draft.file.Upto source lo → ForwardPlaces r.log →
    ForwardPlaces (evolve nextStatement budget draft ⟨source, false⟩ r).rest.log := by
  -- On the budget; the invariant is that the file was read up to the place where the rest begins.
  induction budget with
  | nil =>
      intro lo draft r hr hd hlog
      have hforward := forward_nextStatement hr hd hlog
      unfold evolve
      rw [bind_run]
      cases ho : nextStatement draft ⟨source, false⟩ r with
      | halted reason r' =>
          rw [ho] at hforward
          exact hforward
      | done next r' =>
          rw [ho] at hforward
          cases next <;> exact hforward
  | cons l budget ih =>
      intro lo draft r hr hd hlog
      have hforward := forward_nextStatement hr hd hlog
      have htraced := Traces.nextStatement_upto lo draft hd false r hr
      unfold evolve
      rw [bind_run]
      cases ho : nextStatement draft ⟨source, false⟩ r with
      | halted reason r' =>
          rw [ho] at hforward
          exact hforward
      | done next r' =>
          rw [ho] at hforward htraced
          obtain ⟨hi, -, hnext, hr'⟩ := htraced
          cases next with
          | none => exact hforward
          | some d => exact ih hr' (hnext d rfl) hforward

end Parser

/-- What parsing reports as a repetition is about a later statement. -/
theorem forward_of_parseFile : ∀ d ∈ (parseFile source).diagnostics, d.Forward := by
  have hforward : Parser.ForwardPlaces
      (Parser.iterate Parser.nextStatement ⟨.empty, true⟩ ⟨source, false⟩
        ⟨scan source, []⟩).rest.log :=
    Parser.forward_evolve (scan source) (.start source) (.empty source 0)
      fun d hd => (List.not_mem_nil hd).elim
  intro d hd first second hrepeats
  have hplace : d.isOfPlace = true := by
    have hcategory := category_ne_semantic_of_parseFile hd
    cases d <;> first | rfl | exact (hcategory rfl).elim | cases hrepeats
  refine hforward d (List.mem_filter.mpr ⟨?_, hplace⟩) first second hrepeats
  unfold parseFile Parser.file at hd
  rw [Parser.bind_run] at hd
  cases hrun : Parser.iterate Parser.nextStatement ⟨.empty, true⟩ ⟨source, false⟩
      ⟨scan source, []⟩ <;> rw [hrun] at hd <;> exact hd

/-! ### Options and numbers -/

/-- One stretch ends where the other one starts, or before. -/
def Span.Before (s t : Span) : Prop := s.stop ≤ t.start

theorem Diagnostic.admits_forward :
    Admits source Span.Before Diagnostic.Forward where
  plain d h a b hab := by
    rw [h.single] at hab
    cases hab
  repeated h _ _ hbefore a b hab := by
    obtain ⟨rfl, rfl⟩ := Prod.mk.inj (Option.some.inj (h.symm.trans hab))
    exact hbefore

section

variable {α β : Type} [Node α] [Node β] {a : α} {b : β} {xs : List α} {outer : Span}

theorem Precedes.related (h : Precedes a b) : Related source Span.Before a b :=
  fun _ _ hs ht => Nat.le_trans hs.before (Nat.le_trans h ht.after)

theorem related_of_pairwise (h : xs.Pairwise Precedes) :
    xs.Pairwise (Related source Span.Before) := h.imp Precedes.related

/-- Nodes that stand within others are in the order of these. -/
theorem Precedes.within {α' β' : Type} [Node α'] [Node β'] {a' : α'} {b' : β'} (h : Precedes a b)
    (ha : Lies source (Node.span a) a') (hb : Lies source (Node.span b) b') : Precedes a' b' :=
  h.related _ _ ha.within hb.within

theorem settings_pairwise {os : List OptionStatement} (hos : ∀ o ∈ os, Lies source outer o)
    (h : os.Pairwise Precedes) :
    (Context.settings os).Pairwise (Related source Span.Before) := by
  refine related_of_pairwise (List.pairwise_map.mpr ?_)
  exact h.imp_of_mem fun ha hb hab => hab.within (hos _ ha).nested (hos _ hb).nested

/-- The fields of a message stand in the order of the items that contribute them. -/
theorem fields_pairwise {items : List MessageItem} (hlies : ∀ i ∈ items, Lies source outer i)
    (h : items.Pairwise Precedes) (hseq : ∀ i ∈ items, i.Sequential) :
    (items.flatMap MessageItem.fields).Pairwise Precedes := by
  refine List.pairwise_flatMap.mpr ⟨fun i hi => ?_, ?_⟩
  · cases hseq i hi with
    | field _ => exact List.pairwise_singleton _ _
    | oneof ho => exact ho.fields.line
    | _ => exact .nil
  · refine h.imp_of_mem fun {i j} hi hj hij f hf g hg => ?_
    exact hij.within (lies_field (hlies i hi) hf) (lies_field (hlies j hj) hg)

end

/-- What a file holds is in the order of the source. -/
theorem File.Upto.holds {file : File} (hf : file.Upto source lo) {scope : FullName}
    {item : MessageItem} (h : file.Holds scope item) : item.Sequential := by
  induction h with
  | @message m hm =>
      have hmem : Statement.message m ∈ file.statements := by simp [File.statements, hm]
      exact hf.sequential _ hmem
  | @enum e he =>
      have hmem : Statement.enum e ∈ file.statements := by simp [File.statements, he]
      exact .enum (hf.sequential _ hmem)
  | @extend e he =>
      have hmem : Statement.extend e ∈ file.statements := by simp [File.statements, he]
      exact .extend (hf.sequential _ hmem)
  | within _ hitem ih =>
      cases ih with
      | message _ _ _ hitems => exact hitems _ hitem

/-- The options of a file stand in the order of the source. -/
theorem File.Upto.options_pairwise {file : File} (hf : file.Upto source lo) :
    file.options.Pairwise Precedes := by
  have hsublist : (file.options.map Statement.option).Sublist file.statements := by
    unfold File.statements
    simp only [List.append_assoc]
    exact ((List.sublist_append_left _ _).trans (List.sublist_append_right _ _)).trans
      (List.sublist_append_right _ _)
  refine (List.pairwise_map.mp (hf.filed.sublist hsublist)).imp fun h => ?_
  rcases h with hbefore | ⟨hrank, -⟩
  · exact hbefore
  · exact absurd hrank (Nat.lt_irrefl _)

/-- What checking a file reports as a repetition stands behind what it repeats. -/
theorem forward_describe {file : File} (hf : file.Upto source lo) (name : String)
    (symbols : SymbolTable) : Checked.All Diagnostic.Forward (file.describe name symbols) := by
  have hadmits : Diagnostic.Admits source Span.Before Diagnostic.Forward :=
    Diagnostic.admits_forward
  -- A file holds its nodes in line, and every check compares a node with those before it.
  refine .describe name (fun scope f h => ?_) (fun scope o h => ?_) (fun scope e h => ?_)
    (fun scope e h => ?_) (fun scope m h => ?_) (fun s hs => ?_) ?_
  · cases hf.holds h with
    | field hseq =>
        exact .fieldParts _ scope hadmits 0 (hf.liesIn.holds h).of_field (related_of_pairwise hseq)
  · have ho := (hf.liesIn.holds h).of_oneof
    cases hf.holds h with
    | oneof hseq =>
        exact .oneofParts _ scope hadmits 0 ho (fun f hf => related_of_pairwise (hseq.within f hf))
          (settings_pairwise ho.nested.options hseq.options)
  · have he := (hf.liesIn.holds h).of_enum
    cases hf.holds h with
    | enum hseq =>
        exact .enum _ hadmits he (fun v hv => related_of_pairwise (hseq.within v hv))
          (settings_pairwise he.nested.options hseq.options)
  · cases hf.holds h with
    | extend hseq =>
        exact .extensions _ scope hadmits (hf.liesIn.holds h).of_extend
          fun f hf => related_of_pairwise (hseq.within f hf)
  · have hm := (hf.liesIn.holds h).of_message
    cases hf.holds h with
    | message hoptions hitems hextensions hwithin =>
        obtain ⟨-, hlies, holies, -⟩ := hm.parts_of_message
        exact .closing _ scope hadmits hm (fun e he => related_of_pairwise (hextensions e he))
          (related_of_pairwise (fields_pairwise hlies hitems.line hwithin))
          (settings_pairwise holies hoptions)
  · have hlies := hf.liesIn.services s hs
    have hmem : Statement.service s ∈ file.statements := by simp [File.statements, hs]
    have hseq : s.Sequential := hf.sequential _ hmem
    refine .service _ _ hadmits hlies (fun m hm => ?_)
      (settings_pairwise hlies.nested.options hseq.options)
    exact settings_pairwise (hlies.nested.methods m hm).nested.options (hseq.within m hm)
  · exact .optionsOf hadmits (lies_settings hf.liesIn.options)
      (settings_pairwise hf.liesIn.options hf.options_pairwise)

end ProtoSchema
