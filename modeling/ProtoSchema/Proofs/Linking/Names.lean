/-
Full names and their texts.

The text of a full name joins the names of its chain by dots.  As long as no name holds a
dot itself, the text tells the names: two chains with the same text are the same chain.  So
to find what a text stands for it is enough to know what its chain stands for, and a
declaration that no other one shares the chain with is the only one of its text.

Words hold no dots, and neither does the name of a map entry, as it is made of the characters
of the name of its field.
-/
import ProtoSchema.Proofs.Linking.DerivedNames
import ProtoSchema.Proofs.Rendering.Spelling
import ProtoSchema.Symbol.Declared

namespace ProtoSchema

/-! ### Texts between dots -/

namespace Text

theorem segments_of_not_mem {separator : Char} (cs : List Char) (h : separator ∉ cs) :
    segments separator cs = [cs] := by
  induction cs with
  | nil => rfl
  | cons c cs ih =>
      rw [List.mem_cons, not_or] at h
      rw [segments, if_neg (Ne.symm h.1), ih h.2]

theorem segments_append {separator : Char} (cs rest : List Char) (h : separator ∉ cs) :
    segments separator (cs ++ separator :: rest) = cs :: segments separator rest := by
  induction cs with
  | nil => rw [List.nil_append, segments, if_pos rfl]
  | cons c cs ih =>
      rw [List.mem_cons, not_or] at h
      rw [List.cons_append, segments, if_neg (Ne.symm h.1), ih h.2]

/-- What was joined by separators is what stands between them. -/
theorem segments_intercalate {separator : Char} (parts : List (List Char)) (hne : parts ≠ [])
    (h : ∀ p ∈ parts, separator ∉ p) :
    segments separator ([separator].intercalate parts) = parts := by
  induction parts with
  | nil => exact absurd rfl hne
  | cons p ps ih =>
      have hp := h p List.mem_cons_self
      by_cases hps : ps = []
      · rw [hps, List.intercalate_singleton]
        exact segments_of_not_mem p hp
      · have hrest := ih hps fun q hq => h q (List.mem_cons_of_mem p hq)
        rw [List.intercalate_cons_of_ne_nil hps, List.append_assoc, List.singleton_append,
          segments_append p _ hp, hrest]

end Text

/-! ### Names without dots -/

/-- Nothing in a name separates it. -/
def Undotted (name : String) : Prop := '.' ∉ name.toList

theorem undotted_of_isWord {word : String} (h : isWord word = true) : Undotted word := by
  unfold isWord at h
  unfold Undotted
  split at h
  · cases h
  · rename_i c cs heq
    obtain ⟨hc, hcs⟩ := Bool.and_eq_true_iff.mp h
    rw [heq, List.mem_cons, not_or]
    refine ⟨fun hdot => ?_, fun hmem => ?_⟩
    · rw [← hdot] at hc
      exact absurd hc (by decide)
    · exact absurd (List.all_eq_true.mp hcs _ hmem) (by decide)

theorem dot_not_mem_joinWords {cs : List Char} (h : '.' ∉ cs) (capital : Bool) :
    '.' ∉ joinWords capital cs := by
  intro hdot
  obtain ⟨c, hc, -, rfl | hupper⟩ := exists_of_mem_joinWords hdot
  · exact h hc
  · exact h (eq_of_toUpper_eq (by decide) hupper ▸ hc)

theorem Undotted.mapEntryName {name : String} (h : Undotted name) :
    Undotted (mapEntryName name) := by
  unfold Undotted ProtoSchema.mapEntryName pascalCase
  rw [String.toList_append, String.toList_ofList, List.mem_append, not_or]
  exact ⟨dot_not_mem_joinWords h true, by decide⟩

/-! ### Chains of such names -/

namespace FullName

/-- No name of the chain is separated by anything. -/
def IsUndotted (n : FullName) : Prop := ∀ name ∈ n.chain, Undotted name

theorem isUndotted_root : root.IsUndotted := by
  intro name hname
  simp [root] at hname

theorem IsUndotted.child {scope : FullName} {name : String} (hs : scope.IsUndotted)
    (hn : Undotted name) : (scope.child name).IsUndotted := by
  intro other hother
  rcases List.mem_cons.mp hother with heq | hmem
  · rw [heq]
    exact hn
  · exact hs other hmem

theorem IsUndotted.descend {scope : FullName} {names : List String} (hs : scope.IsUndotted)
    (hn : ∀ name ∈ names, Undotted name) : (scope.descend names).IsUndotted := by
  induction names generalizing scope with
  | nil => exact hs
  | cons name names ih =>
      rw [descend_cons]
      refine ih (hs.child (hn name List.mem_cons_self)) ?_
      exact fun other hother => hn other (List.mem_cons_of_mem name hother)

/-- What encloses a scope has no other names than the scope. -/
theorem IsUndotted.enclosing {scope p : FullName} (hs : scope.IsUndotted)
    (hp : p ∈ scope.enclosing) : p.IsUndotted :=
  fun name hname => hs name ((mem_enclosing_iff.mp hp).subset hname)

/-- **A text stands for one chain of names.** -/
theorem text_injective {m n : FullName} (hm : m.IsUndotted) (hn : n.IsUndotted)
    (hm0 : m.chain ≠ []) (hn0 : n.chain ≠ []) (h : m.text = n.text) : m = n := by
  have hsegments : ∀ k : FullName, k.IsUndotted → k.chain ≠ [] →
      Text.segments '.' k.text.toList = k.names.map String.toList := by
    intro k hk hk0
    unfold text
    rw [String.toList_intercalate]
    refine Text.segments_intercalate _ (by simpa [names] using hk0) ?_
    intro p hp
    obtain ⟨name, hname, rfl⟩ := List.mem_map.mp hp
    exact hk name (List.mem_reverse.mp hname)
  have hnames : m.names.map String.toList = n.names.map String.toList := by
    rw [← hsegments m hm hm0, ← hsegments n hn hn0, h]
  have hchain : m.chain = n.chain :=
    List.reverse_inj.mp ((List.map_inj_right fun _ _ hst => String.toList_inj.mp hst).mp hnames)
  obtain ⟨ms⟩ := m
  obtain ⟨ns⟩ := n
  exact congrArg FullName.mk hchain

/-! ### Without a dot at the front -/

theorem dropDot_of_undotted {name : String} (h : Undotted name) : dropDot name = name := by
  unfold dropDot
  split
  · rename_i cs hcs
    rw [Undotted, hcs] at h
    exact absurd List.mem_cons_self h
  · rfl

theorem chainWithoutDot_of_undotted (chain : List String) (h : ∀ name ∈ chain, Undotted name) :
    chainWithoutDot chain = chain := by
  induction chain with
  | nil => rfl
  | cons name rest ih =>
      have hrest := ih fun other hother => h other (List.mem_cons_of_mem name hother)
      cases rest with
      | nil => rw [chainWithoutDot, dropDot_of_undotted (h name List.mem_cons_self)]
      | cons outer rest => rw [chainWithoutDot, hrest]; simp

/-- A name without dots has none to lose. -/
theorem IsUndotted.withoutDot {n : FullName} (h : n.IsUndotted) : n.withoutDot = n := by
  unfold FullName.withoutDot
  have hdot : n.chain ≠ ["."] := by
    intro hc
    have hmem : "." ∈ n.chain := by rw [hc]; exact List.mem_singleton.mpr rfl
    exact h "." hmem (by decide)
  rw [if_neg hdot, chainWithoutDot_of_undotted n.chain h]

end FullName

end ProtoSchema
