/-
What a reference means is decided by scopes.

An absolute reference means the name that it spells, wherever it stands.  A relative one is
looked for from the inside outwards, and the innermost scope that can tell decides: for a single
name it is the innermost one that declares a type of that name, and for a dotted name the
innermost one that declares the first name as something that holds other names.  What scopes
further out declare does not matter then, even if nothing is found.

This is said here of chains of names, and then of texts.  A text spells one chain, and the text
of a name in a scope is the text of the scope, a dot, and the name.
-/
import ProtoSchema.Proofs.Linking.Symbols

namespace ProtoSchema

/-! ### The scope that decides -/

namespace SymbolTable

/-- A full name stands for a type of some kind. -/
def HasType (t : SymbolTable) (n : FullName) (k : DefinitionKind) : Prop :=
  t.kind? n = some k ∧ k.isType = true

/--
A scope declares the first name of a reference as what is needed there: as a type if no other
names follow, and otherwise as something that names can be declared within.
-/
def Decides (t : SymbolTable) (first : String) (rest : List String) (scope : FullName) : Prop :=
  ∃ k, t.kind? (scope.child first) = some k ∧
    (if rest = [] then k.isType else k.isScope) = true

/-- The innermost scope, of one and those around it, that decides what a reference means. -/
structure IsDecisive (t : SymbolTable) (first : String) (rest : List String)
    (scope p : FullName) : Prop where
  encloses : p ∈ scope.enclosing
  decides : t.Decides first rest p
  innermost : ∀ q ∈ scope.enclosing, p ∈ q.enclosing → q ≠ p → ¬t.Decides first rest q

variable {t : SymbolTable} {first : String} {rest : List String} {scope p n : FullName}
  {k : DefinitionKind}

theorem type?_eq_some_iff {m : FullName} : t.type? n = some (m, k) ↔ m = n ∧ t.HasType n k := by
  constructor
  · intro h
    obtain ⟨hm, htype, hkind⟩ := type?_eq_some h
    exact ⟨hm, hkind, htype⟩
  · rintro ⟨rfl, hkind, htype⟩
    simp [type?, hkind, htype]

theorem type?_eq_none_iff : t.type? n = none ↔ ∀ k, ¬t.HasType n k := by
  rw [Option.eq_none_iff_forall_ne_some]
  constructor
  · intro h k htype
    exact h (n, k) (type?_eq_some_iff.mpr ⟨rfl, htype⟩)
  · rintro h ⟨m, k⟩ heq
    exact h k (type?_eq_some_iff.mp heq).2

/-- With a single name, the scope that decides has the type. -/
theorem Decides.hasType (h : t.Decides first [] scope) : ∃ k, t.HasType (scope.child first) k := by
  obtain ⟨k, hkind, htype⟩ := h
  exact ⟨k, hkind, by simpa using htype⟩

/-! ### The walk through the scopes -/

theorem resolveIn_of_decides (h : t.Decides first rest scope) (scopes : List FullName) :
    t.resolveIn first rest (scope :: scopes) = t.type? ((scope.child first).descend rest) := by
  obtain ⟨k, hkind, hk⟩ := h
  cases rest with
  | nil =>
      have htype : k.isType = true := by simpa using hk
      simp [resolveIn, type?, hkind, htype, FullName.descend_nil]
  | cons name names =>
      have hscope : k.isScope = true := by simpa using hk
      simp [resolveIn, hkind, hscope]

theorem resolveIn_of_not_decides (h : ¬t.Decides first rest scope) (scopes : List FullName) :
    t.resolveIn first rest (scope :: scopes) = t.resolveIn first rest scopes := by
  cases hkind : t.kind? (scope.child first) with
  | none => simp [resolveIn, hkind]
  | some k =>
      cases rest with
      | nil =>
          have htype : k.isType = false :=
            Bool.eq_false_iff.mpr fun hk => h ⟨k, hkind, by simpa using hk⟩
          simp [resolveIn, hkind, htype]
      | cons name names =>
          have hscope : k.isScope = false :=
            Bool.eq_false_iff.mpr fun hk => h ⟨k, hkind, by simpa using hk⟩
          simp [resolveIn, hkind, hscope]

theorem resolveIn_of_none {scopes : List FullName}
    (h : ∀ q ∈ scopes, ¬t.Decides first rest q) : t.resolveIn first rest scopes = none := by
  induction scopes with
  | nil => rfl
  | cons q qs ih =>
      rw [resolveIn_of_not_decides (h q List.mem_cons_self)]
      exact ih fun q' hq' => h q' (List.mem_cons_of_mem q hq')

end SymbolTable

namespace FullName

variable {scope p q : FullName}

theorem enclosing_child (scope : FullName) (name : String) :
    (scope.child name).enclosing = scope.child name :: scope.enclosing := rfl

theorem mem_enclosing_self (scope : FullName) : scope ∈ scope.enclosing :=
  mem_enclosing_iff.mpr (List.suffix_refl _)

/-- Of two scopes around the same one, one is around the other. -/
theorem mem_enclosing_total (hp : p ∈ scope.enclosing) (hq : q ∈ scope.enclosing) :
    p ∈ q.enclosing ∨ q ∈ p.enclosing := by
  rw [mem_enclosing_iff] at hp hq
  rcases List.suffix_or_suffix_of_suffix hp hq with h | h
  · exact Or.inl (mem_enclosing_iff.mpr h)
  · exact Or.inr (mem_enclosing_iff.mpr h)

/-- Scopes are reached from the root, one name after the other. -/
theorem scope_induction {motive : FullName → Prop} (hroot : motive root)
    (hchild : ∀ scope name, motive scope → motive (scope.child name)) : ∀ scope, motive scope := by
  rintro ⟨chain⟩
  induction chain with
  | nil => exact hroot
  | cons name names ih => exact hchild ⟨names⟩ name ih

end FullName

namespace SymbolTable

variable {t : SymbolTable} {first : String} {rest : List String} {scope p q n : FullName}
  {k : DefinitionKind}

/-- At most one scope is the innermost that decides. -/
theorem IsDecisive.unique (hp : t.IsDecisive first rest scope p)
    (hq : t.IsDecisive first rest scope q) : p = q := by
  rcases FullName.mem_enclosing_total hp.encloses hq.encloses with h | h
  · refine Classical.byContradiction fun hne => ?_
    exact hp.innermost q hq.encloses h (Ne.symm hne) hq.decides
  · refine Classical.byContradiction fun hne => ?_
    exact hq.innermost p hp.encloses h hne hp.decides

/-- A scope that decides is its own innermost one. -/
theorem Decides.isDecisive (h : t.Decides first rest scope) :
    t.IsDecisive first rest scope scope where
  encloses := FullName.mem_enclosing_self scope
  decides := h
  innermost q hq hscope hne := by
    rw [FullName.mem_enclosing_iff] at hq hscope
    have hchain := hq.eq_of_length_le hscope.length_le
    obtain ⟨_⟩ := q
    obtain ⟨_⟩ := scope
    exact absurd (congrArg FullName.mk hchain) hne

/-- Where a scope decides nothing, the scopes around it decide. -/
theorem IsDecisive.child {name : String} (hp : t.IsDecisive first rest scope p)
    (hnot : ¬t.Decides first rest (scope.child name)) :
    t.IsDecisive first rest (scope.child name) p where
  encloses := List.mem_cons_of_mem _ hp.encloses
  decides := hp.decides
  innermost q hq hpq hne := by
    rw [FullName.enclosing_child] at hq
    rcases List.mem_cons.mp hq with rfl | hq
    · exact hnot
    · exact hp.innermost q hq hpq hne

/-- A relative reference means what it means in the innermost scope that decides. -/
theorem resolveIn_enclosing (t : SymbolTable) (first : String) (rest : List String) :
    ∀ scope : FullName,
      (∃ p, t.IsDecisive first rest scope p ∧
        t.resolveIn first rest scope.enclosing = t.type? ((p.child first).descend rest)) ∨
      (∀ q ∈ scope.enclosing, ¬t.Decides first rest q) := by
  refine FullName.scope_induction ?_ fun scope name ih => ?_
  · by_cases hroot : t.Decides first rest .root
    · exact Or.inl ⟨.root, hroot.isDecisive, resolveIn_of_decides hroot []⟩
    · refine Or.inr fun q hq => ?_
      obtain rfl := List.mem_singleton.mp hq
      exact hroot
  · rw [FullName.enclosing_child]
    by_cases hscope : t.Decides first rest (scope.child name)
    · exact Or.inl ⟨_, hscope.isDecisive, resolveIn_of_decides hscope _⟩
    · rw [resolveIn_of_not_decides hscope]
      rcases ih with ⟨p, hp, heq⟩ | hnone
      · exact Or.inl ⟨p, hp.child hscope, heq⟩
      · exact Or.inr (List.forall_mem_cons.mpr ⟨hscope, hnone⟩)

theorem IsDecisive.resolveIn_eq (hp : t.IsDecisive first rest scope p) :
    t.resolveIn first rest scope.enclosing = t.type? ((p.child first).descend rest) := by
  rcases t.resolveIn_enclosing first rest scope with ⟨q, hq, heq⟩ | hnone
  · rw [hp.unique hq]
    exact heq
  · exact absurd hp.decides (hnone p hp.encloses)

theorem resolveIn_eq_some_iff : t.resolveIn first rest scope.enclosing = some (n, k) ↔
    ∃ p, t.IsDecisive first rest scope p ∧ n = (p.child first).descend rest ∧ t.HasType n k := by
  constructor
  · intro h
    rcases t.resolveIn_enclosing first rest scope with ⟨p, hp, heq⟩ | hnone
    · obtain ⟨rfl, htype⟩ := type?_eq_some_iff.mp (heq.symm.trans h)
      exact ⟨p, hp, rfl, htype⟩
    · rw [resolveIn_of_none hnone] at h
      cases h
  · rintro ⟨p, hp, rfl, htype⟩
    rw [hp.resolveIn_eq]
    exact type?_eq_some_iff.mpr ⟨rfl, htype⟩

theorem resolveIn_eq_none_iff : t.resolveIn first rest scope.enclosing = none ↔
    (∀ q ∈ scope.enclosing, ¬t.Decides first rest q) ∨
      rest ≠ [] ∧ ∃ p, t.IsDecisive first rest scope p ∧
        ∀ k, ¬t.HasType ((p.child first).descend rest) k := by
  constructor
  · intro h
    rcases t.resolveIn_enclosing first rest scope with ⟨p, hp, heq⟩ | hnone
    · have hno := type?_eq_none_iff.mp (heq.symm.trans h)
      refine Or.inr ⟨?_, p, hp, hno⟩
      rintro rfl
      obtain ⟨k, htype⟩ := hp.decides.hasType
      exact hno k htype
    · exact Or.inl hnone
  · rintro (hnone | ⟨-, p, hp, hno⟩)
    · exact resolveIn_of_none hnone
    · rw [hp.resolveIn_eq]
      exact type?_eq_none_iff.mpr hno

/-- Whatever a reference means is a type. -/
theorem hasType_of_resolve {r : Reference} (h : t.resolve scope r = some (n, k)) :
    t.HasType n k := by
  cases r with
  | absolute name =>
      obtain ⟨rfl, htype⟩ := type?_eq_some_iff.mp h
      exact htype
  | relative first rest =>
      obtain ⟨p, -, -, htype⟩ := resolveIn_eq_some_iff.mp h
      exact htype

end SymbolTable

/-! ### Names as texts -/

namespace Text

theorem not_mem_segments (separator : Char) (cs : List Char) :
    ∀ s ∈ segments separator cs, separator ∉ s := by
  induction cs with
  | nil => simp [segments]
  | cons c cs ih =>
      rw [segments]
      split
      · exact List.forall_mem_cons.mpr ⟨List.not_mem_nil, ih⟩
      · rename_i hc
        split
        · exact List.forall_mem_singleton.mpr (by simpa using Ne.symm hc)
        · rename_i s ss heq
          rw [heq, List.forall_mem_cons] at ih
          refine List.forall_mem_cons.mpr ⟨?_, ih.2⟩
          rw [List.mem_cons, not_or]
          exact ⟨Ne.symm hc, ih.1⟩

/-- A character in front of what is joined is one in front of the first part. -/
theorem intercalate_cons_cons (separator : List Char) (c : Char) (s : List Char)
    (ss : List (List Char)) :
    separator.intercalate ((c :: s) :: ss) = c :: separator.intercalate (s :: ss) := by
  cases ss with
  | nil => simp [List.intercalate_singleton]
  | cons s' ss => simp [List.intercalate_cons_of_ne_nil]

/-- What stands between the separators of a text, joined by separators, is the text. -/
theorem intercalate_segments (separator : Char) (cs : List Char) :
    [separator].intercalate (segments separator cs) = cs := by
  induction cs with
  | nil => rfl
  | cons c cs ih =>
      have hne := segments_ne_nil separator cs
      rw [segments]
      split
      · rename_i hc
        rw [List.intercalate_cons_of_ne_nil hne, ih, hc]
        rfl
      · split
        · rename_i heq
          exact absurd heq hne
        · rename_i s ss heq
          rw [intercalate_cons_cons, ← heq, ih]

end Text

namespace FullName

variable {n p : FullName}

/-- The name outermost in a chain is written out, and no name but for its front has a dot. -/
def IsSpelled (n : FullName) : Prop :=
  ∀ outermost inner, n.names = outermost :: inner →
    outermost ≠ "" ∧ '.' ∉ outermost.toList.tail ∧ ∀ name ∈ inner, Undotted name

theorem names_ofText_cons {text : String} {c : Char} {cs : List Char}
    (h : text.toList = c :: cs) : ∃ s ss, Text.segments '.' cs = s :: ss ∧
      (ofText text).names = String.ofList (c :: s) :: ss.map String.ofList := by
  obtain ⟨s, ss, hsegments⟩ := List.exists_cons_of_ne_nil (Text.segments_ne_nil '.' cs)
  refine ⟨s, ss, hsegments, ?_⟩
  simp only [ofText, h, hsegments]
  rw [names_descend_root, List.map_cons]

theorem ofText_empty {text : String} (h : text.toList = []) : ofText text = root := by
  simp only [ofText, h]

theorem text_of_names {cs : List Char} (segments : List (List Char))
    (h : n.names = segments.map String.ofList) (hjoin : ['.'].intercalate segments = cs) :
    n.text = String.ofList cs := by
  have hid : String.toList ∘ String.ofList = id := funext fun _ => String.toList_ofList
  rw [← String.toList_inj, text, String.toList_intercalate, h, String.toList_ofList, List.map_map,
    hid, List.map_id, String.toList_ofList, ← hjoin]

/-- **The full name that a text spells has that text.** -/
theorem text_ofText (text : String) : (ofText text).text = text := by
  cases h : text.toList with
  | nil =>
      rw [ofText_empty h, ← String.toList_inj, h]
      rfl
  | cons c cs =>
      obtain ⟨s, ss, hsegments, hnames⟩ := names_ofText_cons h
      have hjoin : ['.'].intercalate ((c :: s) :: ss) = c :: cs := by
        rw [Text.intercalate_cons_cons, ← hsegments, Text.intercalate_segments]
      rw [text_of_names ((c :: s) :: ss) hnames hjoin, ← h, String.ofList_toList]

theorem isSpelled_ofText (text : String) : (ofText text).IsSpelled := by
  intro outermost inner heq
  cases h : text.toList with
  | nil =>
      rw [ofText_empty h] at heq
      cases heq
  | cons c cs =>
      obtain ⟨s, ss, hsegments, hnames⟩ := names_ofText_cons h
      have hdots := Text.not_mem_segments '.' cs
      rw [hsegments, List.forall_mem_cons] at hdots
      obtain ⟨rfl, rfl⟩ := List.cons.inj (hnames.symm.trans heq)
      refine ⟨fun hempty => ?_, ?_, fun name hname => ?_⟩
      · have hlist := congrArg String.toList hempty
        rw [String.toList_ofList] at hlist
        cases hlist
      · rw [String.toList_ofList]
        exact hdots.1
      · obtain ⟨s', hs', rfl⟩ := List.mem_map.mp hname
        rw [Undotted, String.toList_ofList]
        exact hdots.2 s' hs'

/-- A full name that is spelled is the one that its text spells. -/
theorem IsSpelled.ofText_text (h : n.IsSpelled) : ofText n.text = n := by
  have hchain : ∀ m : FullName, m.names = n.names → m = n := by
    rintro ⟨ms⟩ hm
    exact congrArg FullName.mk (List.reverse_inj.mp hm)
  refine hchain _ ?_
  cases hnames : n.names with
  | nil =>
      have htext : n.text.toList = [] := by
        rw [text, hnames]
        rfl
      rw [ofText_empty htext]
      rfl
  | cons outermost inner =>
      obtain ⟨hne, htail, hinner⟩ := h outermost inner hnames
      have hlist : n.text.toList = ['.'].intercalate (n.names.map String.toList) := by
        rw [text, String.toList_intercalate]
        rfl
      obtain ⟨c, s, hc⟩ := List.exists_cons_of_ne_nil fun hnil =>
        hne (String.toList_inj.mp (hnil.trans rfl))
      rw [hc, List.tail_cons] at htail
      have hjoin : n.text.toList = c :: ['.'].intercalate (s :: inner.map String.toList) := by
        rw [hlist, hnames, List.map_cons, hc, Text.intercalate_cons_cons]
      have hdots : ∀ part ∈ s :: inner.map String.toList, '.' ∉ part := by
        refine List.forall_mem_cons.mpr ⟨htail, List.forall_mem_map.mpr hinner⟩
      obtain ⟨s', ss', hsegments, hread⟩ := names_ofText_cons hjoin
      rw [Text.segments_intercalate _ (List.cons_ne_nil _ _) hdots] at hsegments
      obtain ⟨rfl, rfl⟩ := List.cons.inj hsegments
      rw [hread, ← hc, String.ofList_toList, List.map_map,
        show String.ofList ∘ String.toList = id from funext fun _ => String.ofList_toList,
        List.map_id]

theorem names_descend (p : FullName) (names : List String) :
    (p.descend names).names = p.names ++ names := by
  rw [FullName.names, chain_descend, List.reverse_append, List.reverse_reverse, FullName.names]

/-- Scopes around one that is spelled are spelled. -/
theorem IsSpelled.enclosing {scope : FullName} (h : scope.IsSpelled) (hp : p ∈ scope.enclosing) :
    p.IsSpelled := by
  intro outermost inner heq
  obtain ⟨front, hfront⟩ := mem_enclosing_iff.mp hp
  have hnames : scope.names = outermost :: (inner ++ front.reverse) := by
    rw [names, ← hfront, List.reverse_append, ← names, heq, List.cons_append]
  obtain ⟨hne, htail, hinner⟩ := h _ _ hnames
  exact ⟨hne, htail, fun name hname => hinner name (List.mem_append_left _ hname)⟩

/-- A name in a scope that is spelled is spelled, unless it is empty and stands at the root. -/
theorem IsSpelled.descend (h : p.IsSpelled) {first : String} {rest : List String}
    (hfirst : p = root → first ≠ "") (hdots : ∀ name ∈ first :: rest, Undotted name) :
    ((p.child first).descend rest).IsSpelled := by
  intro outermost inner heq
  rw [← descend_cons, names_descend] at heq
  cases hp : p.names with
  | nil =>
      rw [hp] at heq
      obtain ⟨rfl, rfl⟩ := List.cons.inj heq
      rw [List.forall_mem_cons] at hdots
      have hroot : p = root := congrArg FullName.mk (List.reverse_eq_nil_iff.mp hp)
      exact ⟨hfirst hroot, fun hmem => hdots.1 (List.mem_of_mem_tail hmem), hdots.2⟩
  | cons name names =>
      rw [hp] at heq
      obtain ⟨rfl, rfl⟩ := List.cons.inj heq
      obtain ⟨hne, htail, hinner⟩ := h _ _ hp
      exact ⟨hne, htail, List.forall_mem_append.mpr ⟨hinner, hdots⟩⟩

/-- A text in a scope, as a text: behind the scope and a dot, unless the scope is the root. -/
def qualify (p : FullName) (text : String) : String :=
  if p = root then text else p.text ++ "." ++ text

theorem text_descend (p : FullName) (first : String) (rest : List String) :
    ((p.child first).descend rest).text =
      p.qualify (String.intercalate "." (first :: rest)) := by
  rw [← descend_cons, text, names_descend]
  unfold qualify
  split
  · rename_i hroot
    rw [hroot]
    rfl
  · rename_i hroot
    have hnames : p.names ≠ [] := fun hnil =>
      hroot (congrArg FullName.mk (List.reverse_eq_nil_iff.mp hnil))
    exact String.intercalate_append_of_ne_nil hnames (List.cons_ne_nil first rest)

end FullName

namespace Reference

theorem ofText_dot (text : String) : ofText ("." ++ text) = .absolute (.ofText text) := by
  have hlist : ("." ++ text).toList = '.' :: text.toList := String.toList_append
  simp only [ofText, hlist, String.ofList_toList]

/-- A text without a dot at its front spells a relative reference, by what stands between dots. -/
theorem ofText_of_head {text : String} (h : text.toList.head? ≠ some '.') :
    ∃ first rest, ofText text = .relative first rest ∧
      String.intercalate "." (first :: rest) = text ∧ ∀ name ∈ first :: rest, Undotted name := by
  obtain ⟨s, ss, hsegments⟩ :=
    List.exists_cons_of_ne_nil (Text.segments_ne_nil '.' text.toList)
  have hdots := Text.not_mem_segments '.' text.toList
  rw [hsegments] at hdots
  refine ⟨String.ofList s, ss.map String.ofList, ?_, ?_, ?_⟩
  · unfold ofText
    split
    · rename_i cs heq
      rw [heq] at h
      exact absurd rfl h
    · simp only [hsegments, List.map_cons]
  · have hid : String.toList ∘ String.ofList = id := funext fun _ => String.toList_ofList
    rw [← String.toList_inj, String.toList_intercalate, ← List.map_cons, List.map_map, hid,
      List.map_id, ← hsegments]
    exact Text.intercalate_segments '.' text.toList
  · rw [← List.map_cons, List.forall_mem_map]
    intro part hpart
    rw [Undotted, String.toList_ofList]
    exact hdots part hpart

end Reference

/-! ### References as texts -/

namespace SymbolTable

variable {t : SymbolTable} {n : FullName} {k : DefinitionKind}

/-- The names that a table knows are those that texts spell. -/
def IsSpelled (t : SymbolTable) : Prop := ∀ n x, t.find? n = some x → n.IsSpelled

/-- The table of a file knows spelled names, if the file declares no others. -/
theorem isSpelled_ofFile {file : File}
    (h : ∀ d ∈ file.declared, FullName.ofText d.name.text = d.name) :
    (ofFile file).1.IsSpelled := by
  intro n x hfind
  obtain ⟨d, hd, rfl, -⟩ := exists_of_find? hfind
  rw [← h d hd]
  exact FullName.isSpelled_ofText d.name.text

/-- No table of spelled names knows an empty name at the root. -/
theorem IsSpelled.not_hasType_empty (h : t.IsSpelled) : ¬t.HasType (FullName.root.child "") k := by
  rintro ⟨hkind, -⟩
  obtain ⟨x, hfind, -⟩ := Option.map_eq_some_iff.mp hkind
  exact (h _ x hfind "" [] rfl).1 rfl

/-- What a text means, in a scope that a text spells, has a spelled name. -/
theorem IsSpelled.of_resolve (h : t.IsSpelled) {scope text : String}
    (hresolve : t.resolve (.ofText scope) (.ofText text) = some (n, k)) : n.IsSpelled := by
  by_cases hdot : text.toList.head? = some '.'
  · obtain ⟨cs, hcs⟩ : ∃ cs, text.toList = '.' :: cs := by
      cases hlist : text.toList with
      | nil =>
          rw [hlist] at hdot
          cases hdot
      | cons c cs =>
          rw [hlist] at hdot
          obtain rfl := Option.some.inj hdot
          exact ⟨cs, rfl⟩
    have htext : text = "." ++ String.ofList cs := by
      rw [← String.toList_inj, hcs]
      simp
    rw [htext, Reference.ofText_dot] at hresolve
    obtain ⟨rfl, -⟩ := type?_eq_some_iff.mp hresolve
    exact FullName.isSpelled_ofText _
  · obtain ⟨first, rest, href, hjoin, hdots⟩ := Reference.ofText_of_head hdot
    rw [href] at hresolve
    obtain ⟨p, hp, rfl, htype⟩ := resolveIn_eq_some_iff.mp hresolve
    refine ((FullName.isSpelled_ofText scope).enclosing hp.encloses).descend ?_ hdots
    rintro rfl rfl
    cases rest with
    | nil => exact h.not_hasType_empty htype
    | cons name names =>
        -- An empty first name with others behind it is a dot at the front of the text.
        rw [← hjoin, String.toList_intercalate] at hdot
        exact hdot (by simp [List.intercalate_cons_of_ne_nil])

/--
**What a reference means is decided by scopes.**  What is found is a type, and its full name
finds it from everywhere.  An absolute reference means its name; a relative one means what it
leads to from the innermost scope that decides, and it means nothing just if no scope decides, or
if a dotted one leads to no type from there.  On texts, a dot at the front makes a reference
absolute, and the text of what a relative one leads to is its own text qualified by the scope.
-/
theorem resolve_scoped (t : SymbolTable) :
    (∀ scope r n k, t.resolve scope r = some (n, k) →
      t.HasType n k ∧ ∀ other, t.resolve other (.absolute n) = some (n, k)) ∧
    (∀ scope name n k, t.resolve scope (.absolute name) = some (n, k) ↔
      n = name ∧ t.HasType n k) ∧
    (∀ scope first rest n k, t.resolve scope (.relative first rest) = some (n, k) ↔
      ∃ p, t.IsDecisive first rest scope p ∧ n = (p.child first).descend rest ∧
        t.HasType n k) ∧
    (∀ scope first rest, t.resolve scope (.relative first rest) = none ↔
      (∀ p ∈ scope.enclosing, ¬t.Decides first rest p) ∨
        rest ≠ [] ∧ ∃ p, t.IsDecisive first rest scope p ∧
          ∀ k, ¬t.HasType ((p.child first).descend rest) k) ∧
    (∀ text, Reference.ofText ("." ++ text) = .absolute (.ofText text) ∧
      (FullName.ofText text).text = text) ∧
    (∀ text : String, text.toList.head? ≠ some '.' →
      ∃ first rest, Reference.ofText text = .relative first rest ∧
        (∀ name ∈ first :: rest, Undotted name) ∧
        ∀ p : FullName, ((p.child first).descend rest).text = p.qualify text) ∧
    (t.IsSpelled → ∀ scope text n k, t.resolve (.ofText scope) (.ofText text) = some (n, k) →
      ∀ other, t.resolve (.ofText other) (.ofText ("." ++ n.text)) = some (n, k)) := by
  -- Whatever a reference resolves to is a type of the table, and the root finds it by its name.
  have htype : ∀ scope r n k, t.resolve scope r = some (n, k) →
      t.HasType n k ∧ ∀ other, t.resolve other (.absolute n) = some (n, k) := by
    intro scope r n k h
    have hn := hasType_of_resolve h
    exact ⟨hn, fun _ => type?_eq_some_iff.mpr ⟨rfl, hn⟩⟩
  refine ⟨htype, ?_, fun _ _ _ _ _ => resolveIn_eq_some_iff, fun _ _ _ => resolveIn_eq_none_iff,
    fun text => ⟨Reference.ofText_dot text, FullName.text_ofText text⟩, ?_, ?_⟩
  · intro scope name n k
    refine type?_eq_some_iff.trans ⟨?_, ?_⟩
    all_goals
      rintro ⟨rfl, h⟩
      exact ⟨rfl, h⟩
  · intro text hhead
    obtain ⟨first, rest, href, hjoin, hdots⟩ := Reference.ofText_of_head hhead
    exact ⟨first, rest, href, hdots, fun p => by rw [FullName.text_descend, hjoin]⟩
  · intro hspelled scope text n k h other
    rw [Reference.ofText_dot, (hspelled.of_resolve h).ofText_text]
    exact (htype _ _ n k h).2 _

/-- The file of a message that holds another one, and of a message that hides the first one. -/
def shadowed : File :=
  let s := Span.point 0
  let message (name : String) (items : List MessageItem) : Message :=
    ⟨⟨name, s⟩, items, [], [], [], s⟩
  { File.empty with
    messages := [message "A" [.message (message "B" [])], message "C" [.message (message "A" [])]] }

/-- What is hidden is not looked for further out, but it is found from the root. -/
theorem resolve_scoped_shadowed : (ofFile shadowed).1.IsSpelled ∧
    (ofFile shadowed).1.resolve (.ofText "C") (.ofText "A.B") = none ∧
    ∀ other, (ofFile shadowed).1.resolve (.ofText other) (.ofText ".A.B") =
      some (.ofText "A.B", .message) := by
  obtain ⟨-, -, -, hnone, -, -, hagain⟩ := resolve_scoped (ofFile shadowed).1
  have hspelled : (ofFile shadowed).1.IsSpelled := isSpelled_ofFile (by decide +kernel)
  refine ⟨hspelled, ?_, ?_⟩
  · refine (hnone (.ofText "C") "A" ["B"]).mpr (Or.inr ⟨by decide, .ofText "C", ?_, ?_⟩)
    · exact Decides.isDecisive ⟨.message, by decide +kernel, by decide⟩
    · rintro k ⟨hkind, -⟩
      rw [show (ofFile shadowed).1.kind? _ = none from by decide +kernel] at hkind
      cases hkind
  · exact hagain hspelled "A" "B" (.ofText "A.B") .message (by decide +kernel)

end SymbolTable

end ProtoSchema
