/-
Fields and oneofs are assembled without loss.

The members of a message are its fields and the members of its oneofs, in the order of the
source, and each of them gets one descriptor.  A oneof is known by its place among the oneofs of
the message.  Places are given out in two runs: the declared oneofs are counted off as they come,
and the oneofs of optional fields start behind the last declared one, wherever that stands.

So what has to be shown is that the second run starts where the first one ends, and that every
member is given the place that its own oneof gets.  All this is about what stands where, and
diagnostics make no difference to it.
-/
import ProtoSchema.Proofs.Assembly.Numbered
import ProtoSchema.Proofs.Reading

namespace ProtoSchema

/-! ### Members -/

/-- A field of a message, with the place of the oneof that it is declared in, if it is in one. -/
structure Member where
  field : Field
  oneof : Option Nat

namespace Member

/-- Whether a member gets a oneof of its own: an optional field, if that means something. -/
def tracksPresence (dialect : Dialect) (x : Member) : Bool :=
  x.oneof.isNone && dialect = .proto3 && !x.field.kind.isMap &&
    x.field.label.any (·.1 = .optional)

/-- The label of a member. -/
def label (dialect : Dialect) (x : Member) : Label :=
  match x.oneof with
  | none => (x.field.checkLabel dialect).value.1
  | some _ => x.field.checkOneofLabel.value

/-- The oneof of a member that gets its own. -/
def ownOneof (x : Member) : OneofDescriptor := ⟨"_" ++ x.field.name.text, none⟩

end Member

namespace MessageItem

/-- The oneofs that an item declares. -/
def oneofs : MessageItem → List Oneof
  | .oneof o => [o]
  | _ => []

/-- The members that an item declares, if a oneof that it declares stands at a place. -/
def members (place : Nat) : MessageItem → List Member
  | .field f => [⟨f, none⟩]
  | .oneof o => o.fields.map (⟨·, some place⟩)
  | _ => []

/-- The members that items declare, if their first oneof stands at a place. -/
def membersFrom : (place : Nat) → List MessageItem → List Member
  | _, [] => []
  | place, i :: is => i.members place ++ membersFrom (place + i.oneofs.length) is

end MessageItem

namespace Message

/-- The oneofs that a message declares, in order. -/
def oneofs (m : Message) : List Oneof := m.items.flatMap MessageItem.oneofs

/-- The fields of a message and the members of its oneofs, in order. -/
def fieldMembers (m : Message) : List Member := MessageItem.membersFrom 0 m.items

/-- The members of a message that get oneofs of their own, in order. -/
def tracked (m : Message) (dialect : Dialect) : List Member :=
  m.fieldMembers.filter (·.tracksPresence dialect)

/-- The place of the oneof of the member that stands at `index`. -/
def oneofIndex (m : Message) (dialect : Dialect) (index : Nat) (x : Member) : Option Nat :=
  if x.tracksPresence dialect then
    some (m.oneofs.length + (m.fieldMembers.take index).countP (·.tracksPresence dialect))
  else x.oneof

end Message

/-- The descriptor of a oneof that is declared. -/
def Context.declaredOneof (o : Oneof) : OneofDescriptor :=
  ⟨o.name.text, (optionsOf (Context.settings o.options)).value⟩

/-- The descriptor of a member whose oneof stands at a place. -/
def Context.memberAt (ctx : Context) (scope : FullName) (x : Member) (place : Option Nat) :
    FieldDescriptor :=
  { (ctx.field scope x.field (x.label ctx.dialect)).value with
    oneofIndex := place
    proto3Optional := x.tracksPresence ctx.dialect }

@[simp] theorem Context.oneofIndex_memberAt (ctx : Context) (scope : FullName) (x : Member)
    (place : Option Nat) : (ctx.memberAt scope x place).oneofIndex = place := rfl

@[simp] theorem Context.name_memberAt (ctx : Context) (scope : FullName) (x : Member)
    (place : Option Nat) : (ctx.memberAt scope x place).name = x.field.name.text :=
  Checked.name_field ctx scope x.field _

/--
The fields and oneofs of a descriptor are those of a message, and its members refer to the oneofs
that they belong to.
-/
structure MessageDescriptor.Assembles (d : MessageDescriptor) (ctx : Context) (scope : FullName)
    (m : Message) : Prop where
  /-- There is one descriptor for each member, in the order of the source. -/
  fields : d.fields = m.fieldMembers.mapIdx fun k x =>
    ctx.memberAt (scope.child m.name.text) x (m.oneofIndex ctx.dialect k x)
  /-- Behind the oneofs that are declared stands one for each member that gets its own. -/
  oneofs : d.oneofs = m.oneofs.map Context.declaredOneof ++
    (m.tracked ctx.dialect).map Member.ownOneof
  /-- The fields that refer to a declared oneof are its members. -/
  declared : ∀ k o, m.oneofs[k]? = some o →
    (d.fields.filter (·.oneofIndex = some k)).map FieldDescriptor.name =
      o.fields.map (·.name.text)
  /-- To any other oneof refers only the field that it is for. -/
  own : ∀ k x, (m.tracked ctx.dialect)[k]? = some x →
    (d.fields.filter (·.oneofIndex = some (m.oneofs.length + k))).map FieldDescriptor.name =
      [x.field.name.text]
  /-- A field that is neither in a oneof nor gets its own refers to none. -/
  plain : ∀ (k : Nat) (x : Member) (f : FieldDescriptor), m.fieldMembers[k]? = some x →
    d.fields[k]? = some f → x.oneof = none → x.tracksPresence ctx.dialect = false →
      f.oneofIndex = none
  within : ∀ f ∈ d.fields, ∀ k, f.oneofIndex = some k → k < d.oneofs.length

/-! ### Places of oneofs -/

namespace MessageItem

theorem countP_isOneof (items : List MessageItem) :
    items.countP Context.isOneof = (items.flatMap oneofs).length := by
  induction items with
  | nil => rfl
  | cons i is ih =>
      rw [List.countP_cons, List.flatMap_cons, List.length_append, ih]
      cases i <;> simp [Context.isOneof, oneofs, Nat.add_comm]

/-- Members are in oneofs from the first place on. -/
theorem le_oneof {place : Nat} {i : MessageItem} {x : Member} {k : Nat} (hx : x ∈ i.members place)
    (hk : x.oneof = some k) : k = place ∧ i.oneofs.length = 1 := by
  cases i with
  | oneof o =>
      obtain ⟨f, -, rfl⟩ := List.mem_map.mp hx
      exact ⟨(Option.some.inj hk).symm, rfl⟩
  | field f =>
      obtain rfl := List.mem_singleton.mp hx
      cases hk
  | message m => cases hx
  | enum e => cases hx
  | extend e => cases hx

theorem bounds_membersFrom (items : List MessageItem) : ∀ place : Nat,
    ∀ x ∈ membersFrom place items, ∀ k, x.oneof = some k →
      place ≤ k ∧ k < place + (items.flatMap oneofs).length := by
  induction items with
  | nil => intro place x hx; cases hx
  | cons i is ih =>
      intro place x hx k hk
      rw [List.flatMap_cons, List.length_append]
      rcases List.mem_append.mp hx with hx | hx
      · obtain ⟨rfl, hlength⟩ := le_oneof hx hk
        omega
      · obtain ⟨hlow, hhigh⟩ := ih _ x hx k hk
        omega

theorem filter_membersFrom_of_lt (items : List MessageItem) {place k : Nat} (h : k < place) :
    (membersFrom place items).filter (·.oneof = some k) = [] := by
  refine List.filter_eq_nil_iff.mpr fun x hx hk => ?_
  have := (bounds_membersFrom items place x hx k (by simpa using hk)).1
  omega

/-- The members that are in a oneof are those of the oneof at that place. -/
theorem filter_membersFrom (items : List MessageItem) : ∀ (place k : Nat) (o : Oneof),
    (items.flatMap oneofs)[k]? = some o →
      ((membersFrom place items).filter (·.oneof = some (place + k))).map Member.field =
        o.fields := by
  induction items with
  | nil => intro place k o ho; cases ho
  | cons i is ih =>
      intro place k o ho
      rw [List.flatMap_cons] at ho
      rw [membersFrom, List.filter_append, List.map_append]
      cases i with
      | oneof o' =>
          cases k with
          | zero =>
              obtain rfl : o' = o := Option.some.inj ho
              have hrest : (membersFrom (place + 1) is).filter (·.oneof = some place) = [] :=
                filter_membersFrom_of_lt is (Nat.lt_succ_self place)
              have hown : (members place (.oneof o')).filter (·.oneof = some place) =
                  members place (.oneof o') := by
                simp [members]
              rw [Nat.add_zero, show (MessageItem.oneof o').oneofs.length = 1 from rfl, hrest, hown]
              simp [members, Function.comp_def]
          | succ k =>
              -- The oneof is one nearer to the front, and the first place has gone up by one.
              have hrest := ih (place + 1) k o ho
              rw [Nat.add_right_comm place 1 k] at hrest
              have hown : (members place (.oneof o')).filter
                  (fun x => x.oneof = some (place + (k + 1))) = [] := by
                refine List.filter_eq_nil_iff.mpr fun x hx hk => ?_
                have := (le_oneof hx (by simpa using hk)).1
                omega
              rw [hown]
              exact hrest
      | field f =>
          rw [show List.filter _ (members place (.field f)) = [] by simp [members]]
          exact ih place k o ho
      | message m => exact ih place k o ho
      | enum e => exact ih place k o ho
      | extend e => exact ih place k o ho

end MessageItem

/-- The oneofs that members are declared in are oneofs of the message. -/
theorem Message.lt_oneofs (m : Message) :
    ∀ x ∈ m.fieldMembers, ∀ k, x.oneof = some k → k < m.oneofs.length := by
  intro x hx k hk
  have := (MessageItem.bounds_membersFrom m.items 0 x hx k hk).2
  rwa [Nat.zero_add] at this

/-! ### Members in their places -/

namespace Context

open Checked

variable (ctx : Context) (scope : FullName)

/-- Members with their descriptors, if the next oneof of an optional field stands at a place. -/
def placed : (place : Nat) → List Member → List (Field × FieldDescriptor)
  | _, [] => []
  | place, x :: xs =>
    if x.tracksPresence ctx.dialect then
      (x.field, ctx.memberAt scope x (some place)) :: placed (place + 1) xs
    else (x.field, ctx.memberAt scope x x.oneof) :: placed place xs

theorem placed_append (xs ys : List Member) : ∀ place : Nat,
    ctx.placed scope place (xs ++ ys) = ctx.placed scope place xs ++
      ctx.placed scope (place + xs.countP (·.tracksPresence ctx.dialect)) ys := by
  induction xs with
  | nil => intro place; rfl
  | cons x xs ih =>
      intro place
      rw [List.cons_append, placed, placed, List.countP_cons]
      split
      · rw [ih, List.cons_append, Nat.add_assoc, Nat.add_comm 1]
      · rw [ih, List.cons_append, Nat.add_zero]

theorem getElem?_placed (xs : List Member) : ∀ place k : Nat,
    (ctx.placed scope place xs)[k]? = xs[k]?.map fun x => (x.field, ctx.memberAt scope x
      (if x.tracksPresence ctx.dialect then
        some (place + (xs.take k).countP (·.tracksPresence ctx.dialect)) else x.oneof)) := by
  induction xs with
  | nil => intro place k; rfl
  | cons x xs ih =>
      intro place k
      rw [placed]
      cases k with
      | zero =>
          by_cases hx : x.tracksPresence ctx.dialect <;> simp [hx]
      | succ k =>
          rw [List.take_succ_cons, List.countP_cons]
          split
          · rw [List.getElem?_cons_succ, List.getElem?_cons_succ, ih, Nat.add_assoc,
              Nat.add_comm 1]
          · rw [List.getElem?_cons_succ, List.getElem?_cons_succ, ih, Nat.add_zero]

theorem exists_of_mem_placed {xs : List Member} {place : Nat} {y : Field × FieldDescriptor}
    (hy : y ∈ ctx.placed scope place xs) :
    ∃ x place, y = (x.field, ctx.memberAt scope x place) := by
  obtain ⟨k, hk⟩ := List.mem_iff_getElem?.mp hy
  rw [getElem?_placed, Option.map_eq_some_iff] at hk
  obtain ⟨x, -, rfl⟩ := hk
  exact ⟨x, _, rfl⟩

theorem tracksPresence_iff {dialect : Dialect} {x : Member} :
    x.tracksPresence dialect = true ↔ x.oneof = none ∧ dialect = .proto3 ∧
      x.field.kind.isMap = false ∧ ∃ span, x.field.label = some (.optional, span) := by
  have hlabel : x.field.label.any (·.1 = .optional) = true ↔
      ∃ span, x.field.label = some (.optional, span) := by
    cases x.field.label with
    | none => simp
    | some l => simp [Prod.ext_iff]
  unfold Member.tracksPresence
  rw [Bool.and_eq_true, Bool.and_eq_true, Bool.and_eq_true, hlabel, Option.isNone_iff_eq_none,
    decide_eq_true_eq, Bool.not_eq_true', and_assoc, and_assoc]

/-- Descriptors that refer to a oneof before the given place are of members of that oneof. -/
theorem filter_placed_of_lt (xs : List Member) : ∀ {place k : Nat}, k < place →
    ((ctx.placed scope place xs).filter (·.2.oneofIndex = some k)).map Prod.fst =
      (xs.filter (·.oneof = some k)).map Member.field := by
  induction xs with
  | nil => intro place k h; rfl
  | cons x xs ih =>
      intro place k h
      rw [placed]
      split
      · rename_i hx
        have hplace : place ≠ k := Nat.ne_of_gt h
        have honeof : x.oneof = none := (tracksPresence_iff.mp hx).1
        simpa [List.filter_cons, hplace, honeof] using ih (Nat.lt_succ_of_lt h)
      · by_cases honeof : x.oneof = some k
        · simpa [List.filter_cons, honeof] using ih h
        · simpa [List.filter_cons, honeof] using ih h

/-- A descriptor that refers to a later oneof is of the member that this one is for. -/
theorem filter_placed (xs : List Member) : ∀ {place : Nat},
    (∀ x ∈ xs, ∀ k, x.oneof = some k → k < place) → ∀ (k : Nat) (x : Member),
      (xs.filter (·.tracksPresence ctx.dialect))[k]? = some x →
        ((ctx.placed scope place xs).filter (·.2.oneofIndex = some (place + k))).map Prod.fst =
          [x.field] := by
  induction xs with
  | nil => intro place _ k x hx; cases hx
  | cons y ys ih =>
      intro place hplace k x hx
      obtain ⟨hy, hys⟩ := List.forall_mem_cons.mp hplace
      rw [placed]
      split
      · rename_i htracks
        rw [List.filter_cons_of_pos htracks] at hx
        cases k with
        | zero =>
            obtain rfl : y = x := Option.some.inj hx
            -- Declared oneofs stand before this place, so no later member refers to it.
            have hrest : ys.filter (·.oneof = some place) = [] := by
              refine List.filter_eq_nil_iff.mpr fun z hz hk => ?_
              exact absurd (hys z hz place (by simpa using hk)) (Nat.lt_irrefl place)
            rw [Nat.add_zero, List.filter_cons_of_pos (by simp), List.map_cons,
              ctx.filter_placed_of_lt scope ys (Nat.lt_succ_self place), hrest, List.map_nil]
        | succ k =>
            have hlater : ∀ z ∈ ys, ∀ j, z.oneof = some j → j < place + 1 :=
              fun z hz j hj => Nat.lt_succ_of_lt (hys z hz j hj)
            rw [List.filter_cons_of_neg (by simp), Nat.add_comm k, ← Nat.add_assoc]
            exact ih hlater k x hx
      · rename_i htracks
        rw [List.filter_cons_of_neg htracks] at hx
        have honeof : ¬y.oneof = some (place + k) := by
          intro hk
          have := hy _ hk
          omega
        rw [List.filter_cons_of_neg (by rw [oneofIndex_memberAt]; simpa using honeof)]
        exact ih hys k x hx

/-- A descriptor refers to a declared oneof, or to one of those behind the given place. -/
theorem oneofIndex_placed (xs : List Member) {place : Nat} {y : Field × FieldDescriptor} {k : Nat}
    (hplace : ∀ x ∈ xs, ∀ k, x.oneof = some k → k < place)
    (hy : y ∈ ctx.placed scope place xs) (hk : y.2.oneofIndex = some k) :
    k < place + xs.countP (·.tracksPresence ctx.dialect) := by
  obtain ⟨j, hj⟩ := List.mem_iff_getElem?.mp hy
  rw [getElem?_placed, Option.map_eq_some_iff] at hj
  obtain ⟨x, hx, rfl⟩ := hj
  obtain ⟨hlt, rfl⟩ := List.getElem?_eq_some_iff.mp hx
  rw [oneofIndex_memberAt] at hk
  split at hk
  · rename_i htracks
    obtain rfl := Option.some.inj hk
    have hcount : (xs.take (j + 1)).countP (·.tracksPresence ctx.dialect) ≤
        xs.countP (·.tracksPresence ctx.dialect) :=
      (List.take_sublist (j + 1) xs).countP_le
    rw [List.take_succ_eq_append_getElem hlt, List.countP_append, List.countP_singleton,
      if_pos htracks] at hcount
    omega
  · exact Nat.lt_of_lt_of_le (hplace _ (List.getElem_mem hlt) k hk) (Nat.le_add_right _ _)

/-- Without optional fields to count, every member has the place of the oneof it is in. -/
theorem placed_of_not_tracks (xs : List Member)
    (h : ∀ x ∈ xs, x.tracksPresence ctx.dialect = false) (place : Nat) :
    ctx.placed scope place xs = xs.map fun x => (x.field, ctx.memberAt scope x x.oneof) := by
  induction xs with
  | nil => rfl
  | cons x xs ih =>
      obtain ⟨hx, hxs⟩ := List.forall_mem_cons.mp h
      rw [placed, if_neg (by simp [hx]), ih hxs, List.map_cons]

/-! ### What items contribute -/

/-- A field of a message gets its own oneof if it keeps track of its presence. -/
theorem checkLabel_tracksPresence (f : Field) (dialect : Dialect) :
    (f.checkLabel dialect).value.2 = Member.tracksPresence dialect ⟨f, none⟩ := by
  unfold Field.checkLabel Member.tracksPresence
  cases f.kind.isMap with
  | true =>
      rw [if_pos rfl, Bool.not_true, Bool.and_false, Bool.false_and]
      cases f.label <;> rfl
  | false =>
      cases f.label with
      | none => simp
      | some l =>
          obtain ⟨label, s⟩ := l
          cases label <;> simp

theorem label_field (f : Field) (label : Label) :
    (ctx.field scope f label).value.label = label := by
  rw [field_eq]
  rfl

theorem oneofIndex_field (f : Field) (label : Label) :
    (ctx.field scope f label).value.oneofIndex = none := by
  rw [field_eq]
  rfl

theorem proto3Optional_field (f : Field) (label : Label) :
    (ctx.field scope f label).value.proto3Optional = false := by
  rw [field_eq]
  rfl

theorem memberAt_of_not_tracks {x : Member} (h : x.tracksPresence ctx.dialect = false)
    (place : Option Nat) : ctx.memberAt scope x place =
      { (ctx.field scope x.field (x.label ctx.dialect)).value with oneofIndex := place } := by
  rw [memberAt, h, ← ctx.proto3Optional_field scope x.field (x.label ctx.dialect)]

/-- The descriptor of a field that refers to no oneof is the one that it is given as a field. -/
theorem memberAt_plain {x : Member} (h : x.tracksPresence ctx.dialect = false)
    (hx : x.oneof = none) :
    ctx.memberAt scope x x.oneof = (ctx.field scope x.field (x.label ctx.dialect)).value := by
  rw [ctx.memberAt_of_not_tracks scope h, hx,
    ← ctx.oneofIndex_field scope x.field (x.label ctx.dialect)]

/-- The parts that an item contributes are made of its members and its oneofs. -/
theorem parts_messageItem (place next : Nat) (i : MessageItem) :
    (ctx.messageItem scope place next i).value.fields =
        ctx.placed scope next (i.members place) ∧
      (ctx.messageItem scope place next i).value.oneofs = i.oneofs.map declaredOneof ∧
      (ctx.messageItem scope place next i).value.presence =
        ((i.members place).filter (·.tracksPresence ctx.dialect)).map Member.ownOneof := by
  cases i with
  | field f =>
      rw [messageItem, MessageItem.members, placed]
      unfold fieldParts
      simp only [value_bind, checkLabel_tracksPresence]
      cases htracks : Member.tracksPresence ctx.dialect ⟨f, none⟩ with
      | true =>
          refine ⟨?_, rfl, by rw [List.filter_cons_of_pos htracks]; rfl⟩
          rw [if_pos rfl, if_pos rfl, memberAt, htracks]
          rfl
      | false =>
          refine ⟨?_, rfl, by rw [List.filter_cons_of_neg (by simp [htracks])]; rfl⟩
          rw [if_neg Bool.false_ne_true, if_neg Bool.false_ne_true,
            ctx.memberAt_plain scope htracks rfl]
          rfl
  | oneof o =>
      -- A field of a oneof never tracks presence, so it makes no oneof of its own.
      have hnone : ∀ x ∈ o.fields.map (Member.mk · (some place)),
          x.tracksPresence ctx.dialect = false := by
        intro x hx
        obtain ⟨f, -, rfl⟩ := List.mem_map.mp hx
        rfl
      rw [messageItem, MessageItem.members]
      refine ⟨?_, rfl, ?_⟩
      · rw [fields_oneofParts, placed_of_not_tracks ctx scope _ hnone, List.map_map]
        refine List.map_congr_left fun f _ => ?_
        rw [Function.comp_apply, memberAt_of_not_tracks ctx scope rfl]
        rfl
      · rw [List.filter_eq_nil_iff.mpr fun x hx => by simp [hnone x hx]]
        rfl
  | message m => rw [messageItem]; exact ⟨rfl, rfl, rfl⟩
  | enum e => rw [messageItem]; exact ⟨rfl, rfl, rfl⟩
  | extend e => rw [messageItem]; exact ⟨rfl, rfl, rfl⟩

/-- So are the parts that items contribute one after the other. -/
theorem parts_messageItems (items : List MessageItem) : ∀ place next : Nat,
    (ctx.messageItems scope place next items).value.fields =
        ctx.placed scope next (MessageItem.membersFrom place items) ∧
      (ctx.messageItems scope place next items).value.oneofs =
        (items.flatMap MessageItem.oneofs).map declaredOneof ∧
      (ctx.messageItems scope place next items).value.presence =
        ((MessageItem.membersFrom place items).filter (·.tracksPresence ctx.dialect)).map
          Member.ownOneof := by
  induction items with
  | nil => intro place next; exact ⟨rfl, rfl, rfl⟩
  | cons i is ih =>
      intro place next
      obtain ⟨hfields, honeofs, hpresence⟩ := ctx.parts_messageItem scope place next i
      rw [messageItems, MessageItem.membersFrom, List.flatMap_cons, List.map_append,
        List.filter_append, List.map_append, placed_append]
      simp only [value_bind, value_pure]
      obtain ⟨hfields', honeofs', hpresence'⟩ := ih
        (place + (ctx.messageItem scope place next i).value.oneofs.length)
        (next + (ctx.messageItem scope place next i).value.presence.length)
      rw [honeofs, hpresence, List.length_map, List.length_map, ← List.countP_eq_length_filter]
        at hfields' honeofs' hpresence'
      rw [honeofs, hpresence, List.length_map, List.length_map, ← List.countP_eq_length_filter]
      refine ⟨?_, ?_, ?_⟩
      · exact congrArg₂ (· ++ ·) hfields hfields'
      · exact congrArg₂ (· ++ ·) honeofs honeofs'
      · exact congrArg₂ (· ++ ·) hpresence hpresence'

theorem fields_message (m : Message) : (ctx.message scope m).value.fields =
    (ctx.placed (scope.child m.name.text) m.oneofs.length m.fieldMembers).map Prod.snd := by
  rw [message_eq, MessageItem.countP_isOneof]
  exact congrArg (List.map Prod.snd) (ctx.parts_messageItems _ m.items 0 _).1

theorem oneofs_message (m : Message) : (ctx.message scope m).value.oneofs =
    m.oneofs.map declaredOneof ++ (m.tracked ctx.dialect).map Member.ownOneof := by
  rw [message_eq, MessageItem.countP_isOneof]
  obtain ⟨-, honeofs, hpresence⟩ :=
    ctx.parts_messageItems (scope.child m.name.text) m.items 0 m.oneofs.length
  exact congrArg₂ (· ++ ·) honeofs hpresence

/-- The names of the fields that refer to a oneof are those of the members with that place. -/
theorem names_filter_fields (m : Message) (k : Nat) :
    ((ctx.message scope m).value.fields.filter (·.oneofIndex = some k)).map FieldDescriptor.name =
      (((ctx.placed (scope.child m.name.text) m.oneofs.length m.fieldMembers).filter
        (·.2.oneofIndex = some k)).map Prod.fst).map (·.name.text) := by
  rw [fields_message, List.filter_map, List.map_map, List.map_map]
  refine List.map_congr_left fun y hy => ?_
  obtain ⟨x, place, rfl⟩ := ctx.exists_of_mem_placed _ (List.mem_filter.mp hy).1
  exact ctx.name_memberAt _ x place

/-- The fields and oneofs of the descriptor of a message are those of the message. -/
theorem assembles_message (m : Message) : (ctx.message scope m).value.Assembles ctx scope m where
  fields := by
    refine List.ext_getElem? fun k => ?_
    rw [fields_message, List.getElem?_map, getElem?_placed, Option.map_map, List.getElem?_mapIdx]
    rfl
  oneofs := ctx.oneofs_message scope m
  declared k o ho := by
    have hlt : k < m.oneofs.length := (List.getElem?_eq_some_iff.mp ho).1
    have hmembers := MessageItem.filter_membersFrom m.items 0 k o ho
    rw [Nat.zero_add] at hmembers
    rw [names_filter_fields, filter_placed_of_lt ctx _ m.fieldMembers hlt]
    exact congrArg (List.map (·.name.text)) hmembers
  own k x hx := by
    rw [names_filter_fields, filter_placed ctx _ m.fieldMembers m.lt_oneofs k x hx]
    rfl
  plain k x f hx hf hnone htracks := by
    rw [fields_message, List.getElem?_map, getElem?_placed, hx] at hf
    obtain rfl := Option.some.inj hf
    simp [htracks, hnone]
  within f hf k hk := by
    rw [fields_message] at hf
    obtain ⟨y, hy, rfl⟩ := List.mem_map.mp hf
    rw [oneofs_message, List.length_append, List.length_map, List.length_map, Message.tracked,
      ← List.countP_eq_length_filter]
    exact ctx.oneofIndex_placed _ m.fieldMembers m.lt_oneofs hy hk

end Context

/-! ### Sources -/

/--
**Fields and oneofs are assembled without loss.**  Of every message that the tree of a source
holds, at any depth, there is a descriptor, and its fields and oneofs are those of the message,
whatever is reported.
-/
theorem assembles_of_readText {name source : String} {schema : Schema}
    (h : readText name source = .ok schema) :
    ∃ file ds, parseFile source.toList = .tree file ds ∧
      ∀ scope m, file.Holds scope (.message m) →
        schema.descriptor.HasMessage (scope.child m.name.text)
          ((file.context (SymbolTable.ofFile file).1).message scope m).value ∧
        ((file.context (SymbolTable.ofFile file).1).message scope m).value.Assembles
          (file.context (SymbolTable.ofFile file).1) scope m := by
  obtain ⟨file, ds, hparse, hdesc, -⟩ := tree_of_readText h
  refine ⟨file, ds, hparse, fun scope m hm => ⟨?_, Context.assembles_message _ scope m⟩⟩
  rw [hdesc]
  exact hm.hasMessage

/-- A message whose declared oneofs stand between optional fields, and which repeats a number. -/
def mixedText : String :=
  "syntax = \"proto3\"; message M \x7b optional bool a = 1;
  oneof o \x7b bool b = 2; bool c = 3; \x7d optional bool d = 4; bool e = 5;
  oneof p \x7b bool f = 5; \x7d \x7d"

theorem assembles_of_readText_mixed :
    ∃ schema, readText "mixed.proto" mixedText = .ok schema ∧ schema.report.diagnostics ≠ [] ∧
      schema.descriptor.messages.map (fun d => d.fields.map FieldDescriptor.oneofIndex) =
        [[some 2, some 0, some 0, some 3, none, some 1]] ∧
      ∃ file ds, parseFile mixedText.toList = .tree file ds ∧
        ∀ m ∈ file.messages, (((file.context (SymbolTable.ofFile file).1).message
          (Package.scope file.package) m).value).Assembles
            (file.context (SymbolTable.ofFile file).1) (Package.scope file.package) m := by
  have hread : ((readText "mixed.proto" mixedText).toOption.any fun s =>
      !s.report.diagnostics.isEmpty &&
        s.descriptor.messages.map (fun d => d.fields.map FieldDescriptor.oneofIndex) =
          [[some 2, some 0, some 0, some 3, none, some 1]]) = true := by
    decide +kernel
  obtain ⟨schema, heq, htest⟩ := exists_of_any_readText hread
  obtain ⟨hfound, hindex⟩ := Bool.and_eq_true_iff.mp htest
  obtain ⟨file, ds, hparse, hall⟩ := assembles_of_readText heq
  exact ⟨schema, heq, by simpa using hfound, of_decide_eq_true hindex, file, ds, hparse,
    fun m hm => (hall _ m (.message hm)).2⟩

end ProtoSchema
