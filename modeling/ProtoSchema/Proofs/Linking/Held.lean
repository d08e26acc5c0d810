/-
What a file holds.

Declarations stand in the file or in messages of the file, at any depth, and each has a scope, which
is that of the file or the name of the message around it.  `File.Holds` says so as a relation, and
that is all that a claim about everything in a file needs.

Where something is counted, a relation is not enough: two declarations may be equal in all that
can be told about them.  So there are lists as well.  One walk comes by every message once, and
what a file holds is what stands in it and what stands in those messages.
-/
import ProtoSchema.Symbol.Declared

namespace ProtoSchema

/-- What a file declares besides services, at any depth, in the scope where it stands. -/
inductive File.Holds (file : File) : FullName → MessageItem → Prop
  | message {m : Message} : m ∈ file.messages →
      Holds file (Package.scope file.package) (.message m)
  | enum {e : Enum} : e ∈ file.enums → Holds file (Package.scope file.package) (.enum e)
  | extend {e : Extend} : e ∈ file.extendBlocks →
      Holds file (Package.scope file.package) (.extend e)
  | within {scope : FullName} {m : Message} {item : MessageItem} :
      Holds file scope (.message m) → item ∈ m.items → Holds file (scope.child m.name.text) item

/-- The fields of messages, those of oneofs among them, beside which they stand. -/
inductive File.HoldsField (file : File) : FullName → Field → Prop
  | field {scope : FullName} {f : Field} : file.Holds scope (.field f) → HoldsField file scope f
  | oneof {scope : FullName} {o : Oneof} {f : Field} :
      file.Holds scope (.oneof o) → f ∈ o.fields → HoldsField file scope f

/-! ### The messages of a file -/

mutual

/-- A message that stands in a scope and all messages within it, each in its scope. -/
def Message.walk (scope : FullName) : Message → List (FullName × Message)
  | m@⟨name, items, _, _, _, _⟩ => (scope, m) :: MessageItem.walkAll (scope.child name.text) items

/-- The messages that items declare, at any depth. -/
def MessageItem.walkAll (scope : FullName) : List MessageItem → List (FullName × Message)
  | [] => []
  | i :: is => MessageItem.walk scope i ++ MessageItem.walkAll scope is

def MessageItem.walk (scope : FullName) : MessageItem → List (FullName × Message)
  | .message m => Message.walk scope m
  | .field _ | .oneof _ | .enum _ | .extend _ => []

end

/-- The messages that a file declares, at any depth, each in its scope. -/
def File.heldMessages (file : File) : List (FullName × Message) :=
  file.messages.flatMap (Message.walk (Package.scope file.package))

theorem Message.walk_eq (scope : FullName) (m : Message) :
    m.walk scope = (scope, m) :: MessageItem.walkAll (scope.child m.name.text) m.items := by
  cases m
  rw [Message.walk]

theorem MessageItem.walkAll_eq (scope : FullName) (items : List MessageItem) :
    walkAll scope items = items.flatMap (walk scope) := by
  induction items with
  | nil => rfl
  | cons i is ih => rw [walkAll, ih, List.flatMap_cons]

mutual

/-- Behind a message that the walk comes by, it comes by the messages within that one. -/
theorem Message.walk_within (scope : FullName) : (m : Message) → ∀ p ∈ m.walk scope,
    ∀ inner, MessageItem.message inner ∈ p.2.items →
      (p.1.child p.2.name.text, inner) ∈ m.walk scope
  | ⟨name, items, options, reserved, extensions, span⟩ => by
      intro p hp inner hinner
      rw [Message.walk_eq] at hp ⊢
      refine List.mem_cons_of_mem _ ?_
      rcases List.mem_cons.mp hp with rfl | hp
      · rw [MessageItem.walkAll_eq]
        refine List.mem_flatMap.mpr ⟨_, hinner, ?_⟩
        rw [MessageItem.walk, Message.walk_eq]
        exact List.mem_cons_self
      · exact MessageItem.walkAll_within (scope.child name.text) items p hp inner hinner

theorem MessageItem.walkAll_within (scope : FullName) : (items : List MessageItem) →
    ∀ p ∈ MessageItem.walkAll scope items, ∀ inner, MessageItem.message inner ∈ p.2.items →
      (p.1.child p.2.name.text, inner) ∈ MessageItem.walkAll scope items
  | [] => fun _ hp => absurd hp List.not_mem_nil
  | i :: is => by
      intro p hp inner hinner
      rw [MessageItem.walkAll] at hp ⊢
      rcases List.mem_append.mp hp with hp | hp
      · exact List.mem_append_left _ (MessageItem.walk_within scope i p hp inner hinner)
      · exact List.mem_append_right _ (MessageItem.walkAll_within scope is p hp inner hinner)

theorem MessageItem.walk_within (scope : FullName) : (i : MessageItem) → ∀ p ∈ i.walk scope,
    ∀ inner, MessageItem.message inner ∈ p.2.items →
      (p.1.child p.2.name.text, inner) ∈ i.walk scope
  | .message m => Message.walk_within scope m
  | .field _ => fun _ hp => absurd hp List.not_mem_nil
  | .oneof _ => fun _ hp => absurd hp List.not_mem_nil
  | .enum _ => fun _ hp => absurd hp List.not_mem_nil
  | .extend _ => fun _ hp => absurd hp List.not_mem_nil

end

namespace File

variable {file : File} {scope : FullName}

mutual

theorem holds_of_mem_walk {scope : FullName} : (m : Message) → file.Holds scope (.message m) →
    ∀ p ∈ m.walk scope, file.Holds p.1 (.message p.2)
  | ⟨name, items, options, reserved, extensions, span⟩ => by
      intro h p hp
      rw [Message.walk_eq] at hp
      rcases List.mem_cons.mp hp with rfl | hp
      · exact h
      · exact holds_of_mem_walkAll items (fun i hi => .within h hi) p hp

theorem holds_of_mem_walkAll {scope : FullName} : (items : List MessageItem) →
    (∀ i ∈ items, file.Holds scope i) → ∀ p ∈ MessageItem.walkAll scope items,
      file.Holds p.1 (.message p.2)
  | [] => fun _ _ hp => absurd hp List.not_mem_nil
  | i :: is => by
      intro h p hp
      rw [MessageItem.walkAll] at hp
      rcases List.mem_append.mp hp with hp | hp
      · exact holds_of_mem_walkItem i (h i List.mem_cons_self) p hp
      · exact holds_of_mem_walkAll is (fun j hj => h j (List.mem_cons_of_mem i hj)) p hp

theorem holds_of_mem_walkItem {scope : FullName} : (i : MessageItem) → file.Holds scope i →
    ∀ p ∈ i.walk scope, file.Holds p.1 (.message p.2)
  | .message m => fun h p hp => holds_of_mem_walk m h p hp
  | .field _ => fun _ _ hp => absurd hp List.not_mem_nil
  | .oneof _ => fun _ _ hp => absurd hp List.not_mem_nil
  | .enum _ => fun _ _ hp => absurd hp List.not_mem_nil
  | .extend _ => fun _ _ hp => absurd hp List.not_mem_nil

end

/-- The walk comes by the messages that the file holds, and by no others. -/
theorem mem_heldMessages {p : FullName × Message} :
    p ∈ file.heldMessages ↔ file.Holds p.1 (.message p.2) := by
  obtain ⟨scope, m⟩ := p
  constructor
  · intro h
    obtain ⟨outer, houter, h⟩ := List.mem_flatMap.mp h
    exact holds_of_mem_walk outer (.message houter) _ h
  · intro h
    change file.Holds scope (.message m) at h
    -- On how the file holds an item: a message stands in the file, or among the items of another.
    generalize hitem : MessageItem.message m = item at h
    induction h generalizing m with
    | @message m' hm =>
        obtain rfl : m = m' := MessageItem.message.inj hitem
        refine List.mem_flatMap.mpr ⟨m, hm, ?_⟩
        rw [Message.walk_eq]
        exact List.mem_cons_self
    | enum _ => cases hitem
    | extend _ => cases hitem
    | @within scope outer item _ hmem ih =>
        obtain ⟨root, hroot, houter⟩ := List.mem_flatMap.mp (ih outer rfl)
        exact List.mem_flatMap.mpr ⟨root, hroot,
          Message.walk_within _ root _ houter m (hitem ▸ hmem)⟩

end File

/-! ### The items of a file -/

namespace File

variable {file : File}

/-- What a file holds, each item once and in its scope. -/
def heldItems (file : File) : List (FullName × MessageItem) :=
  let scope := Package.scope file.package
  file.messages.map (fun m => (scope, .message m)) ++
    (file.enums.map (fun e => (scope, .enum e)) ++
      (file.extendBlocks.map (fun e => (scope, .extend e)) ++
        file.heldMessages.flatMap fun p => p.2.items.map fun i => (p.1.child p.2.name.text, i)))

theorem mem_heldItems {scope : FullName} {i : MessageItem} :
    (scope, i) ∈ file.heldItems ↔ file.Holds scope i := by
  simp only [heldItems, List.mem_append, List.mem_map, List.mem_flatMap]
  constructor
  · rintro (⟨m, hm, heq⟩ | ⟨e, he, heq⟩ | ⟨e, he, heq⟩ | ⟨p, hp, i', hi', heq⟩)
    · cases heq
      exact .message hm
    · cases heq
      exact .enum he
    · cases heq
      exact .extend he
    · cases heq
      exact .within (mem_heldMessages.mp hp) hi'
  · intro h
    cases h with
    | message hm => exact .inl ⟨_, hm, rfl⟩
    | enum he => exact .inr (.inl ⟨_, he, rfl⟩)
    | extend he => exact .inr (.inr (.inl ⟨_, he, rfl⟩))
    | @within outer m _ hm hi =>
        have hheld : (outer, m) ∈ file.heldMessages := mem_heldMessages.mpr hm
        exact .inr (.inr (.inr ⟨_, hheld, i, hi, rfl⟩))

end File

end ProtoSchema
