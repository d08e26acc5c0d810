/-
Results that come with diagnostics.

Checking never stops: a part that is wrong is reported and left out, and checking goes
on.  So a result is a value together with what was found on the way, in order.
-/
import ProtoSchema.Diagnostic

namespace ProtoSchema

/-- A value, and what there is to report about how it came about. -/
structure Checked (α : Type) where
  value : α
  diagnostics : List Diagnostic
deriving DecidableEq, Repr

namespace Checked

variable {α β γ : Type}

instance : Monad Checked where
  pure a := ⟨a, []⟩
  bind c f := ⟨(f c.value).value, c.diagnostics ++ (f c.value).diagnostics⟩

@[simp] theorem value_pure (a : α) : (pure a : Checked α).value = a := rfl

@[simp] theorem diagnostics_pure (a : α) : (pure a : Checked α).diagnostics = [] := rfl

@[simp] theorem value_bind (c : Checked α) (f : α → Checked β) :
    (c >>= f).value = (f c.value).value := rfl

@[simp] theorem diagnostics_bind (c : Checked α) (f : α → Checked β) :
    (c >>= f).diagnostics = c.diagnostics ++ (f c.value).diagnostics := rfl

@[ext] theorem ext {c d : Checked α} (hv : c.value = d.value)
    (hd : c.diagnostics = d.diagnostics) : c = d := by
  cases c; cases d; simp_all

instance : LawfulMonad Checked :=
  LawfulMonad.mk' _
    (fun c => by
      show (c >>= fun a => pure a) = c
      ext1 <;> simp)
    (fun a f => by ext1 <;> simp)
    (fun c f g => by ext1 <;> simp)

@[simp] theorem value_map (f : α → β) (c : Checked α) : (f <$> c).value = f c.value := rfl

@[simp] theorem diagnostics_map (f : α → β) (c : Checked α) :
    (f <$> c).diagnostics = c.diagnostics := by
  rw [← bind_pure_comp, diagnostics_bind, diagnostics_pure, List.append_nil]

/-- Reports a diagnostic. -/
def report (d : Diagnostic) : Checked Unit := ⟨(), [d]⟩

@[simp] theorem value_report (d : Diagnostic) : (report d).value = () := rfl

@[simp] theorem diagnostics_report (d : Diagnostic) : (report d).diagnostics = [d] := rfl

/-- Reports a diagnostic if something is the case. -/
def reportIf (b : Bool) (d : Diagnostic) : Checked Unit := if b then report d else pure ()

/-- Checks each element of a list, in order. -/
def each (f : α → Checked β) : List α → Checked (List β)
  | [] => pure []
  | a :: as => do
    let b ← f a
    let bs ← each f as
    pure (b :: bs)

/-- The values of a checked list are the checked values. -/
@[simp] theorem value_each (f : α → Checked β) (as : List α) :
    (each f as).value = as.map fun a => (f a).value := by
  induction as with
  | nil => rfl
  | cons a as ih => simp [each, ih]

@[simp] theorem diagnostics_each (f : α → Checked β) (as : List α) :
    (each f as).diagnostics = as.flatMap fun a => (f a).diagnostics := by
  induction as with
  | nil => rfl
  | cons a as ih => simp [each, ih]

end Checked

end ProtoSchema
