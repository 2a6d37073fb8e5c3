/-!
# Errors (`error.rs`)

The variants that the modelled functions return.
-/

namespace Summa

inductive Error where
  /-- A storage failure. -/
  | io
  | corruption (message : String)
  | indexClosed
  | schema (message : String)
  | queueFull
  | commitInProgress
  | internal (message : String)
  | document (message : String)
  | duplicatePrimaryKey (key : String)
  deriving DecidableEq, Repr

abbrev Result (α : Type) := Except Error α

end Summa
