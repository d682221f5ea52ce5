import LiveForm.Error
import LiveForm.Storage.Basic

/-!
# Failures

Why a task fails that involves more than one form: its settings, or the place where its document is kept.
-/

set_option autoImplicit false

namespace LiveForm

/-- Why a task failed. -/
inductive Failure where
  | form (error : FormError)
  /-- The settings cannot be read. -/
  | settings
  /-- There is no document at a path. -/
  | noDocument (path : String)
  | unreadDocument (path : String) (fault : StorageFault)
  | unwrittenDocument (path : String) (fault : StorageFault)
  /-- A document has a value that cannot be written. -/
  | unwritableDocument (path : String)
deriving DecidableEq, Repr

namespace Failure

/-- The text of a failure. -/
def message : Failure → String
  | form error => error.message
  | settings => "config error"
  | noDocument path => "operation failed: form document not found: " ++ path
  | unreadDocument path _ => "operation failed: read form document: " ++ path
  | unwrittenDocument path _ => "operation failed: write form document: " ++ path
  | unwritableDocument path => "operation failed: serialize form document " ++ path

end Failure

end LiveForm
