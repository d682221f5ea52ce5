import LiveForm.Document.Toml
import LiveForm.Failure
import LiveForm.Form.Load

/-!
# Documents in storage

Documents are kept as TOML texts. A document that is read is checked; one that is saved is not, but it
must not hold a void value.
-/

set_option autoImplicit false

namespace LiveForm.Document

variable {σ : Type} [Storage σ]

/-- Reads a document from a text that is said to come from a path. -/
def ofText (path text : String) : Except Failure Document :=
  (parse path text).mapError fun fault => .form (.invalidDocument fault)

/-- Loads the document at a path. -/
def load (storage : σ) (path : String) : Except Failure Document := do
  unless Storage.holds storage path do throw (.noDocument path)
  let text ← (Storage.read storage path).mapError (.unreadDocument path)
  ofText path text

/-- Loads the document at a path as a form. -/
def loadForm (storage : σ) (settings : Settings) (path : String) : Except Failure Form := do
  let document ← load storage path
  (Form.ofDocument document settings).mapError .form

/-- Saves a document at a path. -/
def save (path : String) (document : Document) : EStateM Failure σ Unit :=
  match document.render? with
  | none => throw (.unwritableDocument path)
  | some text => (Storage.write path text).adaptExcept (.unwrittenDocument path)

end LiveForm.Document
