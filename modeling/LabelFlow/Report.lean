import LabelFlow.Catalog.Saved
import LabelFlow.Validation.Validator

/-!
# Reports from saved settings

`Report.ofSaved` validates a text with a configuration and a catalog that are given as JSON texts,
for a node with inputs of the given names. The configuration is loaded first, so its error is the
one reported if both are bad.
-/

set_option autoImplicit false

namespace LabelFlow

/-- The diagnostics of a text. -/
structure Report where
  diagnostics : List Diagnostic
deriving DecidableEq

namespace Report

/-- No diagnostic is an error. -/
def ok (r : Report) : Bool := !r.diagnostics.any fun d => d.severity == .error

/-- Why there is no report: the settings could not be loaded, or the text could not be validated. -/
inductive Error
  | config (error : ConfigError)
  | catalog (error : Catalog.LoadError)
  | owner (error : OwnerError)
deriving DecidableEq, Repr

/-- The wording of a refusal. -/
def Error.message : Error → String
  | .config error => "invalid config: " ++ error.message
  | .catalog error => "invalid label catalog: " ++ error.message
  | .owner error => error.message

/-- Loads a configuration, the default one if there is no text. -/
def loadConfig (j : Json.Library) (text : Option String) : Except Error Config :=
  match text with
  | none => .ok .default
  | some text => (Config.ofSaved j text).mapError .config

/-- Loads a catalog from an array or from a diagram, which may have none. -/
def loadCatalog (j : Json.Library) (text : String) : Except Error (Option Catalog) :=
  (Catalog.ofSaved j text).mapError .catalog

/-- Validates a text with saved settings. -/
def ofSaved (j : Json.Library) (text : String) (inputs : List String)
    (catalog config : Option String) : Except Error Report := do
  let config ← loadConfig j config
  let catalog ← match catalog with
    | none => .ok none
    | some catalog => loadCatalog j catalog
  let outcome ← (Validator.validate ⟨config, catalog⟩ text (.node inputs)).mapError .owner
  .ok ⟨outcome.diagnostics⟩

end Report

end LabelFlow
