import LabelFlow.Catalog.Saved
import LabelFlow.Validation.Validator

/-!
# Editor sessions

A `Session` holds the settings and the owner that texts are validated with, and a `Request` changes
one of them or validates a text. A request that fails leaves the session as it was.
-/

set_option autoImplicit false

namespace LabelFlow

/-- The settings of an editor, and the owner of the behavior that is edited. -/
structure Session where
  config : Config
  catalog : Option Catalog
  owner : Owner
deriving DecidableEq

namespace Session

/-- Default settings, and a node without inputs. -/
def start : Session := ⟨.default, none, .node []⟩

/-- What a session is asked to do. -/
inductive Request
  | validate (text : String)
  | loadConfig (text : String)
  | loadCatalog (text : String)
  | loadDiagram (text : String)
  | setInputs (names : List String)
  | removeOwner
deriving DecidableEq, Repr

/-- What a session answers. -/
inductive Answer
  /-- The diagnostics of the first of two runs, the fetches of both, whether both agree, and the
  least length of names. -/
  | validated (diagnostics : List Diagnostic) (fetches : Nat) (repeatable : Bool)
      (minNameLength : Nat)
  | config (config : Config)
  /-- The catalog's number of types, if there is a catalog. -/
  | types (count : Option Nat)
  | inputs (names : List String)
  | ownerRemoved
deriving DecidableEq

/-- Why a request fails. -/
inductive Error
  | owner (error : OwnerError)
  | config (error : ConfigError)
  | catalog (error : Catalog.LoadError)
deriving DecidableEq, Repr

/-- The validator of the settings. -/
def validator (s : Session) : Validator := ⟨s.config, s.catalog⟩

/-- Validates a text twice. -/
def validateTwice (s : Session) (text : String) : Except OwnerError Answer := do
  let first ← s.validator.validate text s.owner
  let second ← s.validator.validate text s.owner
  .ok (.validated first.diagnostics (first.fetches + second.fetches)
    (first.diagnostics == second.diagnostics) s.config.minNameLength)

/-- The session after a request, and the answer. -/
def handle (j : Json.Library) (s : Session) : Request → Except Error (Session × Answer)
  | .validate text => (s.validateTwice text).mapError .owner |>.map fun answer => (s, answer)
  | .loadConfig text =>
    (Config.ofSaved j text).mapError .config |>.map fun config =>
      ({ s with config := config }, .config config)
  | .loadCatalog text =>
    (Catalog.ofArray j text).mapError .catalog |>.map fun catalog =>
      ({ s with catalog := some catalog }, .types (some catalog.types.length))
  | .loadDiagram text =>
    (Catalog.ofDiagram j text).mapError .catalog |>.map fun catalog =>
      ({ s with catalog := catalog }, .types (catalog.map fun c => c.types.length))
  | .setInputs names => .ok ({ s with owner := .node names }, .inputs names)
  | .removeOwner => .ok ({ s with owner := .missing }, .ownerRemoved)

/-- The answers to requests, one after the other. -/
def run (j : Json.Library) (s : Session) : List Request → List (Except Error Answer)
  | [] => []
  | r :: rs =>
    match s.handle j r with
    | .ok (next, answer) => .ok answer :: next.run j rs
    | .error e => .error e :: s.run j rs

end Session

end LabelFlow
