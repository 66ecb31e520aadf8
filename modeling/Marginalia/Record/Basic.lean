/-
  Marginalia/Record/Basic.lean
  ============================
  **Annotation records.**  What one annotation says about an entity of the code:
  ten optional fields.  Dependencies are a plain list, all of them runtime
  dependencies, or lists sorted by kind; a hint for assistants is a text or has
  parts.
-/
import Marginalia.Table

namespace Marginalia

/-! ### Choices with fixed names -/

/-- Who may rely on an entity. -/
inductive Visibility where
  | published
  | internal
  deriving DecidableEq, Repr

/-- How settled an entity is. -/
inductive Status where
  | stable
  | beta
  | experimental
  | deprecated
  | exp
  | dep
  deriving DecidableEq, Repr

/-- When a dependency is needed. -/
inductive DepKind where
  | runtime
  | build
  | optional
  deriving DecidableEq, Repr

/-- Where an annotation was found: in a comment or in an object of the program text. -/
inductive Origin where
  | comment
  | embedded
  deriving DecidableEq, Repr

def Visibility.name : Visibility → String
  | .published => "public"
  | .internal => "internal"

def Visibility.all : List Visibility := [.published, .internal]

def Visibility.ofName? (s : String) : Option Visibility := Visibility.all.find? (·.name == s)

def Status.name : Status → String
  | .stable => "stable"
  | .beta => "beta"
  | .experimental => "experimental"
  | .deprecated => "deprecated"
  | .exp => "exp"
  | .dep => "dep"

def Status.all : List Status := [.stable, .beta, .experimental, .deprecated, .exp, .dep]

def Status.ofName? (s : String) : Option Status := Status.all.find? (·.name == s)

def DepKind.name : DepKind → String
  | .runtime => "runtime"
  | .build => "build"
  | .optional => "optional"

/-- All kinds, in the order in which dependencies are listed. -/
def DepKind.all : List DepKind := [.runtime, .build, .optional]

def DepKind.ofName? (s : String) : Option DepKind := DepKind.all.find? (·.name == s)

def Origin.name : Origin → String
  | .comment => "jsdoc"
  | .embedded => "runtime"

def Origin.all : List Origin := [.comment, .embedded]

def Origin.ofName? (s : String) : Option Origin := Origin.all.find? (·.name == s)

theorem Visibility.ofName?_name (v : Visibility) : Visibility.ofName? v.name = some v := by
  cases v <;> decide

theorem Status.ofName?_name (s : Status) : Status.ofName? s.name = some s := by
  cases s <;> decide

theorem DepKind.ofName?_name (c : DepKind) : DepKind.ofName? c.name = some c := by
  cases c <;> decide

theorem Origin.ofName?_name (o : Origin) : Origin.ofName? o.name = some o := by
  cases o <;> decide

/-! ### Dependencies -/

/-- Dependency targets by kind. -/
structure Buckets where
  runtime : List String := []
  build : List String := []
  optional : List String := []
  deriving DecidableEq, Repr

/-- The targets of one kind. -/
def Buckets.get (b : Buckets) : DepKind → List String
  | .runtime => b.runtime
  | .build => b.build
  | .optional => b.optional

/-- Adds targets after those of the same kind. -/
def Buckets.extend (b : Buckets) (c : DepKind) (targets : List String) : Buckets :=
  match c with
  | .runtime => { b with runtime := b.runtime ++ targets }
  | .build => { b with build := b.build ++ targets }
  | .optional => { b with optional := b.optional ++ targets }

/-- Declared dependencies: a plain list, or targets with kinds. -/
inductive Dependencies where
  | flat (targets : List String)
  | classified (buckets : Buckets)
  deriving DecidableEq, Repr

/-- The targets by kind; those of a plain list are needed at run time. -/
def Dependencies.buckets : Dependencies → Buckets
  | .flat targets => { runtime := targets }
  | .classified b => b

/-- The targets of one kind. -/
def Dependencies.ofKind (d : Dependencies) (c : DepKind) : List String := d.buckets.get c

/-- The targets of the given kinds, one kind after another. -/
def Dependencies.targets (d : Dependencies) (kinds : List DepKind) : List String :=
  kinds.flatMap d.ofKind

/-- No target of any kind. -/
def Dependencies.isEmpty (d : Dependencies) : Bool := (d.targets DepKind.all).isEmpty

/-- The non-empty kinds by name. -/
def Dependencies.asTable (d : Dependencies) : Table String (List String) :=
  (DepKind.all.map fun c => (c.name, d.ofKind c)).filter fun p => !p.2.isEmpty

/-! ### Hints -/

/-- The parts of a structured hint. -/
structure HintParts (α : Type) where
  summary : Option α := none
  usage : Option α := none
  examples : Option (List α) := none
  deriving DecidableEq, Repr

/-- A hint for assistants: one text, or parts. -/
inductive Hint (α : Type) where
  | text (s : String)
  | parts (p : HintParts α)
  deriving DecidableEq, Repr

/-- A hint with its parts converted. -/
def Hint.map {α β : Type} (f : α → β) : Hint α → Hint β
  | .text s => .text s
  | .parts p => .parts ⟨p.summary.map f, p.usage.map f, p.examples.map (·.map f)⟩

/-! ### Records -/

/-- One annotation; a field that was not given is `none`. -/
structure Record where
  id : Option String := none
  name : Option String := none
  desc : Option String := none
  tags : Option (List String) := none
  deps : Option Dependencies := none
  ai : Option (Hint String) := none
  visibility : Option Visibility := none
  version : Option String := none
  phase : Option Int := none
  status : Option Status := none
  deriving DecidableEq, Repr

namespace Record

/-- The record with no field given. -/
def empty : Record := {}

/-- The names of the fields, in the order in which they are written. -/
def fieldNames : List String :=
  ["id", "name", "desc", "tags", "deps", "ai", "visibility", "version", "phase", "status"]

/-- No field is given. -/
def isEmpty (r : Record) : Bool := r == empty

/-- The record in which every field given in `newer` replaces that of `r`. -/
def overriddenBy (r newer : Record) : Record where
  id := newer.id <|> r.id
  name := newer.name <|> r.name
  desc := newer.desc <|> r.desc
  tags := newer.tags <|> r.tags
  deps := newer.deps <|> r.deps
  ai := newer.ai <|> r.ai
  visibility := newer.visibility <|> r.visibility
  version := newer.version <|> r.version
  phase := newer.phase <|> r.phase
  status := newer.status <|> r.status

/-- The id, unless it is missing or empty. -/
def id? (r : Record) : Option String := r.id.filter (!·.isEmpty)

/-- A record without a declared visibility is public. -/
def visibilityOrPublic (r : Record) : Visibility := r.visibility.getD .published

/-- The targets of the given kinds, none when no dependencies are declared. -/
def targets (r : Record) (kinds : List DepKind) : List String :=
  match r.deps with
  | none => []
  | some d => d.targets kinds

end Record

/-! ### Annotations in files -/

/-- An annotation found in a file. -/
structure Note where
  record : Record
  origin : Origin
  /-- The line on which the annotation begins, counted from one. -/
  line : Int
  /-- The text of the comment or object. -/
  raw : String
  /-- The name of the entity that the annotation belongs to, when one was recognised. -/
  entity : Option String := none
  deriving DecidableEq, Repr

/-- The entity name, unless it is missing or empty. -/
def Note.entity? (a : Note) : Option String := a.entity.filter (!·.isEmpty)

/-- What was found in one file. -/
structure Extraction where
  path : String
  annotations : List Note := []
  warnings : List String := []
  deriving DecidableEq, Repr

/-- There is an annotation or a warning. -/
def Extraction.hasFindings (x : Extraction) : Bool :=
  !x.annotations.isEmpty || !x.warnings.isEmpty

end Marginalia
