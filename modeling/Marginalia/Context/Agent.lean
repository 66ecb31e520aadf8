/-
  Marginalia/Context/Agent.lean
  =============================
  **Prompt templates.**  What a prompt says before and after the entries, and
  which fields of the entries it shows, for every kind of assistant.
-/
import Marginalia.Fault

namespace Marginalia.Context

/-- The kinds of assistants. -/
inductive Agent where
  | codegen
  | refactor
  | docgen
  | review
  | generic
  deriving DecidableEq, Repr

def Agent.name : Agent → String
  | .codegen => "codegen"
  | .refactor => "refactor"
  | .docgen => "docgen"
  | .review => "review"
  | .generic => "generic"

def Agent.all : List Agent := [.codegen, .refactor, .docgen, .review, .generic]

/-- The kind of assistant with this name. -/
def Agent.ofName? (name : String) : Option Agent := Agent.all.find? (·.name == name)

/-- The kind of assistant that a value names. -/
def Agent.ofJson (v : Json) : Except Fault Agent :=
  match v.text?.bind Agent.ofName? with
  | some a => .ok a
  | none => .error (.unknownAgent v (Agent.all.map Agent.name))

/-- How entries are written in a prompt. -/
inductive Format where
  | markdown
  | json
  | text
  deriving DecidableEq, Repr

def Format.name : Format → String
  | .markdown => "markdown"
  | .json => "json"
  | .text => "text"

def Format.all : List Format := [.markdown, .json, .text]

/-- The format with this name. -/
def Format.ofName? (name : String) : Option Format := Format.all.find? (·.name == name)

/-- The frame of a prompt. -/
structure Template where
  name : String
  preamble : String
  fields : List String
  instruction : String

/-- The template for a kind of assistant. -/
def Agent.template : Agent → Template
  | .codegen => {
      name := "Code Generator"
      preamble :=
        "You are a code generation assistant. The following MetaMode annotations describe "
          ++ "modules in this codebase: their IDs, descriptions, tags, dependencies, and AI hints. "
          ++ "Use this context to generate code that integrates correctly with the existing "
          ++ "architecture."
      fields := ["id", "name", "desc", "tags", "deps", "ai", "filePath", "status"]
      instruction :=
        "When generating code, reference existing module IDs in @mm:deps annotations. "
          ++ "Follow the visibility rules: do not let public modules depend on internal ones. "
          ++ "Add @mm: annotations to any new functions or modules you create." }
  | .refactor => {
      name := "Refactoring Assistant"
      preamble :=
        "You are a refactoring assistant. The following MetaMode annotations describe the "
          ++ "dependency graph and semantic roles of modules in this codebase. "
          ++ "Use this context to plan safe refactors that preserve all declared dependencies."
      fields := ["id", "name", "desc", "tags", "deps", "visibility", "status", "filePath"]
      instruction :=
        "Identify all callers (dependents) before renaming or moving a module. "
          ++ "Preserve @mm:id values across renames to avoid breaking dependency references. "
          ++ "After refactoring, update @mm:deps to reflect any changed module IDs." }
  | .docgen => {
      name := "Documentation Generator"
      preamble :=
        "You are a documentation generator. The following MetaMode annotations describe "
          ++ "modules with their descriptions, tags, phases, and AI summaries. "
          ++ "Use this context to generate accurate, concise documentation."
      fields := ["id", "name", "desc", "tags", "phase", "status", "visibility", "ai"]
      instruction :=
        "Generate documentation that matches the semantic level of the @mm:desc field. "
          ++ "Include usage examples from @mm:ai.examples when available. "
          ++ "Group related modules by their @mm:tags for better readability." }
  | .review => {
      name := "Code Reviewer"
      preamble :=
        "You are a code reviewer. The following MetaMode annotations describe the intended "
          ++ "architecture, visibility contracts, and dependency structure of this codebase. "
          ++ "Use this context to identify violations of the declared architecture."
      fields :=
        ["id", "name", "desc", "tags", "deps", "visibility", "status", "filePath", "line"]
      instruction :=
        "Flag any code that violates visibility contracts (@mm:visibility rules). "
          ++ "Check that all @mm:deps references actually exist in the codebase. "
          ++ "Warn if a module marked @mm:status=deprecated is still being depended on." }
  | .generic => {
      name := "AI Assistant"
      preamble :=
        "The following MetaMode annotations describe modules in this codebase. "
          ++ "Each entry has an ID, description, tags, dependencies, and optional AI hints."
      fields :=
        ["id", "name", "desc", "tags", "deps", "status", "visibility", "phase", "ai", "filePath"]
      instruction := "" }

end Marginalia.Context
