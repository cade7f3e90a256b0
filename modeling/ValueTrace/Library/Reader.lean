import ValueTrace.Library.Basic
import ValueTrace.Toml.Reader

/-! Read declarations from TOML. Of fields that are not known only the numerals are looked at: each
of them has to stand for a number. -/

namespace ValueTrace

def Toml.strings? : Toml → Option (List String) := Toml.list? Toml.string?

def Toml.stringEntries? (v : Toml) : Option (List (String × String)) :=
  (v.entries? Toml.string?).map fun es => es.mergeSort fun a b => a.1 ≤ b.1

/-- Read the declaration of a function. -/
def FunctionDecl.ofToml? (v : Toml) : Option FunctionDecl := do
  match ← v.fields? ["name", "signatures", "mutates"] with
  | [some name, some signatures, mutates] =>
    return {
      name := ← name.string?
      signatures := ← signatures.strings?
      mutates := ← Toml.orDefault? [] Toml.strings? mutates }
  | _ => none

/-- Read the declaration of a class. -/
def ClassDecl.ofToml? (v : Toml) : Option ClassDecl := do
  match ← v.fields? ["name", "bases", "template", "methods", "attributes"] with
  | [some name, bases, template, methods, attributes] =>
    return {
      name := ← name.string?
      bases := ← Toml.orDefault? [] Toml.strings? bases
      template := ← Toml.orDefault? [] Toml.strings? template
      methods := ← Toml.orDefault? [] (Toml.list? FunctionDecl.ofToml?) methods
      attributes := ← Toml.orDefault? [] Toml.stringEntries? attributes }
  | _ => none

/-- Read the declaration of a module. -/
def ModuleDecl.ofToml? (v : Toml) : Option ModuleDecl := do
  match ← v.fields? ["name", "functions", "classes", "attributes"] with
  | [some name, functions, classes, attributes] =>
    return {
      name := ← name.string?
      functions := ← Toml.orDefault? [] (Toml.list? FunctionDecl.ofToml?) functions
      classes := ← Toml.orDefault? [] (Toml.list? ClassDecl.ofToml?) classes
      attributes := ← Toml.orDefault? [] Toml.stringEntries? attributes }
  | _ => none

/-- Read all declarations. -/
def Declarations.ofToml? (v : Toml) : Option Declarations := do
  match ← v.fields? ["classes", "functions", "modules"] with
  | [classes, functions, modules] =>
    return {
      classes := ← Toml.orDefault? [] (Toml.list? ClassDecl.ofToml?) classes
      functions := ← Toml.orDefault? [] (Toml.list? FunctionDecl.ofToml?) functions
      modules := ← Toml.orDefault? [] (Toml.list? ModuleDecl.ofToml?) modules }
  | _ => none

def Library.parse (s : String) : Except LibraryError Library :=
  match (Toml.read? s).bind Declarations.ofToml? with
  | some d => Library.ofDeclarations d
  | none => .error .malformed

end ValueTrace
