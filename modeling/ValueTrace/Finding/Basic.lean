import ValueTrace.Text
import ValueTrace.Graph.Basic

/-! What an analysis finds wrong in the program that it analyses. -/

namespace ValueTrace

/-- The kinds of findings. -/
inductive FindingKind where
  | nameError | attributeError | noneAttr | wrongArgCount | wrongArgTypes | wrongKeywordArgs
  | duplicateKeywordArgument | missingParameter | notCallable | unsupportedOperands | baseClassError
  | mroError | importError | annotationInvalid
  deriving DecidableEq, Repr

namespace FindingKind

/-- The name of a kind. -/
def label : FindingKind → String
  | .nameError => "name-error"
  | .attributeError => "attribute-error"
  | .noneAttr => "none-attr"
  | .wrongArgCount => "wrong-arg-count"
  | .wrongArgTypes => "wrong-arg-types"
  | .wrongKeywordArgs => "wrong-keyword-args"
  | .duplicateKeywordArgument => "duplicate-keyword-argument"
  | .missingParameter => "missing-parameter"
  | .notCallable => "not-callable"
  | .unsupportedOperands => "unsupported-operands"
  | .baseClassError => "base-class-error"
  | .mroError => "mro-error"
  | .importError => "import-error"
  | .annotationInvalid => "invalid-annotation"

def all : List FindingKind :=
  [.nameError, .attributeError, .noneAttr, .wrongArgCount, .wrongArgTypes, .wrongKeywordArgs,
    .duplicateKeywordArgument, .missingParameter, .notCallable, .unsupportedOperands,
    .baseClassError, .mroError, .importError, .annotationInvalid]

def ofLabel? (s : String) : Option FindingKind := all.find? fun k => k.label == s

end FindingKind

/-- One finding, with the place that it is about. -/
structure Finding where
  kind : FindingKind
  message : String
  details : Option String := none
  filename : String := ""
  function : String := ""
  line : Nat := 0
  /-- The instruction, as a listing shows it. -/
  opcode : String := ""
  /-- The variables that the finding is about. -/
  vars : List VarId := []
  deriving DecidableEq, Repr

def Finding.text (f : Finding) : String :=
  s!"File \"{f.filename}\", line {f.line}, in {f.function}: {f.message} [{f.kind.label}]" ++
    (f.details.elim "" fun details =>
      (Text.lines details.toList).foldl (fun s l => s ++ "\n  " ++ String.ofList l) "")

end ValueTrace
