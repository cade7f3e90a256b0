import ValueTrace.Text
import ValueTrace.Toml.Reader

/-! How much work an analysis may do, read from TOML and from named settings. -/

namespace ValueTrace

/-- The options of an analysis. -/
structure Options where
  /-- The version of the analysed language. -/
  major : Nat := 2
  minor : Nat := 7
  /-- Calls are refused while more frames than this are active. -/
  maxDepth : Nat := 40
  /-- The cost at which the analysis gives up. -/
  complexityLimit : Option Nat := some 2000000
  /-- Whether the right operand may provide an operation that the left one lacks. -/
  reverseOperators : Bool := false
  /-- Whether instructions are counted. -/
  profileOpcodes : Bool := false
  /-- How many combinations of arguments are tried in a call of a library function. -/
  maxNativeViews : Nat := 64
  deriving DecidableEq, Repr

/-- Why options were refused. -/
inductive OptionsError where
  /-- The text is no TOML form of options. -/
  | malformed
  | invalidValue (key value : String)
  | unsupportedVersion (major minor : Nat)
  deriving DecidableEq, Repr

def OptionsError.message : OptionsError → String
  | .malformed => "invalid options TOML"
  | .invalidValue key value =>
    let shown := Text.quoted value
    s!"invalid value {shown} for {key}"
  | .unsupportedVersion major minor => s!"unsupported python version {major}.{minor}"

namespace Options

def isThird (o : Options) : Bool := o.major == 3

def validate (o : Options) : Except OptionsError Unit :=
  if o.major ≠ 2 ∧ o.major ≠ 3 then .error (.unsupportedVersion o.major o.minor)
  else if o.maxNativeViews = 0 then .error (.invalidValue "max_native_views" "0")
  else .ok ()

def version? : Toml → Option (Nat × Nat)
  | .array (major :: minor :: _) => do return (← major.natBelow? 256, ← minor.natBelow? 256)
  | _ => none

/-- Read options. -/
def ofToml? (v : Toml) : Option Options := do
  match ← v.fields? ["python_version", "max_depth", "complexity_limit", "reverse_operators",
      "profile_opcodes", "max_native_views"] with
  | [version, maxDepth, complexityLimit, reverseOperators, profileOpcodes, maxNativeViews] =>
    let word := Toml.natBelow? Word.bound64
    let (major, minor) ← Toml.orDefault? (2, 7) version? version
    return {
      major, minor
      maxDepth := ← Toml.orDefault? 40 word maxDepth
      complexityLimit :=
        ← Toml.orDefault? (some 2000000) (fun v => (word v).map some) complexityLimit
      reverseOperators := ← Toml.orDefault? false Toml.boolean? reverseOperators
      profileOpcodes := ← Toml.orDefault? false Toml.boolean? profileOpcodes
      maxNativeViews := ← Toml.orDefault? 64 word maxNativeViews }
  | _ => none

def parse (s : String) : Except OptionsError Options :=
  match (Toml.read? s).bind ofToml? with
  | some o => do
    o.validate
    return o
  | none => .error .malformed

/-- The number below `bound` that decimal digits write. A plus sign may stand in front. -/
def nat? (bound : Nat) (cs : List Char) : Option Nat :=
  let ds := match cs with
    | '+' :: ds => ds
    | ds => ds
  if ds.isEmpty || !ds.all Char.isDigit then none
  else
    let n := ds.foldl (fun n d => 10 * n + (d.toNat - 48)) 0
    if n < bound then some n else none

def flag? (cs : List Char) : Option Bool :=
  let word := String.ofList (cs.map Char.toLower)
  if ["1", "true", "yes", "on"].contains word then some true
  else if ["0", "false", "no", "off"].contains word then some false
  else none

def versionText? (cs : List Char) : Option (Nat × Nat) :=
  match cs.dropWhile (· != '.') with
  | '.' :: minor => do return (← nat? 256 (cs.takeWhile (· != '.')), ← nat? 256 minor)
  | _ => none

/-- Apply one named setting. Blank values count as not set. -/
def override (lookup : String → Option String) (key : String) (read : List Char → Option α)
    (o : Options) (set : α → Options) : Except OptionsError Options :=
  match lookup key with
  | none => .ok o
  | some raw =>
    match Text.trim raw.toList with
    | [] => .ok o
    | cs =>
      match read cs with
      | some a => .ok (set a)
      | none => .error (.invalidValue key raw)

def limit? (cs : List Char) : Option (Option Nat) :=
  if ["none", "off", "0"].contains (String.ofList cs) then some none
  else (nat? Word.bound64 cs).map some

/-- Apply named settings. -/
def withOverrides (o : Options) (lookup : String → Option String) :
    Except OptionsError Options := do
  let o ← override lookup "PYFLOW_MAX_DEPTH" (nat? Word.bound64) o fun maxDepth =>
    { o with maxDepth }
  let o ← override lookup "PYFLOW_COMPLEXITY_LIMIT" limit? o fun complexityLimit =>
    { o with complexityLimit }
  let o ← override lookup "PYFLOW_REVERSE_OPERATORS" flag? o fun reverseOperators =>
    { o with reverseOperators }
  let o ← override lookup "PYFLOW_PYTHON_VERSION" versionText? o fun (major, minor) =>
    { o with major, minor }
  o.validate
  return o

end Options

end ValueTrace
