import ValueTrace.Bytecode.Validation
import ValueTrace.Json.Double
import ValueTrace.Json.Reader
import ValueTrace.Json.Writer

/-!
# Code as JSON

A record is an object with its fields as members, or an array of its fields in order. Members of
other names are passed over, a field given twice is refused, and a field with a default may be
missing. A choice with one case is its name, or an object with the name as its only member.
Containers may stand 127 levels deep in what is read; the depth of members passed over does not
count.
-/

namespace ValueTrace

namespace Json

def depthLimit : Nat := 127

def text? : Json → Option String
  | .string s => s
  | _ => none

def natBelow? (bound : Nat) : Json → Option Nat
  | .number n =>
    match n.toInt? with
    | some (.ofNat k) => if k < bound then some k else none
    | _ => none
  | _ => none

def int64? : Json → Option Int
  | .number n => n.toInt?.filter Word.holds
  | _ => none

def float? : Json → Option Float
  | .number n => n.toFloat?
  | _ => none

def bool? : Json → Option Bool
  | .bool b => some b
  | _ => none

def nullable? (f : Json → Option α) : Json → Option (Option α)
  | .null => some none
  | v => (f v).map some

def list? (f : Json → Option α) : Json → Option (List α)
  | .array items => items.mapM f
  | _ => none

def field? (members : List (Option String × Json)) (name : String) : Option (Option Json) :=
  match members.filter fun m => m.1 == some name with
  | [] => some none
  | [m] => some (some m.2)
  | _ => none

/-- The fields of a record, in the order of their names, each of them missing or given. -/
def fields? (names : List String) : Json → Option (List (Option Json))
  | .object members =>
    if members.all (·.1.isSome) then names.mapM (field? members) else none
  | .array items =>
    if items.length ≤ names.length then
      some (items.map some ++ List.replicate (names.length - items.length) none)
    else none
  | _ => none

def orDefault? (default : α) (f : Json → Option α) : Option Json → Option α
  | some v => f v
  | none => some default

end Json

def Op.ofJson? : Nat → Json → Option Op
  | _, .string (some s) => Op.ofMnemonic? s
  | _ + 1, .object [(some s, .null)] => Op.ofMnemonic? s
  | _, _ => none

namespace Instruction

/-- Read an instruction with room for so many containers. -/
def ofJson? : Nat → Json → Option Instruction
  | depth + 1, v => do
    match ← v.fields? ["index", "name", "arg", "line", "target"] with
    | [some index, some name, arg, line, target] =>
      return {
        index := ← index.natBelow? Word.bound64
        op := ← Op.ofJson? depth name
        arg := ← Json.orDefault? none (Json.nullable? (Json.natBelow? Word.bound32)) arg
        line := ← Json.orDefault? 0 (Json.natBelow? Word.bound32) line
        target := ← Json.orDefault? none (Json.nullable? (Json.natBelow? Word.bound64)) target }
    | _ => none
  | 0, _ => none

def toJson (i : Instruction) : Json :=
  .record [("index", .nat i.index), ("name", .text i.op.mnemonic), ("arg", .option .nat i.arg),
    ("line", .nat i.line), ("target", .option .nat i.target)]

end Instruction

namespace Block

/-- Read a block with room for so many containers. -/
def ofJson? : Nat → Json → Option Block
  | depth + 2, v => do
    match ← v.fields? ["id", "ops"] with
    | [some id, some ops] =>
      return { id := ← id.natBelow? Word.bound64, ops := ← ops.list? (Instruction.ofJson? depth) }
    | _ => none
  | _, _ => none

def toJson (b : Block) : Json :=
  .record [("id", .nat b.id), ("ops", .list Instruction.toJson b.ops)]

end Block

def Code.fieldNames : List String :=
  ["name", "filename", "first_line", "arg_count", "kwonly_arg_count", "flags", "varnames", "names",
    "consts", "cellvars", "freevars", "blocks"]

mutual

/-- Read a constant with room for so many containers. -/
def Constant.ofJson? : Nat → Json → Option Constant
  | _, .string (some "None") => some .none
  | _, .string (some "Ellipsis") => some .ellipsis
  | depth + 1, .object [(some case, v)] =>
    match case with
    | "None" => match v with | .null => some .none | _ => none
    | "Ellipsis" => match v with | .null => some .ellipsis | _ => none
    | "Bool" => v.bool?.map .bool
    | "Int" => v.int64?.map .int
    | "Float" => v.float?.map .float
    | "Str" => v.text?.map .str
    | "Unicode" => v.text?.map .unicode
    | "Complex" =>
      match depth, v with
      | _ + 1, .array [re, im] => do return .complex (← re.float?) (← im.float?)
      | _, _ => none
    | "Bytes" =>
      if 0 < depth then
        (v.list? fun b => (b.natBelow? 256).map UInt8.ofNat).map .bytes
      else none
    | "Tuple" =>
      match depth with
      | inner + 1 => (v.list? (Constant.ofJson? inner)).map .tuple
      | 0 => none
    | "Code" => (Code.ofJson? depth v).map .code
    | _ => none
  | _, _ => none

/-- Read a code object with room for so many containers. -/
def Code.ofJson? : Nat → Json → Option Code
  | depth + 2, v => do
    match ← v.fields? Code.fieldNames with
    | [some name, filename, firstLine, argCount, kwonlyArgCount, flags, varnames, names, consts,
        cellvars, freevars, some blocks] =>
      let texts := Json.orDefault? [] (Json.list? Json.text?)
      let word := Json.orDefault? 0 fun v => (v.natBelow? Word.bound64).map UInt64.ofNat
      return {
        name := ← name.text?
        filename := ← Json.orDefault? "" Json.text? filename
        firstLine := ← Json.orDefault? 0 (Json.natBelow? Word.bound32) firstLine
        argCount := ← word argCount
        kwonlyArgCount := ← word kwonlyArgCount
        flags := ← Json.orDefault? 0 (fun v => (v.natBelow? Word.bound32).map UInt32.ofNat) flags
        varnames := ← texts varnames
        names := ← texts names
        consts := ← Json.orDefault? [] (Json.list? (Constant.ofJson? depth)) consts
        cellvars := ← texts cellvars
        freevars := ← texts freevars
        blocks := ← blocks.list? (Block.ofJson? depth) }
    | _ => none
  | _, _ => none

end

def Json.case (name : String) (v : Json) : Json := .record [(name, v)]

mutual

/-- The JSON form of a constant. -/
def Constant.toJson : Constant → Json
  | .none => .text "None"
  | .ellipsis => .text "Ellipsis"
  | .bool b => .case "Bool" (.bool b)
  | .int n => .case "Int" (.int n)
  | .float f => .case "Float" (.float f)
  | .complex re im => .case "Complex" (.array [.float re, .float im])
  | .str s => .case "Str" (.text s)
  | .unicode s => .case "Unicode" (.text s)
  | .bytes bs => .case "Bytes" (.list (fun b => .nat b.toNat) bs)
  | .tuple items => .case "Tuple" (.array (Constant.allToJson items))
  | .code c => .case "Code" (Code.toJson c)

def Constant.allToJson : List Constant → List Json
  | [] => []
  | c :: cs => Constant.toJson c :: Constant.allToJson cs

/-- The JSON form of a code object, with every field given. -/
def Code.toJson : Code → Json
  | ⟨name, filename, firstLine, argCount, kwonlyArgCount, flags, varnames, names, consts, cellvars,
      freevars, blocks⟩ =>
    .record [("name", .text name), ("filename", .text filename), ("first_line", .nat firstLine),
      ("arg_count", .nat argCount.toNat), ("kwonly_arg_count", .nat kwonlyArgCount.toNat),
      ("flags", .nat flags.toNat), ("varnames", .list .text varnames),
      ("names", .list .text names), ("consts", .array (Constant.allToJson consts)),
      ("cellvars", .list .text cellvars), ("freevars", .list .text freevars),
      ("blocks", .list Block.toJson blocks)]

end

namespace Code

def load (s : String) : Except CodeError Code :=
  match (Json.read? s).bind (Code.ofJson? Json.depthLimit) with
  | some c => do
    c.validate
    return c
  | none => .error .malformed

def print (c : Code) : String := c.toJson.layout

end Code

end ValueTrace
