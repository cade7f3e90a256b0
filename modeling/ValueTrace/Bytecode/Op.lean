/-!
# Operations

The operations of stack bytecode, with the name that a listing gives each of them and what its
argument, if it has one, refers to.
-/

namespace ValueTrace

/-- An operation of the stack machine. -/
inductive Op where
  | nop | popTop | rotTwo | rotThree | rotFour | dupTop | dupTopx | dupTopTwo
  | unaryPositive | unaryNegative | unaryNot | unaryConvert | unaryInvert
  | binaryPower | binaryMultiply | binaryDivide | binaryModulo | binaryAdd | binarySubtract
  | binarySubscr | binaryFloorDivide | binaryTrueDivide | binaryLshift | binaryRshift | binaryAnd
  | binaryXor | binaryOr
  | inplaceFloorDivide | inplaceTrueDivide | inplaceAdd | inplaceSubtract | inplaceMultiply
  | inplaceDivide | inplaceModulo | inplacePower | inplaceLshift | inplaceRshift | inplaceAnd
  | inplaceXor | inplaceOr
  | slice0 | slice1 | slice2 | slice3 | storeSlice0 | storeSlice1 | storeSlice2 | storeSlice3
  | deleteSlice0 | deleteSlice1 | deleteSlice2 | deleteSlice3
  | storeMap | storeSubscr | deleteSubscr
  | printExpr | printItem | printNewline | printItemTo | printNewlineTo
  | breakLoop | withCleanup | loadLocals | returnValue | importStar | execStmt | yieldValue
  | popBlock | endFinally | popExcept | buildClass | loadBuildClass | storeLocals | getIter
  | storeName | deleteName | unpackSequence | forIter | listAppend | setAdd | mapAdd | storeAttr
  | deleteAttr | storeGlobal | deleteGlobal | loadConst | loadName | buildTuple | buildList
  | buildSet | buildMap | loadAttr | compareOp | importName | importFrom | jumpForward
  | jumpIfFalseOrPop | jumpIfTrueOrPop | jumpIfFalse | jumpIfTrue | jumpAbsolute | popJumpIfFalse
  | popJumpIfTrue | loadGlobal | continueLoop | setupLoop | setupExcept | setupFinally
  | setupWith | loadFast | storeFast | deleteFast | raiseVarargs | callFunction | makeFunction
  | buildSlice | makeClosure | loadClosure | loadDeref | storeDeref | callFunctionVar
  | callFunctionKw | callFunctionVarKw
  deriving DecidableEq, Repr, Inhabited

namespace Op

/-- The name of an operation in a listing. -/
def mnemonic : Op → String
  | .nop => "NOP"
  | .popTop => "POP_TOP"
  | .rotTwo => "ROT_TWO"
  | .rotThree => "ROT_THREE"
  | .rotFour => "ROT_FOUR"
  | .dupTop => "DUP_TOP"
  | .dupTopx => "DUP_TOPX"
  | .dupTopTwo => "DUP_TOP_TWO"
  | .unaryPositive => "UNARY_POSITIVE"
  | .unaryNegative => "UNARY_NEGATIVE"
  | .unaryNot => "UNARY_NOT"
  | .unaryConvert => "UNARY_CONVERT"
  | .unaryInvert => "UNARY_INVERT"
  | .binaryPower => "BINARY_POWER"
  | .binaryMultiply => "BINARY_MULTIPLY"
  | .binaryDivide => "BINARY_DIVIDE"
  | .binaryModulo => "BINARY_MODULO"
  | .binaryAdd => "BINARY_ADD"
  | .binarySubtract => "BINARY_SUBTRACT"
  | .binarySubscr => "BINARY_SUBSCR"
  | .binaryFloorDivide => "BINARY_FLOOR_DIVIDE"
  | .binaryTrueDivide => "BINARY_TRUE_DIVIDE"
  | .binaryLshift => "BINARY_LSHIFT"
  | .binaryRshift => "BINARY_RSHIFT"
  | .binaryAnd => "BINARY_AND"
  | .binaryXor => "BINARY_XOR"
  | .binaryOr => "BINARY_OR"
  | .inplaceFloorDivide => "INPLACE_FLOOR_DIVIDE"
  | .inplaceTrueDivide => "INPLACE_TRUE_DIVIDE"
  | .inplaceAdd => "INPLACE_ADD"
  | .inplaceSubtract => "INPLACE_SUBTRACT"
  | .inplaceMultiply => "INPLACE_MULTIPLY"
  | .inplaceDivide => "INPLACE_DIVIDE"
  | .inplaceModulo => "INPLACE_MODULO"
  | .inplacePower => "INPLACE_POWER"
  | .inplaceLshift => "INPLACE_LSHIFT"
  | .inplaceRshift => "INPLACE_RSHIFT"
  | .inplaceAnd => "INPLACE_AND"
  | .inplaceXor => "INPLACE_XOR"
  | .inplaceOr => "INPLACE_OR"
  | .slice0 => "SLICE_0"
  | .slice1 => "SLICE_1"
  | .slice2 => "SLICE_2"
  | .slice3 => "SLICE_3"
  | .storeSlice0 => "STORE_SLICE_0"
  | .storeSlice1 => "STORE_SLICE_1"
  | .storeSlice2 => "STORE_SLICE_2"
  | .storeSlice3 => "STORE_SLICE_3"
  | .deleteSlice0 => "DELETE_SLICE_0"
  | .deleteSlice1 => "DELETE_SLICE_1"
  | .deleteSlice2 => "DELETE_SLICE_2"
  | .deleteSlice3 => "DELETE_SLICE_3"
  | .storeMap => "STORE_MAP"
  | .storeSubscr => "STORE_SUBSCR"
  | .deleteSubscr => "DELETE_SUBSCR"
  | .printExpr => "PRINT_EXPR"
  | .printItem => "PRINT_ITEM"
  | .printNewline => "PRINT_NEWLINE"
  | .printItemTo => "PRINT_ITEM_TO"
  | .printNewlineTo => "PRINT_NEWLINE_TO"
  | .breakLoop => "BREAK_LOOP"
  | .withCleanup => "WITH_CLEANUP"
  | .loadLocals => "LOAD_LOCALS"
  | .returnValue => "RETURN_VALUE"
  | .importStar => "IMPORT_STAR"
  | .execStmt => "EXEC_STMT"
  | .yieldValue => "YIELD_VALUE"
  | .popBlock => "POP_BLOCK"
  | .endFinally => "END_FINALLY"
  | .popExcept => "POP_EXCEPT"
  | .buildClass => "BUILD_CLASS"
  | .loadBuildClass => "LOAD_BUILD_CLASS"
  | .storeLocals => "STORE_LOCALS"
  | .getIter => "GET_ITER"
  | .storeName => "STORE_NAME"
  | .deleteName => "DELETE_NAME"
  | .unpackSequence => "UNPACK_SEQUENCE"
  | .forIter => "FOR_ITER"
  | .listAppend => "LIST_APPEND"
  | .setAdd => "SET_ADD"
  | .mapAdd => "MAP_ADD"
  | .storeAttr => "STORE_ATTR"
  | .deleteAttr => "DELETE_ATTR"
  | .storeGlobal => "STORE_GLOBAL"
  | .deleteGlobal => "DELETE_GLOBAL"
  | .loadConst => "LOAD_CONST"
  | .loadName => "LOAD_NAME"
  | .buildTuple => "BUILD_TUPLE"
  | .buildList => "BUILD_LIST"
  | .buildSet => "BUILD_SET"
  | .buildMap => "BUILD_MAP"
  | .loadAttr => "LOAD_ATTR"
  | .compareOp => "COMPARE_OP"
  | .importName => "IMPORT_NAME"
  | .importFrom => "IMPORT_FROM"
  | .jumpForward => "JUMP_FORWARD"
  | .jumpIfFalseOrPop => "JUMP_IF_FALSE_OR_POP"
  | .jumpIfTrueOrPop => "JUMP_IF_TRUE_OR_POP"
  | .jumpIfFalse => "JUMP_IF_FALSE"
  | .jumpIfTrue => "JUMP_IF_TRUE"
  | .jumpAbsolute => "JUMP_ABSOLUTE"
  | .popJumpIfFalse => "POP_JUMP_IF_FALSE"
  | .popJumpIfTrue => "POP_JUMP_IF_TRUE"
  | .loadGlobal => "LOAD_GLOBAL"
  | .continueLoop => "CONTINUE_LOOP"
  | .setupLoop => "SETUP_LOOP"
  | .setupExcept => "SETUP_EXCEPT"
  | .setupFinally => "SETUP_FINALLY"
  | .setupWith => "SETUP_WITH"
  | .loadFast => "LOAD_FAST"
  | .storeFast => "STORE_FAST"
  | .deleteFast => "DELETE_FAST"
  | .raiseVarargs => "RAISE_VARARGS"
  | .callFunction => "CALL_FUNCTION"
  | .makeFunction => "MAKE_FUNCTION"
  | .buildSlice => "BUILD_SLICE"
  | .makeClosure => "MAKE_CLOSURE"
  | .loadClosure => "LOAD_CLOSURE"
  | .loadDeref => "LOAD_DEREF"
  | .storeDeref => "STORE_DEREF"
  | .callFunctionVar => "CALL_FUNCTION_VAR"
  | .callFunctionKw => "CALL_FUNCTION_KW"
  | .callFunctionVarKw => "CALL_FUNCTION_VAR_KW"

/-- All operations. -/
def all : List Op :=
  [.nop, .popTop, .rotTwo, .rotThree, .rotFour, .dupTop, .dupTopx, .dupTopTwo, .unaryPositive,
   .unaryNegative, .unaryNot, .unaryConvert, .unaryInvert, .binaryPower, .binaryMultiply,
   .binaryDivide, .binaryModulo, .binaryAdd, .binarySubtract, .binarySubscr, .binaryFloorDivide,
   .binaryTrueDivide, .binaryLshift, .binaryRshift, .binaryAnd, .binaryXor, .binaryOr,
   .inplaceFloorDivide, .inplaceTrueDivide, .inplaceAdd, .inplaceSubtract, .inplaceMultiply,
   .inplaceDivide, .inplaceModulo, .inplacePower, .inplaceLshift, .inplaceRshift, .inplaceAnd,
   .inplaceXor, .inplaceOr, .slice0, .slice1, .slice2, .slice3, .storeSlice0, .storeSlice1,
   .storeSlice2, .storeSlice3, .deleteSlice0, .deleteSlice1, .deleteSlice2, .deleteSlice3,
   .storeMap, .storeSubscr, .deleteSubscr, .printExpr, .printItem, .printNewline, .printItemTo,
   .printNewlineTo, .breakLoop, .withCleanup, .loadLocals, .returnValue, .importStar, .execStmt,
   .yieldValue, .popBlock, .endFinally, .popExcept, .buildClass, .loadBuildClass, .storeLocals,
   .getIter, .storeName, .deleteName, .unpackSequence, .forIter, .listAppend, .setAdd, .mapAdd,
   .storeAttr, .deleteAttr, .storeGlobal, .deleteGlobal, .loadConst, .loadName, .buildTuple,
   .buildList, .buildSet, .buildMap, .loadAttr, .compareOp, .importName, .importFrom,
   .jumpForward, .jumpIfFalseOrPop, .jumpIfTrueOrPop, .jumpIfFalse, .jumpIfTrue, .jumpAbsolute,
   .popJumpIfFalse, .popJumpIfTrue, .loadGlobal, .continueLoop, .setupLoop, .setupExcept,
   .setupFinally, .setupWith, .loadFast, .storeFast, .deleteFast, .raiseVarargs, .callFunction,
   .makeFunction, .buildSlice, .makeClosure, .loadClosure, .loadDeref, .storeDeref,
   .callFunctionVar, .callFunctionKw, .callFunctionVarKw]

def ofMnemonic? (s : String) : Option Op := all.find? fun op => op.mnemonic == s

/-- Whether the operation carries a number. -/
def hasArg : Op → Bool
  | .storeName | .deleteName | .unpackSequence | .forIter | .listAppend | .setAdd | .mapAdd
  | .storeAttr | .deleteAttr | .storeGlobal | .deleteGlobal | .dupTopx | .loadConst | .loadName
  | .buildTuple | .buildList | .buildSet | .buildMap | .loadAttr | .compareOp | .importName
  | .importFrom | .jumpForward | .jumpIfFalseOrPop | .jumpIfTrueOrPop | .jumpIfFalse
  | .jumpIfTrue | .jumpAbsolute | .popJumpIfFalse | .popJumpIfTrue | .loadGlobal | .continueLoop
  | .setupLoop | .setupExcept | .setupFinally | .setupWith | .loadFast | .storeFast | .deleteFast
  | .raiseVarargs | .callFunction | .makeFunction | .buildSlice | .makeClosure | .loadClosure
  | .loadDeref | .storeDeref | .callFunctionVar | .callFunctionKw | .callFunctionVarKw => true
  | _ => false

def hasTarget : Op → Bool
  | .forIter | .jumpForward | .jumpIfFalseOrPop | .jumpIfTrueOrPop | .jumpIfFalse | .jumpIfTrue
  | .jumpAbsolute | .popJumpIfFalse | .popJumpIfTrue | .continueLoop | .setupLoop | .setupExcept
  | .setupFinally | .setupWith => true
  | _ => false

def isTerminator : Op → Bool
  | .jumpForward | .jumpAbsolute | .returnValue | .raiseVarargs | .breakLoop | .continueLoop => true
  | _ => false

def usesName : Op → Bool
  | .storeName | .deleteName | .storeAttr | .deleteAttr | .storeGlobal | .deleteGlobal
  | .loadName | .loadAttr | .importName | .importFrom | .loadGlobal => true
  | _ => false

def usesLocal : Op → Bool
  | .loadFast | .storeFast | .deleteFast => true
  | _ => false

def usesCell : Op → Bool
  | .loadClosure | .loadDeref | .storeDeref => true
  | _ => false

def usesConst : Op → Bool
  | .loadConst => true
  | _ => false

end Op

/-- One instruction: its position in the code, the operation, and the position it refers to. -/
structure Instruction where
  index : Nat
  op : Op
  arg : Option Nat := none
  line : Nat := 0
  target : Option Nat := none
  deriving DecidableEq, Repr, Inhabited

namespace Instruction

def carriesOn (i : Instruction) : Bool := !i.op.isTerminator

def next (i : Instruction) : Nat := i.index + 1

def listing (i : Instruction) : String :=
  s!"{i.index}: {i.op.mnemonic}" ++ (i.arg.elim "" fun n => s!" {n}") ++
    i.target.elim "" fun n => s!" -> {n}"

end Instruction

/-- What a comparison asks for. -/
inductive Comparison where
  | lt | le | eq | ne | gt | ge | isIn | notIn | is | isNot | excMatch
  deriving DecidableEq, Repr

namespace Comparison

/-- The comparison of this number. -/
def ofNat? : Nat → Option Comparison
  | 0 => some .lt
  | 1 => some .le
  | 2 => some .eq
  | 3 => some .ne
  | 4 => some .gt
  | 5 => some .ge
  | 6 => some .isIn
  | 7 => some .notIn
  | 8 => some .is
  | 9 => some .isNot
  | 10 => some .excMatch
  | _ => none

def universal : Comparison → Bool
  | .eq | .ne | .is | .isNot => true
  | _ => false

end Comparison

end ValueTrace
