import ValueTrace.Step.Branch
import ValueTrace.Step.Functions
import ValueTrace.Step.Imports
import ValueTrace.Step.Regions

/-! What each instruction does to a path. -/

namespace ValueTrace

namespace Analysis

def runOperator (call : Caller) (op : Op) (p : Path) : Analysis Path :=
  match op.binaryMethod?, op.inplaceMethods? with
  | some method, _ => binaryOperator call method p
  | none, some (inplace, binary) => inplaceOperator call inplace binary p
  | none, none => return p

/-- Run an instruction on a path, given a way to call. -/
def step (call : Caller) : Stepper := fun i p =>
  match i.op with
  -- operands
  | .nop | .popExcept => return p
  | .popTop => p.discard
  | .dupTop => do return p.push (← p.top)
  | .dupTopx => do p.duplicate (← argument i)
  | .dupTopTwo => p.duplicate 2
  | .rotTwo => p.rotate 2
  | .rotThree => p.rotate 3
  | .rotFour => p.rotate 4
  | .loadConst => do return p.push (← constAt i)
  | .printNewline => return p
  | .printExpr | .printItem | .printNewlineTo => p.discardN 1
  | .printItemTo => p.discardN 2
  | .execStmt => p.discardN 3
  -- names
  | .loadName => do loadName .name (← nameAt i) p
  | .loadGlobal => do loadName .global (← nameAt i) p
  | .loadFast => do loadName .fast (← localAt i) p
  | .storeName => do
    let name ← nameAt i
    storeName (← frame).locals name p
  | .storeFast => do
    let name ← localAt i
    storeName (← frame).locals name p
  | .storeGlobal => do
    let name ← nameAt i
    storeName (← frame).globals name p
  | .deleteName | .deleteGlobal => do
    let _ ← nameAt i
    return p
  | .deleteFast => do
    let _ ← localAt i
    return p
  | .loadClosure => do return p.push (← cellAt i)
  | .loadDeref => do loadCell (← cellAt i) p
  | .storeDeref => do storeCell (← cellAt i) p
  | .loadLocals => loadLocals p
  | .storeLocals => storeLocals p
  -- operators
  | .unaryNot => unaryNot p
  | .unaryNegative => unaryOperator call "__neg__" p
  | .unaryPositive => unaryOperator call "__pos__" p
  | .unaryInvert => unaryOperator call "__invert__" p
  | .unaryConvert => unaryConvert p
  | .compareOp => do compareOperands call (← argument i) p
  | .binarySubscr => subscript call p
  | .binaryPower | .binaryMultiply | .binaryDivide | .binaryModulo | .binaryAdd | .binarySubtract
  | .binaryFloorDivide | .binaryTrueDivide | .binaryLshift | .binaryRshift | .binaryAnd | .binaryXor
  | .binaryOr
  | .inplaceFloorDivide | .inplaceTrueDivide | .inplaceAdd | .inplaceSubtract | .inplaceMultiply
  | .inplaceDivide | .inplaceModulo | .inplacePower | .inplaceLshift | .inplaceRshift | .inplaceAnd
  | .inplaceXor | .inplaceOr => runOperator call i.op p
  -- attributes
  | .loadAttr => do
    let name ← nameAt i
    let (obj, p) ← p.pop
    return p.push (← loadAttribute p.node obj name)
  | .storeAttr => do
    let name ← nameAt i
    let (v, obj, p) ← p.popTwo
    storeAttribute p.node obj name v
    grow p.forward
  | .deleteAttr => do
    let _ ← nameAt i
    p.discard
  -- containers
  | .buildTuple => do buildTuple (← argument i) p
  | .buildList => do buildContainer "list" (← argument i) p
  | .buildSet => do buildContainer "set" (← argument i) p
  | .buildMap => buildMap p
  | .buildSlice => do buildSlice (← argument i) p
  | .storeMap => addEntry call (pure 1) p
  | .mapAdd => addEntry call (argument i) p
  | .listAppend => addItem call "append" (argument i) p
  | .setAdd => addItem call "add" (argument i) p
  | .storeSubscr => storeSubscript call p
  | .deleteSubscr => deleteSubscript call p
  | .unpackSequence => do unpack (← argument i) p
  | .slice0 => loadSlice call 0 p
  | .slice1 | .slice2 => loadSlice call 1 p
  | .slice3 => loadSlice call 2 p
  | .storeSlice0 => storeSlice call 0 p
  | .storeSlice1 | .storeSlice2 => storeSlice call 1 p
  | .storeSlice3 => storeSlice call 2 p
  | .deleteSlice0 => deleteSlice call 0 p
  | .deleteSlice1 | .deleteSlice2 => deleteSlice call 1 p
  | .deleteSlice3 => deleteSlice call 2 p
  -- branches and loops
  | .jumpForward | .jumpAbsolute => jump i p
  | .jumpIfTrue => jumpIf i true .keep p
  | .jumpIfFalse => jumpIf i false .keep p
  | .popJumpIfTrue => jumpIf i true .drop p
  | .popJumpIfFalse => jumpIf i false .drop p
  | .jumpIfTrueOrPop => jumpIf i true .keepOnJump p
  | .jumpIfFalseOrPop => jumpIf i false .keepOnJump p
  | .getIter => getIterator call p
  | .forIter => nextItem call i p
  -- regions, exceptions and returns
  | .setupLoop => do return p.enter .loop (← target i)
  | .setupExcept => setupHandled i p
  | .setupFinally => setupCleanup i p
  | .setupWith => setupContext call i p
  | .popBlock => do return (← p.leave).2
  | .breakLoop => return { p with stop := some .broke }
  | .continueLoop => return { p with stop := some .continued }
  | .withCleanup => leaveContext call p
  | .endFinally => endCleanup p
  | .raiseVarargs => do raise (← argument i) p
  | .returnValue => returnValue p
  | .yieldValue => yieldValue p
  -- calls, functions and classes
  | .callFunction => callWith call i false false p
  | .callFunctionVar => callWith call i true false p
  | .callFunctionKw => callWith call i false true p
  | .callFunctionVarKw => callWith call i true true p
  | .makeFunction => makeFunction i false p
  | .makeClosure => makeFunction i true p
  | .buildClass => buildClassFromParts p
  | .loadBuildClass => do return p.push (← specialForm .buildClass)
  -- imports
  | .importName => do importName (← nameAt i) p
  | .importFrom => do importFrom (← nameAt i) p
  | .importStar => importStar p

end Analysis

end ValueTrace
