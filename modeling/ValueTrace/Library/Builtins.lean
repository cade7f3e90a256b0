import ValueTrace.Library.Basic

/-! The library that every program can use. -/

namespace ValueTrace

namespace Builtins

def fn (name : String) (signatures : List String) (mutates : List String := []) : FunctionDecl :=
  { name, signatures, mutates }

/-- Objects, types and numbers. -/
def core : List ClassDecl := [
  { name := "object"
    methods := [
      fn "__init__" ["(self) -> None"],
      fn "__eq__" ["(self, other: ?) -> bool"],
      fn "__ne__" ["(self, other: ?) -> bool"],
      fn "__str__" ["(self) -> str"],
      fn "__repr__" ["(self) -> str"],
      fn "__hash__" ["(self) -> int"]]
    attributes := [("__doc__", "str or None"), ("__module__", "str")] },
  { name := "type", bases := ["object"]
    methods := [
      fn "__init__" ["(self, obj: ?, bases: ? = ..., namespace: ? = ...) -> None"],
      fn "mro" ["(self) -> list[type]"]]
    attributes := [("__name__", "str")] },
  { name := "NoneType", bases := ["object"] },
  { name := "int", bases := ["object"]
    methods := [
      fn "__init__" ["(self, x: ? = ..., base: int = ...) -> None"],
      fn "__add__" ["(self, y: int) -> int", "(self, y: float) -> float",
        "(self, y: complex) -> complex"],
      fn "__sub__" ["(self, y: int) -> int", "(self, y: float) -> float",
        "(self, y: complex) -> complex"],
      fn "__mul__" ["(self, y: int) -> int", "(self, y: float) -> float",
        "(self, y: complex) -> complex", "(self, y: str) -> str",
        "(self, y: list[T]) -> list[T]"],
      fn "__div__" ["(self, y: int) -> int", "(self, y: float) -> float",
        "(self, y: complex) -> complex"],
      fn "__truediv__" ["(self, y: float) -> float", "(self, y: complex) -> complex"],
      fn "__floordiv__" ["(self, y: int) -> int", "(self, y: float) -> float"],
      fn "__mod__" ["(self, y: int) -> int", "(self, y: float) -> float"],
      fn "__pow__" ["(self, y: int) -> int", "(self, y: float) -> float",
        "(self, y: complex) -> complex"],
      fn "__lshift__" ["(self, y: int) -> int"],
      fn "__rshift__" ["(self, y: int) -> int"],
      fn "__and__" ["(self, y: int) -> int"],
      fn "__or__" ["(self, y: int) -> int"],
      fn "__xor__" ["(self, y: int) -> int"],
      fn "__radd__" ["(self, y: int) -> int"],
      fn "__rsub__" ["(self, y: int) -> int"],
      fn "__rmul__" ["(self, y: int) -> int"],
      fn "__neg__" ["(self) -> int"],
      fn "__pos__" ["(self) -> int"],
      fn "__invert__" ["(self) -> int"],
      fn "__abs__" ["(self) -> int"],
      fn "__lt__" ["(self, y: float) -> bool"],
      fn "__le__" ["(self, y: float) -> bool"],
      fn "__gt__" ["(self, y: float) -> bool"],
      fn "__ge__" ["(self, y: float) -> bool"]]
    attributes := [("imag", "int"), ("real", "int")] },
  { name := "bool", bases := ["int"]
    methods := [
      fn "__init__" ["(self, x: ? = ...) -> None"]] },
  { name := "float", bases := ["object"]
    methods := [
      fn "__init__" ["(self, x: ? = ...) -> None"],
      fn "__add__" ["(self, y: float) -> float", "(self, y: complex) -> complex"],
      fn "__sub__" ["(self, y: float) -> float", "(self, y: complex) -> complex"],
      fn "__mul__" ["(self, y: float) -> float", "(self, y: complex) -> complex"],
      fn "__div__" ["(self, y: float) -> float", "(self, y: complex) -> complex"],
      fn "__truediv__" ["(self, y: float) -> float", "(self, y: complex) -> complex"],
      fn "__floordiv__" ["(self, y: float) -> float"],
      fn "__mod__" ["(self, y: float) -> float"],
      fn "__pow__" ["(self, y: float) -> float", "(self, y: complex) -> complex"],
      fn "__radd__" ["(self, y: float) -> float"],
      fn "__rsub__" ["(self, y: float) -> float"],
      fn "__rmul__" ["(self, y: float) -> float"],
      fn "__neg__" ["(self) -> float"],
      fn "__pos__" ["(self) -> float"],
      fn "__abs__" ["(self) -> float"],
      fn "__lt__" ["(self, y: float) -> bool"],
      fn "__le__" ["(self, y: float) -> bool"],
      fn "__gt__" ["(self, y: float) -> bool"],
      fn "__ge__" ["(self, y: float) -> bool"],
      fn "is_integer" ["(self) -> bool"]]
    attributes := [("imag", "float"), ("real", "float")] },
  { name := "complex", bases := ["object"]
    methods := [
      fn "__init__" ["(self, real: ? = ..., imag: float = ...) -> None"],
      fn "__add__" ["(self, y: complex) -> complex"],
      fn "__sub__" ["(self, y: complex) -> complex"],
      fn "__mul__" ["(self, y: complex) -> complex"],
      fn "__div__" ["(self, y: complex) -> complex"],
      fn "__truediv__" ["(self, y: complex) -> complex"],
      fn "__pow__" ["(self, y: complex) -> complex"],
      fn "__neg__" ["(self) -> complex"],
      fn "__pos__" ["(self) -> complex"],
      fn "__abs__" ["(self) -> float"],
      fn "conjugate" ["(self) -> complex"]]
    attributes := [("imag", "float"), ("real", "float")] }]

/-- Texts and bytes. -/
def text : List ClassDecl := [
  { name := "str", bases := ["object"]
    methods := [
      fn "__init__" ["(self, x: ? = ...) -> None"],
      fn "__add__" ["(self, y: str) -> str", "(self, y: unicode) -> unicode"],
      fn "__mul__" ["(self, n: int) -> str"],
      fn "__rmul__" ["(self, n: int) -> str"],
      fn "__mod__" ["(self, args: ?) -> str"],
      fn "__getitem__" ["(self, i: int or slice) -> str"],
      fn "__contains__" ["(self, s: str or unicode) -> bool"],
      fn "__len__" ["(self) -> int"],
      fn "__iter__" ["(self) -> iterator[str]"],
      fn "__lt__" ["(self, y: str or unicode) -> bool"],
      fn "__le__" ["(self, y: str or unicode) -> bool"],
      fn "__gt__" ["(self, y: str or unicode) -> bool"],
      fn "__ge__" ["(self, y: str or unicode) -> bool"],
      fn "upper" ["(self) -> str"],
      fn "lower" ["(self) -> str"],
      fn "strip" ["(self, chars: str = ...) -> str"],
      fn "lstrip" ["(self, chars: str = ...) -> str"],
      fn "rstrip" ["(self, chars: str = ...) -> str"],
      fn "split" ["(self, sep: str or None = ..., maxsplit: int = ...) -> list[str]"],
      fn "splitlines" ["(self, keepends: bool = ...) -> list[str]"],
      fn "join" ["(self, iterable: ?) -> str"],
      fn "startswith" ["(self, prefix: str or unicode or tuple[str], start: int = ..., end: int = ...) -> bool"],
      fn "endswith" ["(self, suffix: str or unicode or tuple[str], start: int = ..., end: int = ...) -> bool"],
      fn "replace" ["(self, old: str, new: str, count: int = ...) -> str"],
      fn "find" ["(self, sub: str, start: int = ..., end: int = ...) -> int"],
      fn "index" ["(self, sub: str, start: int = ..., end: int = ...) -> int"],
      fn "count" ["(self, sub: str) -> int"],
      fn "format" ["(self, *args, **kwargs) -> str"],
      fn "encode" ["(self, encoding: str = ..., errors: str = ...) -> str"],
      fn "decode" ["(self, encoding: str = ..., errors: str = ...) -> unicode"],
      fn "isdigit" ["(self) -> bool"],
      fn "isalpha" ["(self) -> bool"],
      fn "isspace" ["(self) -> bool"]] },
  { name := "unicode", bases := ["object"]
    methods := [
      fn "__init__" ["(self, x: ? = ..., encoding: str = ..., errors: str = ...) -> None"],
      fn "__add__" ["(self, y: unicode or str) -> unicode"],
      fn "__mul__" ["(self, n: int) -> unicode"],
      fn "__mod__" ["(self, args: ?) -> unicode"],
      fn "__getitem__" ["(self, i: int or slice) -> unicode"],
      fn "__contains__" ["(self, s: str or unicode) -> bool"],
      fn "__len__" ["(self) -> int"],
      fn "__iter__" ["(self) -> iterator[unicode]"],
      fn "upper" ["(self) -> unicode"],
      fn "lower" ["(self) -> unicode"],
      fn "strip" ["(self, chars: unicode or str = ...) -> unicode"],
      fn "split" ["(self, sep: unicode or str or None = ..., maxsplit: int = ...) -> list[unicode]"],
      fn "join" ["(self, iterable: ?) -> unicode"],
      fn "encode" ["(self, encoding: str = ..., errors: str = ...) -> str"],
      fn "startswith" ["(self, prefix: unicode or str) -> bool"],
      fn "endswith" ["(self, suffix: unicode or str) -> bool"]] },
  { name := "bytes", bases := ["object"]
    methods := [
      fn "__init__" ["(self, x: ? = ...) -> None"],
      fn "__add__" ["(self, y: bytes) -> bytes"],
      fn "__getitem__" ["(self, i: int) -> int", "(self, s: slice) -> bytes"],
      fn "__len__" ["(self) -> int"],
      fn "__iter__" ["(self) -> iterator[int]"],
      fn "decode" ["(self, encoding: str = ..., errors: str = ...) -> str"]] }]

/-- Lists, tuples, dictionaries, sets, slices and iteration. -/
def containers : List ClassDecl := [
  { name := "list", bases := ["object"], template := ["T"]
    methods := [
      fn "__init__" ["(self) -> None",
        "(self, iterable: list[T] or tuple[T] or set[T] or iterator[T]) -> None",
        "(self, iterable: dict[T, ?]) -> None", "(self, iterable: ?) -> None"] ["T"],
      fn "append" ["(self, x: T) -> None"] ["T"],
      fn "extend" ["(self, iterable: list[T] or tuple[T] or set[T] or iterator[T]) -> None"]
        ["T"],
      fn "insert" ["(self, i: int, x: T) -> None"] ["T"],
      fn "pop" ["(self, i: int = ...) -> T"],
      fn "remove" ["(self, x: ?) -> None"],
      fn "index" ["(self, x: ?) -> int"],
      fn "count" ["(self, x: ?) -> int"],
      fn "sort" ["(self, *args, **kwargs) -> None"],
      fn "reverse" ["(self) -> None"],
      fn "__getitem__" ["(self, i: int) -> T", "(self, s: slice) -> list[T]"],
      fn "__getslice__" ["(self, i: int, j: int) -> list[T]"],
      fn "__setitem__" ["(self, i: int, x: T) -> None", "(self, s: slice, x: list[T]) -> None"]
        ["T"],
      fn "__delitem__" ["(self, i: int or slice) -> None"],
      fn "__iter__" ["(self) -> iterator[T]"],
      fn "__len__" ["(self) -> int"],
      fn "__contains__" ["(self, x: ?) -> bool"],
      fn "__add__" ["(self, y: list[T2]) -> list[T or T2]"],
      fn "__mul__" ["(self, n: int) -> list[T]"]] },
  { name := "tuple", bases := ["object"], template := ["T"]
    methods := [
      fn "__init__" ["(self) -> None",
        "(self, iterable: list[T] or tuple[T] or set[T] or iterator[T]) -> None",
        "(self, iterable: ?) -> None"] ["T"],
      fn "__getitem__" ["(self, i: int) -> T", "(self, s: slice) -> tuple[T]"],
      fn "__iter__" ["(self) -> iterator[T]"],
      fn "__len__" ["(self) -> int"],
      fn "__contains__" ["(self, x: ?) -> bool"],
      fn "__add__" ["(self, y: tuple[T2]) -> tuple[T or T2]"],
      fn "__mul__" ["(self, n: int) -> tuple[T]"],
      fn "count" ["(self, x: ?) -> int"],
      fn "index" ["(self, x: ?) -> int"]] },
  { name := "dict", bases := ["object"], template := ["K", "V"]
    methods := [
      fn "__init__" ["(self) -> None", "(self, other: dict[K, V]) -> None",
        "(self, **kwargs) -> None", "(self, iterable: ?) -> None"] ["K", "V"],
      fn "__getitem__" ["(self, k: ?) -> V"],
      fn "__setitem__" ["(self, k: K, v: V) -> None"] ["K", "V"],
      fn "__delitem__" ["(self, k: ?) -> None"],
      fn "__contains__" ["(self, k: ?) -> bool"],
      fn "__len__" ["(self) -> int"],
      fn "__iter__" ["(self) -> iterator[K]"],
      fn "keys" ["(self) -> list[K]"],
      fn "values" ["(self) -> list[V]"],
      fn "items" ["(self) -> list[tuple[K or V]]"],
      fn "iterkeys" ["(self) -> iterator[K]"],
      fn "itervalues" ["(self) -> iterator[V]"],
      fn "iteritems" ["(self) -> iterator[tuple[K or V]]"],
      fn "get" ["(self, k: ?) -> V or None", "(self, k: ?, default: T) -> V or T"],
      fn "setdefault" ["(self, k: K, default: V) -> V"] ["K", "V"],
      fn "pop" ["(self, k: ?) -> V", "(self, k: ?, default: T) -> V or T"],
      fn "update" ["(self, other: dict[K, V]) -> None", "(self, **kwargs) -> None"] ["K", "V"],
      fn "has_key" ["(self, k: ?) -> bool"],
      fn "copy" ["(self) -> dict[K, V]"],
      fn "clear" ["(self) -> None"]] },
  { name := "set", bases := ["object"], template := ["T"]
    methods := [
      fn "__init__" ["(self) -> None",
        "(self, iterable: list[T] or tuple[T] or set[T] or iterator[T]) -> None",
        "(self, iterable: ?) -> None"] ["T"],
      fn "add" ["(self, x: T) -> None"] ["T"],
      fn "update" ["(self, other: list[T] or tuple[T] or set[T] or iterator[T]) -> None"] ["T"],
      fn "remove" ["(self, x: ?) -> None"],
      fn "discard" ["(self, x: ?) -> None"],
      fn "pop" ["(self) -> T"],
      fn "union" ["(self, other: set[T2] or list[T2] or tuple[T2]) -> set[T or T2]"],
      fn "intersection" ["(self, other: ?) -> set[T]"],
      fn "difference" ["(self, other: ?) -> set[T]"],
      fn "__or__" ["(self, other: set[T2]) -> set[T or T2]"],
      fn "__and__" ["(self, other: set[?]) -> set[T]"],
      fn "__sub__" ["(self, other: set[?]) -> set[T]"],
      fn "__contains__" ["(self, x: ?) -> bool"],
      fn "__len__" ["(self) -> int"],
      fn "__iter__" ["(self) -> iterator[T]"]] },
  { name := "slice", bases := ["object"]
    methods := [
      fn "__init__" ["(self, start: ?, stop: ? = ..., step: ? = ...) -> None"]]
    attributes := [("start", "?"), ("step", "?"), ("stop", "?")] },
  { name := "iterator", bases := ["object"], template := ["T"]
    methods := [
      fn "__iter__" ["(self) -> iterator[T]"],
      fn "next" ["(self) -> T"],
      fn "__next__" ["(self) -> T"]] },
  { name := "generator", bases := ["iterator"], template := ["T"]
    methods := [
      fn "__iter__" ["(self) -> generator[T]"],
      fn "send" ["(self, value: ?) -> T"],
      fn "close" ["(self) -> None"]] }]

/-- Objects of the machine itself, and files. -/
def objects : List ClassDecl := [
  { name := "code", bases := ["object"]
    attributes := [("co_argcount", "int"), ("co_filename", "str"), ("co_name", "str")] },
  { name := "function", bases := ["object"]
    attributes := [("__name__", "str"), ("func_name", "str")] },
  { name := "module", bases := ["object"]
    attributes := [("__file__", "str"), ("__name__", "str")] },
  { name := "file", bases := ["object"]
    methods := [
      fn "read" ["(self, size: int = ...) -> str"],
      fn "readline" ["(self, size: int = ...) -> str"],
      fn "readlines" ["(self) -> list[str]"],
      fn "write" ["(self, s: str or unicode) -> None"],
      fn "writelines" ["(self, lines: ?) -> None"],
      fn "flush" ["(self) -> None"],
      fn "close" ["(self) -> None"],
      fn "__iter__" ["(self) -> iterator[str]"],
      fn "__enter__" ["(self) -> file"],
      fn "__exit__" ["(self, *args) -> None"]]
    attributes := [("closed", "bool"), ("mode", "str"), ("name", "str")] }]

/-- Exceptions. -/
def exceptions : List ClassDecl := [
  { name := "BaseException", bases := ["object"]
    methods := [
      fn "__init__" ["(self, *args) -> None"]]
    attributes := [("args", "tuple[?]"), ("message", "str")] },
  { name := "Exception", bases := ["BaseException"] },
  { name := "StandardError", bases := ["Exception"] },
  { name := "StopIteration", bases := ["Exception"] },
  { name := "SystemExit", bases := ["BaseException"] },
  { name := "KeyboardInterrupt", bases := ["BaseException"] },
  { name := "ArithmeticError", bases := ["StandardError"] },
  { name := "ZeroDivisionError", bases := ["ArithmeticError"] },
  { name := "LookupError", bases := ["StandardError"] },
  { name := "KeyError", bases := ["LookupError"] },
  { name := "IndexError", bases := ["LookupError"] },
  { name := "ValueError", bases := ["StandardError"] },
  { name := "TypeError", bases := ["StandardError"] },
  { name := "AttributeError", bases := ["StandardError"] },
  { name := "NameError", bases := ["StandardError"] },
  { name := "UnboundLocalError", bases := ["NameError"] },
  { name := "ImportError", bases := ["StandardError"] },
  { name := "AssertionError", bases := ["StandardError"] },
  { name := "RuntimeError", bases := ["StandardError"] },
  { name := "NotImplementedError", bases := ["RuntimeError"] },
  { name := "EnvironmentError", bases := ["StandardError"] },
  { name := "IOError", bases := ["EnvironmentError"] },
  { name := "OSError", bases := ["EnvironmentError"] }]

/-- Functions outside of classes and modules. -/
def functions : List FunctionDecl := [
  fn "len" ["(obj: ?) -> int"],
  fn "hex" ["(x: int) -> str"],
  fn "oct" ["(x: int) -> str"],
  fn "chr" ["(i: int) -> str"],
  fn "unichr" ["(i: int) -> unicode"],
  fn "ord" ["(c: str or unicode or bytes) -> int"],
  fn "abs" ["(x: int) -> int", "(x: float) -> float", "(x: complex) -> float"],
  fn "repr" ["(x: ?) -> str"],
  fn "range" ["(stop: int) -> list[int]",
    "(start: int, stop: int, step: int = ...) -> list[int]"],
  fn "xrange" ["(stop: int) -> iterator[int]",
    "(start: int, stop: int, step: int = ...) -> iterator[int]"],
  fn "min" ["(iterable: list[T] or tuple[T] or set[T] or iterator[T]) -> T",
    "(a: T, b: T2, *args) -> T or T2"],
  fn "max" ["(iterable: list[T] or tuple[T] or set[T] or iterator[T]) -> T",
    "(a: T, b: T2, *args) -> T or T2"],
  fn "sum" ["(iterable: list[T] or tuple[T] or set[T] or iterator[T], start: T2 = ...) -> T or T2"],
  fn "sorted" ["(iterable: list[T] or tuple[T] or set[T] or iterator[T] or dict[T, ?], *args, **kwargs) -> list[T]",
    "(iterable: str) -> list[str]"],
  fn "reversed" ["(seq: list[T] or tuple[T]) -> iterator[T]", "(seq: str) -> iterator[str]"],
  fn "enumerate" ["(iterable: list[T] or tuple[T] or set[T] or iterator[T], start: int = ...) -> iterator[tuple[int or T]]"],
  fn "zip" ["(*iterables) -> list[tuple[?]]"],
  fn "map" ["(function: ?, *iterables) -> list[?]"],
  fn "filter" ["(function: ?, iterable: list[T] or tuple[T] or set[T] or iterator[T]) -> list[T]"],
  fn "iter" ["(x: list[T] or tuple[T] or set[T] or iterator[T] or dict[T, ?]) -> iterator[T]",
    "(x: str) -> iterator[str]", "(x: ?) -> iterator[?]"],
  fn "divmod" ["(x: int, y: int) -> tuple[int]", "(x: float, y: float) -> tuple[float]"],
  fn "pow" ["(x: int, y: int, z: int = ...) -> int", "(x: float, y: float) -> float"],
  fn "round" ["(number: float, ndigits: int = ...) -> float"],
  fn "open" ["(name: str or unicode, mode: str = ..., buffering: int = ...) -> file"],
  fn "hasattr" ["(obj: ?, name: str) -> bool"],
  fn "getattr" ["(obj: ?, name: str, default: ? = ...) -> ?"],
  fn "setattr" ["(obj: ?, name: str, value: ?) -> None"],
  fn "issubclass" ["(cls: ?, classinfo: ?) -> bool"],
  fn "callable" ["(obj: ?) -> bool"],
  fn "id" ["(obj: ?) -> int"],
  fn "hash" ["(obj: ?) -> int"],
  fn "any" ["(iterable: ?) -> bool"],
  fn "all" ["(iterable: ?) -> bool"],
  fn "format" ["(value: ?, spec: str = ...) -> str"],
  fn "dir" ["(obj: ? = ...) -> list[str]"],
  fn "vars" ["(obj: ? = ...) -> dict[str, ?]"],
  fn "globals" ["() -> dict[str, ?]"],
  fn "locals" ["() -> dict[str, ?]"],
  fn "raw_input" ["(prompt: ? = ...) -> str"],
  fn "input" ["(prompt: ? = ...) -> ?"],
  fn "__import__" ["(name: str, *args) -> module"]]

/-- Modules. -/
def modules : List ModuleDecl := [
  { name := "sys"
    functions := [
      fn "exit" ["(code: ? = ...) -> None"],
      fn "getrecursionlimit" ["() -> int"],
      fn "setrecursionlimit" ["(limit: int) -> None"]]
    attributes := [("argv", "list[str]"), ("maxint", "int"), ("modules", "dict[str, module]"),
      ("path", "list[str]"), ("platform", "str"), ("stderr", "file"), ("stdin", "file"),
      ("stdout", "file"), ("version", "str")] },
  { name := "os"
    functions := [
      fn "getcwd" ["() -> str"],
      fn "listdir" ["(path: str) -> list[str]"],
      fn "getenv" ["(key: str) -> str or None", "(key: str, default: T) -> str or T"],
      fn "mkdir" ["(path: str, mode: int = ...) -> None"],
      fn "remove" ["(path: str) -> None"],
      fn "unlink" ["(path: str) -> None"],
      fn "system" ["(command: str) -> int"]]
    attributes := [("curdir", "str"), ("environ", "dict[str, str]"), ("linesep", "str"),
      ("name", "str"), ("sep", "str")] },
  { name := "os.path"
    functions := [
      fn "join" ["(a: str, *p) -> str"],
      fn "exists" ["(path: str) -> bool"],
      fn "isfile" ["(path: str) -> bool"],
      fn "isdir" ["(path: str) -> bool"],
      fn "dirname" ["(p: str) -> str"],
      fn "basename" ["(p: str) -> str"],
      fn "abspath" ["(p: str) -> str"],
      fn "splitext" ["(p: str) -> tuple[str]"]]
    attributes := [("sep", "str")] },
  { name := "math"
    functions := [
      fn "sqrt" ["(x: float) -> float"],
      fn "floor" ["(x: float) -> float"],
      fn "ceil" ["(x: float) -> float"],
      fn "log" ["(x: float, base: float = ...) -> float"],
      fn "exp" ["(x: float) -> float"],
      fn "sin" ["(x: float) -> float"],
      fn "cos" ["(x: float) -> float"]]
    attributes := [("e", "float"), ("pi", "float")] },
  { name := "codecs"
    functions := [
      fn "open" ["(filename: str, mode: str = ..., encoding: str = ...) -> file"],
      fn "lookup" ["(encoding: str) -> tuple[?]"]]
    classes := [
      { name := "Codec", bases := ["object"]
        methods := [
          fn "encode" ["(self, input: ?, errors: str = ...) -> tuple[?]"],
          fn "decode" ["(self, input: ?, errors: str = ...) -> tuple[?]"]] }] }]

end Builtins

def Builtins.declarations : Declarations where
  classes := Builtins.core ++ Builtins.text ++ Builtins.containers ++ Builtins.objects ++
    Builtins.exceptions
  functions := Builtins.functions
  modules := Builtins.modules

def Library.builtins : Except LibraryError Library :=
  Library.ofDeclarations Builtins.declarations

end ValueTrace
