import GradualTypes.Manifest

/-! The classes that are there before any manifest. Builtin numerics extend only the universal class, and
only immutable builtins have a hash, so that lists, dicts and sets are not hashable. -/
namespace GradualTypes.Manifest

def builtin (name scope : String) (bases members : List String) : ClassStub :=
  ⟨name, some scope, bases, members⟩

def builtinClasses : List ClassStub := [
  builtin "object" "builtins" [] ["__init__", "__eq__", "__repr__", "__str__"],
  builtin "type" "builtins" ["object"] ["__hash__", "__call__", "mro"],
  builtin "NoneType" "builtins" ["object"] ["__hash__"],
  builtin "bool" "builtins" ["object"] ["__hash__", "__and__", "__or__", "__xor__"],
  builtin "int" "builtins" ["object"]
    ["__hash__", "__add__", "__sub__", "__mul__", "__index__", "bit_length"],
  builtin "long" "builtins" ["object"]
    ["__hash__", "__add__", "__sub__", "__mul__", "__index__", "bit_length"],
  builtin "float" "builtins" ["object"]
    ["__hash__", "__add__", "__sub__", "__mul__", "__truediv__", "is_integer"],
  builtin "complex" "builtins" ["object"]
    ["__hash__", "__add__", "__sub__", "__mul__", "__truediv__", "conjugate", "real", "imag"],
  builtin "str" "builtins" ["object"]
    ["__hash__", "__len__", "__iter__", "__contains__", "__getitem__", "join", "split"],
  builtin "unicode" "builtins" ["object"]
    ["__hash__", "__len__", "__iter__", "__contains__", "__getitem__", "join", "split"],
  builtin "bytes" "builtins" ["object"]
    ["__hash__", "__len__", "__iter__", "__contains__", "__getitem__", "decode"],
  builtin "list" "builtins" ["object"]
    ["__len__", "__iter__", "__contains__", "__getitem__", "__reversed__", "append", "extend", "pop"],
  builtin "tuple" "builtins" ["object"]
    ["__hash__", "__len__", "__iter__", "__contains__", "__getitem__", "count", "index"],
  builtin "dict" "builtins" ["object"]
    ["__len__", "__iter__", "__contains__", "__getitem__", "keys", "values", "items", "get"],
  builtin "set" "builtins" ["object"] ["__len__", "__iter__", "__contains__", "add", "discard"],
  builtin "frozenset" "builtins" ["object"] ["__len__", "__iter__", "__contains__", "__hash__"],
  builtin "Sized" "collections.abc" ["object"] ["__len__"],
  builtin "Callable" "collections.abc" ["object"] ["__call__"],
  builtin "Hashable" "collections.abc" ["object"] ["__hash__"],
  builtin "Iterable" "collections.abc" ["object"] ["__iter__"],
  builtin "Container" "collections.abc" ["object"] ["__contains__"],
  builtin "Iterator" "collections.abc" ["Iterable"] ["__next__"],
  builtin "Reversible" "collections.abc" ["Iterable"] ["__reversed__"],
  builtin "Awaitable" "collections.abc" ["object"] ["__await__"],
  builtin "Sequence" "collections.abc" ["Reversible", "Container", "Sized"]
    ["__getitem__", "index", "count"],
  builtin "Mapping" "collections.abc" ["Container", "Iterable", "Sized"]
    ["__getitem__", "keys", "items", "values", "get"]]

def builtins : Manifest := ⟨builtinClasses, [], .empty⟩

end GradualTypes.Manifest
