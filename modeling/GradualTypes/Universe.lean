import GradualTypes.Builtins
import GradualTypes.Matching

/-! A universe of classes. Manifests are installed one on top of the other; a manifest that is refused
leaves behind what was installed before the first item at fault. Names of classes are looked up qualified
first, then short, where the class declared first keeps the short name. -/
namespace GradualTypes

inductive LowerError where
  | unknownClass (name : String)
  | unknownAlias (name : String)
  deriving DecidableEq, Repr

inductive InstallError where
  | duplicateClass (qualified : String)
  | unknownBase (qualified base : String)
  | inheritanceCycle (qualified base : String)
  | duplicateAlias (name : String)
  | body (e : LowerError)
  deriving DecidableEq, Repr

def LowerError.message : LowerError → String
  | unknownClass name => "unknown class `" ++ name ++ "` in type expression"
  | unknownAlias name => "unknown alias `" ++ name ++ "` in type expression"

def InstallError.message : InstallError → String
  | duplicateClass qualified => "class `" ++ qualified ++ "` is declared twice"
  | unknownBase qualified base => "class `" ++ qualified ++ "` names unknown base `" ++ base ++ "`"
  | inheritanceCycle qualified base =>
    "inheritance cycle: `" ++ qualified ++ "` cannot extend `" ++ base ++ "`"
  | duplicateAlias name => "alias `" ++ name ++ "` is declared twice"
  | body e => e.message

structure Universe where
  classes : ClassTable
  -- Qualified names in the order of declaration.
  names : List (String × ClassId)
  -- Each short name with the class that was declared first under it.
  shortNames : List (String × ClassId)
  graph : InheritanceGraph
  protocols : ProtocolRegistry
  references : ReferenceTable
  aliases : List (String × RefId)
  deriving DecidableEq, Repr

namespace Universe

def empty : Universe :=
  ⟨.empty, [], [], .empty, .standard, .empty, []⟩

def class? (u : Universe) (name : String) : Option ClassId :=
  match u.names.lookup name with
  | some c => some c
  | none => u.shortNames.lookup name

def alias? (u : Universe) (name : String) : Option RefId := u.aliases.lookup name

def context (u : Universe) : Context :=
  ⟨u.classes, u.graph, u.protocols, .ofTable u.references⟩

def requireClass (u : Universe) (name : String) : Except LowerError ClassId :=
  match u.class? name with
  | some c => .ok c
  | none => .error (.unknownClass name)

def requireAlias (u : Universe) (name : String) : Except LowerError RefId :=
  match u.alias? name with
  | some r => .ok r
  | none => .error (.unknownAlias name)

def tupleClassName : String := "tuple"

mutual
/-- The type an expression spells. The first name at fault counts, from left to right. -/
def lower (u : Universe) : TypeExpr → Except LowerError Ty
  | .unknown => .ok .unknown
  | .named name => do
    let c ← u.requireClass name
    .ok (.nominal (some c))
  | .union members => do
    let ms ← u.lowerAll members
    .ok (.unionOf ms)
  | .tuple elements => do
    let es ← u.lowerAll elements
    .ok (.tuple (u.class? tupleClassName) es)
  | .collection name element => do
    let c ← u.requireClass name
    let e ← u.lower element
    .ok (.collection (some c) e)
  | .aliased name => do
    let r ← u.requireAlias name
    .ok (.reference r)

def lowerAll (u : Universe) : List TypeExpr → Except LowerError (List Ty)
  | [] => .ok []
  | e :: rest => do
    let t ← u.lower e
    let ts ← u.lowerAll rest
    .ok (t :: ts)
end

def isMatch (u : Universe) (expected actual : TypeExpr) : Except LowerError Bool := do
  let e ← u.lower expected
  let a ← u.lower actual
  .ok (u.context.isMatch e a)

/- The state after a part of an installation, and what stopped it. -/
abbrev Installed := Universe × Option InstallError

def andThen (part : Installed) (next : Universe → Installed) : Installed :=
  match part with
  | (u, none) => next u
  | (u, some e) => (u, some e)

def declareClass (u : Universe) (s : ClassStub) : Installed :=
  match u.names.lookup s.qualifiedName with
  | some _ => (u, some (.duplicateClass s.qualifiedName))
  | none =>
    let (c, classes) := u.classes.declare ⟨some s.name, s.scope, s.members⟩
    ({ u with
      classes := classes
      names := u.names ++ [(s.qualifiedName, c)]
      shortNames :=
        if (u.shortNames.lookup s.name).isSome then u.shortNames else u.shortNames ++ [(s.name, c)] },
      none)

def declareClasses (u : Universe) : List ClassStub → Installed
  | [] => (u, none)
  | s :: rest => andThen (u.declareClass s) (fun u => u.declareClasses rest)

def linkBase (u : Universe) (child : ClassId) (qualified base : String) : Installed :=
  match u.class? base with
  | none => (u, some (.unknownBase qualified base))
  | some b =>
    if u.graph.wouldCycle child b then (u, some (.inheritanceCycle qualified base))
    else ({ u with graph := u.graph.inherit child [b] }, none)

def linkBases (u : Universe) (child : ClassId) (qualified : String) : List String → Installed
  | [] => (u, none)
  | base :: rest =>
    andThen (u.linkBase child qualified base) (fun u => u.linkBases child qualified rest)

/- Records the bases of classes whose ids follow each other from `child` on. -/
def linkClasses (u : Universe) (child : ClassId) : List ClassStub → Installed
  | [] => (u, none)
  | s :: rest =>
    andThen (u.linkBases child s.qualifiedName s.bases) (fun u => u.linkClasses (child + 1) rest)

def registerProtocols (u : Universe) : List ProtocolStub → Universe
  | [] => u
  | p :: rest =>
    registerProtocols { u with protocols := u.protocols.register p.name p.requirements } rest

def declareAlias (u : Universe) (name : String) : Installed :=
  match u.alias? name with
  | some _ => (u, some (.duplicateAlias name))
  | none =>
    let (r, references) := u.references.declare
    ({ u with references := references, aliases := u.aliases ++ [(name, r)] }, none)

def declareAliases (u : Universe) : List (String × TypeExpr) → Installed
  | [] => (u, none)
  | a :: rest => andThen (u.declareAlias a.1) (fun u => u.declareAliases rest)

def bindAlias (u : Universe) (name : String) (body : TypeExpr) : Installed :=
  match u.lower body with
  | .error e => (u, some (.body e))
  | .ok target =>
    match u.alias? name with
    | none => (u, none)
    | some r => ({ u with references := u.references.bind r target }, none)

def bindAliases (u : Universe) : List (String × TypeExpr) → Installed
  | [] => (u, none)
  | a :: rest => andThen (u.bindAlias a.1 a.2) (fun u => u.bindAliases rest)

/-- Installs a manifest: all classes are declared before bases are linked, and all aliases before their
bodies are lowered, so that a manifest may use its names in any order. -/
def install (u : Universe) (m : Manifest) : Installed :=
  let first := u.classes.size + 1
  andThen (u.declareClasses m.classes) fun u =>
  andThen (u.linkClasses first m.classes) fun u =>
  andThen ((u.registerProtocols m.protocols).declareAliases m.aliases.entries) fun u =>
  u.bindAliases m.aliases.entries

def withBuiltins : Universe := (empty.install .builtins).1

end Universe
end GradualTypes
