import RecursiveQuery.Collection
import RecursiveQuery.Expr.Shape
import RecursiveQuery.Program

/-!
# Generators

A generator is a scan together with what is known about its source: the kind
of collection, and whether its rows are known to be finitely many before the
program runs.
-/

namespace RecursiveQuery

inductive Cardinality where
  | finite
  | infinite
deriving DecidableEq

namespace Cardinality

def name : Cardinality → String
  | finite => "finite"
  | infinite => "infinite"

/-- Finite if both sides are. -/
def join : Cardinality → Cardinality → Cardinality
  | finite, finite => finite
  | _, _ => infinite

end Cardinality

structure Generator where
  pattern : Pattern
  source : Expr
  kind : CollectionKind
  cardinality : Cardinality
deriving DecidableEq

/-- The rows of some scans that pass all conditions, with a given output. -/
def Query.filtered (scans : List Scan) (conditions : List Expr)
    (output : Expr) : Query where
  scans := scans
  steps :=
    match conditions with
    | [] => [.yield output]
    | conditions => [.filter (.conjunction conditions), .yield output]

/-- The expression of a row of variables. -/
def Expr.row (names : List Name) : Expr :=
  .bracketed (names.map .var)

namespace Generator

def isFinite (generator : Generator) : Bool :=
  generator.cardinality = .finite

def scan (generator : Generator) : Scan :=
  ⟨generator.pattern, some generator.source⟩

/-- A single known value. -/
def singleton (pattern : Pattern) (value : Expr) : Generator where
  pattern := pattern
  source := .list [value]
  kind := .list
  cardinality := .finite

/-- The extent of a pattern, filtered by a condition. -/
def extent (pattern : Pattern) (condition : Expr) : Generator where
  pattern := pattern
  source := .collect ⟨[⟨pattern, none⟩], [.filter condition]⟩
  kind := .list
  cardinality := .infinite

/-- The product of several generators, filtered by all residual conditions and
projected onto some variables. -/
def join (parts : List Generator) (residual : List Expr) (output : List Name) :
    Generator where
  pattern := .row output
  source := .collect (.filtered (parts.map scan) residual (.row output))
  kind := parts.foldl (fun kind part => kind.join part.kind) .list
  cardinality :=
    parts.foldl (fun cardinality part => cardinality.join part.cardinality)
      .finite

end Generator

/-- What is known about the source of a scan. -/
structure SourceShape where
  kind : CollectionKind
  cardinality : Cardinality
deriving DecidableEq

namespace SourceShape

def unknown : SourceShape :=
  ⟨.list, .infinite⟩

def join (left right : SourceShape) : SourceShape :=
  ⟨left.kind.join right.kind, left.cardinality.join right.cardinality⟩

/-- The shape of a declared value, given the shape of known contents.  A
declared type decides the kind. -/
def ofDecl (contents : Expr → SourceShape) : Option Decl → SourceShape
  | some (.val _ type (some value)) =>
      let shape := contents value
      ⟨(type.map CollectionKind.ofType).getD shape.kind, shape.cardinality⟩
  | some (.val _ type none) =>
      ⟨(type.map CollectionKind.ofType).getD .list, .infinite⟩
  | _ => unknown

end SourceShape

namespace Expr

mutual

/-- The shape of a source, given the shapes of names.  List literals are
finite, and so are appends and comprehensions of finite sources. -/
def shapeUsing (named : Name → SourceShape) : Expr → SourceShape
  | list _ => ⟨.list, .finite⟩
  | var name => named name
  | binary .append left right =>
      (shapeUsing named left).join (shapeUsing named right)
  | collect ⟨scans, _⟩ => shapeScans named ⟨.list, .finite⟩ scans
  | _ => .unknown

def shapeScans (named : Name → SourceShape) (shape : SourceShape) :
    List Scan → SourceShape
  | [] => shape
  | ⟨_, none⟩ :: scans => shapeScans named ⟨shape.kind, .infinite⟩ scans
  | ⟨_, some source⟩ :: scans =>
      shapeScans named (shape.join (shapeUsing named source)) scans

end

/-- The shape of a source, following names to their declared values through at
most `chain` steps. -/
def shapeWithin (program : Program) : (chain : Nat) → Expr → SourceShape
  | 0, _ => .unknown
  | chain + 1, source =>
      source.shapeUsing fun name =>
        .ofDecl (shapeWithin program chain) (program.decl? name)

/-- The shape of a source.  A chain of more than 32 declared values is not
followed to its end. -/
def sourceShape (program : Program) (source : Expr) : SourceShape :=
  source.shapeWithin program 33

end Expr

end RecursiveQuery
