import RecursiveQuery.Expr.Names
import RecursiveQuery.Expr.Printer
import RecursiveQuery.Ty

/-!
# Programs

A program is a list of declarations, of which a later one hides an earlier one
of the same name.  A `val` without a value is supplied when the program runs.
-/

namespace RecursiveQuery

inductive Decl where
  | val (name : Name) (type : Option Ty) (value : Option Expr)
  | function (name : Name) (param : Pattern) (body : Expr)
deriving DecidableEq

structure Program where
  decls : List Decl
deriving DecidableEq

namespace Decl

def name : Decl → Name
  | val name _ _ => name
  | function name _ _ => name

def isFunction : Decl → Bool
  | val _ _ _ => false
  | function _ _ _ => true

/-- The declared name and the names inside, as they are to be avoided by fresh
names. -/
def names : Decl → List Name
  | val name _ none => [name]
  | val name _ (some value) => name :: Name.ascending value.allNames
  | function name param body =>
      name :: (param.vars ++ Name.ascending body.allNames)

def chars : Decl → List Char
  | val name type value =>
      "val ".toList ++ name.toList ++
        (match type with
        | none => []
        | some type => " : ".toList ++ type.chars) ++
        (match value with
        | none => []
        | some value => " = ".toList ++ value.chars)
  | function name param body =>
      "fun ".toList ++ name.toList ++ ' ' ::
        (param.chars ++ " = ".toList ++ body.chars)

def print (decl : Decl) : String :=
  String.ofList decl.chars

end Decl

namespace Program

def empty : Program :=
  ⟨[]⟩

/-- The last declaration of a name. -/
def decl? (program : Program) (name : Name) : Option Decl :=
  program.decls.reverse.find? fun decl => decl.name == name

def names (program : Program) : List Name :=
  program.decls.flatMap Decl.names

def chars (program : Program) : List Char :=
  program.decls.flatMap fun decl => decl.chars ++ [';', '\n']

def print (program : Program) : String :=
  String.ofList program.chars

end Program

end RecursiveQuery
