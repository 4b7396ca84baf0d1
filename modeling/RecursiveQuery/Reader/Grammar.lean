import RecursiveQuery.Expr.Shape
import RecursiveQuery.Program
import RecursiveQuery.Reader.Token

/-!
# Grammar

One reader for each level of the grammar.  The levels take the readers for
what stands inside brackets and behind keywords as arguments; the recursion
through them is bounded by a nesting count, for which the length of the text
is enough because every nested reader starts behind a character.
-/

namespace RecursiveQuery

namespace Reader

/-- Run a reader that is bounded by a nesting count. -/
def nested {α : Type} (reader : Nat → Reader α) : Reader α := fun text =>
  reader (text.length + 1) text

/-- A comma-separated list between an opening and a closing symbol. -/
def enclosed {α : Type} (opening closing : String) (item : Reader α) :
    Reader (List α) := do
  symbol opening
  let items ← separatedOrNone (symbol ",") item
  symbol closing
  return items

def patternWithin : Nat → Reader Pattern
  | 0 => refuse
  | nesting + 1 =>
      choice [
        (do keyword "_"; return .wildcard),
        (do return .literal (← literal)),
        (do return .bracketed (← enclosed "(" ")" (patternWithin nesting))),
        (do return .var (← identifier))]

def pattern : Reader Pattern :=
  nested patternWithin

/-- A type with any number of collection words behind it. -/
def collectionType (base : Reader Ty) : Reader Ty := do
  let type ← base
  let formers ← many (or
    (do keyword "list"; return Ty.list)
    (do keyword "bag"; return Ty.bag))
  return formers.foldl (fun type former => former type) type

def typeWithin : Nat → Reader Ty
  | 0 => refuse
  | nesting + 1 => do
      let parts ← separated (symbol "*") (collectionType (choice [
        (do keyword "int"; return .int),
        (do keyword "bool"; return .bool),
        (do keyword "string"; return .string),
        (do keyword "unit"; return .unit),
        (do
          symbol "("
          let type ← typeWithin nesting
          symbol ")"
          return type)]))
      match parts with
      | [type] => return type
      | types => return .tuple types

def type : Reader Ty :=
  nested typeWithin

/-- A scan, whose source is read at the level of disjunctions. -/
def scan (disjunction : Reader Expr) : Reader Scan := do
  let pattern ← pattern
  let source ← optional (do keyword "in"; disjunction)
  return ⟨pattern, source⟩

def step (expr : Reader Expr) : Reader Step :=
  or
    (do keyword "where"; return .filter (← expr))
    (do keyword "yield"; return .yield (← expr))

def query (expr disjunction : Reader Expr) : Reader Query := do
  let scans ← separated (symbol ",") (scan disjunction)
  let steps ← many (step expr)
  return ⟨scans, steps⟩

def atom (expr disjunction : Reader Expr) : Reader Expr :=
  choice [
    (do return .literal (← literal)),
    (do keyword "from"; return .collect (← query expr disjunction)),
    (do keyword "exists"; return .existence (← query expr disjunction)),
    (do return .bracketed (← enclosed "(" ")" expr)),
    (do return .list (← enclosed "[" "]" expr)),
    (do return .var (← qualifiedIdentifier))]

/-- Applications nest to the left. -/
def application (atom : Reader Expr) : Reader Expr := do
  let function ← atom
  let arguments ← many atom
  return arguments.foldl .apply function

def sumOp : Reader BinaryOp :=
  or (do symbol "+"; return .add) (do symbol "-"; return .sub)

/-- Sums nest to the left. -/
def sum (application : Reader Expr) : Reader Expr := do
  let first ← application
  let rest ← many (do
    let op ← sumOp
    let operand ← application
    return (op, operand))
  return rest.foldl (fun left (op, right) => .binary op left right) first

/-- Concatenations nest to the right. -/
def concatenation (sum : Reader Expr) : Reader Expr := do
  let first ← sum
  let rest ← many (do symbol "@"; sum)
  return joinRight first rest
where
  joinRight (first : Expr) : List Expr → Expr
    | [] => first
    | second :: rest => .binary .append first (joinRight second rest)

def comparisonOp : Reader BinaryOp :=
  choice [
    (do symbol "<>"; return .ne),
    (do symbol "<="; return .le),
    (do symbol ">="; return .ge),
    (do symbol "<"; return .lt),
    (do symbol ">"; return .gt),
    (do equalSign; return .eq),
    (do keyword "elem"; return .member)]

/-- Comparisons do not chain. -/
def comparison (concatenation : Reader Expr) : Reader Expr := do
  let left ← concatenation
  let tail ← optional (do
    let op ← comparisonOp
    let right ← concatenation
    return (op, right))
  match tail with
  | some (op, right) => return .binary op left right
  | none => return left

/-- Conjunctions nest to the left. -/
def conjunction (comparison : Reader Expr) : Reader Expr := do
  let first ← comparison
  let rest ← many (do keyword "andalso"; comparison)
  return rest.foldl .andAlso first

/-- Disjunctions nest to the left. -/
def disjunction (conjunction : Reader Expr) : Reader Expr := do
  let first ← conjunction
  let rest ← many (do keyword "orelse"; conjunction)
  return rest.foldl .orElse first

/-- The operator levels above the atoms. -/
def operators (atom : Reader Expr) : Reader Expr :=
  disjunction
    (conjunction (comparison (concatenation (sum (application atom)))))

def lambda (body : Reader Expr) : Reader Expr := do
  keyword "fn"
  let param ← pattern
  symbol "=>"
  let body ← body
  return .lambda param body

mutual

def exprWithin : Nat → Reader Expr
  | 0 => refuse
  | nesting + 1 =>
      or (lambda (exprWithin nesting))
        (operators (atom (exprWithin nesting) (operatorsWithin nesting)))

/-- Expressions that are no lambdas. -/
def operatorsWithin : Nat → Reader Expr
  | 0 => refuse
  | nesting + 1 =>
      operators (atom (exprWithin nesting) (operatorsWithin nesting))

end

def expr : Reader Expr :=
  nested exprWithin

def valueDecl : Reader Decl := do
  keyword "val"
  let name ← identifier
  let type ← optional (do symbol ":"; type)
  let value ← optional (do equalSign; expr)
  return .val name type value

def functionDecl : Reader Decl := do
  keyword "fun"
  let name ← identifier
  let param ← pattern
  equalSign
  let body ← expr
  return .function name param body

def decl : Reader Decl := do
  let decl ← or valueDecl functionDecl
  let _ ← optional (symbol ";")
  return decl

end Reader

end RecursiveQuery
