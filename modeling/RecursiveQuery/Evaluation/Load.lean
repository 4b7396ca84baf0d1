import RecursiveQuery.Evaluation.Eval
import RecursiveQuery.Program

/-!
# Loading programs

All functions are known before the first value is computed; values and
functions then take effect in the order of their declarations.
-/

namespace RecursiveQuery

/-- A list for a name that is declared as a bag becomes a bag. -/
def Value.coerce (type : Option Ty) : Value → Value
  | collection .list rows =>
      match type with
      | some (.bag _) => collection .bag rows
      | _ => collection .list rows
  | value => value

namespace Session

/-- The site of an evaluation that a user starts.  Evaluations whose functions
can meet are numbered apart; loading has the number zero. -/
def root (number : Nat) : Site :=
  [number + 1]

def empty (limits : Limits) : Session :=
  { globals := [], declared := [], limits := limits }

def define (session : Session) (name : Name) (value : Value) : Session :=
  { session with globals := session.globals.insert name value }

/-- Record or forget the declared type of a name. -/
def declare (session : Session) (name : Name) (type : Option Ty) : Session :=
  match type with
  | some type => { session with declared := session.declared.insert name type }
  | none => { session with declared := session.declared.erase name }

/-- Supply the value of a name, coerced to its declared type. -/
def bind (session : Session) (name : Name) (value : Value) : Session :=
  session.define name (value.coerce (session.declared.lookup name))

/-- Make every function of a program known. -/
def defineFunctions (session : Session) : List Decl → Site → Session
  | [], _ => session
  | .function name param body :: decls, site =>
      (session.define name
        (.closure ⟨0 :: site, param, body, []⟩)).defineFunctions
        decls (1 :: site)
  | .val _ _ _ :: decls, site => session.defineFunctions decls (1 :: site)

/-- Let the declarations take effect in order. -/
def runDecls (session : Session) : List Decl → Site → Outcome Session
  | [], _ => return session
  | .val name type (some value) :: decls, site => do
      let session := session.declare name type
      let value ← session.eval (0 :: site) value
      (session.define name (value.coerce type)).runDecls decls (1 :: site)
  | .val name type none :: decls, site =>
      let session := session.declare name type
      { session with globals := session.globals.erase name }.runDecls
        decls (1 :: site)
  | .function name param body :: decls, site =>
      let session := session.declare name none
      (session.define name (.closure ⟨0 :: site, param, body, []⟩)).runDecls
        decls (1 :: site)

def load (program : Program) (limits : Limits) : Outcome Session :=
  ((empty limits).defineFunctions program.decls [0, 0]).runDecls
    program.decls [1, 0]

end Session

end RecursiveQuery
