import RecursiveQuery.Proofs.QueryReading
import RecursiveQuery.Reader.Source

/-!
# Reading programs

A written declaration ends with a semicolon and a line break, so that a program
is read as the repetition of its declarations.
-/

namespace RecursiveQuery

namespace Reader

variable {value : Option Expr} {rest : List Char} {name : Name}

theorem Reads.expr {expr : Expr} {rest : List Char}
    (wellFormed : expr.isWellFormed = true) (stops : Stops 0 rest) :
    Reads Reader.expr expr.chars expr rest := by
  have read := readable expr wellFormed
  constructor
  · apply read.whole _ stops
    simp
  · apply (SkipsBlank.atLevel _ 0 _).trans
    apply read.whole _ stops
    simp only [List.length_cons, List.length_append]
    omega

/-- The text of the type of a declaration. -/
def typeChars : Option Ty → List Char
  | none => []
  | some type => " : ".toList ++ type.chars

/-- The text of the value of a declaration. -/
def valueChars : Option Expr → List Char
  | none => []
  | some value => " = ".toList ++ value.chars

theorem chars_val (name : Name) (type : Option Ty) (value : Option Expr) :
    (Decl.val name type value).chars =
      "val ".toList ++ name.toList ++ typeChars type ++ valueChars value := by
  cases type <;> cases value <;> rfl

theorem chars_function (name : Name) (param : Pattern) (body : Expr) :
    (Decl.function name param body).chars =
      "fun ".toList ++ name.toList ++ ' ' ::
        (param.chars ++ " = ".toList ++ body.chars) :=
  rfl

theorem endsComponent_valueChars (value : Option Expr) (rest : List Char) :
    EndsComponent (valueChars value ++ ';' :: rest) := by
  cases value <;> exact ⟨rfl, _, rfl⟩

theorem optional_type {type : Option Ty}
    (wellFormed : type.all Ty.isWellFormed = true) :
    optional (do symbol ":"; Reader.type)
        (typeChars type ++ (valueChars value ++ ';' :: rest)) =
      .ok type (valueChars value ++ ';' :: rest) := by
  cases type with
  | none =>
      apply optional_of_mismatches
      cases value <;> exact ⟨_, rfl⟩
  | some type =>
      have noProduct :
        Mismatches (symbol "*") (valueChars value ++ ';' :: rest) := by
        cases value <;> exact ⟨_, rfl⟩
      have read :=
        (@Reads.type type _ wellFormed (endsComponent_valueChars value rest)
        noProduct).blank
      have readColon : symbol ":"
          (" : ".toList ++ (type.chars ++ (valueChars value ++ ';' :: rest))) =
            .ok () (' ' :: (type.chars ++ (valueChars value ++ ';' :: rest))) :=
              rfl
      apply optional_of_ok
      rw [typeChars, List.append_assoc]
      exact (bind_of_ok readColon).trans read

theorem optional_value (wellFormed : value.all Expr.isWellFormed = true) :
    optional (do equalSign; Reader.expr) (valueChars value ++ ';' :: rest) =
      .ok value (';' :: rest) := by
  cases value with
  | none =>
      apply optional_of_mismatches
      exact ⟨_, rfl⟩
  | some value =>
      have read :=
        (@Reads.expr value (';' :: rest) wellFormed (.semicolon rest)).blank
      have readEqual :
        equalSign (" = ".toList ++ (value.chars ++ ';' :: rest)) =
          .ok () (' ' :: (value.chars ++ ';' :: rest)) := rfl
      apply optional_of_ok
      rw [valueChars, List.append_assoc]
      exact (bind_of_ok readEqual).trans read

theorem valueDecl_of_isWellFormed {type : Option Ty}
    (wellFormed : (Decl.val name type value).isWellFormed = true) :
    valueDecl ((Decl.val name type value).chars ++ ';' :: rest) =
      .ok (.val name type value) (';' :: rest) := by
  simp only [Decl.isWellFormed, Bool.and_eq_true] at wellFormed
  obtain ⟨⟨identifier, typeWellFormed⟩, valueWellFormed⟩ := wellFormed
  rw [chars_val]
  simp only [List.append_assoc]
  have readKeyword : keyword "val" ("val ".toList ++
      (name.toList ++ (typeChars type ++ (valueChars value ++ ';' :: rest)))) =
        .ok () (' ' :: (name.toList ++
          (typeChars type ++ (valueChars value ++ ';' :: rest)))) := rfl
  have ends : endsWord (typeChars type ++ (valueChars value ++ ';' :: rest)) =
    true := by
    cases type <;> cases value <;> rfl
  have readName :=
    (SkipsBlank.identifier _).trans (identifier_of_isIdentifier identifier ends)
  apply (bind_of_ok readKeyword).trans
  apply (bind_of_ok readName).trans
  apply (bind_of_ok (optional_type typeWellFormed)).trans
  exact (bind_of_ok (optional_value valueWellFormed)).trans rfl

theorem functionDecl_of_isWellFormed {param : Pattern} {body : Expr}
    (wellFormed : (Decl.function name param body).isWellFormed = true) :
    functionDecl ((Decl.function name param body).chars ++ ';' :: rest) =
      .ok (.function name param body) (';' :: rest) := by
  simp only [Decl.isWellFormed, Bool.and_eq_true] at wellFormed
  obtain ⟨⟨identifier, paramWellFormed⟩, bodyWellFormed⟩ := wellFormed
  rw [chars_function]
  simp only [List.append_assoc, List.cons_append]
  have readKeyword : keyword "fun" ("fun ".toList ++ (name.toList ++
      ' ' :: (param.chars ++ (" = ".toList ++ (body.chars ++ ';' :: rest))))) =
        .ok () (' ' :: (name.toList ++
          ' ' :: (param.chars ++
            (" = ".toList ++ (body.chars ++ ';' :: rest))))) := rfl
  have readName :=
    (SkipsBlank.identifier _).trans (@identifier_of_isIdentifier name
    (' ' :: (param.chars ++ (" = ".toList ++ (body.chars ++ ';' :: rest))))
    identifier rfl)
  have readParam :=
    (@Reads.pattern param (" = ".toList ++ (body.chars ++ ';' :: rest))
    paramWellFormed rfl).blank
  have readEqual : equalSign (" = ".toList ++ (body.chars ++ ';' :: rest)) =
      .ok () (' ' :: (body.chars ++ ';' :: rest)) := rfl
  have readBody :=
    (@Reads.expr body (';' :: rest) bodyWellFormed (.semicolon rest)).blank
  apply (bind_of_ok readKeyword).trans
  apply (bind_of_ok readName).trans
  apply (bind_of_ok readParam).trans
  apply (bind_of_ok readEqual).trans
  exact (bind_of_ok readBody).trans rfl

theorem decl_of_isWellFormed {decl : Decl} {rest : List Char}
    (wellFormed : decl.isWellFormed = true) :
    Reader.decl (decl.chars ++ ';' :: rest) = .ok decl rest := by
  have readSemicolon : optional (symbol ";") (';' :: rest) =
    .ok (some ()) rest := rfl
  have read : or valueDecl functionDecl (decl.chars ++ ';' :: rest) =
    .ok decl (';' :: rest) := by
    cases decl with
    | val name type value =>
        exact or_of_ok (valueDecl_of_isWellFormed wellFormed)
    | function name param body =>
        have noValue : Mismatches valueDecl
            ((Decl.function name param body).chars ++ ';' :: rest) := ⟨_, rfl⟩
        exact (or_of_mismatches noValue).trans
          (functionDecl_of_isWellFormed wellFormed)
  apply (bind_of_ok read).trans
  exact (bind_of_ok readSemicolon).trans rfl

theorem decl_newline (text : List Char) : decl ('\n' :: text) = decl text :=
  rfl

theorem chars_cons (decl : Decl) (decls : List Decl) :
    Program.chars ⟨decl :: decls⟩ =
      decl.chars ++ ';' :: '\n' :: Program.chars ⟨decls⟩ := by
  simp [Program.chars]

/-- Declarations behind a line break are read one after another. -/
theorem readsEach_decl {decls : List Decl}
    (wellFormed : ∀ decl ∈ decls, decl.isWellFormed = true) :
    ReadsEach decl ('\n' :: Program.chars ⟨decls⟩) decls ['\n'] := by
  induction decls with
  | nil => exact .nil _
  | cons decl decls induction =>
      have later := induction fun other member =>
        wellFormed other (List.mem_cons_of_mem _ member)
      have read := @decl_of_isWellFormed decl ('\n' :: Program.chars ⟨decls⟩)
        (wellFormed decl List.mem_cons_self)
      rw [chars_cons]
      refine .cons ((decl_newline _).trans read) ?_ later
      simp only [List.length_cons, List.length_append]
      omega

/-- A program is read up to the line break behind its last declaration. -/
theorem many_decl {program : Program}
    (wellFormed : program.isWellFormed = true) :
    ∃ rest, many decl program.chars = .ok program.decls rest ∧
      skip rest = .ok () [] := by
  obtain ⟨decls⟩ := program
  have each : ∀ decl ∈ decls, decl.isWellFormed = true :=
    List.all_eq_true.mp wellFormed
  cases decls with
  | nil => exact ⟨[], rfl, rfl⟩
  | cons decl decls =>
      have later := readsEach_decl fun other member =>
        each other (List.mem_cons_of_mem _ member)
      have read := @decl_of_isWellFormed decl ('\n' :: Program.chars ⟨decls⟩)
        (each decl List.mem_cons_self)
      have noMore : Mismatches Reader.decl ['\n'] := ⟨_, rfl⟩
      refine ⟨['\n'], ?_, rfl⟩
      rw [chars_cons]
      refine many_of_readsEach (.cons read ?_ later) noMore
      simp only [List.length_cons, List.length_append]
      omega

/-! ## Whole texts -/

theorem whole_of_ok {α : Type} {kind : SourceKind} {reader : Reader α}
    {text : List Char} {value : α} (read : reader text = .ok value rest)
    (skipped : skip rest = .ok () []) :
    whole kind reader text = .ok value := by
  simp only [whole, read, skipped]

end Reader

theorem Expr.whole_chars {expr : Expr} (wellFormed : expr.isWellFormed = true) :
    Reader.whole .expr Reader.expr expr.chars = .ok expr := by
  have read := (@Reader.Reads.expr expr [] wellFormed .nil).plain
  rw [List.append_nil] at read
  exact Reader.whole_of_ok read rfl

theorem Program.whole_chars {program : Program}
    (wellFormed : program.isWellFormed = true) :
    Reader.whole .program (Reader.many Reader.decl) program.chars =
      .ok program.decls := by
  obtain ⟨rest, read, skipped⟩ := Reader.many_decl wellFormed
  exact Reader.whole_of_ok read skipped

theorem Pattern.read_print {pattern : Pattern}
    (wellFormed : pattern.isWellFormed = true) :
    Pattern.read pattern.print = .ok pattern := by
  have read := (@Reader.Reads.pattern pattern [] wellFormed rfl).plain
  rw [List.append_nil] at read
  rw [Pattern.read, Pattern.print, String.toList_ofList]
  exact Reader.whole_of_ok read rfl

theorem Ty.read_print {type : Ty} (wellFormed : type.isWellFormed = true) :
    Ty.read type.print = .ok type := by
  have read :=
    (@Reader.Reads.type type [] wellFormed ⟨rfl, _, rfl⟩ ⟨_, rfl⟩).plain
  rw [List.append_nil] at read
  rw [Ty.read, Ty.print, String.toList_ofList]
  exact Reader.whole_of_ok read rfl

end RecursiveQuery
