import RecursiveQuery.Reader.Basic

/-!
# Blanks and comments

White space is the Unicode property of that name.  A comment runs from `(*` to
the next `*)`; comments do not nest.
-/

namespace RecursiveQuery

/-- The 25 code points with the property `White_Space`. -/
def isBlank (char : Char) : Bool :=
  let code := char.toNat
  (0x09 ≤ code && code ≤ 0x0D) || code == 0x20 || code == 0x85 ||
    code == 0xA0 || code == 0x1680 || (0x2000 ≤ code && code ≤ 0x200A) ||
    code == 0x2028 || code == 0x2029 || code == 0x202F || code == 0x205F ||
    code == 0x3000

namespace Reader

/-- Skip blanks and comments.  `opened` is the text at the start of the comment
that is being skipped. -/
def skipFrom : (opened : Option (List Char)) → Reader Unit
  | none, [] => .ok () []
  | some start, [] => .fatal start
  | some _, '*' :: ')' :: rest => skipFrom none rest
  | some start, _ :: rest => skipFrom (some start) rest
  | none, '(' :: '*' :: rest => skipFrom (some ('(' :: '*' :: rest)) rest
  | none, char :: rest =>
      if isBlank char then skipFrom none rest else .ok () (char :: rest)

/-- Skip blanks and comments; a comment without end is fatal. -/
def skip : Reader Unit :=
  skipFrom none

end Reader

/-- The text at the first `(*` that no `*)` follows, where quotes have no
meaning.  `opened` is the text at the comment that is open so far. -/
def unclosedCommentFrom :
    (opened : Option (List Char)) → List Char → Option (List Char)
  | opened, [] => opened
  | some _, '*' :: ')' :: rest => unclosedCommentFrom none rest
  | some start, _ :: rest => unclosedCommentFrom (some start) rest
  | none, '(' :: '*' :: rest =>
      unclosedCommentFrom (some ('(' :: '*' :: rest)) rest
  | none, _ :: rest => unclosedCommentFrom none rest

def unclosedComment? (text : List Char) : Option (List Char) :=
  unclosedCommentFrom none text

end RecursiveQuery
