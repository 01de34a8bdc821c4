import Offside.Token

/-!
# Regular expression literals

A regular expression is written as a string token whose text between the quotes is `/pattern/flags`.
-/

namespace Offside.Grammar

/-- The text between the quotes of a string token, escapes left as they are.  It is empty when the lexeme
does not begin and end with a one-byte character each. -/
def quotedText (token : Token) : List Char :=
  match token.lexeme.toList with
  | first :: rest =>
    match rest.getLast? with
    | some last => if first.utf8Size = 1 && last.utf8Size = 1 then rest.dropLast else []
    | none => []
  | [] => []

namespace Regex

/-- Splits a text at its last slash. -/
def splitLast : List Char → Option (List Char × List Char)
  | [] => none
  | c :: rest =>
    match splitLast rest with
    | some (front, back) => some (c :: front, back)
    | none => if c = '/' then some ([], rest) else none

def isFlag (c : Char) : Bool := "dgimsuy".toList.contains c

/-- Whether the flags are distinct letters of `dgimsuy`. -/
def validFlags : List Char → Bool
  | [] => true
  | c :: rest => isFlag c && !rest.contains c && validFlags rest

/-- Whether groups and classes are balanced outside escapes, with `depth` groups and possibly a class open
in front, and no backslash stands alone at the end. -/
def balanced (depth : Nat) (inClass : Bool) : List Char → Bool
  | [] => depth = 0 && !inClass
  | '\\' :: rest =>
    match rest with
    | [] => false
    | _ :: rest => balanced depth inClass rest
  | c :: rest =>
    if inClass then balanced depth (c ≠ ']') rest
    else if c = '[' then balanced depth true rest
    else if c = '(' then balanced (depth + 1) false rest
    else if c = ')' then
      match depth with
      | 0 => false
      | depth + 1 => balanced depth false rest
    else balanced depth false rest

/-- Whether a pattern is not empty, does not open with a quantifier, and is balanced. -/
def validPattern (pattern : List Char) : Bool :=
  match pattern with
  | [] => false
  | first :: _ => !(['*', '+', '?'].contains first) && balanced 0 false pattern

/-- The pattern and the flags of a text `/pattern/flags` in which both are valid. -/
def split? : List Char → Option (List Char × List Char)
  | '/' :: body => do
    let (pattern, flags) ← splitLast body
    if validFlags flags && validPattern pattern then some (pattern, flags) else none
  | _ => none

end Regex

end Offside.Grammar
