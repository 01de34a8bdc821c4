import Offside.Binary64.Decimal
import Offside.Token

/-!
# Cutting source text into pieces

Source text is cut into pieces from left to right: a blank character, a comment, a newline with the
indentation behind it, a token, or something that is none of these.  Where a piece ends depends only on
the text from its first character on, and the pieces of a text put together are the text.
-/

namespace Offside.Token

/-- What is wrong with a piece of text that is no token. -/
inductive Fault
  | openComment
  | openString (quote : Char)
  | looseSeparator
  | strayCharacter
deriving DecidableEq, Repr

def Fault.message : Fault → String
  | .openComment => "Unterminated block comment."
  | .openString _ => "Unterminated string."
  | .looseSeparator => "Invalid numeric separator."
  | .strayCharacter => "Unexpected character."

/-- The meaning of a piece.  A newline carries whether a tab stands in the indentation behind it, and the
width of that indentation unless the line is blank or holds only a line comment. -/
inductive Content
  | blank
  | newline (tabbed : Bool) (width : Option Nat)
  | token (kind : Kind)
  | fault (cause : Fault)
deriving DecidableEq, Repr

/-- A stretch of source text and its meaning. -/
structure Piece where
  text : List Char
  content : Content
deriving DecidableEq, Repr

/-- A piece cut off the front of a text, and the text behind it. -/
structure Cut where
  piece : Piece
  rest : List Char

namespace Cut

/-- Cuts off the longest front whose characters satisfy `p`, behind the character `first`. -/
def run (first : Char) (p : Char → Bool) (rest : List Char) (content : List Char → Content) : Cut :=
  let text := first :: rest.takeWhile p
  ⟨⟨text, content text⟩, rest.dropWhile p⟩

/-- The text of a block comment behind its opening, with the text that follows it. -/
def commentBody? : List Char → Option (List Char × List Char)
  | [] => none
  | '*' :: '#' :: rest => some (['*', '#'], rest)
  | c :: rest => (commentBody? rest).map fun (body, after) => (c :: body, after)

/-- A comment, behind its `#`. -/
def comment : List Char → Cut
  | '*' :: rest =>
    match commentBody? rest with
    | some (body, after) => ⟨⟨'#' :: '*' :: body, .blank⟩, after⟩
    | none => ⟨⟨'#' :: '*' :: rest, .fault .openComment⟩, []⟩
  | rest => run '#' (· ≠ '\n') rest fun _ => .blank

/-- Whether a line whose indentation ends here counts for the layout. -/
def isMeasured : List Char → Bool
  | '\r' :: _ | '\n' :: _ => false
  | '#' :: '*' :: _ => true
  | '#' :: _ => false
  | _ => true

def isIndentation (c : Char) : Bool := c = ' ' || c = '\t'

/-- A newline and the indentation of the line it starts. -/
def newline (rest : List Char) : Cut :=
  let margin := rest.takeWhile isIndentation
  let after := rest.dropWhile isIndentation
  let width := if isMeasured after then some margin.length else none
  ⟨⟨'\n' :: margin, .newline (margin.contains '\t') width⟩, after⟩

/-- The character that a backslash and `c` stand for in a string. -/
def unescape : Char → Char
  | 'n' => '\n'
  | 'r' => '\r'
  | 't' => '\t'
  | '0' => '\x00'
  | c => c

/-- A string behind its opening quote: its value, its text, and the text that follows it. -/
structure StringBody where
  value : List Char
  text : List Char
  rest : List Char

/-- Reads a string behind its opening quote, up to the quote that closes it. -/
def stringBody? (quote : Char) : List Char → Option StringBody
  | [] => none
  | [c] => if c = quote then some ⟨[], [c], []⟩ else none
  | c :: d :: rest =>
    if c = quote then some ⟨[], [c], d :: rest⟩
    else if c = '\\' then
      (stringBody? quote rest).map fun s => ⟨unescape d :: s.value, c :: d :: s.text, s.rest⟩
    else
      (stringBody? quote (d :: rest)).map fun s => ⟨c :: s.value, c :: s.text, s.rest⟩

/-- A string, behind its opening quote. -/
def string (quote : Char) (rest : List Char) : Cut :=
  match stringBody? quote rest with
  | some s => ⟨⟨quote :: s.text, .token (.string (String.ofList s.value))⟩, s.rest⟩
  | none => ⟨⟨quote :: rest, .fault (.openString quote)⟩, []⟩

def isDigitOrSeparator (c : Char) : Bool := c.isDigit || c = '_'

/-- Whether every separator stands before a digit. -/
def separatorsHold : List Char → Bool
  | [] => true
  | [c] => c ≠ '_'
  | c :: d :: rest => (c ≠ '_' || d.isDigit) && separatorsHold (d :: rest)

/-- A fraction at the front of a text: a point, a digit, and further digits and separators. -/
def fraction : List Char → List Char × List Char
  | '.' :: d :: rest =>
    if d.isDigit then
      ('.' :: d :: rest.takeWhile isDigitOrSeparator, rest.dropWhile isDigitOrSeparator)
    else ([], '.' :: d :: rest)
  | rest => ([], rest)

/-- The number written by a whole part and a fraction. -/
def numberValue (whole fraction : List Char) : Binary64 :=
  Binary64.ofDecimal (whole.filter Char.isDigit) (fraction.filter Char.isDigit)

/-- A number, behind its first digit. -/
def number (first : Char) (rest : List Char) : Cut :=
  let whole := first :: rest.takeWhile isDigitOrSeparator
  let (part, after) := fraction (rest.dropWhile isDigitOrSeparator)
  let text := whole ++ part
  let content :=
    if separatorsHold text then .token (.number (numberValue whole part))
    else .fault .looseSeparator
  ⟨⟨text, content⟩, after⟩

def isWordStart (c : Char) : Bool := c.isAlpha || c = '_'

def isWordPart (c : Char) : Bool := c.isAlphanum || c = '_'

/-- The token kind of a word: a reserved word or an identifier. -/
def wordKind (word : String) : Kind :=
  match Keyword.ofText? word with
  | some keyword => .keyword keyword
  | none => .identifier word

/-- A symbol of two characters if there is one, else a symbol of one character. -/
def symbol? (first : Char) : List Char → Option Cut
  | second :: rest =>
    match Symbol.ofPair? first second with
    | some sign => some ⟨⟨[first, second], .token sign⟩, rest⟩
    | none => (Symbol.ofChar? first).map fun sign => ⟨⟨[first], .token sign⟩, second :: rest⟩
  | [] => (Symbol.ofChar? first).map fun sign => ⟨⟨[first], .token sign⟩, []⟩

/-- The piece that starts with the character `first`. -/
def ofFirst (first : Char) (rest : List Char) : Cut :=
  if first = ' ' || first = '\r' || first = '\t' then ⟨⟨[first], .blank⟩, rest⟩
  else if first = '\n' then newline rest
  else if first = '#' then comment rest
  else if first = '"' || first = '\x27' || first = '\x60' then string first rest
  else if first.isDigit then number first rest
  else if isWordStart first then
    run first isWordPart rest fun text => .token (wordKind (String.ofList text))
  else
    match symbol? first rest with
    | some cut => cut
    | none => ⟨⟨[first], .fault .strayCharacter⟩, rest⟩

/-- What a piece and the text behind it were cut from. -/
def whole (cut : Cut) : List Char := cut.piece.text ++ cut.rest

theorem whole_run (first : Char) (p : Char → Bool) (rest : List Char)
    (content : List Char → Content) : (run first p rest content).whole = first :: rest := by
  simp [whole, run, List.takeWhile_append_dropWhile]

theorem append_of_commentBody? {text body after : List Char}
    (h : commentBody? text = some (body, after)) : body ++ after = text := by
  fun_induction commentBody? text generalizing body after with
  | case1 => cases h
  | case2 => cases h; rfl
  | case3 c rest _ ih =>
    obtain ⟨⟨inner, tail⟩, hinner, heq⟩ := Option.map_eq_some_iff.1 h
    cases heq
    simp [ih hinner]

theorem whole_comment (rest : List Char) : (comment rest).whole = '#' :: rest := by
  unfold comment
  split
  · split
    · rename_i h
      simp [whole, append_of_commentBody? h]
    · simp [whole]
  · exact whole_run ..

theorem whole_newline (rest : List Char) : (newline rest).whole = '\n' :: rest := by
  simp [whole, newline, List.takeWhile_append_dropWhile]

theorem append_of_stringBody? {quote : Char} {text : List Char} {s : StringBody}
    (h : stringBody? quote text = some s) : s.text ++ s.rest = text := by
  fun_induction stringBody? quote text generalizing s with
  | case1 => cases h
  | case2 => cases h; rfl
  | case3 => cases h
  | case4 => cases h; rfl
  | case5 _ _ _ ih =>
    obtain ⟨inner, hinner, heq⟩ := Option.map_eq_some_iff.1 h
    cases heq
    simp [ih hinner]
  | case6 _ _ _ _ _ ih =>
    obtain ⟨inner, hinner, heq⟩ := Option.map_eq_some_iff.1 h
    cases heq
    simp [ih hinner]

theorem whole_string (quote : Char) (rest : List Char) :
    (string quote rest).whole = quote :: rest := by
  unfold string
  split
  · rename_i h
    simp [whole, append_of_stringBody? h]
  · simp [whole]

theorem append_fraction (text : List Char) : (fraction text).1 ++ (fraction text).2 = text := by
  unfold fraction
  split
  · split <;> simp [List.takeWhile_append_dropWhile]
  · rfl

theorem whole_number (first : Char) (rest : List Char) :
    (number first rest).whole = first :: rest := by
  simp [whole, number, append_fraction, List.takeWhile_append_dropWhile]

theorem whole_of_symbol? {first : Char} {rest : List Char} {cut : Cut}
    (h : symbol? first rest = some cut) : cut.whole = first :: rest := by
  unfold symbol? at h
  split at h
  · split at h
    · cases h; rfl
    · obtain ⟨sign, _, rfl⟩ := Option.map_eq_some_iff.1 h
      rfl
  · obtain ⟨sign, _, rfl⟩ := Option.map_eq_some_iff.1 h
    rfl

/-- Nothing is lost or moved by cutting. -/
theorem whole_ofFirst (first : Char) (rest : List Char) :
    (ofFirst first rest).whole = first :: rest := by
  unfold ofFirst
  split
  · rfl
  split
  · rename_i h; subst h; exact whole_newline rest
  split
  · rename_i h; subst h; exact whole_comment rest
  split
  · exact whole_string first rest
  split
  · exact whole_number first rest
  split
  · exact whole_run ..
  split
  · rename_i h; exact whole_of_symbol? h
  · rfl

/-- A piece holds at least its first character. -/
theorem text_ofFirst_ne_nil (first : Char) (rest : List Char) :
    (ofFirst first rest).piece.text ≠ [] := by
  have hstring : ∀ quote, (string quote rest).piece.text ≠ [] := by
    intro quote
    unfold string
    split <;> simp
  have hsymbol : ∀ cut, symbol? first rest = some cut → cut.piece.text ≠ [] := by
    intro cut h
    unfold symbol? at h
    split at h
    · split at h
      · cases h; simp
      · obtain ⟨sign, _, rfl⟩ := Option.map_eq_some_iff.1 h
        simp
    · obtain ⟨sign, _, rfl⟩ := Option.map_eq_some_iff.1 h
      simp
  unfold ofFirst comment
  repeat' split
  all_goals first
    | exact hstring first
    | exact hsymbol _ (by assumption)
    | simp [run, newline, number]

theorem length_rest_ofFirst (first : Char) (rest : List Char) :
    (ofFirst first rest).rest.length < (first :: rest).length := by
  have hwhole := congrArg List.length (whole_ofFirst first rest)
  have htext := List.length_pos_iff.2 (text_ofFirst_ne_nil first rest)
  simp only [whole, List.length_append] at hwhole
  omega

end Cut

/-- The pieces of a source text, in order. -/
def pieces : List Char → List Piece
  | [] => []
  | first :: rest => (Cut.ofFirst first rest).piece :: pieces (Cut.ofFirst first rest).rest
termination_by text => text.length
decreasing_by exact Cut.length_rest_ofFirst first rest

/-- The pieces of a text put together are the text. -/
theorem flatMap_text_pieces (text : List Char) : (pieces text).flatMap Piece.text = text := by
  fun_induction pieces text with
  | case1 => rfl
  | case2 first rest ih =>
    simp only [List.flatMap_cons, ih]
    exact Cut.whole_ofFirst first rest

end Offside.Token
