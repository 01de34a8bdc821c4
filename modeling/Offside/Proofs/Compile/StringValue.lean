import Offside.Compile
import Offside.Proofs.Grammar.Assignment
import Offside.Proofs.JavaScript.Cuts
import Offside.Proofs.Token.LineEnds

/-!
# String values

A string literal passes through the whole pipeline with its value.  The scanner undoes the escapes of the literal,
and the script writes the value with escapes of its own, which a reader of the script undoes again.
-/

namespace Offside

/-! ## Literals of the source -/

namespace Token

/-- How a character of a string is written between two quotes: behind a backslash if it could end the string or start
an escape. -/
def slashed (quote c : Char) : List Char := if c = '\\' ∨ c = quote then ['\\', c] else [c]

/-- The literal of a text between two quotes. -/
def quoted (quote : Char) (text : List Char) : List Char := quote :: (text.flatMap (slashed quote) ++ [quote])

namespace Cut

section
variable {quote c : Char} {rest : List Char}

theorem stringBody?_slashed (hquote : quote ∈ ['"', '\x27', '\x60']) : stringBody? quote (slashed quote c ++ rest) =
    (stringBody? quote rest).map fun s => ⟨c :: s.value, slashed quote c ++ s.text, s.rest⟩ := by
  have hescape : unescape '\\' = '\\' ∧ unescape quote = quote ∧ '\\' ≠ quote := by
    rcases List.mem_cons.1 hquote with rfl | hquote
    · decide
    rcases List.mem_cons.1 hquote with rfl | hquote
    · decide
    rw [List.mem_singleton.1 hquote]
    decide
  unfold slashed
  split
  · rename_i hspecial
    have hc : unescape c = c := by
      cases hspecial with
      | inl hslash => rw [hslash, hescape.1]
      | inr hsame => rw [hsame, hescape.2.1]
    rw [List.cons_append, List.singleton_append, stringBody?_backslash hescape.2.2, hc]
    rfl
  · rename_i hplain
    rw [not_or] at hplain
    exact stringBody?_plain hplain.2 hplain.1

/-- The scanner reads back what a literal was written for. -/
theorem stringBody?_flatMap_slashed (hquote : quote ∈ ['"', '\x27', '\x60']) (text : List Char) :
    stringBody? quote (text.flatMap (slashed quote) ++ quote :: rest) =
      some ⟨text, text.flatMap (slashed quote) ++ [quote], rest⟩ := by
  induction text with
  | nil => exact stringBody?_quote
  | cons c text ih =>
    rw [List.flatMap_cons, List.append_assoc, stringBody?_slashed hquote, ih, Option.map_some, List.append_assoc]

theorem ofFirst_quoted (hquote : quote ∈ ['"', '\x27', '\x60']) (text : List Char) :
    ofFirst quote (text.flatMap (slashed quote) ++ quote :: rest) =
      ⟨⟨quoted quote text, .token (.string (String.ofList text))⟩, rest⟩ := by
  have hstring : ofFirst quote (text.flatMap (slashed quote) ++ quote :: rest) =
      string quote (text.flatMap (slashed quote) ++ quote :: rest) := by
    rcases List.mem_cons.1 hquote with rfl | hquote
    · rfl
    rcases List.mem_cons.1 hquote with rfl | hquote
    · rfl
    rw [List.mem_singleton.1 hquote]
    rfl
  rw [hstring, string, stringBody?_flatMap_slashed hquote]
  rfl

end

end Cut

theorem pieces_of_ofFirst {first : Char} {rest after : List Char} {piece : Piece}
    (h : Cut.ofFirst first rest = ⟨piece, after⟩) : pieces (first :: rest) = piece :: pieces after := by
  rw [pieces, h]

theorem pieces_assignment {quote : Char} (hquote : quote ∈ ['"', '\x27', '\x60']) (text : List Char) :
    pieces ('x' :: ' ' :: '=' :: ' ' :: (quoted quote text ++ [';'])) =
      [⟨['x'], .token (.identifier "x")⟩, ⟨[' '], .blank⟩, ⟨['='], .token (.symbol .equal)⟩, ⟨[' '], .blank⟩,
        ⟨quoted quote text, .token (.string (String.ofList text))⟩, ⟨[';'], .token (.symbol .semicolon)⟩] := by
  have hname : ∀ rest, Cut.ofFirst 'x' (' ' :: rest) = ⟨⟨['x'], .token (.identifier "x")⟩, ' ' :: rest⟩ := fun _ => rfl
  have hblank : ∀ rest, Cut.ofFirst ' ' rest = ⟨⟨[' '], .blank⟩, rest⟩ := fun _ => rfl
  have hsign : ∀ rest, Cut.ofFirst '=' (' ' :: rest) = ⟨⟨['='], .token (.symbol .equal)⟩, ' ' :: rest⟩ := fun _ => rfl
  have hsemicolon : Cut.ofFirst ';' [] = ⟨⟨[';'], .token (.symbol .semicolon)⟩, []⟩ := rfl
  have hend : quoted quote text ++ [';'] = quote :: (text.flatMap (slashed quote) ++ quote :: [';']) := by
    rw [quoted, List.cons_append, List.append_assoc, List.singleton_append]
  rw [pieces_of_ofFirst (hname _), pieces_of_ofFirst (hblank _), pieces_of_ofFirst (hsign _),
    pieces_of_ofFirst (hblank _), hend, pieces_of_ofFirst (Cut.ofFirst_quoted hquote text),
    pieces_of_ofFirst hsemicolon, pieces]

/-- The tokens of the assignment of a literal, by their kinds. -/
theorem Scan.ofSource_assignment {quote : Char} (hquote : quote ∈ ['"', '\x27', '\x60']) (text : String) :
    ∃ target sign literal semicolon eof : Token,
      ofSource ("x = " ++ String.ofList (quoted quote text.toList) ++ ";") =
          ⟨[target, sign, literal, semicolon, eof], []⟩ ∧
        target.kind = .identifier "x" ∧ sign.kind = .symbol .equal ∧ literal.kind = .string text ∧
          semicolon.kind = .symbol .semicolon ∧ eof.kind = .eof := by
  have hsource : ("x = " ++ String.ofList (quoted quote text.toList) ++ ";").toList =
      'x' :: ' ' :: '=' :: ' ' :: (quoted quote text.toList ++ [';']) := by
    simp
  rw [ofSource, hsource, pieces_assignment hquote, String.ofList_toList]
  exact ⟨_, _, _, _, _, rfl, rfl, rfl, rfl, rfl, rfl⟩

end Token

/-! ## The script -/

section
variable (line : Nat) (value : String)

theorem Script.expressionStatement_assignment :
    Script.expressionStatement (.assign (.name "x") (.literal (.string value))) =
      "x = " ++ Text.Quoted.encode value ++ ";" := by
  have htext : Script.Expr.text (.assign (.name "x") (.literal (.string value))) =
      "x = " ++ Text.Quoted.encode value := by
    simp only [Script.Expr.text, Script.literalText]
    rfl
  have hplain : Script.readsAsDeclaration ("x = " ++ Text.Quoted.encode value) = false := by
    simp [Script.readsAsDeclaration, Bool.eq_false_iff, String.startsWith_string_iff]
  rw [Script.expressionStatement, htext, hplain]
  rfl

/-- The assignment of a string to a name is written on one line, behind the pragma and without helpers. -/
theorem Program.script_assignment : Program.script [.expression (.assign ⟨"x", line⟩ (.literal (.string value)))] =
      Program.pragma ++ ("x = " ++ Text.Quoted.encode value ++ ";\n") := by
  have hneeds : blockNeeds [.expression (.assign ⟨"x", line⟩ (.literal (.string value)))] = .none := by
    rw [blockNeeds, blockNeeds, Stmt.needs, Expr.needs, Expr.needs]
    rfl
  have hlower : lowerBlock 0 [.expression (.assign ⟨"x", line⟩ (.literal (.string value)))] =
      [.expression (.assign (.name "x") (.literal (.string value)))] := by
    rw [lowerBlock, lowerBlock, Stmt.lower, Expr.lower, Expr.lower]
  have hblock : Script.blockText 0 [.expression (.assign (.name "x") (.literal (.string value)))] =
      "x = " ++ Text.Quoted.encode value ++ ";\n" := by
    rw [Script.blockText, Script.blockText, Script.Stmt.text, Script.expressionStatement_assignment, Script.line]
    simp [String.append_assoc]
  have hnone : Script.Needs.none.text = "" := rfl
  have hsplit : splitDirective [.expression (.assign ⟨"x", line⟩ (.literal (.string value)))] =
      (none, [.expression (.assign ⟨"x", line⟩ (.literal (.string value)))]) := rfl
  rw [script, hsplit]
  simp only [hneeds, hlower, hblock, hnone, reduceCtorEq, if_false, String.append_empty]

end

/-! ## Literals of the script -/

namespace JavaScript

/-- What may stand between the double quotes of a string: escapes, and characters that end neither the string nor the
line. -/
inductive StringText : List Char → Prop
  | nil : StringText []
  | plain {c : Char} {text : List Char} : c ∉ ['"', '\\', '\n', '\r'] → StringText text → StringText (c :: text)
  | escape {c : Char} {text : List Char} : c ∉ ['\n', '\r'] → StringText text → StringText ('\\' :: c :: text)

theorem stringText_escape (c : Char) {text : List Char} (h : StringText text) :
    StringText (Text.Quoted.escape c ++ text) := by
  have hzero : '0' ∉ ['"', '\\', '\n', '\r'] := by decide
  have hdigit : ∀ n < 32, Text.Quoted.hexDigit n ∉ ['"', '\\', '\n', '\r'] := by decide
  unfold Text.Quoted.escape
  split
  case h_8 hquote hslash _ _ hline hreturn _ =>
    split
    · rename_i hcontrol
      have hhigh := hdigit (c.toNat / 16) (by omega)
      have hlow := hdigit (c.toNat % 16) (by omega)
      exact .escape (by decide) (.plain hzero (.plain hzero (.plain hhigh (.plain hlow h))))
    · have hplain : c ∉ ['"', '\\', '\n', '\r'] := by simpa using ⟨hquote, hslash, hline, hreturn⟩
      exact .plain hplain h
  all_goals exact .escape (by decide) h

theorem stringText_flatMap_escape (value : List Char) : StringText (value.flatMap Text.Quoted.escape) := by
  induction value with
  | nil => exact .nil
  | cons c value ih => exact stringText_escape c ih

end JavaScript

/-- A string keeps its value from the source to the script.  The literal of any text, between any of the three quotes,
compiles to one between double quotes that is read as the same text. -/
theorem compile_assignment_quoted {quote : Char} (hquote : quote ∈ ['"', '\x27', '\x60']) (text : String) :
    ∃ body : List Char,
      compile ("x = " ++ String.ofList (Token.quoted quote text.toList) ++ ";") =
          .ok (Program.pragma ++ ("x = \"" ++ String.ofList body ++ "\";\n")) ∧
        JavaScript.StringText body ∧ JavaScript.stringBody? (body ++ ['"']) = some (text.toList, []) := by
  obtain ⟨target, sign, literal, semicolon, eof, hscan, htarget, hsign, hliteral, hsemicolon, heof⟩ :=
    Token.Scan.ofSource_assignment hquote text
  have hvalue : Grammar.literal? literal.kind = some (.string text) := by rw [hliteral]; rfl
  have hparse := Grammar.Parse.ofTokens_assignment htarget hsign hvalue hsemicolon heof
  refine ⟨text.toList.flatMap Text.Quoted.escape, ?_, JavaScript.stringText_flatMap_escape _,
    JavaScript.stringBody?_flatMap_escape text.toList []⟩
  have hencode : "x = " ++ Text.Quoted.encode text ++ ";\n" =
      "x = \"" ++ String.ofList (text.toList.flatMap Text.Quoted.escape) ++ "\";\n" := by
    apply String.toList_injective
    simp [Text.Quoted.encode]
  calc compile ("x = " ++ String.ofList (Token.quoted quote text.toList) ++ ";")
      = .ok (Program.script [.expression (.assign ⟨"x", target.line⟩ (.literal (.string text)))]) := by
        rw [compile, hscan]
        simp only [List.isEmpty_nil, if_true, hparse]
    _ = .ok (Program.pragma ++ ("x = \"" ++ String.ofList (text.toList.flatMap Text.Quoted.escape) ++ "\";\n")) := by
        rw [Program.script_assignment, hencode]

/-- Backslashes next to quotes, a line break, a null character and a character of two bytes. -/
theorem compile_assignment_quoted_apostrophe :
    ∃ body : List Char,
      compile "x = 'é\\\\\\'\"\n\x00';" = .ok (Program.pragma ++ ("x = \"" ++ String.ofList body ++ "\";\n")) ∧
        JavaScript.StringText body ∧ JavaScript.stringBody? (body ++ ['"']) = some ("é\\'\"\n\x00".toList, []) := by
  have hsource : "x = 'é\\\\\\'\"\n\x00';" =
      "x = " ++ String.ofList (Token.quoted '\x27' "é\\'\"\n\x00".toList) ++ ";" := by
    decide +kernel
  rw [hsource]
  exact compile_assignment_quoted (by decide) "é\\'\"\n\x00"

end Offside
