import Offside.Tool.Shell.Script

/-!
# Reading shell scripts

A script is read line by line: what a line says is done before the next one is read.  A word ends where a blank or a
mark stands outside of everything that encloses, and the text of a command inside a word is read with the word.
-/

namespace Offside.Tool.Shell

/-- What is wrong with a script. -/
inductive Mistake
  | openQuotation
  | openBrace
  | openArithmetic
  | openTick
  | unexpected (what : String) (instead : Option String)
  | badFunctionName
  | badLoopVariable
  | badChannel
deriving DecidableEq, Repr

def Mistake.message : Mistake → String
  | .openQuotation => "Unterminated quoted string"
  | .openBrace => "Missing '\x7d'"
  | .openArithmetic => "Missing '))'"
  | .openTick => "EOF in backquote substitution"
  | .unexpected what none => s!"{what} unexpected"
  | .unexpected what (some instead) => s!"{what} unexpected (expecting {instead})"
  | .badFunctionName => "Bad function name"
  | .badLoopVariable => "Bad for loop variable"
  | .badChannel => "Bad fd number"

/-- A mistake and the line that it is in. -/
structure Complaint where
  line : Nat
  mistake : Mistake
deriving DecidableEq, Repr

/-- What a script is made of. -/
inductive Token
  | word (parts : Word) (isQuoted : Bool)
  | keyword (text : String)
  | mark (text : String)
  | arrow (channel : Option Nat) (text : String)
  | newline
  | finish

def Token.describe : Token → String
  | .word _ _ => "word"
  | .keyword text | .mark text => s!"\"{text}\""
  | .arrow _ _ => "redirection"
  | .newline => "newline"
  | .finish => "end of file"

def Token.isMark (text : String) : Token → Bool
  | .mark found => found = text
  | _ => false

def Token.isKeyword (text : String) : Token → Bool
  | .keyword found => found = text
  | _ => false

def Token.endsList : Token → Bool
  | .keyword text => ["do", "done", "elif", "else", "esac", "fi", "then", "\x7d"].contains text
  | .mark text => text = ")" || text = ";;"
  | .finish => true
  | _ => false

/-- A text that a line asked for and that comes behind it: where it is kept, and the line that stops it. -/
structure Awaited where
  index : Nat
  stop : List Char
  dropsTabs : Bool
  isQuoted : Bool

/-- A script that is being read: the rest of it with its line, a token that was put back, the texts that stand behind
lines, the short names for other texts, and those of them whose text is being read, with the length of what follows
it. -/
structure Source where
  rest : List Char
  line : Nat := 1
  putBack : Option Token := none
  awaited : List Awaited := []
  texts : Array Word := #[]
  aliases : List (String × String) := []
  expanding : List (String × Nat) := []

abbrev Reader := StateT Source (Except Complaint)

namespace Reader

def fail {α : Type} (mistake : Mistake) : Reader α := do throw ⟨(← get).line, mistake⟩

/-- A text without the escaped line ends at its front, and the line that it is in then. -/
def joined : List Char → (line : Nat) → List Char × Nat
  | '\\' :: '\n' :: rest, line => joined rest (line + 1)
  | rest, line => (rest, line)

def look : Reader (Option Char) := do
  let source ← get
  let (rest, line) := joined source.rest source.line
  set { source with rest, line }
  return rest.head?

def next : Reader (Option Char) := do
  let source ← get
  match source.rest with
  | [] => return none
  | c :: rest =>
    set { source with rest, line := if c = '\n' then source.line + 1 else source.line }
    return some c

def skip : Reader Unit := do let _ ← next

def accept (c : Char) : Reader Bool := do
  if (← look) = some c then
    skip
    return true
  else return false

/-- Takes the characters that are accepted one after another, at most `rounds` of them. -/
def takeWhile (accepts : Char → Bool) : (rounds : Nat) → Reader (List Char)
  | 0 => return []
  | rounds + 1 => do
    match ← look with
    | some c =>
      if accepts c then
        skip
        return c :: (← takeWhile accepts rounds)
      else return []
    | none => return []

def singleQuoted : (rounds : Nat) → Reader (List Char)
  | 0 => fail .openQuotation
  | rounds + 1 => do
    match ← next with
    | none => fail .openQuotation
    | some '\x27' => return []
    | some c => return c :: (← singleQuoted rounds)

def ticked (inDouble : Bool) : (rounds : Nat) → Reader (List Char)
  | 0 => fail .openTick
  | rounds + 1 => do
    let _ ← look
    match ← next with
    | none => fail .openTick
    | some '\x60' => return []
    | some '\\' =>
      match ← next with
      | none => fail .openTick
      | some c =>
        let rest ← ticked inDouble rounds
        if ['\\', '\x60', '$'].contains c || (inDouble && c = '"') then return c :: rest
        else return '\\' :: c :: rest
    | some c => return c :: (← ticked inDouble rounds)

/-! ## Texts behind lines -/

def acceptStop (stop : List Char) (dropsTabs : Bool) : Reader Bool := do
  let source ← get
  let rest := if dropsTabs then source.rest.dropWhile (· = '\t') else source.rest
  let behind := rest.drop stop.length
  let isStop := stop.isPrefixOf rest && (behind.isEmpty || behind.head? = some '\n')
  set { source with
    rest := if isStop then behind.drop 1 else rest
    line := if isStop && !behind.isEmpty then source.line + 1 else source.line }
  return isStop || rest.isEmpty

/-- The characters of a text in which nothing stands for other text, at most `rounds` of them. -/
def literalText (awaited : Awaited) : (rounds : Nat) → (isLineStart : Bool) → Reader Word
  | 0, _ => return []
  | rounds + 1, isLineStart => do
    if isLineStart && (← acceptStop awaited.stop awaited.dropsTabs) then return []
    match ← next with
    | none => return []
    | some c => return .char c true :: (← literalText awaited rounds (c = '\n'))

/-! ## Zones -/

/-- What encloses a part of a script.  A plain word ends outside of everything, double quotes may stand in braces and
braces in double quotes, round brackets have a depth, and a text behind a line has a line that stops it. -/
inductive Zone
  | plain (isStop : Bool)
  | double
  | inner
  | braces (isDouble inQuotes inText : Bool)
  | arithmetic (depth : Nat)
  | text (stop : List Char) (dropsTabs isLineStart : Bool)

/-- What a character does in a zone. -/
inductive Role
  | literal (isQuoted : Bool)
  | stop
  | close
  | escape
  | single
  | double
  | toggle
  | dollar
  | tick
  | openRound
  | closeRound
deriving DecidableEq, Repr

def endsWord (c : Char) : Bool := [' ', '\t', '\n', ';', '&', '|', '<', '>', '(', ')'].contains c

def Zone.isDouble : Zone → Bool
  | .plain _ => false
  | .braces isDouble _ _ => isDouble
  | _ => true

def commonRole (isQuoted : Bool) : Char → Role
  | '\\' => .escape
  | '\x60' => .tick
  | '$' => .dollar
  | _ => .literal isQuoted

def Zone.role (zone : Zone) (c : Char) : Role :=
  match zone, c with
  | .plain isStop, c =>
    if endsWord c then .stop
    else if c = '\x27' then .single
    else if c = '"' then .double
    else if isStop && (c = '$' || c = '\x60') then .literal false
    else commonRole false c
  | .double, '"' | .inner, '"' => .close
  | .braces false _ _, '\x7d' => .close
  | .braces false _ _, '\x27' => .single
  | .braces false _ _, '"' => .double
  | .braces true inQuotes _, '\x7d' => if inQuotes then .literal true else .close
  | .braces true _ _, '"' => .toggle
  | .arithmetic _, '(' => .openRound
  | .arithmetic _, ')' => .closeRound
  | zone, c => commonRole zone.isDouble c

def Zone.escapable : Zone → List Char
  | .text _ _ _ => ['\\', '\x60', '$']
  | .braces _ _ _ | .inner => ['\\', '\x60', '$', '"', '\x7d']
  | _ => ['\\', '\x60', '$', '"']

def Zone.behind : Zone → Char → Zone
  | .text stop dropsTabs _, c => .text stop dropsTabs (c = '\n')
  | .arithmetic depth, '(' => .arithmetic (depth + 1)
  | .arithmetic depth, ')' => .arithmetic (depth - 1)
  | .braces true inQuotes inText, '"' => .braces true (!inQuotes) inText
  | zone, _ => zone

def Zone.finish : Zone → Reader Word
  | .plain _ | .text _ _ _ => return []
  | .double | .inner => fail .openQuotation
  | .braces isDouble _ inText => fail (if isDouble && !inText then .openQuotation else .openBrace)
  | .arithmetic _ => fail .openArithmetic

/-- The zone of what follows the name of a parameter in braces.  A pattern has quotations of its own. -/
def Zone.bracesInside (zone : Zone) (isPattern : Bool) : Zone :=
  let inText := match zone with
    | .text _ _ _ => true
    | .braces _ _ inText => inText
    | _ => false
  .braces (zone.isDouble && !isPattern) false inText

/-- A quotation around parts.  All positional parameters are as many words as there are. -/
def quotation : Word → Word
  | [.parameter "@" .value true] => allPositional
  | parts => .quotation :: parts ++ [.quotation]

/-! ## Parameters -/

/-- What stands behind an opening brace: the name of a parameter, and how it is used as far as that is known.  A
word behind a missing mark is `loose`. -/
structure Head where
  name : String
  isLength : Bool := false
  mark : Option (Operator × Bool) := none
  isUnknown : Bool := false
  isClosed : Bool := false
  isLoose : Bool := false

def headMark (name : String) : Reader Head := do
  let mindsEmpty ← accept ':'
  let c ← look
  let operated (operator : Operator) : Reader Head := do
    skip
    return { name, mark := some (operator, mindsEmpty) }
  match c with
  | some '\x7d' =>
    skip
    return { name, isClosed := !mindsEmpty, isLoose := mindsEmpty }
  | some '-' => operated .orElse
  | some '+' => operated .insteadOf
  | some '=' => operated .orAssign
  | some '?' => operated .orFail
  | some '%' =>
    if mindsEmpty then
      skip
      return { name, isUnknown := true }
    else
      skip
      return { name, mark := some (.cut true (← accept '%'), false) }
  | some '#' =>
    if mindsEmpty then
      skip
      return { name, isUnknown := true }
    else
      skip
      return { name, mark := some (.cut false (← accept '#'), false) }
  | some _ =>
    skip
    return { name, isUnknown := true }
  | none => return { name, isUnknown := true }

def lengthName (rounds : Nat) (c : Char) : Reader Head := do
  let name ← if c.isDigit then do
      skip
      pure [c]
    else takeWhile isNameChar rounds
  return { name := String.ofList name, isLength := (← look) = some '\x7d', isUnknown := (← look) ≠ some '\x7d' }

def head (rounds : Nat) : Reader Head := do
  match ← look with
  | none => return { name := "", isUnknown := true }
  | some '\x7d' => return { name := "", isUnknown := true }
  | some '#' =>
    skip
    match ← look with
    | none => return { name := "#", isUnknown := true }
    | some c =>
      if isNameChar c then lengthName rounds c
      else
        let before ← get
        skip
        let isLength := c ≠ '\x7d' && (← look) = some '\x7d'
        if isLength && isSpecial c then return { name := c.toString, isLength }
        else
          set before
          if isLength then return { name := "", isUnknown := true } else headMark "#"
  | some c =>
    if isNameStart c then headMark (String.ofList (← takeWhile isNameChar rounds))
    else if c.isDigit then headMark (String.ofList (← takeWhile Char.isDigit rounds))
    else if isSpecial c then
      skip
      headMark c.toString
    else
      skip
      return { name := "", isUnknown := true }

def Head.use (head : Head) (word : Word) : Use :=
  if head.isUnknown then .unknown
  else if head.isLength then .length
  else
    match head.mark with
    | some (operator, mindsEmpty) => .operated operator mindsEmpty word
    | none => .value

def Head.isPattern (head : Head) : Bool :=
  match head.mark with
  | some (.cut _ _, _) => true
  | _ => false

/-! ## Tokens -/

def keywords : List String :=
  ["!", "case", "do", "done", "elif", "else", "esac", "fi", "for", "if", "in", "then", "until", "while", "\x7b",
    "\x7d"]

/-- What a token may be: whether ends of lines are skipped, words can be keywords or short names, and a word is the
stop of a text. -/
structure Wanted where
  skipsLines : Bool := false
  hasKeywords : Bool := false
  hasAliases : Bool := false
  isStop : Bool := false

def Wanted.start : Wanted := { skipsLines := true, hasKeywords := true, hasAliases := true }

def isQuoted (word : Word) : Bool :=
  word.any fun
    | .quotation => true
    | .char _ quoted => quoted
    | _ => false

def putBack (token : Token) : Reader Unit := modify ({ · with putBack := some token })

def refuse {α : Type} (token : Token) (instead : Option String) : Reader α :=
  fail (.unexpected token.describe instead)

def doubled (c : Char) : Reader Token := do
  skip
  if ← accept c then return .mark (String.ofList [c, c]) else return .mark c.toString

def arrow (channel : Option Nat) : Reader Token := do
  let found (text : String) : Reader Token := return .arrow channel text
  if ← accept '>' then
    if ← accept '>' then found ">>"
    else if ← accept '&' then found ">&"
    else if ← accept '|' then found ">|"
    else found ">"
  else
    skip
    if ← accept '<' then (if ← accept '-' then found "<<-" else found "<<")
    else if ← accept '&' then found "<&"
    else if ← accept '>' then found "<>"
    else found "<"

def channel? : Word → Option (Option Nat)
  | [] => some none
  | [.char c false] => if c.isDigit then some (some (c.toNat - 48)) else none
  | _ => none

def alias? (text : String) : Reader (Option String) := do
  let source ← get
  match source.aliases.lookup text with
  | none => return none
  | some value =>
    let isOpen := source.expanding.any fun (name, behind) => name = text && behind ≤ source.rest.length
    return if isOpen then none else some value

def expandAlias (name text : String) : Reader Unit := modify fun source =>
  { source with
    rest := text.toList ++ source.rest
    expanding := (name, source.rest.length) :: source.expanding.filter fun (_, behind) => behind ≤ source.rest.length }

/-- Whether the text of a short name that ends with a blank ends before the next word. -/
def isBehindBlankAlias : Reader Bool := do
  let source ← get
  if source.expanding.isEmpty then return false
  else
    let start := (source.rest.dropWhile fun c => c = ' ' || c = '\t').length
    return source.expanding.any fun (name, behind) =>
      start ≤ behind && behind ≤ source.rest.length
        && ((source.aliases.lookup name).bind fun text => text.toList.getLast?).any fun c => c = ' ' || c = '\t'

/-- The list of commands that is read: that of one line, one that has to hold something, or one inside brackets. -/
inductive Extent
  | line | block | enclosed
deriving DecidableEq, Repr

/-- What was read of a simple command. -/
structure Draft where
  assignments : List (String × Word) := []
  words : List Word := []
  redirections : List Redirection := []

/-- The commands that end the shell where they cannot be run, and keep what is assigned before them. -/
def specialNames : List String :=
  [":", ".", "break", "continue", "eval", "exec", "exit", "export", "local", "readonly", "return", "set", "shift",
    "times", "trap", "unset"]

def inBackground (line : Nat) : Command → Command
  | .redirected line body redirections => .background line body redirections
  | body => .background line body []

def arrowDirection : String → Direction
  | "<" => .readFile
  | ">" => .writeFile
  | ">|" => .overwriteFile
  | ">>" => .appendFile
  | "<>" => .readAndWrite
  | _ => .copyChannel

mutual

def parts : (depth : Nat) → Zone → Reader Word
  | 0, _ => return []
  | depth + 1, zone => do
    let isStopped ← match zone with
      | .text stop dropsTabs true => acceptStop stop dropsTabs
      | _ => pure false
    if isStopped then return []
    match ← look with
    | none => zone.finish
    | some c =>
      let further (found : Word) : Reader Word := do return found ++ (← parts depth (zone.behind c))
      match zone.role c with
      | .stop => return []
      | .close =>
        skip
        return []
      | .literal isQuoted =>
        skip
        further [.char c isQuoted]
      | .escape =>
        skip
        match ← next with
        | none => further [.char c true]
        | some next =>
          let keeps := zone.isDouble && !zone.escapable.contains next
          let found : Word := if keeps then [.char c true, .char next true] else [.char next true]
          return found ++ (← parts depth (zone.behind next))
      | .single =>
        skip
        let text ← singleQuoted depth
        further (quotation (text.map fun c => .char c true))
      | .double =>
        skip
        let inside ← parts depth (match zone with
          | .braces _ _ _ => .inner
          | _ => .double)
        further (quotation inside)
      | .toggle =>
        skip
        further [.quotation]
      | .dollar =>
        skip
        further (← dollar depth zone)
      | .tick =>
        skip
        let text ← ticked zone.isDouble depth
        let outer ← get
        match (list depth .enclosed).run { rest := text, texts := outer.texts, aliases := outer.aliases } with
        | .error complaint => throw complaint
        | .ok (body, inner) =>
          set { outer with texts := inner.texts }
          further [.output body zone.isDouble]
      | .openRound =>
        skip
        further [.char c true]
      | .closeRound =>
        skip
        match zone with
        | .arithmetic 0 => if ← accept ')' then return [] else further [.char c true]
        | _ => further [.char c true]
termination_by structural depth => depth

def dollar : (depth : Nat) → Zone → Reader Word
  | 0, _ => return []
  | depth + 1, zone => do
    let inDouble := zone.isDouble
    match ← look with
    | some '(' =>
      skip
      if ← accept '(' then return [.arithmetic (← parts depth (.arithmetic 0)) inDouble]
      else
        let outer ← get
        set { outer with awaited := [] }
        let body ← list depth .enclosed
        let token ← token depth {}
        if !token.isMark ")" then refuse token (some "\")\"")
        texts depth
        modify ({ · with awaited := outer.awaited })
        return [.output body inDouble]
    | some '\x7b' =>
      skip
      let head ← head depth
      if head.isClosed then return [.parameter head.name .value inDouble]
      else
        let word ← parts depth (zone.bracesInside head.isPattern)
        if head.isLoose then return .parameter head.name .value inDouble :: word
        else return [.parameter head.name (head.use word) inDouble]
    | some c =>
      if isNameStart c then
        return [.parameter (String.ofList (← takeWhile isNameChar depth)) .value inDouble]
      else if isSpecial c then
        skip
        return [.parameter c.toString .value inDouble]
      else return [.char '$' inDouble]
    | none => return [.char '$' inDouble]
termination_by structural depth => depth

def texts : (depth : Nat) → Reader Unit
  | 0 => pure ()
  | depth + 1 => do
    match (← get).awaited with
    | [] => pure ()
    | awaited :: rest =>
      modify ({ · with awaited := rest })
      let found ← if awaited.isQuoted then literalText awaited depth true
        else parts depth (.text awaited.stop awaited.dropsTabs true)
      modify fun source => { source with texts := source.texts.setIfInBounds awaited.index found }
      texts depth
termination_by structural depth => depth

def rawToken : (depth : Nat) → (isStop : Bool) → Reader Token
  | 0, _ => return .finish
  | depth + 1, isStop => do
    match ← look with
    | none =>
      texts depth
      return .finish
    | some ' ' | some '\t' =>
      skip
      rawToken depth isStop
    | some '#' =>
      modify fun source => { source with rest := source.rest.dropWhile (· ≠ '\n') }
      rawToken depth isStop
    | some '\n' =>
      skip
      texts depth
      return .newline
    | some '&' => doubled '&'
    | some '|' => doubled '|'
    | some ';' => doubled ';'
    | some '(' => skip; return .mark "("
    | some ')' => skip; return .mark ")"
    | some _ =>
      let word ← parts depth (.plain isStop)
      match ← look, channel? word with
      | some '<', some channel | some '>', some channel => arrow channel
      | _, _ => return .word word (isQuoted word)
termination_by structural depth => depth

def token : (depth : Nat) → Wanted → Reader Token
  | 0, _ => return .finish
  | depth + 1, wanted => do
    let isBehindBlank ← isBehindBlankAlias
    let found ← match (← get).putBack with
      | some token => do
        modify ({ · with putBack := none })
        pure token
      | none => rawToken depth wanted.isStop
    match found with
    | .newline => if wanted.skipsLines then token depth wanted else return .newline
    | .word parts false =>
      match Word.plain? parts with
      | none => return found
      | some chars =>
        let text := String.ofList chars
        if wanted.hasKeywords && keywords.contains text then return .keyword text
        else if wanted.hasAliases || isBehindBlank then
          match ← alias? text with
          | some value =>
            expandAlias text value
            token depth wanted
          | none => return found
        else return found
    | found => return found
termination_by structural depth => depth

/-- Reads a list of commands.  Nothing may stand in it inside of brackets and in an empty line. -/
def list : (depth : Nat) → Extent → Reader (Option Command)
  | 0, _ => return none
  | depth + 1, extent => listFrom depth extent none (extent = .enclosed)
termination_by structural depth => depth

/-- Reads the rest of a list.  `checksEnd` says whether it may end here. -/
def listFrom : (depth : Nat) → Extent → (first : Option Command) → (checksEnd : Bool) → Reader (Option Command)
  | 0, _, first, _ => return first
  | depth + 1, extent, first, checksEnd => do
    let start ← token depth { Wanted.start with skipsLines := extent ≠ .line }
    match start with
    | .newline => return first
    | .finish =>
      putBack start
      return first
    | start =>
      putBack start
      if checksEnd && start.endsList then return first
      let command ← conditions depth {}
      let stop ← token depth {}
      let line := (← get).line
      let command := if stop.isMark "&" then inBackground line command else command
      let first := match first with
        | some first => .sequence first command
        | none => command
      match stop with
      | .finish =>
        putBack stop
        return some first
      | .newline =>
        putBack stop
        listFrom depth extent (some first) (extent ≠ .line)
      | .mark ";" | .mark "&" => listFrom depth extent (some first) (extent ≠ .line)
      | stop =>
        if extent = .line then refuse stop none
        putBack stop
        return some first
termination_by structural depth => depth

def conditions : (depth : Nat) → Wanted → Reader Command
  | 0, _ => fail .openQuotation
  | depth + 1, wanted => do conditionsFrom depth (← pipeline depth wanted)
termination_by structural depth => depth

def conditionsFrom : (depth : Nat) → Command → Reader Command
  | 0, first => return first
  | depth + 1, first => do
    match ← token depth {} with
    | .mark "&&" => conditionsFrom depth (.both first (← pipeline depth .start))
    | .mark "||" => conditionsFrom depth (.either first (← pipeline depth .start))
    | other =>
      putBack other
      return first
termination_by structural depth => depth

def pipeline : (depth : Nat) → Wanted → Reader Command
  | 0, _ => fail .openQuotation
  | depth + 1, wanted => do
    let start ← token depth wanted
    let isOpposite := start.isKeyword "!"
    if !isOpposite then putBack start
    let first ← command depth { hasKeywords := true, hasAliases := true }
    let others ← stages depth
    let found := if others.isEmpty then first else .pipe (first :: others)
    return if isOpposite then .opposite found else found
termination_by structural depth => depth

def stages : (depth : Nat) → Reader (List Command)
  | 0 => return []
  | depth + 1 => do
    match ← token depth {} with
    | .mark "|" =>
      let stage ← command depth .start
      return stage :: (← stages depth)
    | other =>
      putBack other
      return []
termination_by structural depth => depth

def expectKeyword : (depth : Nat) → (text : String) → Reader Unit
  | 0, _ => pure ()
  | depth + 1, text => do
    let found ← token depth {}
    if !found.isKeyword text then refuse found (some s!"\"{text}\"")
termination_by structural depth => depth

/-- Reads a list that holds something.  Where it is missing the token that stands there is refused. -/
def block : (depth : Nat) → Reader Command
  | 0 => fail .openQuotation
  | depth + 1 => do
    match ← list depth .block with
    | some body => return body
    | none => return .simple (← get).line [] [] []
termination_by structural depth => depth

def command : (depth : Nat) → Wanted → Reader Command
  | 0, _ => fail .openQuotation
  | depth + 1, wanted => do
    let line := (← get).line
    let start ← token depth wanted
    match start with
    | .keyword "if" =>
      let body ← branches depth
      redirected depth line body
    | .keyword "while" =>
      let body ← loops depth false
      redirected depth line body
    | .keyword "until" =>
      let body ← loops depth true
      redirected depth line body
    | .keyword "for" =>
      let body ← forLoop depth line
      redirected depth line body
    | .keyword "case" =>
      let body ← choice depth line
      redirected depth line body
    | .keyword "\x7b" =>
      let body ← block depth
      expectKeyword depth "\x7d"
      redirected depth line body
    | .mark "(" =>
      let body ← block depth
      let stop ← token depth {}
      if !stop.isMark ")" then refuse stop (some "\")\"")
      redirected depth line (.subshell line body [])
    | .word _ _ | .arrow _ _ =>
      putBack start
      simple depth
    | start => refuse start none
termination_by structural depth => depth

def redirected : (depth : Nat) → (line : Nat) → Command → Reader Command
  | 0, _, body => return body
  | depth + 1, line, body => do
    match ← redirections depth with
    | [] => return body
    | found =>
      match body with
      | .subshell line body _ => return .subshell line body found
      | body => return .redirected line body found
termination_by structural depth => depth

def redirections : (depth : Nat) → Reader (List Redirection)
  | 0 => return []
  | depth + 1 => do
    match ← token depth { hasKeywords := true, hasAliases := true } with
    | .arrow channel text =>
      let first ← redirection depth channel text
      return first :: (← redirections depth)
    | other =>
      putBack other
      return []
termination_by structural depth => depth

def redirection : (depth : Nat) → (channel : Option Nat) → (arrow : String) → Reader Redirection
  | 0, _, _ => fail .openQuotation
  | depth + 1, channel, arrow => do
    let isHere := arrow = "<<" || arrow = "<<-"
    match ← token depth { isStop := isHere } with
    | .word target isQuoted =>
      let channel := channel.getD (if arrow.startsWith "<" then 0 else 1)
      if isHere then
        let source ← get
        let index := source.texts.size
        let awaited : Awaited := { index, stop := Word.bare target, dropsTabs := arrow = "<<-", isQuoted }
        set { source with texts := source.texts.push [], awaited := source.awaited ++ [awaited] }
        return .mk channel (.hereText index) []
      else return .mk channel (arrowDirection arrow) target
    | other => refuse other none
termination_by structural depth => depth

def branches : (depth : Nat) → Reader Command
  | 0 => fail .openQuotation
  | depth + 1 => do
    let condition ← block depth
    expectKeyword depth "then"
    let yes ← block depth
    match ← token depth {} with
    | .keyword "elif" => return .branch condition yes (some (← branches depth))
    | .keyword "else" =>
      let no ← block depth
      expectKeyword depth "fi"
      return .branch condition yes (some no)
    | other =>
      putBack other
      expectKeyword depth "fi"
      return .branch condition yes none
termination_by structural depth => depth

def body : (depth : Nat) → Wanted → Reader Command
  | 0, _ => fail .openQuotation
  | depth + 1, wanted => do
    let start ← token depth wanted
    if !start.isKeyword "do" then refuse start (some "\"do\"")
    let found ← block depth
    expectKeyword depth "done"
    return found
termination_by structural depth => depth

def loops : (depth : Nat) → (isUntil : Bool) → Reader Command
  | 0, _ => fail .openQuotation
  | depth + 1, isUntil => do
    let condition ← block depth
    return .loop isUntil condition (← body depth {})
termination_by structural depth => depth

def forLoop : (depth line : Nat) → Reader Command
  | 0, _ => fail .openQuotation
  | depth + 1, line => do
    let name ← match ← token depth {} with
      | .word parts false =>
        match Word.plain? parts with
        | some name => if isName name then pure (String.ofList name) else fail .badLoopVariable
        | none => fail .badLoopVariable
      | _ => fail .badLoopVariable
    let behind ← token depth .start
    if behind.isKeyword "in" then
      let values ← words depth
      match ← token depth {} with
      | .newline | .mark ";" => pure ()
      | other => refuse other none
      return .forEach line name values (← body depth .start)
    else
      if !behind.isMark ";" then putBack behind
      return .forEach line name [allPositional] (← body depth .start)
termination_by structural depth => depth

def words : (depth : Nat) → Reader (List Word)
  | 0 => return []
  | depth + 1 => do
    match ← token depth {} with
    | .word parts _ => return parts :: (← words depth)
    | other =>
      putBack other
      return []
termination_by structural depth => depth

def choice : (depth line : Nat) → Reader Command
  | 0, _ => fail .openQuotation
  | depth + 1, line => do
    match ← token depth {} with
    | .word word _ =>
      let behind ← token depth .start
      if !behind.isKeyword "in" then refuse behind (some "\"in\"")
      return .choose line word (← cases depth)
    | other => refuse other (some "word")
termination_by structural depth => depth

def cases : (depth : Nat) → Reader (List (List Word × Option Command))
  | 0 => return []
  | depth + 1 => do
    let start ← token depth { skipsLines := true, hasKeywords := true }
    if start.isKeyword "esac" then return []
    let start ← if start.isMark "(" then token depth {} else pure start
    let patterns ← patterns depth start
    let body ← list depth .enclosed
    let stop ← token depth { skipsLines := true, hasKeywords := true }
    if stop.isKeyword "esac" then return [(patterns, body)]
    else if stop.isMark ";;" then return (patterns, body) :: (← cases depth)
    else refuse stop (some "\";;\"")
termination_by structural depth => depth

/-- Reads the patterns of a case up to its bracket.  The first token of them is given. -/
def patterns : (depth : Nat) → Token → Reader (List Word)
  | 0, _ => return []
  | depth + 1, start => do
    let first : Word := match start with
      | .word parts _ => parts
      | .keyword text => text.toList.map fun c => .char c false
      | _ => []
    match ← token depth {} with
    | .mark "|" => return first :: (← patterns depth (← token depth {}))
    | .mark ")" => return [first]
    | other => refuse other (some "\")\"")
termination_by structural depth => depth

def simple : (depth : Nat) → Reader Command
  | 0 => fail .openQuotation
  | depth + 1 => do
    let line := (← get).line
    simpleFrom depth line {} true
termination_by structural depth => depth

/-- Reads the rest of a simple command.  Before its first word there may be assignments. -/
def simpleFrom : (depth line : Nat) → Draft → (isStart : Bool) → Reader Command
  | 0, line, draft, _ => return .simple line draft.assignments draft.words draft.redirections
  | depth + 1, line, draft, isStart => do
    let found ← token depth { hasAliases := isStart }
    match found with
    | .word parts _ =>
      match isStart, Word.assignment? parts with
      | true, some assignment =>
        simpleFrom depth line { draft with assignments := draft.assignments ++ [assignment] } true
      | _, _ => simpleFrom depth line { draft with words := draft.words ++ [parts] } false
    | .arrow channel text =>
      let redirection ← redirection depth channel text
      simpleFrom depth line { draft with redirections := draft.redirections ++ [redirection] } isStart
    | found =>
      match found.isMark "(", draft with
      | true, ⟨[], [name], []⟩ =>
        let stop ← token depth {}
        if !stop.isMark ")" then refuse stop (some "\")\"")
        match Word.plain? name with
        | some name =>
          let text := String.ofList name
          if !isName name || specialNames.contains text then fail .badFunctionName
          return .define text (← command depth .start)
        | none => fail .badFunctionName
      | _, _ =>
        putBack found
        return .simple line draft.assignments draft.words draft.redirections
termination_by structural depth => depth

end

def stepLimit : Nat := 10000000

/-- What comes next in a script: its end, an empty line, or a command. -/
inductive Line
  | finish
  | empty
  | command (command : Command)

def nextLine : Reader Line := do
  match ← list stepLimit .line with
  | some command => return .command command
  | none =>
    match (← get).putBack with
    | some .finish => return .finish
    | _ => return .empty

end Reader

end Offside.Tool.Shell
