import Offside.Tool.Shell.Lookup

/-!
# Surroundings

The commands of the shell for the folder where it works, for the rights of new files, and for limits and times.
-/

namespace Offside.Tool.Shell.Builtin

/-! ## Folders -/

/-- The slashes at the front of a path from the root.  Two of them are kept. -/
def rootOf (path : String) : String :=
  match path.toList with
  | '/' :: '/' :: '/' :: _ => "/"
  | '/' :: '/' :: _ => "//"
  | _ => "/"

def walked : (names : List String) → List String → List String
  | names, [] => names
  | names, step :: rest =>
    if step = "" || step = "." then walked names rest
    else if step = ".." then walked (names.drop 1) rest
    else walked (step :: names) rest

def pathFrom (folder path : String) : String :=
  let isFull := path.toList.head? = some '/'
  let start := if isFull then [] else walked [] (folder.splitOn "/")
  let names := walked start (path.splitOn "/")
  rootOf (if isFull then path else folder) ++ "/".intercalate names.reverse

def pathOf (location : Location) : String := "/" ++ "/".intercalate (location.map bytewise)

/-- Goes to a folder; `false` means that there is none. -/
def enter (path : String) (isPhysical : Bool) : Run Bool := do
  let state ← get
  let wanted := if isPhysical then path else pathFrom state.folder path
  match state.tree.find .visit ⟨readable wanted⟩ with
  | .ok (location, .folder) =>
    Run.assign "OLDPWD" state.folder true
    let folder := if isPhysical then pathOf location else wanted
    modify fun state => { state with tree := { state.tree with working := location }, folder }
    Run.assign "PWD" folder true
    return true
  | _ => return false

def isAnchored (path : String) : Bool :=
  match path.toList with
  | '/' :: _ | ['.'] | '.' :: '/' :: _ | ['.', '.'] | '.' :: '.' :: '/' :: _ => true
  | _ => false

def isPhysical (options : List (Char × String)) : Bool := (options.getLast?.map (·.1)) = some 'P'

def cd (words : List String) : Run Nat :=
  Run.withOptions [('L', false), ('P', false)] words fun options words => do
    let state ← get
    let wanted := match words.head? with
      | some "-" => (state.value? "OLDPWD").getD ""
      | some path => path
      | none => (state.value? "HOME").getD ""
    let path := if wanted = "" then "." else wanted
    let bases := if isAnchored wanted then [] else ((state.value? "CDPATH").map colonParts).getD []
    let found := bases.find? fun base => state.tree.isFolder ⟨readable (joinedPath base path)⟩
    let target := match found with
      | some base => joinedPath base path
      | none => path
    if ← enter target (isPhysical options) then
      if words.head? = some "-" || found.any (· ≠ "") then Run.out ((← get).folder ++ "\n")
      return 0
    else
      Run.raise s!"can't cd to {path}"
      return 2

def pwd (words : List String) : Run Nat :=
  Run.withOptions [('L', false), ('P', false)] words fun options _ => do
    let state ← get
    Run.out ((if isPhysical options then pathOf state.tree.working else state.folder) ++ "\n")
    return 0

/-! ## Rights of new files -/

def octal4 (n : Nat) : String :=
  let digits := String.ofList (Nat.toDigits 8 n)
  String.ofList (List.replicate (4 - digits.length) '0') ++ digits

def rightsText (rights : Nat) : String :=
  (if rights / 4 % 2 = 1 then "r" else "") ++ (if rights / 2 % 2 = 1 then "w" else "")
    ++ (if rights % 2 = 1 then "x" else "")

/-- The rights of the owner, of the group and of others. -/
structure Rights where
  owner : Nat
  group : Nat
  others : Nat
deriving DecidableEq, Repr

namespace Rights

def ofMask (mask : Nat) : Rights where
  owner := 7 - mask / 64 % 8
  group := 7 - mask / 8 % 8
  others := 7 - mask % 8

def mask (rights : Rights) : Nat := (7 - rights.owner) * 64 + (7 - rights.group) * 8 + (7 - rights.others)

def text (rights : Rights) : String :=
  s!"u={rightsText rights.owner},g={rightsText rights.group},o={rightsText rights.others}"

def change (rights : Rights) (whom : List Char) (act : Nat → Nat) : Rights :=
  let names (letter : Char) : Bool := whom.isEmpty || whom.contains 'a' || whom.contains letter
  { owner := if names 'u' then act rights.owner else rights.owner
    group := if names 'g' then act rights.group else rights.group
    others := if names 'o' then act rights.others else rights.others }

def named (rights : Rights) (letters : List Char) : Nat :=
  letters.foldl
    (fun found letter =>
      found ||| match letter with
        | 'r' => 4
        | 'w' => 2
        | 'x' => 1
        | 'u' => rights.owner
        | 'g' => rights.group
        | 'o' => rights.others
        | _ => 0)
    0

def signs (whom : List Char) : (rounds : Nat) → Rights → List Char → Option (Rights × List Char)
  | 0, rights, text => some (rights, text)
  | _, rights, [] => some (rights, [])
  | rounds + 1, rights, sign :: rest =>
    if sign = ',' then some (rights, sign :: rest)
    else if !(['+', '-', '='].contains sign) then none
    else
      let letters := rest.takeWhile fun c => "rwxXstugo".toList.contains c
      let given := rights.named letters
      let changed := rights.change whom fun old =>
        if sign = '+' then old ||| given else if sign = '-' then old &&& (7 - given) else given
      signs whom rounds changed (rest.drop letters.length)

def follow : (rounds : Nat) → Rights → List Char → Option Rights
  | 0, _, _ => none
  | rounds + 1, rights, text =>
    let whom := text.takeWhile fun c => "ugoa".toList.contains c
    match signs whom (text.length + 1) rights (text.drop whom.length) with
    | none => none
    | some (rights, []) => some rights
    | some (_, [_]) => none
    | some (rights, _ :: rest) => follow rounds rights rest

end Rights

def umask (words : List String) : Run Nat :=
  Run.withOptions [('S', false)] words fun options words => do
    let mask := (← get).mask
    match words with
    | [] =>
      Run.out ((if options.isEmpty then octal4 mask else (Rights.ofMask mask).text) ++ "\n")
      return 0
    | word :: _ =>
      let digits := word.toList
      if digits.head?.any Char.isDigit then
        match digits? 8 digits with
        | some (value, []) =>
          modify ({ · with mask := value % 512 })
          return 0
        | _ =>
          Run.raise s!"Illegal number: {word}"
          return 2
      else
        match Rights.follow (digits.length + 1) (Rights.ofMask mask) digits with
        | some rights =>
          modify ({ · with mask := rights.mask })
          return 0
        | none =>
          Run.raise s!"Illegal mode: {word}"
          return 2

/-! ## Limits and times -/

/-- Prints a limit.  There are none. -/
def ulimit (words : List String) : Run Nat :=
  Run.withOptions ("HSatfdscmlpnvwr".toList.map (·, false)) words fun _ words => do
    if words.isEmpty then Run.out "unlimited\n"
    return 0

def times (_ : List String) : Run Nat := do
  Run.out "0m0.000000s 0m0.000000s\n0m0.000000s 0m0.000000s\n"
  return 0

end Offside.Tool.Shell.Builtin
