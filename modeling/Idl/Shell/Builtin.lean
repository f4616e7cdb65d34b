import Idl.Shell.Expand
import Idl.Signal

/-!
# Commands of the session

The commands that a script needs the shell for.  Each is given its arguments and leaves a status.
-/

namespace Idl.Shell

/-- The letters of the options at the start of some arguments, and what follows them. -/
def letters (known : String) : List Chars → Run (List Char × List Chars)
  | ['-', '-'] :: args => return ([], args)
  | ('-' :: c :: cs) :: args => do
    unless (c :: cs).all (isIn known) do Run.fail
    return (← letters known args).map (c :: cs ++ ·) id
  | args => return ([], args)

def natural (text : Chars) : Run Nat :=
  if text.isEmpty || !text.all Text.isDigit then Run.fail else return Text.ofDigits 10 text

def firstNatural (otherwise : Nat) (args : List Chars) : Run Nat :=
  args.head?.elim (return otherwise) natural

/-- The rest of a text in quotes: apostrophes in double quotes, everything else in single ones. -/
def quotedRest (inMarks : Bool) : Chars → Chars
  | [] => if inMarks then ['"'] else ['\'']
  | '\'' :: cs => (if inMarks then [] else ['\'', '"']) ++ '\'' :: quotedRest true cs
  | c :: cs => (if inMarks then ['"', '\''] else []) ++ c :: quotedRest false cs

def definition (name value : Chars) : Chars :=
  name ++ '=' :: '\'' :: quotedRest false value ++ ['\n']

/-! Variables, arguments and options -/

def assignment (text : Chars) : Chars × Option Chars :=
  let name := text.takeWhile (· ≠ '=')
  (name, if name.length = text.length then none else some (text.drop (name.length + 1)))

def listing (before : String) (vars : Assoc Chars Chars) : Chars :=
  (vars.mergeSort fun a b => Chars.le a.1 b.1).flatMap fun (name, value) =>
    before.toList ++ definition name value

/-- Gives variables values and a mark, or lists those with the mark. -/
def mark (command : String) (marked : Session → List Chars) (add : Chars → Session → Session)
    (args : List Chars) : Run Nat := do
  let s ← get
  let (options, names) ← letters "p" args
  if !options.isEmpty || names.isEmpty then
    return ← Run.say 0 (listing (command ++ " ") (s.vars.filter ((marked s).contains ·.1)))
  for text in names do
    let (name, value) := assignment text
    if !isName name then Run.fail
    if let some value := value then Run.assign name value
    modify (add name)
  return 0

def locals (args : List Chars) : Run Nat := do
  for text in args do
    let s ← get
    let (name, value) := assignment text
    let own :: outer := s.saved | Run.fail
    set { s with saved := ((name, s.vars.lookup name) :: own) :: outer }
    if let some value := value then Run.assign name value
  return 0

def unset (args : List Chars) : Run Nat := do
  let (options, names) ← letters "vf" args
  for name in names do
    let s ← get
    if options.contains 'f' then set { s with functions := s.functions.filter (·.1 != name) }
    else if s.constant.contains name || !isName name then Run.fail
    else set { s with
      vars := s.vars.filter (·.1 != name), exported := s.exported.filter (· != name) }
  return 0

def optionNames : List (String × Char) :=
  [("errexit", 'e'), ("noglob", 'f'), ("noexec", 'n'), ("xtrace", 'x'), ("verbose", 'v'),
    ("noclobber", 'C'), ("allexport", 'a'), ("nounset", 'u'), ("stdin", 's')]

def setOption (on : Bool) (letter : Char) : Run Unit := do
  if !optionNames.any (·.2 = letter) then Run.fail
  modify fun s => { s with
    options := s.options.filter (· ≠ letter) ++ (if on then [letter] else []) }

/-- Sets options; gives the arguments that follow them, if there are some or if a mark says so. -/
def setOptions : Nat → List Chars → Run (Option (List Chars))
  | fuel + 1, arg :: args => do
    match arg with
    | ['-', '-'] => return some args
    | [c, 'o'] =>
      if !isIn "-+" c then return some (arg :: args)
      let letter := optionNames.lookup (String.ofList (args.headD []))
      setOption (c = '-') (letter.getD ' ')
      setOptions fuel args.tail
    | c :: own =>
      if !isIn "-+" c then return some (arg :: args)
      own.forM (setOption (c = '-'))
      setOptions fuel args
    | [] => return some (arg :: args)
  | _, _ => return none

def setAll (args : List Chars) : Run Nat := do
  if args.isEmpty then return ← Run.say 0 (listing "" (← get).vars)
  if let some args ← setOptions (args.length + 1) args then
    modify fun s => { s with args, cursor := (1, 0) }
  return 0

def shift (args : List Chars) : Run Nat := do
  let count ← firstNatural 1 args
  let s ← get
  if count > s.args.length then Run.fail
  set { s with args := s.args.drop count, cursor := (1, 0) }
  return 0

/-- The letters of the next option of some arguments, and the number of arguments that were begun;
there are none at the end of the options. -/
def nextLetters (args : List Chars) (cursor : Nat × Nat) : Chars × Nat :=
  let index := if cursor.1 > args.length + 1 then 0 else cursor.1 - 1
  let begun := if cursor.2 = 0 || index = 0 then [] else ((args[index - 1]?).getD []).drop cursor.2
  if !begun.isEmpty then (begun, index)
  else match args[index]? with
    | some ['-', '-'] => ([], index + 1)
    | some ('-' :: c :: cs) => (c :: cs, index + 1)
    | _ => ([], index)

def getopts (args : List Chars) : Run Nat := do
  let options :: name :: others := args | Run.fail
  let s ← get
  let args := if others.isEmpty then s.args else others
  let quiet := options.head? = some ':'
  let finish (letter : Char) (value : Option Chars) (used left : Nat) : Run Nat := do
    Run.restore "OPTARG".toList value
    Run.assign "OPTIND".toList (digits (used + 1))
    Run.assign name [letter]
    let offset := if left = 0 then 0 else ((args[used - 1]?).getD []).length - left
    modify fun s => { s with cursor := (used + 1, offset) }
    return 0
  let bad (letter c : Char) (used left : Nat) : Run Nat :=
    if quiet then finish letter (some [c]) used left else finish '?' none used left
  match nextLetters args s.cursor with
  | ([], used) =>
    discard (finish '?' (s.vars.lookup "OPTARG".toList) used 0)
    return 1
  | (c :: rest, used) =>
    match options.dropWhile (· ≠ c), rest, args[used]? with
    | [], _, _ => bad '?' c used rest.length
    | _ :: ':' :: _, [], none => bad ':' c used 0
    | _ :: ':' :: _, [], some value => finish c (some value) (used + 1) 0
    | _ :: ':' :: _, _, _ => finish c (some rest) used 0
    | _, _, _ => finish c (some []) used rest.length

/-- The line at the start of some input, and how many bytes it takes.  A backslash keeps the next
character, or joins the next line. -/
def inputLine (raw : Bool) : Chars → List (Char × Bool) × Nat
  | [] => ([], 0)
  | '\n' :: _ => ([], 1)
  | '\\' :: c :: cs =>
    if raw then (inputLine raw (c :: cs)).map (('\\', false) :: ·) (· + 1)
    else (inputLine raw cs).map (if c = '\n' then id else ((c, true) :: ·)) (· + 2)
  | c :: cs => (inputLine raw cs).map ((c, false) :: ·) (· + 1)

/-- Gives the fields of a line to variables, the last of which takes all that is left. -/
def giveFields (separators : Chars) (line : List (Char × Bool)) : List Chars → Run Unit
  | [] => return ()
  | name :: names => do
    let separates (c : Char × Bool) : Bool := !c.2 && separators.contains c.1
    let blank (c : Char × Bool) : Bool := separates c && isBlank c.1
    let line := line.dropWhile blank
    let own := line.takeWhile (!separates ·)
    let rest := (line.drop own.length).dropWhile blank
    let rest := if rest.head?.elim false separates then rest.tail.dropWhile blank else rest
    let all := (line.reverse.dropWhile blank).reverse
    Run.assign name ((if names.isEmpty && !rest.isEmpty then all else own).map (·.1))
    giveFields separators rest names

def readInput (args : List Chars) : Run Nat := do
  let (options, names) ← letters "r" args
  if names.isEmpty then Run.fail
  let line := inputLine (options.contains 'r')
  let text := (← Run.read 0 fun text => (line text).2).getD []
  giveFields (← Run.separators) ((line text).1.filter (·.1 ≠ '\x00')) names
  return if text.getLast? = some '\n' then 0 else 1

/-! Directories, jobs and signals -/

def nodeAt? (files : FileTree) (path : Chars) : Option FileNode :=
  (files.find path.toText).toOption.bind files.node?

def hereText (files : FileTree) : Chars := Chars.ofString ("/" ++ "/".intercalate files.here)

def changeDirectory (args : List Chars) : Run Nat := do
  let s ← get
  let some path := args.head? <|> s.vars.lookup "HOME".toList | return 2
  let .ok here := s.files.find path.toText | return 2
  if s.files.node? here ≠ some .directory then return 2
  let files := { s.files with here }
  set { s with files }
  Run.assign "OLDPWD".toList (hereText s.files)
  Run.assign "PWD".toList (hereText files)
  return 0

def umask (args : List Chars) : Run Nat := do
  let text :: _ := args | Run.say 0 (withZeros 4 (Nat.toDigits 8 (← get).mask) ++ ['\n'])
  if !text.all (isIn "01234567") then Run.fail
  modify fun s => { s with mask := Text.ofDigits 8 text % 512 }
  return 0

def makeAliases (args : List Chars) : Run Nat := do
  let mut status := 0
  for text in args do
    let s ← get
    match assignment text, s.aliases.lookup text with
    | (name, some value), _ => set { s with aliases := s.aliases.put name value }
    | (name, none), some value => status := max status (← Run.say 0 (definition name value))
    | _, none => status := 1
  return status

def dropAliases (args : List Chars) : Run Nat := do
  modify fun s => { s with
    aliases := s.aliases.filter fun entry => !args.contains entry.1 && args ≠ [['-', 'a']] }
  return 0

def signal? (text : Chars) : Option Nat :=
  let name := String.ofList (text.map Char.toUpper)
  if !text.isEmpty && text.all Text.isDigit then some (Text.ofDigits 10 text)
  else if name = "EXIT" then some 0
  else (Signal.names.findIdx? (· = name)).map (· + 1)

/-- Sends signals to the script itself, which is all it knows of. -/
def kill (args : List Chars) : Run Nat := do
  let (signal, targets) := match args with
    | ['-', 's'] :: name :: targets | ('-' :: name) :: targets => (signal? name, targets)
    | targets => (some 15, targets)
  let some signal := signal | Run.fail
  let s ← get
  if targets.isEmpty then Run.fail
  unless targets.all (· = digits s.id) do return 1
  -- Some signals do nothing where no care is taken of them, and one cannot be taken care of.
  let isKnown := (s.traps.lookup signal).isSome && signal ≠ 9
  if [0, 17, 18, 19, 20, 21, 22, 23, 28].contains signal || isKnown then
    set { s with signals := s.signals ++ [signal] }
    return 0
  throw (.killed signal)

def trap (args : List Chars) : Run Nat := do
  let s ← get
  let isNumber := args.head?.elim false fun text => !text.isEmpty && text.all Text.isDigit
  let (action, signals) := match args with
    | ['-'] :: signals => (none, signals)
    | action :: signals =>
      if isNumber || signals.isEmpty then (none, args) else (some action, signals)
    | [] => (none, [])
  if args.isEmpty then
    return ← Run.say 0 ((s.traps.mergeSort (·.1 ≤ ·.1)).flatMap fun (signal, action) =>
      "trap -- '".toList ++ quotedRest false action ++
        (" " ++ (Signal.name? signal).getD "EXIT" ++ "\n").toList)
  for text in signals do
    let some signal := signal? text | return 1
    modify fun s =>
      let others := s.traps.filter (·.1 != signal)
      { s with traps := action.elim others fun action => (signal, action) :: others }
  return 0

def wait (args : List Chars) : Run Nat := do
  let mut status := 0
  for text in args do status := ((← get).jobs.lookup (← natural text)).getD 127
  return status

/-! Ends -/

def givenStatus (args : List Chars) : Run Nat := do firstNatural (← get).status args

def leave (stop : Nat → Stop) (args : List Chars) : Run Nat := do
  let count ← firstNatural 1 args
  let loops := (← get).loops
  if count = 0 then Run.fail
  if loops = 0 then return 0 else throw (stop (min count loops))

/-- Commands whose faults end the script, and whose assignments stay. -/
def special? : String → Option (List Chars → Run Nat)
  | ":" => some fun _ => return 0
  | "break" => some (leave .leave)
  | "continue" => some (leave .again)
  | "exit" => some fun args => do throw (.exit (← givenStatus args))
  | "return" => some fun args => do throw (.returned (← givenStatus args))
  | "export" => some (mark "export" (·.exported) fun name s =>
      { s with exported := name :: s.exported })
  | "readonly" => some (mark "readonly" (·.constant) fun name s =>
      { s with constant := name :: s.constant })
  | "set" => some setAll
  | "shift" => some shift
  | "trap" => some trap
  | "unset" => some unset
  | _ => none

def regular? : String → Option (List Chars → Run Nat)
  | "alias" => some makeAliases
  | "cd" => some changeDirectory
  | "getopts" => some getopts
  | "kill" => some kill
  | "local" => some locals
  | "pwd" => some fun _ => do Run.say 0 (hereText (← get).files ++ ['\n'])
  | "read" => some readInput
  | "umask" => some umask
  | "unalias" => some dropAliases
  | "wait" => some wait
  | _ => none

end Idl.Shell
