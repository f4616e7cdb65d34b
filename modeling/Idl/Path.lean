/-!
# Paths

A path is a text whose parts are divided by slashes.  Empty parts say nothing, and neither does a
dot, except in front.  Cleaning a path removes dots and resolves double dots without a look at any
directory.
-/

namespace Idl.Path

inductive Component
  | root
  | current
  | parent
  | normal (name : String)
deriving DecidableEq, Repr

def parts (path : String) : List String :=
  (path.toList.splitOnP (· == '/')).map String.ofList

def isAbsolute (path : String) : Bool := path.toList.head? == some '/'

/-- The component that a part stands for where a dot says nothing. -/
def component? (part : String) : Option Component :=
  if part = "" || part = "." then none
  else if part = ".." then some .parent
  else some (.normal part)

def components (path : String) : List Component :=
  let first : List Component :=
    if isAbsolute path then [.root]
    else if (parts path).head? = some "." then [.current]
    else []
  first ++ (parts path).filterMap component?

/-- The path of a file below a directory; an absolute path stays as it is. -/
def join (base path : String) : String :=
  if isAbsolute path then path
  else if base.isEmpty || base.toList.getLast? = some '/' then base ++ path
  else base ++ "/" ++ path

def dropSilent : List String → List String := List.dropWhile fun part => part = "" || part = "."

def stripParts? : List Component → List String → Option (List String)
  | [], parts => some (dropSilent parts)
  | component :: components, parts =>
    match dropSilent parts with
    | [] => none
    | part :: parts =>
      if component? part = some component then stripParts? components parts else none

def stripBase? (base path : String) : Option String :=
  match components base, components path with
  | [], _ => some path
  | .root :: components, .root :: _ =>
    (stripParts? components (parts path)).map ("/".intercalate ·)
  | .current :: components, .current :: _ =>
    (stripParts? components (parts path)).map ("/".intercalate ·)
  | components, _ =>
    if isAbsolute path || (parts path).head? = some "." then none
    else (stripParts? components (parts path)).map ("/".intercalate ·)

def lastName (path : String) : String := ((parts path).reverse.find? (· != "")).getD ""

def render : List Component → String
  | [] => ""
  | .root :: components => "/" ++ "/".intercalate (components.map name)
  | components => "/".intercalate (components.map name)
where
  name : Component → String
    | .root => ""
    | .current => "."
    | .parent => ".."
    | .normal name => name

def cleanStep : List Component → Component → List Component
  | cleaned, .current => cleaned
  | .normal _ :: cleaned, .parent => cleaned
  | .root :: cleaned, .parent => .root :: cleaned
  | cleaned, component => component :: cleaned

/-- Removes dots, and double dots together with what they cancel.  A double dot at the start of a
relative path stays. -/
def clean (components : List Component) : List Component :=
  (components.foldl cleanStep []).reverse

/-- The parts before and behind the last dot of a file name; a dot in front does not count. -/
def splitName (name : String) : String × Option String :=
  match name.toList.reverse.dropWhile (· != '.') with
  | [] | [_] => (name, none)
  | _ :: before =>
    (String.ofList before.reverse,
      some (String.ofList (name.toList.drop (before.length + 1))))

def significantParts (path : String) : List String :=
  (parts path).reverse.dropWhile fun part => part = "" || part = "."

def extension? (path : String) : Option String :=
  match significantParts path with
  | [] => none
  | name :: _ => if name = ".." then none else (splitName name).2

def addExtension (extension path : String) : String :=
  match significantParts path with
  | [] => path
  | name :: before =>
    if name = ".." then path
    else "/".intercalate ((splitName name).1 :: before).reverse ++ "." ++ extension

/-- Changes the extension of the file that a path names.  The length of the old extension is cut
off the text first, and what is left may name no file any more. -/
def withExtension (extension path : String) : String :=
  let old := ((extension? path).getD "").length
  addExtension extension (String.ofList (path.toList.take (path.length - old)))

end Idl.Path
