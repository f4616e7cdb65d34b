import Idl.Toml.Scanner
import Idl.Workspace

/-!
# Configuration

What a run is to do, read from a configuration document.  Every entry can be left out.
-/

namespace Idl

structure GenerateConfig where
  suffix : String
  useMethodId : Bool
  mergeSameFile : Bool
  options : List String
  generators : List String
  plugins : List String
deriving DecidableEq, Repr

namespace GenerateConfig

def default : GenerateConfig := ⟨Workspace.nativeSuffix, false, false, [], [], []⟩

def entryNames : List String :=
  ["suffix", "use_method_id", "merge_same_file", "options", "lang", "plugins"]

def readText : Toml → Option String
  | .text s => some s
  | _ => none

def readBool : Toml → Option Bool
  | .bool b => some b
  | _ => none

def readTexts : Toml → Option (List String)
  | .list items => items.mapM readText
  | _ => none

def entry {α : Type} (read : Toml → Option α) (fallback : α) : Option Toml → Option α
  | none => some fallback
  | some toml => read toml

def ofEntries (get? : String → Option Toml) : Option GenerateConfig := do
  return {
    suffix := ← entry readText default.suffix (get? "suffix")
    useMethodId := ← entry readBool default.useMethodId (get? "use_method_id")
    mergeSameFile := ← entry readBool default.mergeSameFile (get? "merge_same_file")
    options := ← entry readTexts default.options (get? "options")
    generators := ← entry readTexts default.generators (get? "lang")
    plugins := ← entry readTexts default.plugins (get? "plugins") }

def othersReadable (names : List String) (entries : List (String × Toml)) : Bool :=
  entries.all fun (name, value) => names.contains name || value.isReadable

/-- Reads a table by the names of its entries, and a list by their order.  A date is a table whose
entries have no meaning here. -/
def ofToml : Toml → Option GenerateConfig
  | .table entries =>
    if othersReadable entryNames entries then ofEntries (entries.lookup ·) else none
  | .list items => ofEntries ((entryNames.zip items).lookup ·)
  | .moment => some default
  | _ => none

def ofDocument (source : String) : Option GenerateConfig := do
  match ← Toml.parse? source with
  | .table entries =>
    if !othersReadable ["generate"] entries then none
    else match entries.lookup "generate" with
      | none => some default
      | some toml => ofToml toml
  | _ => none

end GenerateConfig

end Idl
