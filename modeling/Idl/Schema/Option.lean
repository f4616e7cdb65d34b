import Idl.Source.Span
import Idl.Text.Blank
import Idl.Text.Numeral
import Idl.Text.Quoted

/-!
# Options

An option attaches a key, and perhaps a value, to a declaration.  A `Setting` is an option given
on the command line; it is applied to the options of a whole program.
-/

namespace Idl

/-- The comments of a declaration: the lines above it, and the one that ends its line. -/
structure Doc where
  lines : List String
  tail : Option String
deriving DecidableEq, Repr

namespace Doc

def none : Doc := ⟨[], .none⟩

instance : Inhabited Doc := ⟨none⟩

def isEmpty (d : Doc) : Bool := d.lines.isEmpty && d.tail.isNone

end Doc

/-- The value of an option; `true` and `false` are the integers one and zero. -/
inductive OptionValue
  | int (value : Int64)
  | text (value : String)
deriving DecidableEq, Repr

namespace OptionValue

def shown : OptionValue → String
  | int value => Text.showInt64 value
  | text value => Text.quoted value

def int? : OptionValue → Option Int64
  | int value => some value
  | text _ => none

def text? : OptionValue → Option String
  | int _ => none
  | text value => some value

end OptionValue

structure OptionDecl where
  key : Located String
  value : Option OptionValue
  doc : Doc
deriving DecidableEq, Repr

namespace OptionDecl

def plain (key : Located String) (value : Option OptionValue) : OptionDecl := ⟨key, value, .none⟩

def find? (options : List OptionDecl) (key : String) : Option OptionDecl :=
  List.find? (·.key.value == key) options

end OptionDecl

inductive SettingFault
  | empty
  | missingDot (text : String)
deriving DecidableEq, Repr

def SettingFault.message : SettingFault → String
  | empty => "empty option"
  | missingDot text => "option `" ++ text ++ "` is not valid: the key must contain a '.'"

/-- An option for a whole program, given from outside. -/
structure Setting where
  key : String
  value : Option OptionValue
deriving DecidableEq, Repr

namespace Setting

def splitEquals? (s : String) : Option (String × String) :=
  match s.toList.dropWhile (· != '=') with
  | [] => none
  | _ :: value => some (String.ofList (s.toList.takeWhile (· != '=')), String.ofList value)

/-- Reads `key`, `key=text` or `key=number`.  Blanks around the key and the value do not count,
and a value that is a decimal 64-bit numeral is a number. -/
def ofText (s : String) : Except SettingFault Setting :=
  let s := Text.trim s
  if s.isEmpty then .error .empty
  else
    let setting : Setting :=
      match splitEquals? s with
      | some (key, value) =>
        let value := Text.trim value
        { key := Text.trim key
          value := match Text.decimal? value with
            | some n => some (.int n)
            | none => some (.text value) }
      | none => { key := s, value := none }
    if setting.key.toList.contains '.' then .ok setting else .error (.missingDot s)

def ofTexts (texts : List String) : List Setting := texts.filterMap fun s => (ofText s).toOption

/-- Gives the first option with the same key the value of the setting, or adds an option at the
end, where the source has no place for it. -/
def applyTo (setting : Setting) : List OptionDecl → List OptionDecl
  | [] => [.plain ⟨setting.key, default⟩ setting.value]
  | option :: options =>
    if option.key.value = setting.key then { option with value := setting.value } :: options
    else option :: setting.applyTo options

def applyAll (settings : List Setting) (options : List OptionDecl) : List OptionDecl :=
  settings.foldl (fun options setting => setting.applyTo options) options

end Setting

end Idl
