import Idl.Descriptor.Describe
import Idl.Descriptor.Json
import Idl.Descriptor.Proto
import Idl.Failure
import Idl.Wire.Plugin

/-!
# Generators

A generator makes output files from one analysed program.  It is known by a name, by which it is
chosen and by which a clash of outputs is reported.
-/

namespace Idl

structure Generator where
  name : String
  reads : Arena → ProgramId → List ProgramId
  /-- What the generator makes of a program.  It finds the files as they are, and may change
  them. -/
  generate : FileTree → Arena → ProgramId → Program → FileTree × Except Failure (List Output)

namespace Generator

def ofDescriptor (name : String) (fileName : String → String) (render : FileDesc → String) :
    Generator where
  name := name
  reads := fun _ id => [id]
  generate := fun files arena _ program =>
    (files, .ok [⟨fileName program.file, Text.encodeUtf8 (render (program.fileDesc arena))⟩])

def printer : Generator :=
  ofDescriptor "printer" (· ++ ".json") fun desc => desc.toJson.pretty 0

def toProto : Generator := ofDescriptor "toproto" Proto.fileName Proto.render

def builtIn : List Generator := [printer, toProto]

end Generator

abbrev Registry := Assoc String Generator

/-- Adds a generator, in the place of one of the same name; tells whether there was one. -/
def Registry.register (registry : Registry) (generator : Generator) : Registry × Bool :=
  (registry.put generator.name generator, (registry.lookup generator.name).isSome)

end Idl
