import Idl.Wire.Descriptor

/-!
# Talking to plugins

A plugin reads one request and answers with one response.
-/

namespace Idl

structure Output where
  file : String
  data : Bytes
deriving DecidableEq, Repr

namespace Output

def write (output : Output) : Bytes :=
  Wire.writeText output.file ++ Wire.writeList (fun byte => [byte]) output.data

def read : Reader Output := return ⟨← .text, ← .list .byte⟩

end Output

/-- The files to generate for, with the descriptors of those files and of all that they import. -/
structure BuildRequest where
  files : List String
  programs : Assoc String FileDesc

namespace BuildRequest

def write (request : BuildRequest) : Bytes :=
  Wire.writeList Wire.writeText request.files ++ Wire.writeTable FileDesc.write request.programs

def read : Reader BuildRequest := return ⟨← .list .text, ← .table FileDesc.read⟩

def decode (bytes : Bytes) : Except WireFault BuildRequest := Reader.decode read bytes

end BuildRequest

structure BuildResponse where
  outputs : List Output
deriving DecidableEq, Repr

namespace BuildResponse

def write (response : BuildResponse) : Bytes := Wire.writeList Output.write response.outputs

def read : Reader BuildResponse := return ⟨← .list Output.read⟩

def decode (bytes : Bytes) : Except WireFault BuildResponse := Reader.decode read bytes

end BuildResponse

end Idl
