import Idl.Failure

/-!
# Reports

A failure is shown as a list of reports: one for every diagnostic of a source, and one for every
other failure.  What failed in an imported file comes first, then the imports that led to it.
-/

namespace Idl

structure Report where
  message : String
  code : Option String
  help : Option String
  hasSource : Bool
  labels : Option (List Label)
  cause : Option String
deriving DecidableEq, Repr

def Diagnostic.report (d : Diagnostic) : Report where
  message := d.message
  code := d.code.map (·.text)
  help := d.help
  hasSource := true
  labels := if d.labels.isEmpty then none else some d.labels
  cause := none

namespace Failure

def code : Failure → Option String
  | io _ _ => some "wctl::io"
  | parse _ _ _ | multiple _ => none
  | imported _ _ _ => some "wctl::import"
  | unsupported _ => some "wctl::unsupported_file"
  | generate _ _ => some "wctl::generate"
  | overwrite _ _ _ => some "wctl::overwrite"
  | unnamedOutput _ => some "wctl::empty_output_name"
  | plugin _ _ => some "wctl::plugin"
  | wire _ => some "wctl::wire"
  | config _ => some "wctl::config"

def help : Failure → Option String
  | unsupported _ => some "schema files end in `.wproto` or `.proto`"
  | overwrite _ _ _ => some "pass --merge-same-file to concatenate outputs sharing a name"
  | _ => none

def cause : Failure → Option String
  | io _ fault => some fault.message
  | wire fault => some fault.message
  | _ => none

def report (failure : Failure) : Report where
  message := failure.message
  code := failure.code
  help := failure.help
  hasSource := false
  labels := none
  cause := failure.cause

/-- The imports that a failure is wrapped in, the last one first. -/
def levels : Failure → List Failure
  | imported file importer cause => imported file importer cause :: cause.levels
  | _ => []

theorem sizeOf_innermost_le : ∀ failure : Failure, sizeOf failure.innermost.1 ≤ sizeOf failure
  | imported file importer cause => by
    have hcause := cause.sizeOf_innermost_le
    simp only [innermost, imported.sizeOf_spec]
    omega
  | io _ _ | parse _ _ _ | unsupported _ | generate _ _ | overwrite _ _ _ | unnamedOutput _
  | plugin _ _ | wire _ | config _ | multiple _ => Nat.le_refl _

/-- The reports of a failure.  Those of the failure that a chain of imports starts with come before
those of the imports. -/
def reports : Failure → List Report
  | parse diagnostics _ _ => diagnostics.map (·.report)
  | imported file importer cause =>
    cause.innermost.1.reports ++ (imported file importer cause).levels.reverse.map (·.report)
  | multiple failures => failures.flatMap (·.reports)
  | failure => [failure.report]
termination_by failure => sizeOf failure
decreasing_by
  · have := cause.sizeOf_innermost_le
    simp only [imported.sizeOf_spec]
    omega
  · decreasing_tactic

end Failure

end Idl
