import Idl.Main
import Idl.Proofs.Analysis.MethodNames
import Idl.Proofs.Analysis.Shadowing
import Idl.Proofs.Analysis.TextOrder
import Idl.Proofs.Analysis.WithoutIds
import Idl.Proofs.Build.Containment
import Idl.Proofs.Command.Reports
import Idl.Proofs.Descriptor.Acyclic
import Idl.Proofs.Files.Cleaning
import Idl.Proofs.Grammar.Attachment
import Idl.Proofs.Grammar.Numbering
import Idl.Proofs.Grammar.Rewriting
import Idl.Proofs.Grammar.Terminators
import Idl.Proofs.Grammar.Trivia
import Idl.Proofs.Source.Lines
import Idl.Proofs.Wire.Plugin
import Idl.Proofs.Workspace.Descriptors
import Idl.Proofs.Workspace.Reanalysis
import Idl.Proofs.Workspace.Trails
