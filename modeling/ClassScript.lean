import ClassScript.CommandLine.Folder
import ClassScript.Main
import ClassScript.Object.Lost
import ClassScript.Run.Fuel
import ClassScript.Session
import ClassScript.Workbench
import ClassScript.Proofs.DepthLimit
import ClassScript.Proofs.RoundTrip
import ClassScript.Proofs.TokenLanguage
import ClassScript.Proofs.SharedHandles
import ClassScript.Proofs.Invariant
import ClassScript.Proofs.Calls
import ClassScript.Proofs.Confinement
import ClassScript.Proofs.SinkLimit
import ClassScript.Proofs.ClassMarks
import ClassScript.Proofs.ClassesAtHand
import ClassScript.Proofs.TreeShape
import ClassScript.Proofs.Returns
import ClassScript.Proofs.Reaching
import ClassScript.Proofs.ReturnDiscipline
import ClassScript.Proofs.TextChains
import ClassScript.Proofs.Blame
import ClassScript.Proofs.Places
import ClassScript.Proofs.ProgramsJoined
import ClassScript.Proofs.CallTrace
import ClassScript.Proofs.RingFreeRuns
import ClassScript.Proofs.ClassLifetimes
import ClassScript.Proofs.PrintedIntegers
import ClassScript.Proofs.SelfBinding
import ClassScript.Proofs.Bindings
import ClassScript.Proofs.TokenSpans
import ClassScript.Proofs.FirstError
import ClassScript.Proofs.Indentation
import ClassScript.Proofs.QuietEdits
import ClassScript.Proofs.Arrangement
import ClassScript.Proofs.IndexedStatements
import ClassScript.Proofs.ComparisonLaws
import ClassScript.Proofs.MethodResolution
import ClassScript.Proofs.PrintForms
import ClassScript.Proofs.PathSpans
import ClassScript.Proofs.BooleanAlgebra
