import Scripting.Evaluation.BigStep
import Scripting.Main
import Scripting.Node.Tree
import Scripting.Proofs.Evaluation.Heap
import Scripting.Proofs.Evaluation.Legible
import Scripting.Proofs.Grammar.Printing
import Scripting.Proofs.Evaluation.Contract
import Scripting.Proofs.Evaluation.Names
import Scripting.Proofs.Evaluation.Reach
import Scripting.Proofs.Node.Parts
import Scripting.Proofs.Evaluation.Termination
import Scripting.Proofs.Evaluation.Correspondence
import Scripting.Proofs.Node.Renaming
import Scripting.Proofs.Store.Sides
import Scripting.Proofs.Evaluation.Renaming
import Scripting.Proofs.Evaluation.Course
import Scripting.Proofs.Evaluation.Matching
import Scripting.Proofs.Evaluation.Counting
import Scripting.Proofs.Evaluation.CallDepth
import Scripting.Proofs.Evaluation.Limits
import Scripting.Proofs.Evaluation.Numbers
import Scripting.Proofs.Node.Relocation
import Scripting.Proofs.Grammar.Relocation
import Scripting.Proofs.Evaluation.Layout
import Scripting.Proofs.Token.Spelling
import Scripting.Proofs.Grammar.Joining
import Scripting.Proofs.Evaluation.Joining
import Scripting.Proofs.Evaluation.Location
import Scripting.Proofs.Prompt.Submission
import Scripting.Proofs.Evaluation.Data
import Scripting.Proofs.Evaluation.CountedLoop
import Scripting.Proofs.Evaluation.MethodCall
import Scripting.Proofs.Evaluation.Returns
import Scripting.Proofs.Evaluation.Growth
import Scripting.Proofs.Prompt.Programs
import Scripting.Proofs.CommandLine.Survival
import Scripting.Proofs.Evaluation.Arithmetic
import Scripting.Proofs.Store.Access
import Scripting.Proofs.Store.Scopes
import Scripting.Proofs.Evaluation.Printing
import Scripting.Proofs.Grammar.Halting
import Scripting.Proofs.Prompt.Echo
