import GlyphScript.CommandLine
import GlyphScript.Console.Session
import GlyphScript.Lambda.Eval
import GlyphScript.Machine.Step
import GlyphScript.Main
import GlyphScript.Node.Json
import GlyphScript.Program.Compile
import GlyphScript.Program.Json
import GlyphScript.Proofs.Machine.Contents
import GlyphScript.Proofs.Machine.Logs
import GlyphScript.Proofs.Machine.Progress
import GlyphScript.Proofs.Machine.Transitions
import GlyphScript.Proofs.Machine.Walks
import GlyphScript.Proofs.Program.Naming
import GlyphScript.Proofs.Program.Reloading
import GlyphScript.Script.Forest
import GlyphScript.Scripts
import GlyphScript.Proofs.Console.Sessions
import GlyphScript.Proofs.Machine.Detours
import GlyphScript.Proofs.Machine.Gathering
import GlyphScript.Proofs.Program.Paths
import GlyphScript.Proofs.Program.Flow
import GlyphScript.Proofs.Machine.Rounds
import GlyphScript.Proofs.Program.Refusals
import GlyphScript.Proofs.Program.Linking
import GlyphScript.Proofs.Program.FirstUse
import GlyphScript.Proofs.Machine.Merging
import GlyphScript.Proofs.Machine.Leaving
import GlyphScript.Proofs.Machine.Tagging
import GlyphScript.Proofs.Machine.Succession
import GlyphScript.Proofs.Peg.Outcomes
import GlyphScript.Proofs.Script.Rules
import GlyphScript.Proofs.Script.Embedding
import GlyphScript.Proofs.Script.Survival
import GlyphScript.Proofs.Lambda.Balance
import GlyphScript.Proofs.Lambda.Strata
import GlyphScript.Proofs.Lambda.Precedence
import GlyphScript.Proofs.Lambda.Reading
import GlyphScript.Proofs.Script.Literals
import GlyphScript.Proofs.Script.Shape
import GlyphScript.Proofs.Machine.Bounds
import GlyphScript.Proofs.Machine.Budgets
import GlyphScript.Proofs.Machine.Lookup
import GlyphScript.Proofs.Console.Aliases
import GlyphScript.Proofs.Console.Buffering
import GlyphScript.Proofs.Program.Interning
