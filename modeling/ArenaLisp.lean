import ArenaLisp.Audit
import ArenaLisp.Main
import ArenaLisp.Proofs.Graph
import ArenaLisp.Proofs.Linked
import ArenaLisp.Proofs.Editing
import ArenaLisp.Proofs.Growth
import ArenaLisp.Proofs.Making
import ArenaLisp.Proofs.Covering
import ArenaLisp.Proofs.Entering
import ArenaLisp.Proofs.Sound
import ArenaLisp.Proofs.Steps
import ArenaLisp.Proofs.Accounts
import ArenaLisp.Proofs.Mirror
import ArenaLisp.Proofs.Operations
import ArenaLisp.Proofs.Program
import ArenaLisp.Proofs.Evaluation
import ArenaLisp.Proofs.Release
import ArenaLisp.Proofs.Reading
import ArenaLisp.Proofs.Session
import ArenaLisp.Proofs.Unobserved
import ArenaLisp.Proofs.Constancy
import ArenaLisp.Proofs.Nested
import ArenaLisp.Proofs.Frame
import ArenaLisp.Proofs.Reference
import ArenaLisp.Proofs.Unfold
import ArenaLisp.Proofs.Faithful
import ArenaLisp.Proofs.Agreement
import ArenaLisp.Proofs.Simulation
import ArenaLisp.Proofs.ValueSemantics
import ArenaLisp.Proofs.Code
import ArenaLisp.Proofs.Orderly
import ArenaLisp.Proofs.Accounting
import ArenaLisp.Proofs.Resting
import ArenaLisp.Proofs.Application
import ArenaLisp.Proofs.Course
import ArenaLisp.Proofs.Resolution
import ArenaLisp.Proofs.Currying
import ArenaLisp.Proofs.Faultless
import ArenaLisp.Proofs.Paths
import ArenaLisp.Proofs.Acyclic
import ArenaLisp.Proofs.Walks
import ArenaLisp.Proofs.Duplication
import ArenaLisp.Proofs.Ownership
import ArenaLisp.Proofs.Escaping
import ArenaLisp.Proofs.Encoding
import ArenaLisp.Proofs.Numerals
import ArenaLisp.Proofs.Lexing
import ArenaLisp.Proofs.Items
import ArenaLisp.Proofs.Rounding
import ArenaLisp.Proofs.Bits
import ArenaLisp.Proofs.Grammar
import ArenaLisp.Proofs.Cutting
import ArenaLisp.Proofs.Gathering
import ArenaLisp.Proofs.Waiting
import ArenaLisp.Proofs.Joining
import ArenaLisp.Proofs.NumberText
import ArenaLisp.Proofs.RoundTrip
import ArenaLisp.Proofs.Capturing
import ArenaLisp.Proofs.Finiteness
import ArenaLisp.Proofs.Naming
import ArenaLisp.Proofs.Origin
import ArenaLisp.Proofs.RootEnvironment
import ArenaLisp.Proofs.Trails
import ArenaLisp.Proofs.Sweeping
import ArenaLisp.Proofs.Showing
import ArenaLisp.Proofs.Assigning
import ArenaLisp.Proofs.Phrases
import ArenaLisp.Proofs.Stopping
import ArenaLisp.Proofs.Layout
import ArenaLisp.Proofs.Division
import ArenaLisp.Proofs.Clauses
import ArenaLisp.Proofs.Equality
import ArenaLisp.Proofs.Places
import ArenaLisp.Proofs.Splicing
import ArenaLisp.Proofs.Environments
