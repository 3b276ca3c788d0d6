import RegularSets.Automaton.WellFormed
import RegularSets.Automaton.Document
import RegularSets.Grammar.Reader
import RegularSets.Journal
import RegularSets.Proofs.SparseSet
import RegularSets.Proofs.Words
import RegularSets.Proofs.Partition
import RegularSets.Proofs.Partition.Blocks
import RegularSets.Proofs.Refinement.Valid
import RegularSets.Proofs.Refinement.Coarsest
import RegularSets.Proofs.Refinement.Moments
import RegularSets.Proofs.Automaton.Row
import RegularSets.Proofs.Queue
import RegularSets.Proofs.Automaton.Run
import RegularSets.Proofs.Automaton.StepByStep
import RegularSets.Proofs.Automaton.AccessOrder
import RegularSets.Proofs.Automaton.Reach
import RegularSets.Proofs.Automaton.Rename
import RegularSets.Proofs.Automaton.Merging
import RegularSets.Proofs.Automaton.Determinize
import RegularSets.Proofs.Automaton.Rounds
import RegularSets.Proofs.Automaton.Edit
import RegularSets.Proofs.Automaton.Complete
import RegularSets.Proofs.Automaton.Change
import RegularSets.Proofs.Automaton.Distance
import RegularSets.Proofs.Automaton.Neutral
import RegularSets.Proofs.Automaton.Useless
import RegularSets.Proofs.Automaton.Removal
import RegularSets.Proofs.Automaton.FixedPoint
import RegularSets.Proofs.Automaton.Minimize
import RegularSets.Proofs.Automaton.Minimal
import RegularSets.Proofs.Automaton.Completed
import RegularSets.Proofs.Automaton.Product
import RegularSets.Proofs.Automaton.Complement
import RegularSets.Proofs.Automaton.Decide
import RegularSets.Proofs.Automaton.Size
import RegularSets.Proofs.Automaton.Obtainable
import RegularSets.Proofs.Expression.Check
import RegularSets.Proofs.Expression.Draft
import RegularSets.Proofs.Expression.Layout
import RegularSets.Proofs.Expression.Growth
import RegularSets.Proofs.Expression.Arena
import RegularSets.Proofs.Expression.Linking
import RegularSets.Proofs.Expression.Readback
import RegularSets.Proofs.Expression.Normalize
import RegularSets.Proofs.Expression.Reading
import RegularSets.Proofs.Expression.NormalForm
import RegularSets.Proofs.Expression.Marks
import RegularSets.Proofs.Expression.Places
import RegularSets.Proofs.Automaton.Builder
import RegularSets.Proofs.Automaton.Facts
import RegularSets.Proofs.Expression.Walk
import RegularSets.Proofs.Expression.Automaton
import RegularSets.Proofs.Grammar.Automaton
import RegularSets.Proofs.Automaton.Grammar
import RegularSets.Proofs.Grammar.RoundTrip
import RegularSets.Proofs.Grammar.FixedPoint
import RegularSets.Proofs.Grammar.Reading
import RegularSets.Proofs.Expression.Grammar
import RegularSets.Proofs.Expression.Follow
import RegularSets.Proofs.Expression.Threads
import RegularSets.Proofs.Expression.AccessOrder
