import ExactLinear.Elimination.Replay
import ExactLinear.Equation.InPlace
import ExactLinear.Equation.Lexemes
import ExactLinear.Main
import ExactLinear.Reachable
import ExactLinear.Observer
import ExactLinear.Run
import ExactLinear.Proofs.Fraction.Exact
import ExactLinear.Proofs.Policy.Order
import ExactLinear.Proofs.Equation.Operations
import ExactLinear.Proofs.Equation.Meaning
import ExactLinear.Proofs.Equation.Tidy
import ExactLinear.Proofs.Equation.Solution
import ExactLinear.Proofs.Elimination.Steps
import ExactLinear.Proofs.Elimination.Invariants
import ExactLinear.Proofs.Bindings
import ExactLinear.Proofs.Elimination.Systems
import ExactLinear.Proofs.Outcome.BackSubstitution
import ExactLinear.Proofs.Outcome.Answers
import ExactLinear.Proofs.Outcome.Solutions
import ExactLinear.Proofs.Outcome.Preservation
import ExactLinear.Proofs.Failures.Arithmetic
import ExactLinear.Proofs.Failures.Solving
import ExactLinear.Proofs.Elimination.Leaders
import ExactLinear.Proofs.Elimination.Reports
import ExactLinear.Proofs.Elimination.Traces
import ExactLinear.Proofs.Elimination.Termination
import ExactLinear.Proofs.Outcome.Policies
import ExactLinear.Proofs.Elimination.Evaluation
import ExactLinear.Proofs.Representation
import ExactLinear.Proofs.Outcome.Repetition
import ExactLinear.Proofs.Outcome.Unknowns
import ExactLinear.Proofs.Reading.Lexemes
import ExactLinear.Proofs.Fraction.Words
import ExactLinear.Proofs.Fraction.Results
import ExactLinear.Proofs.Reading.Sums
import ExactLinear.Proofs.Reading.Sides
import ExactLinear.Proofs.Reading.Equations
import ExactLinear.Proofs.Reading.Completeness
import ExactLinear.Proofs.Reading.Language
import ExactLinear.Proofs.Reading.RoundTrip
import ExactLinear.Proofs.Elimination.Verdicts
import ExactLinear.Proofs.Elimination.RowOperations
import ExactLinear.Proofs.Outcome.Runs
import ExactLinear.Proofs.Fraction.Comparison
import ExactLinear.Proofs.Equation.Simplification
import ExactLinear.Proofs.Equation.Substitution
import ExactLinear.Proofs.Equation.Classification
import ExactLinear.Proofs.Equation.CanonicalForm
import ExactLinear.Proofs.Reading.Isolation
import ExactLinear.Proofs.Policy.Listing
import ExactLinear.Proofs.Equation.Sortedness
import ExactLinear.Proofs.Outcome.Expressions
import ExactLinear.Proofs.Outcome.Determined
import ExactLinear.Proofs.Equation.Order
import ExactLinear.Proofs.Equation.Scaling
import ExactLinear.Proofs.Elimination.Entries
import ExactLinear.Proofs.Elimination.Observers
import ExactLinear.Proofs.Outcome.Replays
import ExactLinear.Proofs.Reading.Errors
import ExactLinear.Token.Cursor
import ExactLinear.Proofs.Reading.Cursors
import ExactLinear.Proofs.CommandLine.Lines
