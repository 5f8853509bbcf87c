import PropertyTesting.Derive.Print
import PropertyTesting.Proofs.Derive.Wiring
import PropertyTesting.Proofs.Generate.Commute
import PropertyTesting.Proofs.Generate.Enumeration
import PropertyTesting.Proofs.Generate.Filter
import PropertyTesting.Proofs.Generate.Fork
import PropertyTesting.Proofs.Generate.Join
import PropertyTesting.Proofs.Generate.Parts
import PropertyTesting.Proofs.Generate.Prospect
import PropertyTesting.Proofs.Generate.Recipe
import PropertyTesting.Proofs.Generate.Shrinks
import PropertyTesting.Proofs.Generate.Stream
import PropertyTesting.Proofs.Generate.Within
import PropertyTesting.Proofs.Minimize.Boundary
import PropertyTesting.Proofs.Minimize.Consult
import PropertyTesting.Proofs.Minimize.Extension
import PropertyTesting.Proofs.Minimize.Limit
import PropertyTesting.Proofs.Minimize.List
import PropertyTesting.Proofs.Minimize.Record
import PropertyTesting.Proofs.Minimize.Search
import PropertyTesting.Proofs.Minimize.Soundness
import PropertyTesting.Proofs.Minimize.Turns
import PropertyTesting.Proofs.Random.Bytes
import PropertyTesting.Proofs.Random.Period
import PropertyTesting.Proofs.Random.Retry
import PropertyTesting.Proofs.Run.Broken
import PropertyTesting.Proofs.Run.Coherence
import PropertyTesting.Proofs.Run.Enumeration
import PropertyTesting.Proofs.Run.FirstFailure
import PropertyTesting.Proofs.Run.Tally
import PropertyTesting.Proofs.Shrink.Convergence
import PropertyTesting.Proofs.Shrink.Cut
import PropertyTesting.Proofs.Shrink.Halving
import PropertyTesting.Proofs.Shrink.Sieve
import PropertyTesting.Proofs.Tree.Descent
import PropertyTesting.Proofs.Tree.Drawing
import PropertyTesting.Proofs.Tree.Filter
import PropertyTesting.Proofs.Tree.Levels
import PropertyTesting.Proofs.Tree.Lists
import PropertyTesting.Proofs.Tree.Products
import PropertyTesting.Script.Catalogue
import PropertyTesting.Script.Session
