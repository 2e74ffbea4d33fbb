import ExprTree.Eval.Basic
import ExprTree.Library.Standard
import ExprTree.State.Store
import ExprTree.State.Session
import ExprTree.Tree.Copy
import ExprTree.Tree.Measure
import ExprTree.Tree.Text
import ExprTree.Tree.Typing
import ExprTree.Proofs.Place
import ExprTree.Proofs.Request
import ExprTree.Proofs.PlanTyping
import ExprTree.Proofs.Soundness
import ExprTree.Proofs.Independence
import ExprTree.Proofs.Completion
import ExprTree.Proofs.Eager
import ExprTree.Proofs.Failure
import ExprTree.Proofs.Interrupt
import ExprTree.Proofs.Registry
import ExprTree.Proofs.Candidates
import ExprTree.Proofs.Construction
import ExprTree.Proofs.Replacement
import ExprTree.Proofs.Copies
import ExprTree.Proofs.History
import ExprTree.Proofs.Memory
import ExprTree.Proofs.Visits
import ExprTree.Proofs.Faults
import ExprTree.Proofs.Modular
import ExprTree.Proofs.ReadBack
import ExprTree.Proofs.Spelling
import ExprTree.Proofs.Literals
import ExprTree.Proofs.Reading
import ExprTree.Proofs.Stocking
import ExprTree.Proofs.Decomposition
import ExprTree.Proofs.Nearest
import ExprTree.Proofs.FloatOrder
import ExprTree.Proofs.Comparisons
import ExprTree.Proofs.Editing
import ExprTree.Proofs.Widest
import ExprTree.Proofs.Promotion
import ExprTree.Proofs.Extremes
import ExprTree.Proofs.Zero
import ExprTree.Proofs.Division
import ExprTree.Proofs.Sizes
import ExprTree.Proofs.Outline
import ExprTree.Proofs.Families
