import TreeSema.Main
import TreeSema.Proofs.Again.Stmt
import TreeSema.Proofs.Course.Links
import TreeSema.Proofs.Confined.Program
import TreeSema.Proofs.Course.Legible
import TreeSema.Proofs.Place.Denotes
import TreeSema.Proofs.Table.Leaks
import TreeSema.Proofs.Course.Closed
import TreeSema.Proofs.Coercion.Preorder
import TreeSema.Proofs.Coercion.Termination
import TreeSema.Proofs.Surroundings
import TreeSema.Proofs.Encoding
import TreeSema.Proofs.Limit
import TreeSema.Proofs.Numbering
import TreeSema.Proofs.NamedCall
import TreeSema.Proofs.Pattern
import TreeSema.Proofs.Whole
import TreeSema.Proofs.Extraction
import TreeSema.Proofs.Sorting
import TreeSema.Proofs.Qualify
import TreeSema.Proofs.Interning
import TreeSema.Proofs.Trace.Balance
import TreeSema.Proofs.Coercion.Cycle
import TreeSema.Proofs.Place.Borrow
