import BTree.Tree.Update
import BTree.Tree.Window
import BTree.Tree.Drain
import BTree.Dot
import BTree.Tree.Equality
import BTree.Json.Text
import BTree.Json.Number
import BTree.Json.Pairs
import BTree.Json.Tree
import BTree.Json.Degree
import BTree.Proofs.Range
import BTree.Proofs.Safety
import BTree.Proofs.Height
import BTree.Proofs.Drain
import BTree.Proofs.Trail
import BTree.Proofs.Subtree
import BTree.Proofs.Extremes
import BTree.Proofs.Bulk
import BTree.Proofs.Digest
import BTree.Proofs.Inverse
import BTree.Proofs.Validity
import BTree.Proofs.Filling
import BTree.Proofs.Nearest
import BTree.Proofs.InPlace
import BTree.Proofs.Rotation
import BTree.Proofs.SinglePass
import BTree.Proofs.Thresholds
import BTree.Proofs.Mirror
import BTree.Proofs.Bisection
import BTree.Proofs.Loading
import BTree.Proofs.DrawingText
