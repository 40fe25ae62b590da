import AccessPolicy.Engine.Session
import AccessPolicy.Settings.Load
import AccessPolicy.Proofs.Decision.Merge
import AccessPolicy.Proofs.Decision.Unreachable
import AccessPolicy.Proofs.Engine.History
import AccessPolicy.Proofs.Expr.Canonical
import AccessPolicy.Proofs.Parse.Derivation
import AccessPolicy.Proofs.Parse.Operands
import AccessPolicy.Proofs.Parse.Room
import AccessPolicy.Proofs.Parse.Standalone
import AccessPolicy.Proofs.Pattern.Walk
import AccessPolicy.Proofs.Policy.Below
import AccessPolicy.Proofs.Policy.Canonical
import AccessPolicy.Proofs.Policy.Scope
import AccessPolicy.Proofs.Policy.Deepest
import AccessPolicy.Proofs.Store.LoadOrder
import AccessPolicy.Proofs.Text.Denotes
import AccessPolicy.Proofs.Text.Escape
import AccessPolicy.Proofs.Token.Layout
import AccessPolicy.Proofs.Token.Lexes
import AccessPolicy.Proofs.Uid.Notations
import AccessPolicy.Proofs.Uid.Path
import AccessPolicy.Proofs.Value.Canonical
import AccessPolicy.Proofs.Value.Text
import AccessPolicy.Proofs.Json.Accepted
import AccessPolicy.Proofs.Request.Text
import AccessPolicy.Proofs.Parse.Place
import AccessPolicy.Proofs.Cursor.Expr
import AccessPolicy.Proofs.Cursor.Policy
import AccessPolicy.Proofs.Cursor.Returns
import AccessPolicy.Proofs.Cursor.Rereading
import AccessPolicy.Proofs.Policy.Nesting
import AccessPolicy.Proofs.Policy.Identity
import AccessPolicy.Proofs.Token.Tiling
import AccessPolicy.Proofs.Eval.Arithmetic
import AccessPolicy.Proofs.Eval.Blame
import AccessPolicy.Proofs.Eval.Guard
import AccessPolicy.Proofs.Eval.Access
import AccessPolicy.Proofs.Eval.Sets
import AccessPolicy.Proofs.Eval.Canonical
import AccessPolicy.Proofs.Store.Loading
import AccessPolicy.Proofs.Value.TotalOrder
import AccessPolicy.Proofs.Decision.Notes
import AccessPolicy.Proofs.Settings.Layers
import AccessPolicy.Proofs.Settings.Overrides
