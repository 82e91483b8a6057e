import Lox.Ast.Text
import Lox.Main
import Lox.Proofs.Chains
import Lox.Proofs.Construction
import Lox.Proofs.Cursor
import Lox.Proofs.Dispatch
import Lox.Proofs.Environments
import Lox.Proofs.ForLoops
import Lox.Proofs.FreshNames
import Lox.Proofs.Language
import Lox.Proofs.Layout
import Lox.Proofs.Leaks
import Lox.Proofs.LineNumbers
import Lox.Proofs.Nesting
import Lox.Proofs.Numerals
import Lox.Proofs.Recording
import Lox.Proofs.Recovery
import Lox.Proofs.Refusal
import Lox.Proofs.Scoping
import Lox.Proofs.Script
import Lox.Proofs.Spacing
import Lox.Proofs.Spots
import Lox.Proofs.Violations
