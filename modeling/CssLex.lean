import CssLex.Proofs.Policy
import CssLex.Proofs.RoundTrip
import CssLex.Proofs.Stripping
import CssLex.Proofs.Cuts
import CssLex.Proofs.Agreement
import CssLex.Proofs.Grammar
import CssLex.Proofs.Joining
import CssLex.Proofs.Lookahead
import CssLex.Proofs.Accounting
import CssLex.Proofs.Recorded
import CssLex.Proofs.Progress
import CssLex.Proofs.Encoding
import CssLex.Proofs.Urls
import CssLex.Proofs.Strings
import CssLex.Proofs.Numbers
import CssLex.Proofs.Kinds
import CssLex.Proofs.Integers
import CssLex.Proofs.Layouts
import CssLex.Proofs.Pairs
