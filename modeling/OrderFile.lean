import OrderFile.Main
import OrderFile.Parse.Call
import OrderFile.Proofs.Parse.Recorded
import OrderFile.Proofs.Parse.Yield
import OrderFile.Proofs.Reading.Cleaned
import OrderFile.Proofs.Reading.Complaints
import OrderFile.Proofs.Reading.Derivation
import OrderFile.Proofs.Reading.Lines
import OrderFile.Proofs.Reading.Modes
import OrderFile.Proofs.Reading.Values
import OrderFile.Proofs.Report.ExitCode
import OrderFile.Proofs.Grammar.Shifted
import OrderFile.Proofs.Order.Shifted
import OrderFile.Proofs.Reading.Joined
import OrderFile.Proofs.Decimal.Digits
import OrderFile.Proofs.Token.Printed
import OrderFile.Proofs.Token.Canonical
import OrderFile.Proofs.Order.Printed
import OrderFile.Proofs.Reading.Printed
import OrderFile.Proofs.Token.Recut
import OrderFile.Proofs.Token.Respaced
import OrderFile.Proofs.Token.Reworded
import OrderFile.Proofs.Parse.Reworded
import OrderFile.Proofs.Grammar.Reworded
import OrderFile.Proofs.Reading.Unknown
import OrderFile.Proofs.Order.Reworded
import OrderFile.Proofs.Reading.Reworded
import OrderFile.Proofs.Token.Caseless
import OrderFile.Proofs.Reading.Caseless
import OrderFile.Proofs.Token.Returns
import OrderFile.Proofs.Reading.Returns
import OrderFile.Proofs.Grammar.Noted
import OrderFile.Proofs.Trace.NearMiss
import OrderFile.Proofs.Reading.Stopped
import OrderFile.Proofs.Reading.NearMiss
import OrderFile.Proofs.Reading.Exact
import OrderFile.Proofs.Grammar.FirstLine
import OrderFile.Proofs.Grammar.Cost
import OrderFile.Proofs.Grammar.Linear
import OrderFile.Proofs.Parse.Missed
import OrderFile.Proofs.Grammar.Missed
import OrderFile.Proofs.Reading.Rejected
import OrderFile.Proofs.Grammar.Orbit
import OrderFile.Proofs.Reading.Blamed
import OrderFile.Proofs.Token.Ordered
import OrderFile.Proofs.Reading.FaultLine
import OrderFile.Proofs.Parse.Undone
import OrderFile.Proofs.Parse.Farthest
import OrderFile.Proofs.Parse.Logged
import OrderFile.Proofs.Trace.Placed
import OrderFile.Proofs.Grammar.Dispatch
import OrderFile.Proofs.Parse.Unread
import OrderFile.Proofs.Reading.Unread
import OrderFile.Proofs.Order.Outcome
import OrderFile.Proofs.Order.Leftover
import OrderFile.Proofs.Token.Lossless
import OrderFile.Proofs.Token.Independent
import OrderFile.Proofs.Token.Counted
import OrderFile.Proofs.Token.Literal
import OrderFile.Proofs.Vocabulary.Categories
import OrderFile.Proofs.Reading.Filtered
import OrderFile.Proofs.Token.Kept
import OrderFile.Proofs.Trace.Address
import OrderFile.Proofs.Trace.Candidate
import OrderFile.Proofs.Token.Plain
import OrderFile.Proofs.Token.Relexed
import OrderFile.Proofs.Trace.Elided
import OrderFile.Proofs.Text.OneLine
import OrderFile.Proofs.Order.OneLine
import OrderFile.Proofs.Trace.OneLine
import OrderFile.Proofs.Grammar.Invariant
import OrderFile.Proofs.Parse.OneLine
import OrderFile.Proofs.Report.Lines
