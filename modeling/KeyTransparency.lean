import KeyTransparency.Files.Directory
import KeyTransparency.Main
import KeyTransparency.Proofs.Session.Values
import KeyTransparency.Proofs.Search.Uniqueness
import KeyTransparency.Tree.Record
import KeyTransparency.Proofs.Tree.Layout
import KeyTransparency.Proofs.Tree.Storage
import KeyTransparency.Proofs.Tree.Agreement
import KeyTransparency.Proofs.Tree.Prefix
import KeyTransparency.Proofs.Monitor
import KeyTransparency.Proofs.Log.Values
import KeyTransparency.Proofs.Log.Monitoring
import KeyTransparency.Proofs.Search.Path
import KeyTransparency.Proofs.Log.Surfacing
import KeyTransparency.Proofs.Head.Auditor
import KeyTransparency.Proofs.Log.Honest
import KeyTransparency.Proofs.Head.Message
import KeyTransparency.Proofs.Json.Token
import KeyTransparency.Proofs.Files.Interruption
import KeyTransparency.Proofs.Settings
import KeyTransparency.Proofs.Settings.Grammar
import KeyTransparency.Proofs.Head.Name
import KeyTransparency.Proofs.Tree.Shape
import KeyTransparency.Proofs.LeafSet.Agreement
import KeyTransparency.Proofs.Search.Versions
import KeyTransparency.Proofs.Head.Extension
import KeyTransparency.Proofs.Response.Change
import KeyTransparency.Proofs.Response.Rearrangement
import KeyTransparency.Proofs.Words.Response
import KeyTransparency.Proofs.Words.Subtrees
import KeyTransparency.Proofs.Command.Runs
import KeyTransparency.Proofs.Tree.Record
import KeyTransparency.Proofs.Tree.SingleLeaf
import KeyTransparency.Proofs.Wire.Exchange
import KeyTransparency.Proofs.Response.Unreachable
import KeyTransparency.Proofs.Tree.Malformed
import KeyTransparency.Proofs.Tree.Siblings
import KeyTransparency.Proofs.Vrf
import KeyTransparency.Proofs.Hash.Text
import KeyTransparency.Proofs.Tree.Places
import KeyTransparency.Words.Layout
import KeyTransparency.Proofs.Words.Layout
import KeyTransparency.Words.Making
import KeyTransparency.Proofs.Words.Appending
import KeyTransparency.Proofs.Words.Storage
import KeyTransparency.Proofs.Words.Making
import KeyTransparency.Proofs.Words.Freshness
