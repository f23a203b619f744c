import PagedIndex.Config
import PagedIndex.Cursor.Json
import PagedIndex.Cursor.Token
import PagedIndex.Key.Digest
import PagedIndex.Key.Json
import PagedIndex.Range.Json
import PagedIndex.Session
import PagedIndex.Snapshots
import PagedIndex.Store.Lookup
import PagedIndex.Store.Paging
import PagedIndex.Proofs.Text.Base64
import PagedIndex.Proofs.Text.Base64.Canonical
import PagedIndex.Proofs.Cursor.Token
import PagedIndex.Proofs.Cursor.Canonical
import PagedIndex.Proofs.Text.Crc32
import PagedIndex.Proofs.Cursor.Corruption
import PagedIndex.Proofs.Number.Value
import PagedIndex.Proofs.Number.Integers
import PagedIndex.Proofs.Number.Rounding
import PagedIndex.Proofs.Text.Utf8Order
import PagedIndex.Proofs.Key.Order
import PagedIndex.Proofs.Key.Digest
import PagedIndex.Proofs.Json.Numbers
import PagedIndex.Proofs.Key.Scalars
import PagedIndex.Proofs.Bucket.Order
import PagedIndex.Proofs.Bucket.Search
import PagedIndex.Proofs.Table
import PagedIndex.Proofs.Tree.Slots
import PagedIndex.Proofs.Tree.Order
import PagedIndex.Proofs.Tree.Leaves
import PagedIndex.Proofs.Contents.Coherence
import PagedIndex.Proofs.Contents.Runs
import PagedIndex.Proofs.Store.Reachable
import PagedIndex.Proofs.Range.Reach
import PagedIndex.Proofs.Scan.Standing
import PagedIndex.Proofs.Scan.Groups
import PagedIndex.Proofs.Scan.Draining
import PagedIndex.Proofs.Contents.Standings
import PagedIndex.Proofs.Store.Scans
import PagedIndex.Proofs.Store.Selection
import PagedIndex.Proofs.Store.CursorLaw
import PagedIndex.Proofs.Contents.Moments
import PagedIndex.Proofs.Store.PageChain
import PagedIndex.Proofs.Locator.Remembered
import PagedIndex.Proofs.Locator.Archive
import PagedIndex.Proofs.Contents.Retirements
import PagedIndex.Proofs.Store.StaleCursors
import PagedIndex.Proofs.Session.Runs
import PagedIndex.Proofs.Scan.Frozen
import PagedIndex.Proofs.Store.Views
import PagedIndex.Proofs.Session.Isolation
import PagedIndex.Proofs.Scan.Frontier
import PagedIndex.Proofs.Session.InPlace
import PagedIndex.Proofs.Contents.Register
import PagedIndex.Proofs.Contents.Renumbering
import PagedIndex.Proofs.Store.WritePath
import PagedIndex.Proofs.Store.Accounts
import PagedIndex.Proofs.Store.Commuting
import PagedIndex.Proofs.Store.PageShape
import PagedIndex.Proofs.Store.Charges
import PagedIndex.Proofs.Session.Keeping
import PagedIndex.Proofs.Session.CopyAccounting
import PagedIndex.Proofs.Snapshots.Runs
import PagedIndex.Proofs.Snapshots.Sharing
import PagedIndex.Proofs.Range.Interval
import PagedIndex.Proofs.Range.Distinct
import PagedIndex.Proofs.Range.Starts
import PagedIndex.Proofs.Store.Lookups
import PagedIndex.Proofs.Number.Nearest
import PagedIndex.Proofs.Key.Reals
import PagedIndex.Proofs.Json.Strings
import PagedIndex.Proofs.Json.Reading
import PagedIndex.Proofs.Json.Numerals
import PagedIndex.Proofs.Json.Compact
import PagedIndex.Proofs.Log.Line
import PagedIndex.Proofs.Stored
