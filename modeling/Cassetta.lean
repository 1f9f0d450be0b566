import Cassetta.Auth.Admin
import Cassetta.Auth.KeyAtomicity
import Cassetta.Auth.KeyLifetime
import Cassetta.Auth.KeyWindow
import Cassetta.Claims.Malformed
import Cassetta.Claims.Marks
import Cassetta.Claims.Races
import Cassetta.Claims.Sidecars
import Cassetta.Claims.Undo
import Cassetta.Cli.Fetching
import Cassetta.Cli.Send
import Cassetta.Core.Cabinet
import Cassetta.Core.Json
import Cassetta.Core.PathMap
import Cassetta.Core.Placing
import Cassetta.Guarantee.Agreement
import Cassetta.Guarantee.AllOrNothing
import Cassetta.Guarantee.Authority
import Cassetta.Guarantee.BundlePaths
import Cassetta.Guarantee.ByteStream
import Cassetta.Guarantee.Capacity
import Cassetta.Guarantee.CapsOnDisk
import Cassetta.Guarantee.Chronology
import Cassetta.Guarantee.ClaimSweep
import Cassetta.Guarantee.Cleanup
import Cassetta.Guarantee.CliOut
import Cassetta.Guarantee.Confinement
import Cassetta.Guarantee.Conflicts
import Cassetta.Guarantee.Coverage
import Cassetta.Guarantee.Deadlock
import Cassetta.Guarantee.Deleting
import Cassetta.Guarantee.EndToEnd
import Cassetta.Guarantee.Fanout
import Cassetta.Guarantee.Fetching
import Cassetta.Guarantee.Handing
import Cassetta.Guarantee.InlineExact
import Cassetta.Guarantee.Latest
import Cassetta.Guarantee.ListPick
import Cassetta.Guarantee.Metrics
import Cassetta.Guarantee.ObjectStore
import Cassetta.Guarantee.OneSweeper
import Cassetta.Guarantee.Orphans
import Cassetta.Guarantee.Overwrite
import Cassetta.Guarantee.PickOnce
import Cassetta.Guarantee.PickRace
import Cassetta.Guarantee.PrefixListing
import Cassetta.Guarantee.ReadOnly
import Cassetta.Guarantee.Recipient
import Cassetta.Guarantee.Recovery
import Cassetta.Guarantee.Refetching
import Cassetta.Guarantee.Resend
import Cassetta.Guarantee.SendOut
import Cassetta.Guarantee.Shelf
import Cassetta.Guarantee.SingleUse
import Cassetta.Guarantee.StoreRoundTrip
import Cassetta.Guarantee.TokenBinding
import Cassetta.Guarantee.Transfer
import Cassetta.Guarantee.TwoFactor
import Cassetta.Guarantee.TwoPhase
import Cassetta.Guarantee.Undelivered
import Cassetta.Guarantee.Unreached
import Cassetta.Guarantee.Urls
import Cassetta.Server.Faults
import Cassetta.Server.Staging
import Cassetta.Storage.Acceptance
import Cassetta.Storage.Leases
import Cassetta.Storage.Objects
import Cassetta.Storage.Room
import Cassetta.Storage.Visibility
