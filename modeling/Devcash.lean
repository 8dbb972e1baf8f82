import Devcash.Acceptance
import Devcash.AddressSearch
import Devcash.Admission
import Devcash.Agreement
import Devcash.Announcer
import Devcash.Atomicity
import Devcash.BlockSizes
import Devcash.Canonical
import Devcash.Circuit
import Devcash.Custody
import Devcash.DataSigning
import Devcash.DbRepeater
import Devcash.Decoders
import Devcash.DevcashMessage
import Devcash.Hex
import Devcash.KeyLoading
import Devcash.Ledger
import Devcash.NullProposal
import Devcash.PbAnnouncer
import Devcash.Pbuf
import Devcash.PendingProposal
import Devcash.Release
import Devcash.RepeaterStore
import Devcash.Reverification
import Devcash.RingQueue
import Devcash.Sanity
import Devcash.ShardAgreement
import Devcash.Symmetry
import Devcash.ThreadPool
import Devcash.Topics
