import TwinLog.Medium.Faulty
import TwinLog.Medium.Simulated
import TwinLog.Nor.Memory
import TwinLog.Nor.Words
import TwinLog.Session
import TwinLog.Proofs.Interruption
import TwinLog.Proofs.LawfulMedium
import TwinLog.Proofs.Contents
import TwinLog.Proofs.Observing
import TwinLog.Proofs.Achieves
import TwinLog.Proofs.InfoWords
import TwinLog.Proofs.BlockCodec
import TwinLog.Proofs.Checksums
import TwinLog.Proofs.Records
import TwinLog.Proofs.Tape
import TwinLog.Proofs.TapeChanges
import TwinLog.Proofs.Scanning
import TwinLog.Proofs.Pruning
import TwinLog.Proofs.LatestChain
import TwinLog.Proofs.LiveBlocks
import TwinLog.Proofs.Reading
import TwinLog.Proofs.Corruption
import TwinLog.Proofs.Appending
import TwinLog.Proofs.Compaction
import TwinLog.Proofs.Rotation
import TwinLog.Proofs.Access
import TwinLog.Proofs.Saving
import TwinLog.Proofs.Serving
import TwinLog.Proofs.MapRefinement
import TwinLog.Proofs.Scars
import TwinLog.Proofs.PowerCut
import TwinLog.Proofs.SingleFault
import TwinLog.Proofs.FailedRotation
import TwinLog.Proofs.FailedSave
import TwinLog.Proofs.LawfulNor
import TwinLog.Proofs.FaithfulCompaction
import TwinLog.Proofs.OneDirectional
import TwinLog.Proofs.ReadYourWrites
import TwinLog.Proofs.FailedRequest
import TwinLog.Proofs.LocalMedium
import TwinLog.Proofs.Trace
import TwinLog.Proofs.Treading
import TwinLog.Proofs.Footprint
import TwinLog.Proofs.Remounting
import TwinLog.Proofs.SteadyReaders
import TwinLog.Proofs.CompactionFixpoint
import TwinLog.Proofs.UniqueNames
import TwinLog.Proofs.Capacity
import TwinLog.Proofs.ChainRoundTrip
import TwinLog.Proofs.CompactionRoom
import TwinLog.Proofs.Ledger
import TwinLog.Proofs.MirroredMedium
import TwinLog.Proofs.InterchangeableMedia
import TwinLog.Proofs.Addresses
import TwinLog.Proofs.WireRoundTrip
import TwinLog.Proofs.KeyOrder
import TwinLog.Proofs.TypedValues
import TwinLog.Proofs.Backing
import TwinLog.Proofs.Tally
import TwinLog.Proofs.InterruptedSaves
import TwinLog.Proofs.BareEntries
import TwinLog.Proofs.IdsInUse
import TwinLog.Proofs.RemovalAgrees
import TwinLog.Proofs.ChainCapacity
import TwinLog.Proofs.ChainChecksum
import TwinLog.Proofs.EntryLookup
import TwinLog.Proofs.DriverFailures
