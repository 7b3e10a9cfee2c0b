import ShieldedPool.Config.Storage
import ShieldedPool.Felt.Bytewise
import ShieldedPool.InPlace
import ShieldedPool.LedgerAccount
import ShieldedPool.Main
import ShieldedPool.Merkle.InclusionDocument
import ShieldedPool.Merkle.Padded
import ShieldedPool.Merkle.View
import ShieldedPool.Redacted
import ShieldedPool.Spend.Preparation
import ShieldedPool.Proofs.Merkle.ArchiveTree
import ShieldedPool.Proofs.Merkle.ArchiveRefinement
import ShieldedPool.Proofs.Merkle.AccumulatorAgreement
import ShieldedPool.Proofs.Doubling
import ShieldedPool.Proofs.Residue.Ring
import ShieldedPool.Proofs.Felt.SquareRoot
import ShieldedPool.Proofs.Merkle.PathBinding
import ShieldedPool.Proofs.Point.Compression
import ShieldedPool.Proofs.Point.Group
import ShieldedPool.Proofs.Point.Multiples
import ShieldedPool.Proofs.HashInputs
import ShieldedPool.Proofs.Results
import ShieldedPool.Proofs.Spend.OneMark
import ShieldedPool.Proofs.Stealth.Agreement
import ShieldedPool.Proofs.Merkle.Trail
import ShieldedPool.Proofs.Merkle.FollowerFuture
import ShieldedPool.Proofs.Merkle.InclusionBinding
import ShieldedPool.Proofs.Merkle.FollowerRun
import ShieldedPool.Proofs.Merkle.Reimport
import ShieldedPool.Proofs.Merkle.SnapshotAuthority
import ShieldedPool.Proofs.Spend.WitnessBinding
import ShieldedPool.Proofs.Stealth.Ownership
import ShieldedPool.Proofs.Spend.KeyOpening
import ShieldedPool.Proofs.Merkle.RecentRoots
import ShieldedPool.Proofs.Merkle.CurrentRoot
import ShieldedPool.Proofs.Ledger.AccountCodec
import ShieldedPool.Proofs.Ledger.Sync
import ShieldedPool.Proofs.Merkle.LatestProof
import ShieldedPool.Proofs.Note.SecretsCodec
import ShieldedPool.Proofs.Spend.Lifecycle
import ShieldedPool.Proofs.Spend.PaymentSpend
import ShieldedPool.Proofs.Stealth.Scanning
import ShieldedPool.Proofs.Stealth.Publication
import ShieldedPool.Proofs.Spend.RegistryHistory
import ShieldedPool.Proofs.Merkle.RootCommitment
import ShieldedPool.Proofs.Merkle.SnapshotCount
import ShieldedPool.Proofs.Stealth.PositionBinding
import ShieldedPool.Proofs.InPlace.Client
import ShieldedPool.Proofs.Merkle.RootSequence
import ShieldedPool.Proofs.Spend.Assembly
import ShieldedPool.Proofs.Stealth.Passes
import ShieldedPool.Proofs.Point.CompressedForms
import ShieldedPool.Proofs.Base58
import ShieldedPool.Proofs.MetaAddressForms
import ShieldedPool.Proofs.Note.SecretsForms
import ShieldedPool.Proofs.Note.Restoration
import ShieldedPool.Proofs.Stealth.RecordForms
import ShieldedPool.Proofs.Ledger.AccountForms
import ShieldedPool.Proofs.Json.Restoration
import ShieldedPool.Proofs.KeySets
import ShieldedPool.Proofs.Residue.StrictReading
