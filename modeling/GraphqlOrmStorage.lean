import GraphqlOrmStorage.Text
import GraphqlOrmStorage.Program
import GraphqlOrmStorage.ProgramSum
import GraphqlOrmStorage.ProgramPair
import GraphqlOrmStorage.Paging
import GraphqlOrmStorage.FileTree
import GraphqlOrmStorage.Sha256
import GraphqlOrmStorage.Types
import GraphqlOrmStorage.Key
import GraphqlOrmStorage.Local
import GraphqlOrmStorage.LocalBlob
import GraphqlOrmStorage.LocalListing
import GraphqlOrmStorage.Service
import GraphqlOrmStorage.LocalHousekeeping
import GraphqlOrmStorage.S3
import GraphqlOrmStorage.LocalObject
import GraphqlOrmStorage.LocalObjectSpec
import GraphqlOrmStorage.LocalObjectCells
import GraphqlOrmStorage.LocalObjectListing
import GraphqlOrmStorage.LocalObjectRaces
import GraphqlOrmStorage.LocalBlobRaces
import GraphqlOrmStorage.LocalReadRaces
import GraphqlOrmStorage.LocalMixedRuns
import GraphqlOrmStorage.LocalObjectFaults
import GraphqlOrmStorage.LocalHiddenUploads
import GraphqlOrmStorage.Smb
import GraphqlOrmStorage.SmbLimiter
import GraphqlOrmStorage.SmbServer
import GraphqlOrmStorage.SmbStages
import GraphqlOrmStorage.SmbHolds
import GraphqlOrmStorage.SmbRequests
import GraphqlOrmStorage.SmbRaces
import GraphqlOrmStorage.SmbConditional
import GraphqlOrmStorage.SmbFaults
import GraphqlOrmStorage.SmbUpload
import GraphqlOrmStorage.SmbWholeWrites
import GraphqlOrmStorage.S3Blob
import GraphqlOrmStorage.S3Upload
import GraphqlOrmStorage.SmbRange
import GraphqlOrmStorage.Ranges
import GraphqlOrmStorage.SmbTransfer
import GraphqlOrmStorage.SizeHints
import GraphqlOrmStorage.MissingKeys
import GraphqlOrmStorage.SmbListing
import GraphqlOrmStorage.SmbDrain
import GraphqlOrmStorage.PrefixListing
import GraphqlOrmStorage.RangedStream
import GraphqlOrmStorage.S3Parts
import GraphqlOrmStorage.S3Classification
import GraphqlOrmStorage.S3Copy
import GraphqlOrmStorage.LocalExistence
import GraphqlOrmStorage.LocalHistory
import GraphqlOrmStorage.KeyPaths
import GraphqlOrmStorage.SmbTempNames
import GraphqlOrmStorage.SmbProbe
import GraphqlOrmStorage.SmbProbeShare
import GraphqlOrmStorage.LocalPageSizes
import GraphqlOrmStorage.LocalWalk
import GraphqlOrmStorage.ObjectRanges
import GraphqlOrmStorage.S3PartLimit
import GraphqlOrmStorage.DefaultConditional
import GraphqlOrmStorage.Linearization
import GraphqlOrmStorage.AtomicMap
import GraphqlOrmStorage.S3Bucket
import GraphqlOrmStorage.S3Interleaving
import GraphqlOrmStorage.S3Linearization
import GraphqlOrmStorage.S3Isolation
import GraphqlOrmStorage.LocalInterleaving
import GraphqlOrmStorage.LocalLinearization
import GraphqlOrmStorage.Triples
import GraphqlOrmStorage.StoreContract
import GraphqlOrmStorage.S3Contract
import GraphqlOrmStorage.LocalContract
import GraphqlOrmStorage.SmbPrompt
import GraphqlOrmStorage.SmbContract
import GraphqlOrmStorage.ProviderAgreement
import GraphqlOrmStorage.ServiceContract
import GraphqlOrmStorage.Handlers
import GraphqlOrmStorage.SmbSession
import GraphqlOrmStorage.SmbReconnect
import GraphqlOrmStorage.SmbIsolation
import GraphqlOrmStorage.SmbHandles
