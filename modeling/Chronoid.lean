import Chronoid.Avx2Lanes
import Chronoid.Base62Decode
import Chronoid.Base62Encode
import Chronoid.Base62Loops
import Chronoid.Base62Translate
import Chronoid.BatchDispatch
import Chronoid.Bytes
import Chronoid.ChaCha20
import Chronoid.ChaCha20Rfc
import Chronoid.DeriveMagic
import Chronoid.ForkedIds
import Chronoid.ForkedSequences
import Chronoid.GenBinary
import Chronoid.GenCount
import Chronoid.GenGenerate
import Chronoid.GenKeystream
import Chronoid.GenListing
import Chronoid.GenMain
import Chronoid.GenOptions
import Chronoid.GenParse
import Chronoid.GenPrint
import Chronoid.Generators
import Chronoid.HexAvx2
import Chronoid.HexDecode
import Chronoid.HexEncode
import Chronoid.Ksuid
import Chronoid.KsuidBatch
import Chronoid.KsuidBatchKernels
import Chronoid.KsuidCompare
import Chronoid.KsuidNew
import Chronoid.KsuidParts
import Chronoid.KsuidSequence
import Chronoid.KsuidText
import Chronoid.Library.BlockStream
import Chronoid.Library.Coherent
import Chronoid.Library.EmitLoop
import Chronoid.Library.Machine
import Chronoid.Library.Positional
import Chronoid.Library.Reciprocal
import Chronoid.Library.Records
import Chronoid.Library.Store
import Chronoid.Library.Tape
import Chronoid.Library.WhileLoop
import Chronoid.Library.WordScan
import Chronoid.LongDivision
import Chronoid.RandBudget
import Chronoid.RandClock
import Chronoid.RandFork
import Chronoid.RandOs
import Chronoid.RandOsComplete
import Chronoid.RandOsFill
import Chronoid.RandOsReturns
import Chronoid.RandResidue
import Chronoid.RandRuns
import Chronoid.RandSeedLog
import Chronoid.RandStream
import Chronoid.RandThreadExit
import Chronoid.RandThreads
import Chronoid.RandTls
import Chronoid.RandWindow
import Chronoid.Sentinels
import Chronoid.SequenceBatch
import Chronoid.SetRand
import Chronoid.Simd128
import Chronoid.TextOrder
import Chronoid.Uuidv7
import Chronoid.Uuidv7Batch
import Chronoid.Uuidv7Parts
import Chronoid.Uuidv7Sequence
import Chronoid.Uuidv7SequenceBounds
import Chronoid.Uuidv7SequenceClock
import Chronoid.Uuidv7SequenceRuns
import Chronoid.Uuidv7Text
import Chronoid.Uuidv7Trace
import Chronoid.WallClock
