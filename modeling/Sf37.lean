import Sf37.Server.ChunkIndependence
import Sf37.Server.FinalResponse
import Sf37.Server.StopStream
import Sf37.Server.DecodeRun
import Sf37.Server.BlockInTranscript
import Sf37.Server.ExactReplay
import Sf37.Server.LiveContinuation
import Sf37.Server.ImageKeys
import Sf37.Server.ArgumentsJson
import Sf37.Engine.Reuse
import Sf37.Engine.FailedLoad
import Sf37.Engine.Checkpoints
import Sf37.Engine.LastLogits
import Sf37.Engine.KeptRows
import Sf37.Engine.ForgetsHistory
import Sf37.KvStore.FailedStore
import Sf37.KvStore.Starvation
import Sf37.KvStore.Budget
import Sf37.KvStore.EvictOrder
import Sf37.KvStore.Sha1Standard
import Sf37.KvStore.LoadedText
import Sf37.Server.ToolResults
import Sf37.Server.LiveTail
import Sf37.Server.ResponsesKey
import Sf37.Server.ToolMapRoundTrip
import Sf37.Server.ToolMemoryInvariant
import Sf37.KvStore.Envelope
import Sf37.Server.ContinuedStores
import Sf37.Engine.ChunkedPrefill
import Sf37.Server.ResponsesTrace
import Sf37.Server.CallsRoundTrip
import Sf37.Image.CutWithin
import Sf37.Image.Consistency
import Sf37.Text.JsonReader
import Sf37.Text.JsonLiteral
import Sf37.Server.ResponsesOutput
import Sf37.Gguf.StaysInside
import Sf37.Tokenizer.InParts
import Sf37.Quantize.ReadBack
import Sf37.Server.HttpRequest
import Sf37.Text.JsonTokens
import Sf37.Text.Base64
import Sf37.Image.Placeholders
import Sf37.Server.SchemaOrder
import Sf37.Engine.KvRowCodec
import Sf37.Quantize.AsymError
import Sf37.Quantize.AsymReadBack
import Sf37.Engine.SampleLaw
import Sf37.Quantize.ExpertRows
import Sf37.Engine.Dataset
import Sf37.Quantize.SafetensorsPlan
import Sf37.Text.Utf8Boundary
import Sf37.Cli.TokenPrinter
import Sf37.Engine.ModelMap
import Sf37.Tokenizer.VocabTables
import Sf37.Cuda.AttentionSame
import Sf37.Radix.Overrun
import Sf37.Server.ToolMemoryTrees
import Sf37.Server.ShutdownEnds
import Sf37.Quantize.ExpertOutput
import Sf37.Quantize.NameMap
