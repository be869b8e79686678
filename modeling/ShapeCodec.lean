import ShapeCodec.Proofs.TextCoding
import ShapeCodec.Stream.Polled
import ShapeCodec.Stream.Reader
import ShapeCodec.Stream.Writer
import ShapeCodec.Proofs.IntegerCoding
import ShapeCodec.Proofs.DepthTracking
import ShapeCodec.Proofs.Entries
import ShapeCodec.Proofs.PairTables
import ShapeCodec.Proofs.KeyOrder
import ShapeCodec.Proofs.ShapeParts
import ShapeCodec.Proofs.Conformance
import ShapeCodec.Proofs.UnitCoding
import ShapeCodec.Proofs.Canonical
import ShapeCodec.Proofs.Overlay
import ShapeCodec.Proofs.Sizes
import ShapeCodec.Proofs.RoundTrip
import ShapeCodec.Proofs.Prefixes
import ShapeCodec.Proofs.Reencoding
import ShapeCodec.Proofs.BufferedReading
import ShapeCodec.Proofs.PolledDecoding
import ShapeCodec.Proofs.SizeLimit
import ShapeCodec.Proofs.Rearranging
import ShapeCodec.Proofs.Tracing
import ShapeCodec.Proofs.TypedData
import ShapeCodec.Proofs.TypedRoundTrip
import ShapeCodec.Proofs.Extension
import ShapeCodec.Proofs.StreamRoundTrip
import ShapeCodec.Proofs.Recoding
import ShapeCodec.Proofs.Blocks
import ShapeCodec.Proofs.ZstdFrames
import ShapeCodec.Proofs.CodecShapes
import ShapeCodec.Proofs.Packing
import ShapeCodec.Proofs.Changes
import ShapeCodec.Proofs.FailedUpdates
import ShapeCodec.Proofs.Merging
import ShapeCodec.Proofs.LimitedOutcomes
import ShapeCodec.Proofs.LimitedDecoding
import ShapeCodec.Proofs.LimitedEncoding
import ShapeCodec.Proofs.NestingLimit
import ShapeCodec.Proofs.Acceptance
import ShapeCodec.Proofs.ReferenceLayers
import ShapeCodec.Proofs.TracingLimit
import ShapeCodec.Proofs.TextOrder
import ShapeCodec.Proofs.RepeatedKeys
import ShapeCodec.Proofs.UnitFailures
import ShapeCodec.Proofs.Progress
import ShapeCodec.Proofs.FailurePlaces
import ShapeCodec.Proofs.PartialData
import ShapeCodec.Proofs.PartialUpdates
import ShapeCodec.Proofs.FrameLimits
import ShapeCodec.Proofs.IntegerKinds
import ShapeCodec.Proofs.DynamicValues
import ShapeCodec.Proofs.Termination
