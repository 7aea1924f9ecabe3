import AnchoredFields.Field.Detached
import AnchoredFields.Field.Reading
import AnchoredFields.Layout.Collector
import AnchoredFields.Proofs.ReadBack
import AnchoredFields.Proofs.OutlineRegion
import AnchoredFields.Proofs.RefusedCalls
import AnchoredFields.Proofs.Anchorage
import AnchoredFields.Proofs.RelocatedRuns
import AnchoredFields.Proofs.RelocatedImages
import AnchoredFields.Proofs.CallKinds
import AnchoredFields.Proofs.Counters
import AnchoredFields.Proofs.EqualRegions
import AnchoredFields.Proofs.InlineOnlyCalls
import AnchoredFields.Proofs.PaddingBytes
import AnchoredFields.Proofs.PlacingReturns
import AnchoredFields.Proofs.NumberGrammar
import AnchoredFields.Proofs.NumberSizes
import AnchoredFields.Proofs.NumberDecoding
import AnchoredFields.Proofs.DetachedStreams
import AnchoredFields.Proofs.DetachedRoundTrip
import AnchoredFields.Proofs.DetachedDecoding
import AnchoredFields.Proofs.TruncatedStreams
import AnchoredFields.Proofs.StreamSizes
import AnchoredFields.Proofs.CallGroups
import AnchoredFields.Proofs.GreedyGroups
import AnchoredFields.Proofs.RegionSizes
import AnchoredFields.Proofs.OutlineImages
import AnchoredFields.Proofs.ViewedStreams
import AnchoredFields.Proofs.LazyLookup
import AnchoredFields.Proofs.CursorRuns
import AnchoredFields.Proofs.FieldCodec
import AnchoredFields.Proofs.HostileImages
import AnchoredFields.Proofs.InlineTwins
import AnchoredFields.Proofs.AddressSpace
import AnchoredFields.Proofs.ForeignHandles
import AnchoredFields.Proofs.PlannedSizes
import AnchoredFields.Proofs.ExactStatistics
import AnchoredFields.Proofs.OutlineOffsets
import AnchoredFields.Proofs.CollectedFields
import AnchoredFields.Proofs.DraftRegions
import AnchoredFields.Proofs.AddressTranslation
import AnchoredFields.Proofs.DisjointWrites
import AnchoredFields.Proofs.ReaderSteps
