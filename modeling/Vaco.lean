import Vaco.Library.FixedWidth
import Vaco.Core.Rational
import Vaco.Library.BestApproximation
import Vaco.Core.RationalReduce
import Vaco.Core.Time
import Vaco.Core.Packet
import Vaco.Format.Options
import Vaco.Format.WrapState
import Vaco.Format.TimestampFixer
import Vaco.Format.TimestampRepair
import Vaco.Format.MuxTimestamps
import Vaco.Format.TimestampChain
import Vaco.Format.InterleaveQueue
import Vaco.Format.InterleaveRun
import Vaco.Format.CrossBaseOrder
import Vaco.Format.MuxDeterminism
import Vaco.Bitstream.BitReader
import Vaco.Bitstream.ReaderRefinement
import Vaco.Bitstream.BitWriter
import Vaco.Bitstream.Golomb
import Vaco.Bitstream.BitProgram
import Vaco.Bitstream.Escaping
import Vaco.Bitstream.AnnexB
import Vaco.Core.RationalArith
import Vaco.Filter.FrameSync
import Vaco.Filter.FrameSyncEvents
import Vaco.Sched.Wire
import Vaco.Sched.Node
import Vaco.Sched.Pipeline
import Vaco.Sched.Spec
import Vaco.Sched.Driver
import Vaco.Sched.Moves
import Vaco.Sched.Accounting
import Vaco.Sched.PassThrough
import Vaco.Sched.Cancellation
import Vaco.Sched.Progress
import Vaco.Codec.Vlc
import Vaco.Codec.ExpGolomb
import Vaco.Codec.CabacRoundTrip
import Vaco.Codec.BoolRoundTrip
import Vaco.Codec.SymbolDecoder
import Vaco.Codec.Validated
import Vaco.Codec.Gapless
import Vaco.Codec.FrameRunner
import Vaco.Isom.SampleAccess
import Vaco.Isom.SampleCursor
import Vaco.Isom.Writer
import Vaco.Core.IoWriter
import Vaco.Mp4.Faststart
import Vaco.Library.Lacing
import Vaco.MpegTs.ProgramClock
import Vaco.Srt.Message
import Vaco.Srt.ReceiveWindow
import Vaco.Srt.Link
import Vaco.Rist.BufferRuns
import Vaco.MpegTs.Packetisation
import Vaco.MpegTs.EsRuns
import Vaco.MpegTs.TsRuns
import Vaco.Io.ChecksumRuns
import Vaco.Ogg.LossRuns
import Vaco.Rtmp.Interleaving
import Vaco.Sctp.Exchange
import Vaco.H264.PicOrderClause
import Vaco.Qoi.RoundTrip
import Vaco.Ffv1.RangeSequences
import Vaco.Ffv1.EntropyRuns
import Vaco.Core.WideQuotient
import Vaco.Core.Duration
import Vaco.Bitstream.GolombReads
import Vaco.Format.FirstShift
import Vaco.Format.ReorderArray
import Vaco.Format.InterleavePolicies
import Vaco.Sched.CodecAdapter
import Vaco.Alac.RoundTrip
import Vaco.H264.ChunkedRuns
import Vaco.Core.EscapeNesting
import Vaco.Core.DurationText
import Vaco.Codec.PrefixTables
import Vaco.Format.MuxRefusals
import Vaco.Codec.CabacSuffix
import Vaco.Codec.OnePeek
import Vaco.Codec.BoolLockstep
import Vaco.Isom.DecodeTimes
import Vaco.Ogg.GranuleRuns
import Vaco.Format.PacketIndex
import Vaco.Format.Bisection
import Vaco.Webp.HuffmanTable
import Vaco.Webp.HuffmanTrie
import Vaco.Webp.CompleteCodes
import Vaco.Ebml.Vint
import Vaco.Nut.Vlc
import Vaco.MuxStream.SegmentPlanner
import Vaco.MuxStream.Ffmetadata
import Vaco.Hevc.Dpb
import Vaco.Hevc.DpbRuns
import Vaco.Matroska.Block
import Vaco.Ebml.Elements
import Vaco.Bitstream.ChunkedScan
import Vaco.Nalu.ConfigRecord
import Vaco.Nalu.Convert
import Vaco.Matroska.Cues
