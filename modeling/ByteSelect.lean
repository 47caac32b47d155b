import ByteSelect.ModelTruncation
import ByteSelect.RtlDecompressor
import ByteSelect.RtlCodec
import ByteSelect.RtlCompressor
import ByteSelect.RtlText
import ByteSelect.SystemVerilog
import ByteSelect.PackedBytes
import ByteSelect.ContainerExact
import ByteSelect.ByteStream
import ByteSelect.TrainerCodec
import ByteSelect.TrainerComplete
import ByteSelect.RtlWellFormed
import ByteSelect.BitStream
import ByteSelect.FpcFormat
import ByteSelect.FpcBsel.Fpc
import ByteSelect.FpcBsel.FpcExact
import ByteSelect.FpcBsel.Codec
import ByteSelect.FpcBsel.Blocks
import ByteSelect.FpcBsel.CodecExact
import ByteSelect.FpcBsel.Container
import ByteSelect.FpcBsel.ContainerExact
import ByteSelect.FpcBsel.ModelFile
import ByteSelect.Baseline.Bits
import ByteSelect.Baseline.Fpc
import ByteSelect.CachelineTrace
import ByteSelect.Evaluation
import ByteSelect.TrainerMultiset
import ByteSelect.TrainTraces
import ByteSelect.TwoRuns
import ByteSelect.Holdout
import ByteSelect.TrainerCombine
import ByteSelect.TrainerGreedy
import ByteSelect.LazyCost
import ByteSelect.LegacyContainer
import ByteSelect.Baseline.Cpack
import ByteSelect.BitPlanes
import ByteSelect.Baseline.Values
import ByteSelect.Baseline.Bpc
import ByteSelect.CanonicalCode
import ByteSelect.OptimalCode
import ByteSelect.CodeTree
import ByteSelect.Baseline.HuffmanLengths
import ByteSelect.Baseline.Huffman
import ByteSelect.BackReference
import ByteSelect.Baseline.Lz77
import ByteSelect.Baseline.Bdi
import ByteSelect.Baseline.Checked
import ByteSelect.Baseline.CheckedBpc
import ByteSelect.Baseline.CheckedHuffman
import ByteSelect.PatternText
import ByteSelect.LoadRun
import ByteSelect.CodecChecked
import ByteSelect.FpcBsel.Checked
import ByteSelect.FpcBsel.Training
import ByteSelect.Accounting
import ByteSelect.Baseline.Evaluation
import ByteSelect.Tallies
import ByteSelect.Loops
import ByteSelect.Histories
import ByteSelect.TraceTool
import ByteSelect.TrainedModel
import ByteSelect.RecordedTraces
import ByteSelect.CommandLine
import ByteSelect.Sessions
import ByteSelect.Commands
import ByteSelect.RtlCommand
import ByteSelect.FpcBsel.Commands
import ByteSelect.Meters
import ByteSelect.ReportsExact
import ByteSelect.ReportLaws
import ByteSelect.ContainerSize
