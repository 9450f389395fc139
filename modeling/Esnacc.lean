import Esnacc.Lib.Word
import Esnacc.Lib.Memory
import Esnacc.Lib.Run
import Esnacc.Lib.StateExcept
import Esnacc.Buf.GenBuf
import Esnacc.Buf.ExpBuf
import Esnacc.Buf.ExpBufReads
import Esnacc.Buf.Flattening
import Esnacc.Buf.ExpBufWrites
import Esnacc.Buf.WriteRead
import Esnacc.Buf.Peeks
import Esnacc.Buf.ChainPeeks
import Esnacc.Buf.Bounds
import Esnacc.Ber.Decoding
import Esnacc.Ber.Tag
import Esnacc.Ber.Primitives
import Esnacc.Lib.NestedLoop
import Esnacc.Ber.Strings
import Esnacc.Ber.InOrder
import Esnacc.Ber.Accounting
import Esnacc.Ber.Headers
import Esnacc.Ber.Progress
import Esnacc.Ber.RealReads
import Esnacc.Ber.Independence
import Esnacc.Ber.BitsMemory
import Esnacc.Lib.BigEndian
import Esnacc.Lib.BerForms
import Esnacc.Ber.HeaderOctets
import Esnacc.Ber.Encoding
import Esnacc.Ber.Lengths
import Esnacc.Lib.TwosComplement
import Esnacc.Ber.Numbers
import Esnacc.Ber.ExactReals
import Esnacc.Ber.Segments
import Esnacc.Ber.StringPieces
import Esnacc.Ber.Collectors
import Esnacc.Ber.OctetPieces
import Esnacc.Ber.BitOps
import Esnacc.Ber.BitRoundTrips
import Esnacc.Ber.BitPieces
import Esnacc.Lib.Base128
import Esnacc.Ber.Oids
import Esnacc.Ber.RelativeOids
import Esnacc.Lib.TailOctets
import Esnacc.Ber.Utf8
import Esnacc.Ber.Utf8RoundTrips
import Esnacc.Mem.NibbleAlloc
import Esnacc.Lib.LinkedLists
import Esnacc.Mem.AsnList
import Esnacc.Mem.ListRuns
import Esnacc.Lib.Registry
import Esnacc.Any.Hash
import Esnacc.Any.AnyTypes
import Esnacc.Lib.Bits
import Esnacc.Cxx.SnaccException
import Esnacc.Cxx.BitBuf
import Esnacc.Cxx.BitWrites
import Esnacc.Cxx.BitReads
import Esnacc.Cxx.BitFifo
import Esnacc.Cxx.BitBounds
import Esnacc.Cxx.AsnRvsBuf
import Esnacc.Cxx.AsnBuf
import Esnacc.Cxx.BufReads
import Esnacc.Cxx.FlatBuf
import Esnacc.Lib.ListSort
import Esnacc.Cxx.SetOf
import Esnacc.Cxx.BufCompare
import Esnacc.Cxx.AsnInt
import Esnacc.Cxx.IntOctets
import Esnacc.Cxx.PerField
import Esnacc.Cxx.PerInteger
import Esnacc.Cxx.BerHeader
import Esnacc.Cxx.Contents
import Esnacc.Cxx.PerStrings
import Esnacc.Cxx.Replacing
import Esnacc.Cxx.SoundReads
import Esnacc.Cxx.HeaderReads
import Esnacc.Cxx.ContentAccounting
import Esnacc.Cxx.FillTurns
import Esnacc.Cxx.Pieces
import Esnacc.Cxx.Collecting
import Esnacc.Cxx.Overruns
import Esnacc.Cxx.CharPieces
import Esnacc.Cxx.BitContents
import Esnacc.Cxx.NamedBits
import Esnacc.Cxx.NamedBitRuns
import Esnacc.Cxx.StoredInts
import Esnacc.Cxx.RealTrips
import Esnacc.Cxx.FieldWidths
import Esnacc.Cxx.SizedStrings
import Esnacc.Cxx.PerContents
import Esnacc.Cxx.LeafChecks
import Esnacc.Cxx.Enumerated
import Esnacc.Cxx.OidViews
import Esnacc.Cxx.WideCodecs
import Esnacc.Cxx.WideTrips
import Esnacc.Cxx.CardOctets
import Esnacc.Cxx.KeptDeck
import Esnacc.Cxx.Grabbing
import Esnacc.Lib.LengthCoded
import Esnacc.Cxx.RoundTrips
import Esnacc.Cxx.PerLengths
import Esnacc.Cxx.PerParts
import Esnacc.Cxx.Fragments
import Esnacc.Cxx.PerRanges
import Esnacc.Cxx.PerUnits
import Esnacc.Cxx.PerOffsets
import Esnacc.Cxx.SizeFields
import Esnacc.Cxx.PerLists
import Esnacc.Cxx.ListSizes
import Esnacc.Cxx.Appending
import Esnacc.Cxx.PerSetOf
import Esnacc.Cxx.PerChars
import Esnacc.Cxx.Alphabets
import Esnacc.Cxx.StringRoundTrips
import Esnacc.Cxx.KeptStrings
import Esnacc.Lib.Qsort
import Esnacc.Der.ElmtBuffers
import Esnacc.Der.Canonical
import Esnacc.Der.SetOfCanonical
import Esnacc.Compiler.TagUtil
import Esnacc.Compiler.TagChains
import Esnacc.Compiler.GetTags
import Esnacc.Compiler.ErrChk
import Esnacc.Compiler.FirstTags
import Esnacc.Compiler.DistinctTags
import Esnacc.Compiler.TagConflicts
import Esnacc.Compiler.LinkRefs
import Esnacc.Compiler.ImportLists
import Esnacc.Compiler.LinkedImports
import Esnacc.Compiler.LexicalNames
import Esnacc.Compiler.NameVariations
import Esnacc.Python.Tlv
import Esnacc.Python.Integers
import Esnacc.Python.Constraints
import Esnacc.Python.AsnList
import Esnacc.Lib.Recognises
import Esnacc.Cxx.TagWords
import Esnacc.Cxx.PutBack
import Esnacc.Cxx.GenElmt
import Esnacc.Cxx.GenContents
import Esnacc.Cxx.SeqOctets
import Esnacc.Cxx.Conforming
import Esnacc.Cxx.SetOctets
import Esnacc.Cxx.GenAccepts
import Esnacc.Cxx.OrderlyReads
import Esnacc.Cxx.SeqExtended
import Esnacc.Cxx.SeqExtensions
import Esnacc.Cxx.SetExtensions
import Esnacc.Cxx.GenExtensions
import Esnacc.Tbl.Decode
import Esnacc.Tbl.SetComplete
import Esnacc.Tbl.TagForms
import Esnacc.Tbl.Traces
import Esnacc.Tbl.TagStack
import Esnacc.Tbl.FailedCalls
import Esnacc.Ber.ShortPeeks
import Esnacc.Tbl.TagReads
import Esnacc.Tbl.TagWriters
import Esnacc.Ber.SignedValues
import Esnacc.Lib.ExchangeSort
import Esnacc.Compiler.PerSort
import Esnacc.Compiler.PerOrder
import Esnacc.Cxx.GenCheck
import Esnacc.Cxx.GenPer
import Esnacc.Cxx.GenChoicePer
import Esnacc.Cxx.GenEnc
import Esnacc.Cxx.ContentTrips
import Esnacc.Cxx.GenSeqEnc
import Esnacc.Cxx.Containing
import Esnacc.Cxx.SeqFields
import Esnacc.Compiler.Subtypes
import Esnacc.Compiler.ValueRanges
import Esnacc.Compiler.PrintedAlphabets
import Esnacc.Compiler.StringConstraints
import Esnacc.Compiler.UniqueNames
import Esnacc.Compiler.FiniteValues
import Esnacc.Lib.DependencyOrder
import Esnacc.Compiler.Dependency
import Esnacc.Compiler.NamedElmtWalks
import Esnacc.Compiler.AutomaticTags
import Esnacc.Compiler.Selections
import Esnacc.Compiler.Enumerations
import Esnacc.Compiler.Parents
import Esnacc.Compiler.ValParser
import Esnacc.Compiler.OidNotation
import Esnacc.Compiler.DerOrder
