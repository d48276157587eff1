import Packfile.Archive
import Packfile.Buffer
import Packfile.Bytes
import Packfile.Checked
import Packfile.Cipher
import Packfile.Cipher.Rc4
import Packfile.Cipher.Xor
import Packfile.Codec
import Packfile.Codec.Content
import Packfile.Codec.Feed
import Packfile.Codec.Tap
import Packfile.Command
import Packfile.Command.Comparison
import Packfile.Command.Desk
import Packfile.Command.Extraction
import Packfile.Command.Grammar
import Packfile.Command.Identification
import Packfile.Command.Repacking
import Packfile.Command.Table
import Packfile.Deflate.Bits
import Packfile.Deflate.Code
import Packfile.Deflate.Inflate
import Packfile.Deflate.Stored
import Packfile.Digest.Adler32
import Packfile.Digest.Crc32
import Packfile.Digest.Md5
import Packfile.Edit
import Packfile.Entry
import Packfile.EntryName
import Packfile.Error
import Packfile.FileTree
import Packfile.Format
import Packfile.Format.Dtre
import Packfile.Format.Lump
import Packfile.Format.Ofs
import Packfile.Format.Rpak
import Packfile.Format.Spk
import Packfile.Format.Sprb
import Packfile.Format.Tre
import Packfile.Format.Tre.Audit
import Packfile.Format.Tre.Layout
import Packfile.Format.Tre.Writer
import Packfile.Format.Xarc
import Packfile.Host
import Packfile.Inspect
import Packfile.Json
import Packfile.Listing.Hints
import Packfile.Listing.Lengths
import Packfile.Listing.Naming
import Packfile.Listing.Order
import Packfile.Listing.Update
import Packfile.Main
import Packfile.NameTable
import Packfile.Outline
import Packfile.Path
import Packfile.Registry
import Packfile.Saving
import Packfile.Score
import Packfile.Session
import Packfile.Signature
import Packfile.Stream
import Packfile.Text.Blank
import Packfile.Text.Coloured
import Packfile.Text.Hex
import Packfile.Text.Hidden
import Packfile.Text.Quoted
import Packfile.Text.Utf8
import Packfile.Walk.Count
import Packfile.Walk.Offsets
import Packfile.Walk.Records
import Packfile.Walk.Tree
import Packfile.Word
import Packfile.Zlib
import Packfile.Proofs.Integers
import Packfile.Proofs.Runs
import Packfile.Proofs.Reading
import Packfile.Proofs.Names
import Packfile.Proofs.Contents
import Packfile.Proofs.Tables
import Packfile.Proofs.Listings
import Packfile.Proofs.OfsRoundTrip
import Packfile.Proofs.XarcRoundTrip
import Packfile.Proofs.Inflation
import Packfile.Proofs.TreWriting
import Packfile.Proofs.TreReading
import Packfile.Proofs.TreRoundTrip
import Packfile.Proofs.Walks
import Packfile.Proofs.Decoders
import Packfile.Proofs.WellFormed
import Packfile.Proofs.Couplings
import Packfile.Proofs.Truncation
import Packfile.Proofs.Likeness
import Packfile.Proofs.LikeDecoders
import Packfile.Proofs.StorageFailures
import Packfile.Proofs.Ratings
import Packfile.Proofs.ConsistentTables
import Packfile.Proofs.Candidates
import Packfile.Proofs.Selection
import Packfile.Proofs.Scoring
import Packfile.Proofs.Recognition
import Packfile.Proofs.Succession
import Packfile.Proofs.Rereading
import Packfile.Proofs.BlockRoundTrip
import Packfile.Proofs.Taps
import Packfile.Proofs.Schedules
import Packfile.Proofs.SafeDecoders
import Packfile.Proofs.Fields
import Packfile.Proofs.FolderTrees
import Packfile.Proofs.DtreRoundTrip
import Packfile.Proofs.RpakRoundTrip
import Packfile.Proofs.FolderRanges
import Packfile.Proofs.SpkRoundTrip
import Packfile.Proofs.LumpDirectories
import Packfile.Proofs.GeneratedNames
import Packfile.Proofs.SettledRuns
import Packfile.Proofs.SpriteBanks
import Packfile.Proofs.ByteOrders
import Packfile.Proofs.FileChanges
import Packfile.Proofs.AtomicSaves
import Packfile.Proofs.Replacements
import Packfile.Proofs.Desks
import Packfile.Proofs.Rewriting
import Packfile.Proofs.Repacking
import Packfile.Proofs.EntryLimits
import Packfile.Proofs.UnfoldedTrees
import Packfile.Proofs.Paths
import Packfile.Proofs.Extraction
import Packfile.Proofs.HiddenParts
import Packfile.Proofs.OtherFiles
import Packfile.Proofs.ExtractedFolders
import Packfile.Proofs.CountedWalks
import Packfile.Proofs.AddressableNames
import Packfile.Proofs.VerbatimCopies
import Packfile.Proofs.Bounds
import Packfile.Proofs.Confinement
import Packfile.Proofs.SharedNames
import Packfile.Proofs.LostFiles
import Packfile.Proofs.Outlines
import Packfile.Proofs.Differences
import Packfile.Proofs.SortedListings
import Packfile.Proofs.NameTables
import Packfile.Proofs.Extensions
import Packfile.Proofs.FieldLists
import Packfile.Proofs.CheckedSteps
import Packfile.Proofs.OffsetTables
import Packfile.Proofs.NameBlobs
