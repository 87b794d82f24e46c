import BinaryLab.Runs
import BinaryLab.Words
import BinaryLab.Pages
import BinaryLab.BreadthFirst
import BinaryLab.Rings
import BinaryLab.Numerals
import BinaryLab.BoundedText
import BinaryLab.LinkMap
import BinaryLab.Printf
import BinaryLab.Rendering
import BinaryLab.PrintfSafety
import BinaryLab.Modifiers
import BinaryLab.Conversions
import BinaryLab.Truncation
import BinaryLab.Banners
import BinaryLab.Lookup
import BinaryLab.Dynamic
import BinaryLab.Segments
import BinaryLab.MemoryImage
import BinaryLab.SharedMapping
import BinaryLab.Deps
import BinaryLab.DepsClosure
import BinaryLab.Reloc
import BinaryLab.RelocRun
import BinaryLab.Globals
import BinaryLab.LazyBinding
import BinaryLab.Startup
import BinaryLab.DynamicChecks
import BinaryLab.Strdup
import BinaryLab.ProgramHeaders
import BinaryLab.CopyReloc
import BinaryLab.LookupSafety
import BinaryLab.LoadingRuns
import BinaryLab.SearchPaths
import BinaryLab.RelocOnce
import BinaryLab.RpathTable
import BinaryLab.SearchList
import BinaryLab.MappingFailures
import BinaryLab.Holes
import BinaryLab.Copies
import BinaryLab.PhdrFetch
import BinaryLab.DynamicIndex
import BinaryLab.ParseTwice
import BinaryLab.OpenPath
import BinaryLab.BootParams
import BinaryLab.BootChecks
import BinaryLab.Analyze
import BinaryLab.Owners
import BinaryLab.SectionLists
import BinaryLab.Crack
import BinaryLab.CrackEdits
import BinaryLab.CrackCopies
import BinaryLab.OutputLength
import BinaryLab.NewSegment
import BinaryLab.CrackedFile
import BinaryLab.KeptProgram
import BinaryLab.Stub
import BinaryLab.HeapBytes
import BinaryLab.MallocRuns
import BinaryLab.StringCopies
import BinaryLab.CrackCode
import BinaryLab.CrackedAgain
import BinaryLab.RunList
import BinaryLab.Malloc
