import Mmdata.Lib.Words
import Mmdata.Lib.Machine
import Mmdata.Malloc.Bins
import Mmdata.Malloc.Mspace
import Mmdata.Lib.Bits
import Mmdata.Lib.Ring
import Mmdata.Lib.Trie
import Mmdata.Lib.TrieSearch
import Mmdata.Lib.Relocation
import Mmdata.Proofs.Heads
import Mmdata.Proofs.Arena
import Mmdata.Proofs.Forest
import Mmdata.Proofs.Binned
import Mmdata.Proofs.Carve
import Mmdata.Proofs.FreeSpec
import Mmdata.Proofs.ReallocSpec
import Mmdata.Proofs.InitSpec
import Mmdata.Malloc.Client
import Mmdata.Proofs.Blocks
import Mmdata.Proofs.HeapSound
import Mmdata.Proofs.Usage
import Mmdata.Proofs.Segment
import Mmdata.Proofs.EmptyHeap
import Mmdata.Proofs.BestFit
import Mmdata.Proofs.NoRoom
import Mmdata.Proofs.TreeRuns
import Mmdata.Proofs.AlikeHeads
import Mmdata.Proofs.AlikeBins
import Mmdata.Proofs.AlikeTrim
import Mmdata.Proofs.AlikeMalloc
import Mmdata.Proofs.AlikeFree
import Mmdata.Proofs.AlikeCalls
import Mmdata.Proofs.AlikeCreate
import Mmdata.Image.Meta
import Mmdata.Image.FileData
import Mmdata.Proofs.FileFailure
import Mmdata.Proofs.FileOwner
import Mmdata.Lib.Throwing
import Mmdata.Image.Naming
import Mmdata.Proofs.NamingAtomic
import Mmdata.Proofs.NamingRegistry
import Mmdata.Proofs.NamingInside
import Mmdata.Proofs.NamingHeap
import Mmdata.Lib.Associative
import Mmdata.Kcfg.Json
import Mmdata.Kcfg.LexicalCast
import Mmdata.Kcfg.Codec
import Mmdata.Proofs.RoundTrip
import Mmdata.Proofs.Parsing
import Mmdata.Image.Use
import Mmdata.Image.Handles
import Mmdata.Image.Builder
import Mmdata.Proofs.ImageBounds
import Mmdata.Proofs.RealHeap
import Mmdata.Proofs.Sited
import Mmdata.Proofs.ShrinkFit
import Mmdata.Proofs.Allocating
import Mmdata.Proofs.Building
import Mmdata.Proofs.HandleSpaces
import Mmdata.Proofs.Shadow
import Mmdata.Proofs.RootObject
import Mmdata.Proofs.Views
import Mmdata.Proofs.Twins
import Mmdata.Proofs.Relocating
import Mmdata.Image.Opened
import Mmdata.Proofs.Opening
import Mmdata.Proofs.Independent
import Mmdata.Lib.Alignment
import Mmdata.Malloc.Interface
import Mmdata.Proofs.Grants
import Mmdata.Lib.Renaming
import Mmdata.Malloc.Service
import Mmdata.Proofs.Contracts
import Mmdata.Proofs.Lives
import Mmdata.Proofs.Statistics
import Mmdata.Lib.Objects
import Mmdata.Proofs.Objects
import Mmdata.Proofs.Survival
import Mmdata.Lib.Lines
import Mmdata.Image.Listing
import Mmdata.Proofs.Listing
import Mmdata.Image.Registry
import Mmdata.Proofs.Registry
import Mmdata.Lib.Definite
import Mmdata.Proofs.Common
import Mmdata.Proofs.Params
import Mmdata.Proofs.Recreating
