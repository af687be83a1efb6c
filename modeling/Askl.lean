import Askl.Api.Capping
import Askl.Api.ExecutionResults
import Askl.Api.FinishedRuns
import Askl.Api.ReadTool
import Askl.Api.Rendering
import Askl.Api.ResultGraph
import Askl.Auth.Access
import Askl.Auth.Keys
import Askl.Auth.Tokens
import Askl.Index.Containment
import Askl.Index.Edges
import Askl.Index.EphContext
import Askl.Index.Filters
import Askl.Index.LineColumns
import Askl.Index.LineIndex
import Askl.Index.Partition
import Askl.Index.Projects
import Askl.Index.Queries
import Askl.Index.Rows
import Askl.Index.Selection
import Askl.Index.SqlCache
import Askl.Library.Branches
import Askl.Library.Chaotic
import Askl.Library.Components
import Askl.Library.Deliveries
import Askl.Library.DistinctOn
import Askl.Library.Entries
import Askl.Library.Exchange
import Askl.Library.Fallible
import Askl.Library.Forest
import Askl.Library.Keyed
import Askl.Library.Leftmost
import Askl.Library.LittleEndian
import Askl.Library.LruCache
import Askl.Library.Packing
import Askl.Library.Peg
import Askl.Library.Pest
import Askl.Library.PrefixCode
import Askl.Library.Reachability
import Askl.Library.Replacing
import Askl.Library.Runs
import Askl.Library.Splitting
import Askl.Library.Utf8
import Askl.Library.Walks
import Askl.Library.Wildcards
import Askl.Query.BlockKeys
import Askl.Query.ChainIdentity
import Askl.Query.CircularUse
import Askl.Query.CompositeLayer
import Askl.Query.CompoundNames
import Askl.Query.ComputeRoots
import Askl.Query.Confluence
import Askl.Query.Constraints
import Askl.Query.ContainmentEdges
import Askl.Query.Context
import Askl.Query.Dependencies
import Askl.Query.EphInvariant
import Askl.Query.Exclusion
import Askl.Query.FinalSelections
import Askl.Query.Fixpoint
import Askl.Query.ForcedChild
import Askl.Query.GlobMatching
import Askl.Query.Grammar
import Askl.Query.LabelCarriers
import Askl.Query.LabelPanics
import Askl.Query.LayerBlock
import Askl.Query.LayerSelectors
import Askl.Query.LayerTable
import Askl.Query.LexicalScope
import Askl.Query.Loc
import Askl.Query.LocCache
import Askl.Query.LocLines
import Askl.Query.Matches
import Askl.Query.NameFilters
import Askl.Query.NamePattern
import Askl.Query.Notify
import Askl.Query.ParentMerge
import Askl.Query.Parse
import Askl.Query.PartitionedLayers
import Askl.Query.QuotedText
import Askl.Query.ReferenceEdges
import Askl.Query.Search
import Askl.Query.SearchCache
import Askl.Query.SearchLayers
import Askl.Query.SearchRanges
import Askl.Query.SearchStatement
import Askl.Query.SearchTruncation
import Askl.Query.SelectedRows
import Askl.Query.SelectorSharing
import Askl.Query.SiblingOrder
import Askl.Query.Termination
import Askl.Query.Tree
import Askl.Query.VerbAccumulation
import Askl.Query.Warnings
import Askl.Query.WeakMarking
import Askl.Query.Worklist
import Askl.Store.CacheCoherence
import Askl.Store.Catalogue
import Askl.Store.Collection
import Askl.Store.CompactChains
import Askl.Store.Completeness
import Askl.Store.Constraints
import Askl.Store.ContentStore
import Askl.Store.Deletion
import Askl.Store.ExactlyOnce
import Askl.Store.Filed
import Askl.Store.FilterHash
import Askl.Store.FullPaths
import Askl.Store.Isolation
import Askl.Store.LayerCache
import Askl.Store.LayerKeys
import Askl.Store.LayerSigns
import Askl.Store.ProjectTree
import Askl.Store.ReadBack
import Askl.Store.Replay
import Askl.Store.StoredRows
import Askl.Store.SymbolIds
import Askl.Store.SymbolPaths
import Askl.Store.Tables
import Askl.Store.Topology
import Askl.Store.TreeExact
import Askl.Store.TreeListing
import Askl.Store.TreeRows
import Askl.Store.Upload
import Askl.Store.UploadClient
import Askl.Store.UploadProtocol
import Askl.Store.UploadRows
import Askl.Store.UploadService
