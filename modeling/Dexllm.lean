import Dexllm.Bytecode
import Dexllm.ClassOrder
import Dexllm.StaticStrings
import Dexllm.MethodLookup
import Dexllm.StaticInitLockstep
import Dexllm.TextCodec
import Dexllm.CheckModes
import Dexllm.SourceImage
import Dexllm.ArtOpen
import Dexllm.Salvage
import Dexllm.Dad.CommonDom
import Dexllm.Dad.DerivedSequence
import Dexllm.Dad.PlaceDeclarations
import Dexllm.Flow.BuildCfg
import Dexllm.Flow.BuildersAgree
import Dexllm.CallSites
import Dexllm.CallSitesSpecs
import Dexllm.Dad.DeadCode
import Dexllm.Dad.DeadCodeHandlers
import Dexllm.StringOrder
import Dexllm.Flow.TargetAlignment
import Dexllm.Dad.BlockGraph
import Dexllm.Dad.EdgeTables
import Dexllm.Dad.SimplifyEdges
import Dexllm.Dad.SimplifyFaithful
import Dexllm.Dad.ConditionTrees
import Dexllm.Dad.ShortCircuitMeaning
import Dexllm.CommentText
import Dexllm.LossyText
import Dexllm.Dad.TextCache
import Dexllm.Dad.PrimWidth
import Dexllm.Dad.NarrowOrder
import Dexllm.Dad.NarrowConsistent
import Dexllm.Dad.FloatMoveRule
import Dexllm.Dad.BoolMoves
import Dexllm.Flow.BlockEdges
import Dexllm.Flow.BlockSpans
import Dexllm.Flow.Coverage
import Dexllm.Flow.InvokeDepth
import Dexllm.Flow.PayloadTables
import Dexllm.MemberOrder
import Dexllm.ValueStrings
import Dexllm.CallSiteItemSpecs
import Dexllm.CallSiteRefusal
import Dexllm.Assignability
import Dexllm.Flow.ArrayWidth
import Dexllm.Components.RenamedApp
import Dexllm.Permissions.EntryTypes
import Dexllm.Permissions.CallersAgree
import Dexllm.Dad.MoveResults
import Dexllm.Dad.ReusedThisReads
import Dexllm.StringLiterals
import Dexllm.FieldSitesSpecs
import Dexllm.Flow.FillArray
import Dexllm.ProtoParams
import Dexllm.Recovery
import Dexllm.Dad.OperandMapping
import Dexllm.Dad.DeclarationScope
import Dexllm.Dad.IrFaithful
import Dexllm.Dad.MoveOrder
import Dexllm.Dad.SplitKeeps
import Dexllm.Dad.SplitIfNodes
import Dexllm.Dad.SplitStep
import Dexllm.InBounds
import Dexllm.Search.KeywordCaches
import Dexllm.Search.PackageTrie
import Dexllm.Search.PrefilterKeeps
import Dexllm.Search.QueryCaches
