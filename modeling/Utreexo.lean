import Utreexo.Words
import Utreexo.Positions
import Utreexo.HashAndPos
import Utreexo.Calculate
import Utreexo.Stump
import Utreexo.CollapsedTree
import Utreexo.Forest
import Utreexo.CalculateFlow
import Utreexo.RootRows
import Utreexo.HashExpr
import Utreexo.StumpAdd
import Utreexo.StumpSound
import Utreexo.Node
import Utreexo.NodePos
import Utreexo.ForestPos
import Utreexo.Lockstep
import Utreexo.ProofReads
import Utreexo.ProofCheck
import Utreexo.ManyLeaves
import Utreexo.PolNode
import Utreexo.Pollard
import Utreexo.TreePath
import Utreexo.Placed
import Utreexo.PolTree
import Utreexo.PolOps
import Utreexo.Offset
import Utreexo.PollardRep
import Utreexo.PollardPos
import Utreexo.PollardAdd
import Utreexo.PolMove
import Utreexo.PollardDel
import Utreexo.Antichain
import Utreexo.DeTwin
import Utreexo.PollardModify
import Utreexo.PollardRun
import Utreexo.PollardUndo
import Utreexo.UndoAdds
import Utreexo.UndoRoots
import Utreexo.PolMoveDown
import Utreexo.UndoTwins
import Utreexo.UndoDels
import Utreexo.UndoRun
import Utreexo.PollardProve
import Utreexo.Bytes
import Utreexo.HashBytes
import Utreexo.PollardFile
import Utreexo.NieceTree
import Utreexo.FileRecords
import Utreexo.FileRestore
import Utreexo.FileRoundTrip
import Utreexo.FileCut
import Utreexo.MapPollard
import Utreexo.VerifyAgree
import Utreexo.MapPollardIO
import Utreexo.MapPollardCut
import Utreexo.Listing
import Utreexo.NodeSweep
import Utreexo.ProofPositions
import Utreexo.SortedSlices
import Utreexo.CalculateSweep
import Utreexo.CalculateCollapse
import Utreexo.ProofOps
import Utreexo.MissingPositions
import Utreexo.ForestProof
import Utreexo.ProveComplete
import Utreexo.ProofUnion
import Utreexo.ProofSubset
import Utreexo.StrayReads
import Utreexo.ShortReads
import Utreexo.MapShortReads
import Utreexo.MoveUp
import Utreexo.PosTree
import Utreexo.MoveBack
import Utreexo.RootTest
import Utreexo.RowChange
import Utreexo.NewPositions
import Utreexo.NodePlace
import Utreexo.StumpGrow
import Utreexo.StumpReport
import Utreexo.AddReport
import Utreexo.MapModify
import Utreexo.MapRoots
import Utreexo.MapRooted
import Utreexo.Loop
import Utreexo.DeTwinHashes
import Utreexo.DeTwinCanonical
import Utreexo.SlotNeeds
import Utreexo.CachedProof
import Utreexo.DelReport
import Utreexo.CachedScan
import Utreexo.CachedRemove
import Utreexo.CachedAdd
import Utreexo.CachedUpdate
import Utreexo.CachedRun
import Utreexo.NodeView
import Utreexo.NodeMoves
import Utreexo.MapRemove
import Utreexo.MapGrow
import Utreexo.Layout
import Utreexo.PartialForest
import Utreexo.SlotLayout
import Utreexo.MapSound
import Utreexo.MapAdd
import Utreexo.MapProve
import Utreexo.MapRun
import Utreexo.Agreement
import Utreexo.MapHistory
import Utreexo.PollardPruned
import Utreexo.VerifyBinds
import Utreexo.MapVerify
