import MiriWeirdness.Theorems.BinarySearchTree
import MiriWeirdness.Lemmas.RbShape
import MiriWeirdness.Lemmas.RbRotate
import MiriWeirdness.Lemmas.RbFixup
import MiriWeirdness.Lemmas.RbRecolor
import MiriWeirdness.Lemmas.RbInsert
import MiriWeirdness.Lemmas.RbBalance
import MiriWeirdness.Lemmas.RbOrder
import MiriWeirdness.Theorems.RbTree
import MiriWeirdness.Lemmas.RbLinks
import MiriWeirdness.BBRing
import MiriWeirdness.Library.Packed
import MiriWeirdness.Lemmas.Marker
import MiriWeirdness.Lemmas.RingCounters
import MiriWeirdness.Theorems.BBRing
import MiriWeirdness.Lemmas.RingRecords
import MiriWeirdness.Lemmas.RingQueue
import MiriWeirdness.Library.Reservations
import MiriWeirdness.Pushers
import MiriWeirdness.Lemmas.Pushers
import MiriWeirdness.Lemmas.PushersRun
import MiriWeirdness.Theorems.Pushers
import MiriWeirdness.Lemmas.RbMirror
import MiriWeirdness.Theorems.RbRotations
import MiriWeirdness.ConcVec
import MiriWeirdness.Lemmas.ConcVec
import MiriWeirdness.Theorems.ConcVec
import MiriWeirdness.Lemmas.RbClimb
import MiriWeirdness.Theorems.RbFixup
import MiriWeirdness.Lemmas.RbRounds
import MiriWeirdness.Lemmas.RbRemove
import MiriWeirdness.Lemmas.RbShrink
import MiriWeirdness.Theorems.RbRemove
import MiriWeirdness.Lemmas.ConcVecIndex
import MiriWeirdness.Theorems.ConcVecIndex
import MiriWeirdness.Theorems.ConcVecSearch
import MiriWeirdness.Lemmas.LinkedList
import MiriWeirdness.Theorems.LinkedList
import MiriWeirdness.Remover
import MiriWeirdness.Lemmas.Remover
import MiriWeirdness.Theorems.Remover
import MiriWeirdness.Lemmas.Stranded
import MiriWeirdness.Theorems.Stranded
import MiriWeirdness.Lemmas.Orderly
import MiriWeirdness.Lemmas.ConcVecSteps
import MiriWeirdness.Theorems.ConcVecLoop
import MiriWeirdness.Theorems.ConcVecDrop
import MiriWeirdness.Lemmas.RbChildren
import MiriWeirdness.Theorems.RbAsBst
import MiriWeirdness.BstMemory
import MiriWeirdness.Lemmas.BstBare
import MiriWeirdness.Lemmas.BstLinked
import MiriWeirdness.Lemmas.BstInsert
import MiriWeirdness.Theorems.BstMemory
