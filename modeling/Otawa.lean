import Otawa.Clp.Edge
import Otawa.Clp.Bounds
import Otawa.Clp.BoundedWidening
import Otawa.Clp.Soundness
import Otawa.Clp.Load
import Otawa.Cfg.Represents
import Otawa.Dcache.Range
import Otawa.Dcache.Purged
import Otawa.Dcache.Numbering
import Otawa.Proc.Processor
import Otawa.Ets.Soundness
import Otawa.Stack.StateIter
import Otawa.Ipet.ObjectFunction
import Otawa.Ipet.Unrolling
import Otawa.Cache.Misses
import Otawa.Cfg.PSTProper
import Otawa.Clp.Comparison
import Otawa.Gliss.Refinement
import Otawa.Branch.Soundness
import Otawa.Etime.Soundness
import Otawa.Cfg.Inlined
import Otawa.Hai.UnrollingListener
import Otawa.Cache.MayAges
import Otawa.Dfa.FastRange
import Otawa.Dfa.FastMap
import Otawa.Elm.BitRefine
import Otawa.Elm.TreeCopy
import Otawa.Elm.WahEquals
import Otawa.Elm.TreeIter
import Otawa.Cache.LBlockParts
import Otawa.Prog.VarTextDecoded
import Otawa.Tsim.Telescoping
import Otawa.Peg.LongestPaths
import Otawa.Ets.WCETComputation
import Otawa.Peg.SequenceResources
import Otawa.Elm.HashTableRun
import Otawa.Property.PropList
import Otawa.Elm.SimpleGCRun
import Otawa.Tsim.SequenceCounts
import Otawa.Cfg.ContextTreeLinks
import Otawa.Dfa.ValueParse
import Otawa.Dfa.GenKill
